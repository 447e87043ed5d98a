import Mathlib.Data.Finset.Card
import Mathlib.Logic.Function.Iterate

/-! # Searches along an orbit

A search goes from one value to the next until one is not taken. It ends as soon as the orbit
is longer than the set of values that are taken.
-/

namespace Orbits

variable {α : Type*} {next : α → α} {taken : α → Bool} {n m : ℕ} {v w : α}

/-- The first value after `v` that is not taken, among at most `n`. -/
def seek (next : α → α) (taken : α → Bool) : ℕ → α → Option α
  | 0, _ => none
  | n + 1, v => if taken (next v) then seek next taken n (next v) else some (next v)

theorem seek_spec (h : seek next taken n v = some w) :
    taken w = false ∧ ∃ k, w = next^[k + 1] v := by
  induction n generalizing v with
  | zero => cases h
  | succ n ih =>
    unfold seek at h
    split at h
    · obtain ⟨hw, k, rfl⟩ := ih h
      exact ⟨hw, k + 1, rfl⟩
    · rename_i ht
      obtain rfl := Option.some.inj h
      exact ⟨Bool.eq_false_of_not_eq_true ht, 0, rfl⟩

theorem seek_none (h : seek next taken n v = none) : ∀ k < n, taken (next^[k + 1] v) = true := by
  induction n generalizing v with
  | zero => exact fun k hk => absurd hk (Nat.not_lt_zero k)
  | succ n ih =>
    unfold seek at h
    split at h
    · rename_i ht
      intro k hk
      cases k with
      | zero => exact ht
      | succ k => exact ih h k (by omega)
    · cases h

theorem seek_mono (h : seek next taken n v = some w) (hle : n ≤ m) :
    seek next taken m v = some w := by
  induction n generalizing v m with
  | zero => cases h
  | succ n ih =>
    obtain ⟨m, rfl⟩ : ∃ m', m = m' + 1 := ⟨m - 1, by omega⟩
    unfold seek at h ⊢
    split at h
    · rename_i ht
      rw [if_pos ht]
      exact ih h (by omega)
    · rename_i ht
      rw [if_neg ht]
      exact h

/-- More distinct values than can be taken: one of them is free. -/
theorem seek_isSome {s : Finset α} (hs : ∀ a, taken a = true → a ∈ s)
    (hinj : Set.InjOn (fun k => next^[k + 1] v) (Finset.range n)) (hn : s.card < n) :
    (seek next taken n v).isSome := by
  by_contra hnone
  have hall := seek_none (Option.not_isSome_iff_eq_none.mp hnone)
  have hle : (Finset.range n).card ≤ s.card := by
    apply Finset.card_le_card_of_injOn (fun k => next^[k + 1] v) _ hinj
    intro k hk
    exact hs _ (hall k (Finset.mem_range.mp hk))
  rw [Finset.card_range] at hle
  omega

end Orbits
