import Linux012.Lib.Paths
import Mathlib.Data.Fintype.Card

/-! # Stacks threaded through their members

Each member of a stack knows what it found on the stack when it went on top. The head of the stack
is kept apart from the members.
-/

namespace Links

open Function

variable {α : Type*} [DecidableEq α] {link link' : α → Option (Option α)} {head head' : Option α}
  {l l' : List α} {t : α} {x : Option (Option α)}

/-- `link t` is what `t` found on the stack, or `none` when it is not on the stack. -/
structure Stack (link : α → Option (Option α)) (head : Option α) (l : List α) : Prop where
  path : Path (fun t => (link t).join) head l
  nodup : l.Nodup
  mem : ∀ t, t ∈ l ↔ (link t).isSome = true

namespace Stack

omit [DecidableEq α] in
theorem empty : Stack (fun _ : α => none) none [] :=
  ⟨rfl, List.nodup_nil, fun t => by simp⟩

omit [DecidableEq α] in
/-- The head is not null while something is on the stack. -/
theorem exists_head (h : Stack link head l) (ht : (link t).isSome = true) :
    ∃ u l', head = some u ∧ l = u :: l' := by
  have hm := (h.mem t).mpr ht
  cases l with
  | nil => cases hm
  | cons u l' => exact ⟨u, l', h.path.1, rfl⟩

theorem push (h : Stack link head l) (ht : link t = none) :
    Stack (update link t (some head)) (some t) (t :: l) := by
  have htl : t ∉ l := fun hm => by simpa [ht] using (h.mem t).mp hm
  constructor
  · refine ⟨rfl, ?_⟩
    simp only [update_self, Option.join_some]
    refine h.path.congr fun u hu => ?_
    rw [update_of_ne (ne_of_mem_of_not_mem hu htl)]
  · exact List.nodup_cons.mpr ⟨htl, h.nodup⟩
  · intro u
    rcases eq_or_ne u t with rfl | hut
    · simp
    · simpa [hut] using h.mem u

theorem pop (h : Stack link (some t) l) :
    ∃ l', l = t :: l' ∧ Stack (update link t none) (link t).join l' := by
  cases l with
  | nil => exact absurd h.path (by simp)
  | cons u l' =>
    obtain ⟨hu, hp⟩ := h.path
    obtain rfl := Option.some.inj hu
    obtain ⟨ht, hn⟩ := List.nodup_cons.mp h.nodup
    refine ⟨l', rfl, ?_, hn, fun u => ?_⟩
    · refine hp.congr fun u hu => ?_
      rw [update_of_ne (ne_of_mem_of_not_mem hu ht)]
    · rcases eq_or_ne u t with rfl | hut
      · simp [ht]
      · simpa [hut] using h.mem u

omit [DecidableEq α] in
theorem walk_eq [Fintype α] (h : Stack link head l) :
    walk (fun t => (link t).join) (Fintype.card α) head = l :=
  h.path.walk_eq h.nodup.length_le_card

end Stack

/-- What `t` does: nothing, it goes on top, or it leaves from the top. -/
inductive Shift (t : α) :
    Option α → Option (Option α) → Option (Option α) → Option α → Prop
  | stay {head : Option α} {x : Option (Option α)} : Shift t head x x head
  | push {head : Option α} : Shift t head none (some head) (some t)
  | pop {old : Option α} : Shift t (some t) (some old) none old

omit [DecidableEq α] in
theorem Shift.head_eq {y : Option (Option α)} (h : Shift t head x y head') (hxy : x = y) :
    head' = head := by
  cases h with
  | stay => rfl
  | push => cases hxy
  | pop => cases hxy

theorem Stack.shift (h : Stack link head l) (hs : Shift t head (link t) x head') :
    ∃ l', Stack (update link t x) head' l' ∧ (l' = l ∨ l' = t :: l ∨ l = t :: l') := by
  generalize hy : link t = y at hs
  cases hs with
  | stay =>
    rw [← hy, update_eq_self]
    exact ⟨l, h, .inl rfl⟩
  | push => exact ⟨t :: l, h.push hy, .inr (.inl rfl)⟩
  | pop =>
    obtain ⟨l', rfl, hl'⟩ := h.pop
    rw [hy] at hl'
    exact ⟨l', hl', .inr (.inr rfl)⟩

end Links
