import Mathlib.Data.List.GetD
import Mathlib.Data.List.Range
import Mathlib.Logic.Function.Basic
import Mathlib.Tactic

/-! # Lists laid over cells

A list is written over an unbounded array of cells, and read back from it. Where the cells
come in blocks of one size, a piece that stays in one block is a piece of the block.
-/

namespace Splice

open Function

variable {α : Type*} {f g : ℕ → α} {pos p n m N : ℕ} {l l₁ l₂ : List α}

/-- The cells after the list `l` has been written at `pos`. -/
def splice (f : ℕ → α) (pos : ℕ) (l : List α) (p : ℕ) : α :=
  if pos ≤ p then l.getD (p - pos) (f p) else f p

theorem splice_of_lt (h : p < pos) : splice f pos l p = f p := if_neg (by omega)

theorem splice_of_ge (h : pos + l.length ≤ p) : splice f pos l p = f p := by
  rw [splice, if_pos (by omega), List.getD_eq_default _ _ (by omega)]

theorem splice_add {i : ℕ} (h : i < l.length) : splice f pos l (pos + i) = l[i] := by
  rw [splice, if_pos (by omega), Nat.add_sub_cancel_left, List.getD_eq_getElem _ _ h]

@[simp] theorem splice_nil : splice f pos [] = f := by
  funext p
  simp [splice]

theorem splice_append : splice (splice f pos l₁) (pos + l₁.length) l₂ = splice f pos (l₁ ++ l₂) := by
  funext p
  rcases Nat.lt_or_ge p (pos + l₁.length) with h | h
  · rw [splice_of_lt h]
    rcases Nat.lt_or_ge p pos with hp | hp
    · rw [splice_of_lt hp, splice_of_lt hp]
    · obtain ⟨i, rfl⟩ := Nat.exists_eq_add_of_le hp
      rw [splice_add (by omega), splice_add (by rw [List.length_append]; omega),
        List.getElem_append_left (by omega)]
  · obtain ⟨i, rfl⟩ := Nat.exists_eq_add_of_le h
    rcases Nat.lt_or_ge i l₂.length with hi | hi
    · rw [splice_add hi, Nat.add_assoc, splice_add (by rw [List.length_append]; omega),
        List.getElem_append_right (by omega)]
      simp
    · rw [splice_of_ge (by omega), splice_of_ge (by omega),
        splice_of_ge (by rw [List.length_append]; omega)]

/-- The `n` cells from `pos` on. -/
def slice (f : ℕ → α) (pos n : ℕ) : List α := (List.range n).map fun i => f (pos + i)

@[simp] theorem length_slice : (slice f pos n).length = n := by simp [slice]

@[simp] theorem slice_zero : slice f pos 0 = [] := rfl

theorem slice_add : slice f pos (n + m) = slice f pos n ++ slice f (pos + n) m := by
  simp [slice, List.range_add, Nat.add_assoc]

theorem slice_congr (h : ∀ i < n, f (pos + i) = g (pos + i)) : slice f pos n = slice g pos n :=
  List.map_congr_left fun i hi => h i (List.mem_range.mp hi)

theorem slice_splice : slice (splice f pos l) pos l.length = l := by
  refine List.ext_getElem (by simp) fun i hi hi' => ?_
  simp only [slice, List.getElem_map, List.getElem_range]
  exact splice_add hi'

/-! ## Blocks of `N` cells -/

/-- The cells of a sequence of blocks. -/
def flat (N : ℕ) (B : ℕ → ℕ → α) (p : ℕ) : α := B (p / N) (p % N)

theorem div_of_chunk (hN : pos % N + n ≤ N) {i : ℕ} (hi : i < n) :
    (pos + i) / N = pos / N ∧ (pos + i) % N = pos % N + i := by
  have hpos : 0 < N := by omega
  have h : pos + i = N * (pos / N) + (pos % N + i) := by
    have := Nat.div_add_mod pos N
    omega
  constructor
  · rw [h, Nat.mul_add_div hpos, Nat.div_eq_of_lt (show pos % N + i < N by omega), Nat.add_zero]
  · rw [h, Nat.mul_add_mod, Nat.mod_eq_of_lt (show pos % N + i < N by omega)]

/-- A piece that ends in the block it starts in is read from this block. -/
theorem slice_flat {B : ℕ → ℕ → α} (hN : pos % N + n ≤ N) :
    slice (flat N B) pos n = slice (B (pos / N)) (pos % N) n := by
  refine List.map_congr_left fun i hi => ?_
  obtain ⟨hd, hm⟩ := div_of_chunk hN (List.mem_range.mp hi)
  simp only [flat, hd, hm]

/-- A piece that ends in the block it starts in is written over this block. -/
theorem flat_update {B : ℕ → ℕ → α} (hN : pos % N + l.length ≤ N) :
    flat N (update B (pos / N) (splice (B (pos / N)) (pos % N) l)) = splice (flat N B) pos l := by
  funext p
  by_cases hin : pos ≤ p ∧ p < pos + l.length
  · obtain ⟨i, rfl⟩ := Nat.exists_eq_add_of_le hin.1
    have hi : i < l.length := by omega
    obtain ⟨hd, hm⟩ := div_of_chunk hN hi
    rw [splice_add hi, flat, hd, hm, update_self, splice_add hi]
  · have hout : splice (flat N B) pos l p = flat N B p := by
      rcases Nat.lt_or_ge p pos with h | h
      · exact splice_of_lt h
      · exact splice_of_ge (by omega)
    rw [hout, flat, flat]
    by_cases hb : p / N = pos / N
    · rw [hb, update_self]
      have h₁ := Nat.div_add_mod p N
      have h₂ := Nat.div_add_mod pos N
      rw [hb] at h₁
      rcases Nat.lt_or_ge p pos with h | h
      · exact splice_of_lt (by omega)
      · exact splice_of_ge (by omega)
    · rw [update_of_ne hb]

end Splice
