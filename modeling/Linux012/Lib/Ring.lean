import Mathlib.Data.List.Range
import Mathlib.Tactic

/-! # Ring buffers

The cells of a buffer of `N` bytes are read from any position on, wrapping around at
the end.
-/

namespace Ring

open Function

variable {α : Type*} {page : ℕ → α} {N start start' k n : ℕ}

/-- The `n` cells from `start` on. -/
def slice (page : ℕ → α) (N start n : ℕ) : List α :=
  (List.range n).map fun k => page ((start + k) % N)

@[simp] theorem slice_zero : slice page N start 0 = [] := rfl

@[simp] theorem length_slice : (slice page N start n).length = n := by simp [slice]

theorem slice_succ : slice page N start (n + 1) = page (start % N) :: slice page N (start + 1) n := by
  simp only [slice, List.range_succ_eq_map, List.map_cons, List.map_map, Nat.add_zero,
    List.cons.injEq, true_and]
  refine List.map_congr_left fun k _ => ?_
  simp only [comp_apply]
  congr 2
  omega

theorem slice_succ_last :
    slice page N start (n + 1) = slice page N start n ++ [page ((start + n) % N)] := by
  simp [slice, List.range_succ]

theorem slice_congr (h : start % N = start' % N) : slice page N start n = slice page N start' n :=
  List.map_congr_left fun k _ => by rw [Nat.add_mod, h, ← Nat.add_mod]

/-- Positions less than a round apart lie in different cells. -/
theorem cell_ne (hk : k < n) (hn : n < N) : (start + k) % N ≠ (start + n) % N := by
  intro h
  have hmod : start + k ≡ start + n [MOD N] := h
  have hkn : k ≡ n [MOD N] := Nat.ModEq.add_left_cancel' start hmod
  rw [Nat.ModEq, Nat.mod_eq_of_lt (hk.trans hn), Nat.mod_eq_of_lt hn] at hkn
  omega

/-- A store behind the last cell is not seen. -/
theorem slice_update (hn : n < N) (v : α) :
    slice (update page ((start + n) % N) v) N start n = slice page N start n := by
  refine List.map_congr_left fun k hk => ?_
  exact update_of_ne (cell_ne (List.mem_range.mp hk) hn) ..

end Ring
