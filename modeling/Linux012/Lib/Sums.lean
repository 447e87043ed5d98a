import Mathlib.Algebra.BigOperators.Fin
import Mathlib.Algebra.Order.BigOperators.Group.Finset

/-! # Sums over the entries of a table

What one store into a table does to a sum over its entries.
-/

namespace Sums

open Function

variable {ι β : Type*} [DecidableEq ι] {s : Finset ι} {i j : ι}

/-- A store exchanges the contribution of the old entry for that of the new one. -/
theorem sum_update_add (hi : i ∈ s) (f : ι → β) (v : β) (g : β → ℕ) :
    ∑ k ∈ s, g (update f i v k) + g (f i) = ∑ k ∈ s, g (f k) + g v := by
  rw [← Finset.add_sum_erase _ _ hi, ← Finset.add_sum_erase _ (fun k => g (f k)) hi]
  have hrest : ∑ k ∈ s.erase i, g (update f i v k) = ∑ k ∈ s.erase i, g (f k) :=
    Finset.sum_congr rfl fun k hk => by rw [update_of_ne (Finset.ne_of_mem_erase hk)]
  simp only [update_self, hrest]
  omega

omit [DecidableEq ι] in
theorem single_le (hi : i ∈ s) (g : ι → ℕ) : g i ≤ ∑ k ∈ s, g k :=
  Finset.single_le_sum (fun _ _ => Nat.zero_le _) hi

theorem add_le (hi : i ∈ s) (hj : j ∈ s) (hij : i ≠ j) (g : ι → ℕ) :
    g i + g j ≤ ∑ k ∈ s, g k := by
  rw [← Finset.add_sum_erase _ _ hi]
  exact Nat.add_le_add_left (single_le (Finset.mem_erase.mpr ⟨hij.symm, hj⟩) g) _

end Sums
