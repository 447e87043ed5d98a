import Mathlib.Algebra.Order.Group.Multiset
import Mathlib.Data.List.Find
import Mathlib.Data.Multiset.Filter
import Mathlib.Data.Multiset.Range
import Mathlib.Logic.Function.Basic

/-! # Tables of slots

A table is a row of slots, each free or with a key and a value. A search takes the first slot with its key. As
a collection of pairs the table changes by the slots that are filled and cleared.
-/

namespace SlotTable

open Function

variable {κ ν : Type*} {f g : ℕ → Option (κ × ν)} {n i : ℕ} {k : κ} {v : ν} {p : κ × ν}

/-- The pairs in the first `n` slots. -/
def pairs (f : ℕ → Option (κ × ν)) (n : ℕ) : Multiset (κ × ν) := (Multiset.range n).filterMap f

theorem mem_pairs : p ∈ pairs f n ↔ ∃ i < n, f i = some p := by
  unfold pairs
  rw [Multiset.mem_filterMap]
  simp only [Multiset.mem_range]

theorem pairs_congr (h : ∀ i < n, f i = g i) : pairs f n = pairs g n := by
  unfold pairs Multiset.range
  rw [Multiset.filterMap_coe, Multiset.filterMap_coe]
  congr 1
  apply List.filterMap_congr
  intro i hi
  exact h i (List.mem_range.mp hi)

/-- A slot that is taken out of the row. -/
theorem pairs_eq_erase (hi : i < n) : pairs f n = (f i).elim 0 ({·}) + ((Multiset.range n).erase i).filterMap f := by
  unfold pairs
  conv_lhs => rw [← Multiset.cons_erase (Multiset.mem_range.mpr hi)]
  cases h : f i with
  | none => rw [Multiset.filterMap_cons_none _ _ h, Option.elim_none, zero_add]
  | some p => rw [Multiset.filterMap_cons_some _ _ _ h, Option.elim_some, Multiset.singleton_add]

theorem pairs_update (hi : i < n) (o : Option (κ × ν)) :
    pairs (update f i o) n + (f i).elim 0 ({·}) = pairs f n + o.elim 0 ({·}) := by
  have hrest : ((Multiset.range n).erase i).filterMap (update f i o) = ((Multiset.range n).erase i).filterMap f := by
    have hne {j : ℕ} (hj : j ∈ (Multiset.range n).erase i) : j ≠ i :=
      ((Multiset.nodup_range n).mem_erase_iff.mp hj).1
    revert hne
    generalize (Multiset.range n).erase i = s
    refine Quotient.inductionOn s fun l hne => ?_
    change Multiset.filterMap _ (l : Multiset ℕ) = Multiset.filterMap _ (l : Multiset ℕ)
    rw [Multiset.filterMap_coe, Multiset.filterMap_coe]
    congr 1
    apply List.filterMap_congr
    intro j hj
    exact update_of_ne (hne hj) ..
  rw [pairs_eq_erase hi, pairs_eq_erase (f := f) hi, hrest, update_self]
  rw [add_comm, add_comm (o.elim _ _), ← add_assoc]

/-- A free slot is filled. -/
theorem pairs_fill (hi : i < n) (h : f i = none) : pairs (update f i (some p)) n = p ::ₘ pairs f n := by
  have hsum := pairs_update (f := f) hi (some p)
  rw [h, Option.elim_none, add_zero, Option.elim_some] at hsum
  rw [hsum, add_comm, Multiset.singleton_add]

/-- A slot is cleared. -/
theorem pairs_clear (hi : i < n) (h : f i = some p) : p ::ₘ pairs (update f i none) n = pairs f n := by
  have hsum := pairs_update (f := f) hi none
  rw [h, Option.elim_none, add_zero, Option.elim_some] at hsum
  rw [← hsum, add_comm, Multiset.singleton_add]

/-- A slot is added at the end. -/
theorem pairs_push : pairs (update f n (some p)) (n + 1) = p ::ₘ pairs f n := by
  have hlow : pairs (update f n (some p)) n = pairs f n :=
    pairs_congr fun i hi => update_of_ne hi.ne ..
  rw [← hlow]
  unfold pairs
  rw [Multiset.range_succ, Multiset.filterMap_cons_some _ _ _ (update_self n _ f)]

section Search

variable [DecidableEq κ]

/-- The first slot with the key. -/
def search (f : ℕ → Option (κ × ν)) (n : ℕ) (k : κ) : Option ℕ :=
  (List.range n).find? fun i => (f i).any fun p => p.1 = k

theorem any_eq_true : ((f i).any fun p => decide (p.1 = k)) = true ↔ ∃ v, f i = some (k, v) := by
  rw [Option.any_eq_true]
  constructor
  · rintro ⟨⟨k', v⟩, hp, hk⟩
    obtain rfl := of_decide_eq_true hk
    exact ⟨v, hp⟩
  · rintro ⟨v, hv⟩
    exact ⟨(k, v), hv, decide_eq_true rfl⟩

theorem search_eq_none : search f n k = none ↔ ∀ v, (k, v) ∉ pairs f n := by
  unfold search
  rw [List.find?_eq_none]
  simp only [List.mem_range, any_eq_true, mem_pairs]
  constructor
  · rintro h v ⟨i, hi, hv⟩
    exact h i hi ⟨v, hv⟩
  · rintro h i hi ⟨v, hv⟩
    exact h v ⟨i, hi, hv⟩

theorem search_eq_some (h : search f n k = some i) : i < n ∧ ∃ v, f i = some (k, v) := by
  obtain ⟨hv, hi, -⟩ := List.find?_range_eq_some.mp h
  exact ⟨List.mem_range.mp hi, any_eq_true.mp hv⟩

/-- The first slot with the key, from what is known of the slots before. -/
theorem search_of_first (hi : i < n) (h : f i = some (k, v)) (hbefore : ∀ j < i, ∀ v, f j ≠ some (k, v)) :
    search f n k = some i := by
  unfold search
  rw [List.find?_range_eq_some]
  refine ⟨any_eq_true.mpr ⟨v, h⟩, List.mem_range.mpr hi, fun j hj => ?_⟩
  rw [Bool.not_eq_true', ← Bool.not_eq_true, any_eq_true]
  rintro ⟨v, hv⟩
  exact hbefore j hj v hv

/-- The search for a key does not see a slot that has another key, or none, before and after. -/
theorem search_update {o : Option (κ × ν)} (hold : ∀ v, f i ≠ some (k, v)) (hnew : ∀ v, o ≠ some (k, v)) :
    search (update f i o) n k = search f n k := by
  unfold search
  congr 1
  funext j
  by_cases hj : j = i
  · subst hj
    rw [update_self, Bool.eq_iff_iff]
    constructor
    · intro h
      obtain ⟨v, hv⟩ := any_eq_true (f := fun _ => o) (i := j).mp h
      exact absurd hv (hnew v)
    · intro h
      obtain ⟨v, hv⟩ := any_eq_true.mp h
      exact absurd hv (hold v)
  · rw [update_of_ne hj]

theorem search_push (hnew : ∀ v, p ≠ (k, v)) : search (update f n (some p)) (n + 1) k = search f n k := by
  have hlow : search (update f n (some p)) n k = search f n k := by
    unfold search
    refine List.find?_congr fun i hi => ?_
    rw [update_of_ne (List.mem_range.mp hi).ne]
  rw [← hlow]
  unfold search
  rw [List.range_succ, List.find?_append, List.find?_singleton, update_self, if_neg, Option.or_none]
  rw [Option.any_some, decide_eq_true_iff]
  rintro rfl
  exact hnew p.2 rfl

end Search

end SlotTable
