import Mathlib.Algebra.Order.BigOperators.Group.Finset
import Linux012.Kernel.Fork.Concurrent
import Linux012.Lib.Orbits
import Linux012.Lib.Index

/-! # The search for an empty process

`find_empty_process` on any table, with numbers as the 32 bits of a `long`. The candidates for
`last_pid` go round through all positive numbers, and 64 tasks use at most 128 of them.
-/

namespace Linux012.Forks

open Function Orbits
open scoped Index

def EAGAIN : ℤ := 11

/-- What the search reads of a task. -/
structure Task where
  pid : BitVec 32
  pgrp : BitVec 32

abbrev Table := Fin NR_TASKS → Option Task

/-- `++last_pid`, where a negative result becomes 1. -/
def bumped (lastPid : BitVec 32) : BitVec 32 :=
  if (lastPid + 1).toInt < 0 then 1 else lastPid + 1

def usesNumber (v : BitVec 32) : Option Task → Bool
  | none => false
  | some t => t.pid = v || t.pgrp = v

/-- The loops of `find_empty_process`, with what `last_pid` is at the end. The first loop starts
at most `n` times. -/
def findEmptyProcess (n : ℕ) (task : Table) (lastPid : BitVec 32) : Option (BitVec 32 × ℤ) :=
  (seek bumped (fun v => (List.finRange NR_TASKS).any fun i => usesNumber v (task i)) n lastPid).map
    fun v =>
      match (List.finRange NR_TASKS).find? fun i => 1 ≤ i.val && (task i).isNone with
      | some i => (v, (i.val : ℤ))
      | none => (v, -EAGAIN)

variable {task : Table} {v w : BitVec 32} {k n : ℕ}

/-! ## The numbers -/

/-- For numbers that are not negative it is the step of `Sys.findPid`. -/
theorem bumped_toNat (h : 0 ≤ v.toInt) : (bumped v).toNat = Sys.nextPid v.toNat := by
  have hv : v.toNat < 2 ^ 31 := by
    rw [BitVec.toInt_eq_toNat_cond] at h
    split at h <;> omega
  have hadd : (v + 1).toNat = v.toNat + 1 := by
    rw [BitVec.toNat_add]
    exact Nat.mod_eq_of_lt (by simp; omega)
  have hneg : (v + 1).toInt < 0 ↔ ¬ v.toNat + 1 < 2 ^ 31 := by
    rw [BitVec.toInt_eq_toNat_cond, hadd]
    split <;> omega
  unfold bumped Sys.nextPid
  by_cases hlt : v.toNat + 1 < 2 ^ 31
  · rw [if_neg (by rwa [hneg, not_not]), if_pos hlt, hadd]
  · rw [if_pos (hneg.mpr hlt), if_neg hlt]
    rfl

theorem toInt_nonneg (h : v.toNat < 2 ^ 31) : v.toInt = v.toNat := by
  rw [BitVec.toInt_eq_toNat_cond, if_pos (by omega)]

theorem iterate_bumped (h : 0 ≤ v.toInt) (k : ℕ) :
    (bumped^[k + 1] v).toNat = Sys.nextPid^[k + 1] v.toNat := by
  induction k generalizing v with
  | zero => exact bumped_toNat h
  | succ k ih =>
    have hb := bumped_toNat h
    have hlt : (bumped v).toNat < 2 ^ 31 := hb ▸ Sys.nextPid_lt
    rw [iterate_succ_apply, ih (by rw [toInt_nonneg hlt]; omega), hb, ← iterate_succ_apply]

/-- Every candidate is positive. -/
theorem iterate_bumped_pos (h : 0 ≤ v.toInt) (k : ℕ) : 0 < (bumped^[k + 1] v).toInt := by
  have hk := iterate_bumped h k
  rw [iterate_succ_apply' Sys.nextPid] at hk
  have hpos := Sys.nextPid_pos (v := Sys.nextPid^[k] v.toNat)
  have hlt := Sys.nextPid_lt (v := Sys.nextPid^[k] v.toNat)
  rw [← hk] at hpos hlt
  rw [toInt_nonneg hlt]
  omega

/-- It takes 2^31 - 1 candidates until one comes again. -/
theorem iterate_bumped_injOn (h : 0 ≤ v.toInt) (hn : n < 2 ^ 31) :
    Set.InjOn (fun k => bumped^[k + 1] v) (Finset.range n) := by
  intro i hi j hj hij
  have hi' := Finset.mem_range.mp hi
  have hj' := Finset.mem_range.mp hj
  have hnat : (bumped^[i + 1] v).toNat = (bumped^[j + 1] v).toNat := congrArg BitVec.toNat hij
  rw [iterate_bumped h, iterate_bumped h, iterate_succ_apply, iterate_succ_apply,
    Sys.iterate_nextPid Sys.nextPid_pos Sys.nextPid_lt,
    Sys.iterate_nextPid Sys.nextPid_pos Sys.nextPid_lt] at hnat
  have hpos := Sys.nextPid_pos (v := v.toNat)
  have hlt := Sys.nextPid_lt (v := v.toNat)
  omega

/-! ## The tasks -/

/-- The numbers of a task and of its group. -/
def numbers (t : Option Task) : Finset (BitVec 32) :=
  t.elim ∅ fun t => {t.pid, t.pgrp}

theorem numbers_card (t : Option Task) : (numbers t).card ≤ 2 := by
  cases t with
  | none => exact Nat.zero_le 2
  | some t => exact Finset.card_le_two

theorem usesNumber_iff {t : Option Task} :
    usesNumber v t = true ↔ ∃ t', t = some t' ∧ (t'.pid = v ∨ t'.pgrp = v) := by
  cases t <;> simp [usesNumber]

theorem mem_numbers {t : Option Task} (h : usesNumber v t = true) : v ∈ numbers t := by
  obtain ⟨t, rfl, rfl | rfl⟩ := usesNumber_iff.mp h <;> simp [numbers]

/-- The number of no task and no group in the table. -/
def Unused (task : Table) (v : BitVec 32) : Prop :=
  ∀ i t, task i = some t → t.pid ≠ v ∧ t.pgrp ≠ v

theorem unused_of_any
    (h : ((List.finRange NR_TASKS).any fun i => usesNumber v (task i)) = false) :
    Unused task v := by
  intro i t ht
  have hi := List.any_eq_false.mp h i (List.mem_finRange i)
  rw [usesNumber_iff, ht] at hi
  exact ⟨fun he => hi ⟨t, rfl, .inl he⟩, fun he => hi ⟨t, rfl, .inr he⟩⟩

/-- The slot is empty, and none before it except that of task 0. -/
structure LowestEmpty (task : Table) (i : Fin NR_TASKS) : Prop where
  pos : 1 ≤ i.val
  empty : task i = none
  least : ∀ j : Fin NR_TASKS, 1 ≤ j.val → j < i → task j ≠ none

theorem find_lowest {i : Fin NR_TASKS}
    (h : ((List.finRange NR_TASKS).find? fun i => 1 ≤ i.val && (task i).isNone) = some i) :
    LowestEmpty task i := by
  obtain ⟨hi, hlt⟩ := Fin.find?_eq_some_iff.mp (Fin.find?_eq_find?_finRange.trans h)
  simp only [Bool.and_eq_true, decide_eq_true_eq, Option.isNone_iff_eq_none] at hi
  constructor
  · exact hi.1
  · exact hi.2
  · intro j hj hji he
    have := hlt j hji
    simp [hj, he] at this

/-- The first loop ends. -/
theorem seek_free (task : Table) (h : 0 ≤ v.toInt) :
    (seek bumped (fun v => (List.finRange NR_TASKS).any fun i => usesNumber v (task i))
      (2 * NR_TASKS + 1) v).isSome := by
  apply seek_isSome (s := Finset.univ.biUnion fun i => numbers (task i))
  · intro w hw
    obtain ⟨i, -, hi⟩ := List.any_eq_true.mp hw
    exact Finset.mem_biUnion.mpr ⟨i, Finset.mem_univ i, mem_numbers hi⟩
  · exact iterate_bumped_injOn h (by decide)
  · have hcard := Finset.card_biUnion_le_card_mul Finset.univ (fun i => numbers (task i)) 2
      fun i _ => numbers_card (task i)
    rw [Finset.card_univ, Fintype.card_fin] at hcard
    omega

/-- The search ends, with a positive number that no task and no group has. The slot is the
lowest empty one, if there is one. -/
theorem find_empty_process_fresh (task : Table) (lastPid : BitVec 32) (h : 0 ≤ lastPid.toInt) :
    ∃ v r, (∀ n, 2 * NR_TASKS < n → findEmptyProcess n task lastPid = some (v, r)) ∧
      0 < v.toInt ∧ Unused task v ∧
      ((∃ i : Fin NR_TASKS, r = i.val ∧ LowestEmpty task i) ∨
        r = -EAGAIN ∧ ∀ i : Fin NR_TASKS, 1 ≤ i.val → task i ≠ none) := by
  obtain ⟨v, hv⟩ := Option.isSome_iff_exists.mp (seek_free task h)
  obtain ⟨hfree, k, hk⟩ := seek_spec hv
  have hpos : 0 < v.toInt := hk ▸ iterate_bumped_pos h k
  have hret : ∀ n, 2 * NR_TASKS < n → seek bumped
      (fun v => (List.finRange NR_TASKS).any fun i => usesNumber v (task i)) n lastPid = some v :=
    fun n hn => seek_mono hv hn
  cases hs : (List.finRange NR_TASKS).find? fun i => 1 ≤ i.val && (task i).isNone with
  | some i =>
    refine ⟨v, i.val, fun n hn => ?_, hpos, unused_of_any hfree, .inl ⟨i, rfl, find_lowest hs⟩⟩
    simp [findEmptyProcess, hret n hn, hs]
  | none =>
    refine ⟨v, -EAGAIN, fun n hn => ?_, hpos, unused_of_any hfree, .inr ⟨rfl, ?_⟩⟩
    · simp [findEmptyProcess, hret n hn, hs]
    · intro i hi he
      have := List.find?_eq_none.mp hs i (List.mem_finRange i)
      simp [hi, he] at this

/-- Task 0 alone, and a task with the numbers after the wrap, in slot 2. -/
def twoTasks : Table := fun i =>
  if i = 0 then some ⟨0, 0⟩ else if i = 2 then some ⟨1, 2⟩ else none

theorem find_empty_process_wraps :
    findEmptyProcess 129 twoTasks 0x7fffffff = some (3, 1) ∧
      ∃ v r, (∀ n, 2 * NR_TASKS < n → findEmptyProcess n twoTasks 0x7fffffff = some (v, r)) ∧
        0 < v.toInt ∧ Unused twoTasks v ∧
        ((∃ i : Fin NR_TASKS, r = i.val ∧ LowestEmpty twoTasks i) ∨
          r = -EAGAIN ∧ ∀ i : Fin NR_TASKS, 1 ≤ i.val → twoTasks i ≠ none) :=
  ⟨by decide +kernel, find_empty_process_fresh twoTasks 0x7fffffff (by decide)⟩

end Linux012.Forks
