import Mathlib.Data.List.Basic
import Mathlib.Data.BitVec
import Mathlib.Tactic.Ring

/-! # Checking a user area

`verify_area` of `kernel/fork.c`. The bytes before the area on its first page are added to a signed size.
-/

namespace Linux012.VerifyArea

abbrev Address := BitVec 32

def TASK_SIZE : ℕ := 0x04000000

/-- `get_base` of the data segment that `copy_mem` has made for the task `nr`. -/
def getBase (nr : ℕ) : Address := .ofNat 32 (nr * TASK_SIZE)

/-- The addresses for which the loop calls `write_verify`. An iteration takes a page off the size. -/
def loop : ℕ → BitVec 32 → Address → List Address
  | 0, _, _ => []
  | n + 1, size, start => if 0 < size.toInt then start :: loop n (size - 4096) (start + 4096) else []

def verifyArea (nr : ℕ) (addr : Address) (size : BitVec 32) : List Address :=
  let start := addr
  let size := size + (start &&& 0xfff)
  let start := start &&& 0xfffff000
  let start := start + getBase nr
  loop (2 ^ 19) size start

/-- The page of an address. -/
def page (a : Address) : Address := a &&& 0xfffff000

/-- The places in the page directory and in a page table where `write_verify` looks. -/
def entries (address : Address) : BitVec 32 × BitVec 32 := ((address >>> 20) &&& 0xffc, (address >>> 10) &&& 0xffc)

variable {nr m k : ℕ} {addr start a : Address} {size : BitVec 32}

theorem toNat_offset (a : Address) : (a &&& 0xfff).toNat = a.toNat % 4096 := by
  rw [BitVec.toNat_and]
  exact Nat.and_two_pow_sub_one_eq_mod _ 12

theorem page_eq (a : Address) : page a = a >>> 12 <<< 12 := by
  have hmask : ∀ i < 32, (0xfffff000 : BitVec 32).getLsbD i = decide (12 ≤ i) := by decide
  refine BitVec.eq_of_getLsbD_eq fun i hi => ?_
  rw [page, BitVec.getLsbD_and, hmask i hi, BitVec.getLsbD_shiftLeft, BitVec.getLsbD_ushiftRight]
  by_cases h : i < 12
  · simp [h, Nat.not_le.mpr h]
  · simp [h, hi, Nat.not_lt.mp h]

theorem toNat_page (a : Address) : (page a).toNat = a.toNat / 4096 * 4096 := by
  rw [page_eq, BitVec.toNat_shiftLeft, BitVec.toNat_ushiftRight, Nat.shiftRight_eq_div_pow, Nat.shiftLeft_eq]
  have := a.isLt
  omega

theorem page_page (a : Address) : page (page a) = page a := by
  apply BitVec.eq_of_toNat_eq
  rw [toNat_page, toNat_page]
  omega

/-- `write_verify` looks at the page of an address only. -/
theorem entries_page (a : Address) : entries (page a) = entries a := by
  have hmask : ∀ i < 32, (0xffc : BitVec 32).getLsbD i = decide (2 ≤ i ∧ i < 12) := by decide
  rw [page_eq]
  refine Prod.ext ?_ ?_
  · refine BitVec.eq_of_getLsbD_eq fun i hi => ?_
    simp only [entries, BitVec.getLsbD_and, hmask i hi, BitVec.getLsbD_shiftLeft, BitVec.getLsbD_ushiftRight]
    by_cases h : 2 ≤ i ∧ i < 12
    · simp [show ¬ 20 + i < 12 by omega, show 12 + (20 + i - 12) = 20 + i by omega, show 20 + i < 32 by omega]
    · simp [h]
  · refine BitVec.eq_of_getLsbD_eq fun i hi => ?_
    simp only [entries, BitVec.getLsbD_and, hmask i hi, BitVec.getLsbD_shiftLeft, BitVec.getLsbD_ushiftRight]
    by_cases h : 2 ≤ i ∧ i < 12
    · simp [show 10 + i < 32 by omega, show ¬ 10 + i < 12 by omega, show 12 + (10 + i - 12) = 10 + i by omega]
    · simp [h]

theorem loop_of_nonpos (h : size.toInt ≤ 0) : loop k size start = [] := by
  cases k with
  | zero => rfl
  | succ k => exact if_neg (not_lt.mpr h)

/-- The calls for a size that is not negative as a signed number. -/
theorem mem_loop (hm : size.toNat = m) (hlt : m < 2 ^ 31) (hk : m ≤ 4096 * k) :
    a ∈ loop k size start ↔ ∃ i, 4096 * i < m ∧ a = start + BitVec.ofNat 32 (4096 * i) := by
  induction k generalizing size start m with
  | zero =>
    obtain rfl : m = 0 := by omega
    simp [loop]
  | succ k ih =>
    have htoInt : size.toInt = m := by
      rw [BitVec.toInt_eq_toNat_of_lt (by omega), hm]
    rcases Nat.eq_zero_or_pos m with rfl | hpos
    · rw [loop_of_nonpos (by omega)]
      simp
    have hrest : a ∈ loop k (size - 4096) (start + 4096) ↔
        ∃ i, 4096 * i < m - 4096 ∧ a = start + 4096 + BitVec.ofNat 32 (4096 * i) := by
      by_cases hle : 4096 ≤ m
      · refine ih ?_ (by omega) (by omega)
        rw [BitVec.toNat_sub_of_le (by rw [BitVec.le_def, hm]; exact hle), hm]
        rfl
      · have hneg : (size - 4096).toInt ≤ 0 := by
          rw [BitVec.toInt_sub, htoInt]
          change ((m : ℤ) - 4096).bmod (2 ^ 32) ≤ 0
          rw [Int.bmod_eq_of_le (by omega) (by omega)]
          omega
        rw [loop_of_nonpos hneg, show m - 4096 = 0 by omega]
        simp
    rw [loop, if_pos (by omega), List.mem_cons, hrest]
    constructor
    · rintro (rfl | ⟨i, hi, rfl⟩)
      · exact ⟨0, by omega, by simp⟩
      · exact ⟨i + 1, by omega, by rw [BitVec.add_assoc, Nat.mul_succ, Nat.add_comm, BitVec.ofNat_add]; rfl⟩
    · rintro ⟨i, hi, rfl⟩
      cases i with
      | zero => exact .inl (by simp)
      | succ i =>
        refine .inr ⟨i, by omega, ?_⟩
        rw [BitVec.add_assoc, Nat.mul_succ, Nat.add_comm, BitVec.ofNat_add]
        rfl

/-- The page of an address that lies `m` bytes behind a page boundary. -/
theorem page_add (h : page start = start) (m : ℕ) :
    page (start + BitVec.ofNat 32 m) = start + BitVec.ofNat 32 (m / 4096 * 4096) := by
  have hstart := toNat_page start
  rw [h] at hstart
  apply BitVec.eq_of_toNat_eq
  rw [toNat_page, BitVec.toNat_add, BitVec.toNat_add, BitVec.toNat_ofNat, BitVec.toNat_ofNat]
  omega

/-- `write_verify` is called for the pages of the bytes of the area, and for no other page. -/
def Covers (nr : ℕ) (addr : Address) (size : BitVec 32) : Prop :=
  ∀ a, a ∈ verifyArea nr addr size ↔ ∃ i < size.toNat, a = page (getBase nr + addr + BitVec.ofNat 32 i)

theorem page_getBase (nr : ℕ) : page (getBase nr) = getBase nr := by
  apply BitVec.eq_of_toNat_eq
  rw [toNat_page, getBase, BitVec.toNat_ofNat, TASK_SIZE]
  omega

theorem page_start (nr : ℕ) (addr : Address) : page (page addr + getBase nr) = page addr + getBase nr := by
  have hbase := toNat_page (getBase nr)
  rw [page_getBase] at hbase
  apply BitVec.eq_of_toNat_eq
  rw [toNat_page, BitVec.toNat_add, toNat_page]
  omega

/-- An address of the area, counted from the page boundary before it. -/
theorem addr_eq (nr : ℕ) (addr : Address) (i : ℕ) :
    getBase nr + addr + BitVec.ofNat 32 i =
      page addr + getBase nr + BitVec.ofNat 32 ((addr &&& 0xfff).toNat + i) := by
  apply BitVec.eq_of_toNat_eq
  rw [BitVec.toNat_add, BitVec.toNat_add, BitVec.toNat_add, BitVec.toNat_add, BitVec.toNat_ofNat,
    BitVec.toNat_ofNat, toNat_page, toNat_offset, ← Nat.add_mod, ← Nat.add_mod]
  congr 1
  have := Nat.div_add_mod' addr.toNat 4096
  omega

theorem toNat_size (h : size.toNat + (addr &&& 0xfff).toNat < 2 ^ 32) :
    (size + (addr &&& 0xfff)).toNat = size.toNat + (addr &&& 0xfff).toNat := by
  rw [BitVec.toNat_add, Nat.mod_eq_of_lt h]

/-- That is so exactly when the sum of the size and the offset in the first page is less than `2 ^ 31`. -/
theorem covers_iff (nr : ℕ) (addr : Address) (h : 0 < size.toInt) :
    Covers nr addr size ↔ size.toNat + (addr &&& 0xfff).toNat < 2 ^ 31 := by
  have hoff : (addr &&& 0xfff).toNat < 4096 := by
    rw [toNat_offset]
    exact Nat.mod_lt _ (by decide)
  have hsize : 0 < size.toNat ∧ size.toNat < 2 ^ 31 := by
    rw [BitVec.toInt_eq_toNat_cond] at h
    split_ifs at h <;> omega
  have hsum : (size + (addr &&& 0xfff)).toNat = size.toNat + (addr &&& 0xfff).toNat := toNat_size (by omega)
  constructor
  · intro hcov
    by_contra hge
    -- the sum is negative, and no page is checked
    have hneg : (size + (addr &&& 0xfff)).toInt ≤ 0 := by
      rw [BitVec.toInt_eq_toNat_cond, hsum, if_neg (by omega)]
      omega
    have hmem := (hcov _).mpr ⟨0, hsize.1, rfl⟩
    rw [verifyArea, loop_of_nonpos hneg] at hmem
    cases hmem
  · intro hlt a
    refine (mem_loop (k := 2 ^ 19) hsum hlt (by omega)).trans ?_
    change (∃ i, _ ∧ a = page addr + getBase nr + _) ↔ _
    simp only [addr_eq, page_add (page_start nr addr)]
    constructor
    · rintro ⟨j, hj, rfl⟩
      refine ⟨4096 * j - (addr &&& 0xfff).toNat, by omega, ?_⟩
      rw [show ((addr &&& 0xfff).toNat + (4096 * j - (addr &&& 0xfff).toNat)) / 4096 * 4096 = 4096 * j by omega]
    · rintro ⟨i, hi, rfl⟩
      exact ⟨((addr &&& 0xfff).toNat + i) / 4096, by omega, by rw [Nat.mul_comm]⟩

/-- An area over the end of the second page of the data segment of task 1. -/
theorem covers_twoPages : Covers 1 0x1ffe 3 := (covers_iff 1 0x1ffe (by decide)).mpr (by decide)

/-- No page is checked for the largest size from an address on that is on no page boundary. -/
theorem not_covers : ¬ ∀ nr addr size, 0 < size.toInt → Covers nr addr size := fun hall => by
  have hcov := hall 1 1 0x7fffffff (by decide)
  have hmem := (hcov _).mpr ⟨0, by decide, rfl⟩
  rw [verifyArea, loop_of_nonpos (by decide)] at hmem
  cases hmem

end Linux012.VerifyArea
