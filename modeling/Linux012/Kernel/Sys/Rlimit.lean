import Mathlib.Data.Finset.Image
import Mathlib.Data.Finset.Range
import Mathlib.Logic.Function.Basic
import Mathlib.Tactic

/-! # Resource limits

`getrlimit` and `setrlimit` of `kernel/sys.c` on the memory of the kernel. An index into
`current->rlim` is a signed number that is checked on one side only.
-/

namespace Linux012.Limits

open Function

/-- An address of the kernel, in double words. -/
abbrev Addr := BitVec 30

abbrev Mem := Addr → BitVec 32

def NGROUPS : ℕ := 32
def RLIM_NLIMITS : ℕ := 6

def EPERM : ℤ := 1
def EINVAL : ℤ := 22

structure Rlimit where
  rlimCur : BitVec 32
  rlimMax : BitVec 32
  deriving DecidableEq

/-- The double words of a `task_struct` before `uid`: `state` to `signal`, the signal handlers,
`blocked`, `exit_code` to `leader`, `groups` and the family. -/
def uidWord : ℕ := 4 + 32 * 4 + 1 + 10 + NGROUPS + 4

/-- Before `rlim` there are also six identities of half a word and `timeout` to `start_time`. -/
def rlimWord : ℕ := uidWord + 3 + 7

variable (current : Addr)

/-- `euid` is the upper half of its double word. -/
def suser (m : Mem) : Bool := (m (current + BitVec.ofNat 30 uidWord)).extractLsb' 16 16 = 0

/-- `&current->rlim[resource].rlim_cur`; addresses wrap around. -/
def rlimCur (resource : BitVec 32) : Addr :=
  current + BitVec.ofNat 30 rlimWord + 2 * resource.setWidth 30

def rlimMax (resource : BitVec 32) : Addr := rlimCur current resource + 1

/-- What a call returns, what it puts into user space, and the memory it leaves. -/
structure Result where
  ret : ℤ
  user : Option Rlimit
  mem : Mem
  /-- The addresses that are used through the index (not in the source). -/
  touched : List Addr

def sysGetrlimit (resource : BitVec 32) (m : Mem) : Result :=
  if RLIM_NLIMITS ≤ resource.toInt then ⟨-EINVAL, none, m, []⟩
  else
    ⟨0, some ⟨m (rlimCur current resource), m (rlimMax current resource)⟩, m,
      [rlimCur current resource, rlimMax current resource]⟩

/-- `new` is what the call reads from user space. -/
def sysSetrlimit (resource : BitVec 32) (new : Rlimit) (m : Mem) : Result :=
  if RLIM_NLIMITS ≤ resource.toInt then ⟨-EINVAL, none, m, []⟩
  else
    let old := m (rlimMax current resource)
    if (old.slt new.rlimCur ∨ old.slt new.rlimMax) ∧ ¬ suser current m then
      ⟨-EPERM, none, m, [rlimMax current resource]⟩
    else
      ⟨0, none,
        update (update m (rlimCur current resource) new.rlimCur) (rlimMax current resource)
          new.rlimMax,
        [rlimMax current resource, rlimCur current resource]⟩

inductive Call
  | getrlimit
  | setrlimit (new : Rlimit)

def call (resource : BitVec 32) : Call → Mem → Result
  | .getrlimit => sysGetrlimit current resource
  | .setrlimit new => sysSetrlimit current resource new

/-- The double words of the limits of the process. -/
def limits : Finset Addr :=
  (Finset.range (2 * RLIM_NLIMITS)).image fun i => current + BitVec.ofNat 30 (rlimWord + i)

/-- A call uses and changes limits only, and a process that is not privileged raises no hard
limit. -/
structure OnlyLimits (m : Mem) (r : Result) : Prop where
  touched : ∀ a ∈ r.touched, a ∈ limits current
  frame : ∀ a ∉ limits current, r.mem a = m a
  hard : suser current m = false → ∀ i < RLIM_NLIMITS,
    (r.mem (rlimMax current (BitVec.ofNat 32 i))).toInt ≤
      (m (rlimMax current (BitVec.ofNat 32 i))).toInt

/-- The number is refused, or the address it leads to is one of a limit. -/
def InTable (resource : BitVec 32) : Prop :=
  RLIM_NLIMITS ≤ resource.toInt ∨ resource.toNat % 2 ^ 29 < RLIM_NLIMITS

/-! ## Addresses -/

variable {current} {m : Mem} {resource : BitVec 32} {k j : ℕ}

/-- The double word `k` of `rlim`. -/
def word (current : Addr) (k : ℕ) : Addr := current + BitVec.ofNat 30 (rlimWord + k)

theorem word_inj (hk : k < 2 ^ 30) (hj : j < 2 ^ 30) : word current k = word current j ↔ k = j := by
  constructor
  · intro h
    have hnat := congrArg BitVec.toNat ((BitVec.add_right_inj current).mp h)
    simp only [BitVec.toNat_ofNat] at hnat
    omega
  · rintro rfl
    rfl

theorem word_mem_limits (hk : k < 2 ^ 30) : word current k ∈ limits current ↔ k < 12 := by
  simp only [limits, Finset.mem_image, Finset.mem_range]
  constructor
  · rintro ⟨i, hi, he⟩
    have hi : i < 12 := hi
    have := (word_inj (by omega) hk).mp he
    omega
  · intro h
    exact ⟨k, h, rfl⟩

theorem rlimCur_eq : rlimCur current resource = word current (2 * (resource.toNat % 2 ^ 29)) := by
  rw [rlimCur, word, BitVec.add_assoc]
  congr 1
  apply BitVec.eq_of_toNat_eq
  simp [rlimWord]
  omega

theorem rlimMax_eq :
    rlimMax current resource = word current (2 * (resource.toNat % 2 ^ 29) + 1) := by
  rw [rlimMax, rlimCur_eq, word, word, BitVec.add_assoc, ← Nat.add_assoc]
  congr 1
  exact (BitVec.ofNat_add _ 1).symm

theorem rlimMax_ofNat {i : ℕ} (hi : i < RLIM_NLIMITS) :
    rlimMax current (BitVec.ofNat 32 i) = word current (2 * i + 1) := by
  have hi : i < 6 := hi
  rw [rlimMax_eq, BitVec.toNat_ofNat, Nat.mod_eq_of_lt (show i % 2 ^ 32 < 2 ^ 29 by omega),
    Nat.mod_eq_of_lt (by omega)]

/-! ## The calls -/

/-- A call that accepts the number uses the hard limit that it leads to. -/
theorem touched_call (h : ¬ RLIM_NLIMITS ≤ resource.toInt) (c : Call) :
    rlimMax current resource ∈ (call current resource c m).touched := by
  cases c with
  | getrlimit => simp [call, sysGetrlimit, h]
  | setrlimit new =>
    simp only [call, sysSetrlimit, if_neg h]
    split_ifs <;> simp

theorem onlyLimits_same {ret : ℤ} {user : Option Rlimit} {l : List Addr}
    (h : ∀ a ∈ l, a ∈ limits current) : OnlyLimits current m ⟨ret, user, m, l⟩ :=
  ⟨h, fun _ _ => rfl, fun _ _ _ => le_rfl⟩

theorem sysSetrlimit_only (hq : resource.toNat % 2 ^ 29 < 6) (new : Rlimit) :
    OnlyLimits current m (sysSetrlimit current resource new m) := by
  set q := resource.toNat % 2 ^ 29 with hqdef
  have hcur : rlimCur current resource = word current (2 * q) := rlimCur_eq
  have hmax : rlimMax current resource = word current (2 * q + 1) := rlimMax_eq
  have hcur' : word current (2 * q) ∈ limits current := (word_mem_limits (by omega)).mpr (by omega)
  have hmax' : word current (2 * q + 1) ∈ limits current :=
    (word_mem_limits (by omega)).mpr (by omega)
  simp only [sysSetrlimit, hcur, hmax]
  split_ifs with _ hdenied
  · exact onlyLimits_same (by simp)
  · exact onlyLimits_same (by simpa using hmax')
  constructor
  · simp [hcur', hmax']
  · intro a ha
    have hc : a ≠ word current (2 * q) := fun he => ha (he ▸ hcur')
    have hm : a ≠ word current (2 * q + 1) := fun he => ha (he ▸ hmax')
    dsimp only
    rw [update_of_ne hm, update_of_ne hc]
  · intro hs i hi
    have hi' : i < 6 := hi
    dsimp only
    rw [rlimMax_ofNat hi]
    by_cases hiq : i = q
    · -- the old hard limit is not below the new one
      rw [hiq, update_self]
      have hle : ¬ (m (word current (2 * q + 1))).slt new.rlimMax := fun hlt =>
        hdenied ⟨.inr hlt, by simp [hs]⟩
      rw [BitVec.slt_iff_toInt_lt] at hle
      omega
    · have hm : word current (2 * i + 1) ≠ word current (2 * q + 1) := by
        rw [Ne, word_inj (by omega) (by omega)]
        omega
      have hc : word current (2 * i + 1) ≠ word current (2 * q) := by
        rw [Ne, word_inj (by omega) (by omega)]
        omega
      rw [update_of_ne hm, update_of_ne hc]

/-- A call keeps to the limits exactly when its number is refused or leads to one of them. -/
theorem rlimit_confined (current : Addr) (m : Mem) (resource : BitVec 32) (c : Call) :
    OnlyLimits current m (call current resource c m) ↔ InTable resource := by
  constructor
  · intro h
    rw [InTable, or_iff_not_imp_left]
    intro haccepted
    have hmem := h.touched _ (touched_call haccepted c)
    rw [rlimMax_eq, word_mem_limits (by omega)] at hmem
    change _ < 6
    omega
  · rintro (hrefused | hq)
    · cases c with
      | getrlimit =>
        rw [call, sysGetrlimit, if_pos hrefused]
        exact onlyLimits_same (by simp)
      | setrlimit new =>
        rw [call, sysSetrlimit, if_pos hrefused]
        exact onlyLimits_same (by simp)
    · cases c with
      | getrlimit =>
        rw [call, sysGetrlimit]
        split_ifs
        · exact onlyLimits_same (by simp)
        apply onlyLimits_same
        have hq : resource.toNat % 2 ^ 29 < 6 := hq
        simp only [List.mem_cons, List.not_mem_nil, or_false, forall_eq_or_imp, forall_eq,
          rlimCur_eq, rlimMax_eq]
        rw [word_mem_limits (by omega), word_mem_limits (by omega)]
        omega
      | setrlimit new => exact sysSetrlimit_only hq new

/-- A process of user and group 100, in a memory that holds this number everywhere. -/
def ordinary : Mem := fun _ => 0x00640064

/-- `setrlimit(-5, {0, 0})` stores zeros over the user identities. -/
theorem setrlimit_root : suser 0 ordinary = false ∧
    (call 0 (-5) (.setrlimit ⟨0, 0⟩) ordinary).ret = 0 ∧
    suser 0 (call 0 (-5) (.setrlimit ⟨0, 0⟩) ordinary).mem = true ∧
    ¬ OnlyLimits 0 ordinary (call 0 (-5) (.setrlimit ⟨0, 0⟩) ordinary) := by
  refine ⟨by decide, by decide, by decide +kernel, fun h => ?_⟩
  have hmem := h.touched (rlimMax 0 (-5)) (by decide)
  revert hmem
  decide +kernel

end Linux012.Limits
