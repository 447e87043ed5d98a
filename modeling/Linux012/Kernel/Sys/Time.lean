import Mathlib.Data.BitVec
import Mathlib.Tactic

/-! # The time of day

`sys_gettimeofday` and `sys_settimeofday`. The time is `startup_time` in seconds and the ticks
`jiffies + jiffies_offset`. The timer interrupt changes `jiffies` at any time, and each call reads it
twice.
-/

namespace Linux012.Time

abbrev Word := BitVec 32

def HZ : Word := 100

def EPERM : ℤ := 1

def CT_TO_SECS (x : Word) : Word := x / HZ

def CT_TO_USECS (x : Word) : Word := x % HZ * 1000000 / HZ

structure Timezone where
  minuteswest : Word
  dsttime : Word
  deriving DecidableEq

structure Timeval where
  sec : Word
  usec : Word
  deriving DecidableEq

structure Clock where
  startupTime : Word
  jiffiesOffset : Word
  sysTz : Timezone
  firsttime : Bool
  deriving DecidableEq

namespace Clock

def adjustClock (s : Clock) : Clock :=
  { s with startupTime := s.startupTime + s.sysTz.minuteswest * 60 }

/-- The part of `sys_settimeofday` for the timezone -/
def setTimezone (s : Clock) (tv : Option Timeval) (tz : Option Timezone) : Clock :=
  match tz with
  | none => s
  | some tz =>
    let s := { s with sysTz := tz }
    if s.firsttime then
      let s := { s with firsttime := false }
      if tv.isNone then s.adjustClock else s
    else s

/-- `jiffies` is read twice. The quotient of `int` is signed. -/
def sysSettimeofday (s : Clock) (suser : Bool) (tv : Option Timeval) (tz : Option Timezone)
    (jiffies jiffies' : Word) : Clock × ℤ :=
  if ¬ suser then (s, -EPERM)
  else
    let s := s.setTimezone tv tz
    match tv with
    | none => (s, 0)
    | some tv =>
      ({ s with
        startupTime := tv.sec - jiffies / HZ
        jiffiesOffset := (tv.usec * HZ).sdiv 1000000 - jiffies' % HZ }, 0)

/-- What `sys_gettimeofday` stores at `tv`; `jiffies` is read twice. -/
def sysGettimeofday (s : Clock) (jiffies jiffies' : Word) : Timeval where
  sec := s.startupTime + CT_TO_SECS (jiffies + s.jiffiesOffset)
  usec := CT_TO_USECS (jiffies' + s.jiffiesOffset)

end Clock

variable {s : Clock} {sec usec j : Word} {k : ℕ}

/-! ## The ticks -/

/-- The microseconds in ticks -/
theorem ticks_toNat (h : usec.toNat < 1000000) :
    ((usec * HZ).sdiv 1000000).toNat = usec.toNat / 10000 := by
  have hmul : (usec * HZ).toNat = usec.toNat * 100 := by
    rw [BitVec.toNat_mul, show HZ.toNat = 100 from rfl, Nat.mod_eq_of_lt (by omega)]
  have hmsb : (usec * HZ).msb = false := by
    rw [BitVec.msb_eq_decide, hmul]
    exact decide_eq_false (by omega)
  rw [BitVec.sdiv_eq, hmsb, show (1000000 : Word).msb = false from rfl]
  show ((usec * HZ) / (1000000 : Word)).toNat = _
  rw [BitVec.toNat_udiv, hmul, show (1000000 : Word).toNat = 1000000 from rfl]
  omega

/-- The ticks since the second that `startup_time` stands for -/
theorem offset_ticks (husec : usec.toNat < 1000000)
    (hsum : j.toNat / 100 * 100 + usec.toNat / 10000 + k < 2 ^ 32) :
    (j + BitVec.ofNat 32 k + ((usec * HZ).sdiv 1000000 - j % HZ)).toNat =
      j.toNat / 100 * 100 + usec.toNat / 10000 + k := by
  have hticks := ticks_toNat husec
  have hmod : (j % HZ).toNat = j.toNat % 100 := BitVec.toNat_umod
  generalize (usec * HZ).sdiv 1000000 = u at hticks ⊢
  generalize j % HZ = r at hmod ⊢
  have hle : r.toNat ≤ j.toNat := by omega
  have hk : (BitVec.ofNat 32 k).toNat = k := by
    rw [BitVec.toNat_ofNat]
    omega
  rw [BitVec.toNat_add, BitVec.toNat_add, BitVec.toNat_sub, hk]
  omega

theorem usecs_toNat (x : Word) : (CT_TO_USECS x).toNat = x.toNat % 100 * 10000 := by
  have hmod : (x % HZ).toNat = x.toNat % 100 := BitVec.toNat_umod
  have hmul : (x % HZ * 1000000).toNat = x.toNat % 100 * 1000000 := by
    rw [BitVec.toNat_mul, hmod, show (1000000 : Word).toNat = 1000000 from rfl, Nat.mod_eq_of_lt (by omega)]
  unfold CT_TO_USECS
  rw [BitVec.toNat_udiv, hmul, show HZ.toNat = 100 from rfl]
  omega

/-! ## The time -/

theorem ofNat_div (n : ℕ) (h : n < 2 ^ 32) : CT_TO_SECS (BitVec.ofNat 32 n) = BitVec.ofNat 32 (n / 100) := by
  apply BitVec.eq_of_toNat_eq
  unfold CT_TO_SECS
  rw [BitVec.toNat_udiv, BitVec.toNat_ofNat, BitVec.toNat_ofNat, show HZ.toNat = 100 from rfl]
  omega

theorem ofNat_add_div (a n : ℕ) (h : a * 100 + n < 2 ^ 32) :
    CT_TO_SECS (BitVec.ofNat 32 (a * 100 + n)) = BitVec.ofNat 32 a + BitVec.ofNat 32 (n / 100) := by
  rw [ofNat_div _ h, ← BitVec.ofNat_add, show (a * 100 + n) / 100 = a + n / 100 by omega]

/-- The time is set at a tick and read `k` ticks later; where the timer interrupt comes between the two reads
of `jiffies`, these are of the ticks `j` and `j'`, and `k` and `k'`. -/
theorem gettimeofday_settimeofday (s : Clock) (tz : Option Timezone) (sec j : Word) {j' : Word} {k k' : ℕ}
    (husec : usec.toNat < 1000000)
    (hk : j'.toNat / 100 * 100 + usec.toNat / 10000 + k < 2 ^ 32)
    (hk' : j'.toNat / 100 * 100 + usec.toNat / 10000 + k' < 2 ^ 32) :
    let s' := (s.sysSettimeofday true (some ⟨sec, usec⟩) tz j j').1
    let t := s'.sysGettimeofday (j' + BitVec.ofNat 32 k) (j' + BitVec.ofNat 32 k')
    t.sec = sec + (j' / HZ - j / HZ) + BitVec.ofNat 32 ((usec.toNat / 10000 + k) / 100) ∧
      t.usec.toNat = (usec.toNat / 10000 + k') % 100 * 10000 := by
  have hticks : ∀ k, j'.toNat / 100 * 100 + usec.toNat / 10000 + k < 2 ^ 32 →
      j' + BitVec.ofNat 32 k + ((usec * HZ).sdiv 1000000 - j' % HZ) =
        BitVec.ofNat 32 (j'.toNat / 100 * 100 + (usec.toNat / 10000 + k)) := by
    intro k hk
    apply BitVec.eq_of_toNat_eq
    rw [offset_ticks husec hk, BitVec.toNat_ofNat]
    omega
  have hdiv : BitVec.ofNat 32 (j'.toNat / 100) = j' / HZ := by
    apply BitVec.eq_of_toNat_eq
    rw [BitVec.toNat_udiv, BitVec.toNat_ofNat, show HZ.toNat = 100 from rfl]
    omega
  constructor
  · show sec - j / HZ + CT_TO_SECS (j' + BitVec.ofNat 32 k + ((usec * HZ).sdiv 1000000 - j' % HZ)) = _
    rw [hticks k hk, ofNat_add_div _ _ (by omega), hdiv]
    bv_omega
  · show (CT_TO_USECS (j' + BitVec.ofNat 32 k' + ((usec * HZ).sdiv 1000000 - j' % HZ))).toNat = _
    have hlt : j'.toNat / 100 * 100 + (usec.toNat / 10000 + k') < 2 ^ 32 := by omega
    rw [hticks k' hk', usecs_toNat, BitVec.toNat_ofNat, Nat.mod_eq_of_lt hlt, Nat.mul_add_mod_self_right]

/-- The time that is read is the one that was set, and what has passed since, down to a tick. -/
theorem clock_exact (s : Clock) (tz : Option Timezone) (sec usec j : Word) (k : ℕ) (husec : usec.toNat < 1000000)
    (hsum : j.toNat / 100 * 100 + usec.toNat / 10000 + k < 2 ^ 32) :
    let s' := (s.sysSettimeofday true (some ⟨sec, usec⟩) tz j j).1
    let t := s'.sysGettimeofday (j + BitVec.ofNat 32 k) (j + BitVec.ofNat 32 k)
    (t.sec - sec).toNat * 1000000 + t.usec.toNat = usec.toNat / 10000 * 10000 + k * 10000 ∧
      t.usec.toNat < 1000000 := by
  obtain ⟨hsec, hu⟩ := gettimeofday_settimeofday s tz sec j husec hsum hsum
  dsimp only at hsec hu ⊢
  have hdiff : ((s.sysSettimeofday true (some ⟨sec, usec⟩) tz j j).1.sysGettimeofday
      (j + BitVec.ofNat 32 k) (j + BitVec.ofNat 32 k)).sec - sec =
        BitVec.ofNat 32 ((usec.toNat / 10000 + k) / 100) := by
    rw [hsec, BitVec.sub_self, BitVec.add_zero, BitVec.add_comm, BitVec.add_sub_cancel]
  rw [hdiff, hu, BitVec.toNat_ofNat]
  omega

/-- Half a second after the hour, and 75 ticks later -/
theorem clock_exact_seconds :
    let s' := (Clock.sysSettimeofday ⟨0, 0, ⟨0, 0⟩, true⟩ true (some ⟨3600, 512345⟩) none 1234 1234).1
    let t := s'.sysGettimeofday (1234 + BitVec.ofNat 32 75) (1234 + BitVec.ofNat 32 75)
    (t.sec - 3600).toNat * 1000000 + t.usec.toNat = 512345 / 10000 * 10000 + 75 * 10000 ∧
      t.usec.toNat < 1000000 :=
  clock_exact ⟨0, 0, ⟨0, 0⟩, true⟩ none 3600 512345 1234 75 (by decide) (by decide)

/-- A tick between the two reads of `sys_gettimeofday` that ends a second: the time is almost a second behind. -/
theorem gettimeofday_torn (tz : Option Timezone) (husec : usec.toNat < 1000000)
    (hsum : j.toNat / 100 * 100 + usec.toNat / 10000 + (k + 1) < 2 ^ 32)
    (hend : (usec.toNat / 10000 + k + 1) % 100 = 0) :
    let s' := (s.sysSettimeofday true (some ⟨sec, usec⟩) tz j j).1
    let t := s'.sysGettimeofday (j + BitVec.ofNat 32 k) (j + BitVec.ofNat 32 (k + 1))
    (t.sec - sec).toNat * 1000000 + t.usec.toNat + 1000000 =
      usec.toNat / 10000 * 10000 + (k + 1) * 10000 := by
  obtain ⟨hsec, hu⟩ := gettimeofday_settimeofday s tz sec j husec (k := k) (by omega) hsum
  dsimp only at hsec hu ⊢
  have hdiff : ((s.sysSettimeofday true (some ⟨sec, usec⟩) tz j j).1.sysGettimeofday
      (j + BitVec.ofNat 32 k) (j + BitVec.ofNat 32 (k + 1))).sec - sec =
        BitVec.ofNat 32 ((usec.toNat / 10000 + k) / 100) := by
    rw [hsec, BitVec.sub_self, BitVec.add_zero, BitVec.add_comm, BitVec.add_sub_cancel]
  rw [hdiff, hu, BitVec.toNat_ofNat]
  omega

end Linux012.Time
