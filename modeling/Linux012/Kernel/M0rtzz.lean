import Mathlib.Data.UInt
import Mathlib.Tactic
import Linux012.Lib.Runs

/-! # The message buffer

`sys_m0rtzz` and `sys_ashore` of `kernel/m0rtzz.c` with the memory of the kernel from `msg` on. A
string of thirty characters passes the check of `sys_m0rtzz`, and its terminator does not fit.
-/

namespace Linux012.M0rtzz

open Function Runs

def EINVAL : ℤ := 22

/-- `sizeof msg` -/
def MSG_SIZE : ℕ := 30

/-- `sizeof tmp` -/
def TMP_SIZE : ℕ := 40

/-- No more memory than this follows `msg`. -/
def MEMORY : ℕ := 16 * 1024 * 1024

/-- The memory from `msg` on; `touched` lists the bytes that the calls have read or written through
`msg` (not in the source). -/
structure Msg where
  mem : ℕ → UInt8
  touched : List ℕ

namespace Msg

def touch (s : Msg) (i : ℕ) : Msg := { s with touched := i :: s.touched }

def store (s : Msg) (i : ℕ) (c : UInt8) : Msg := { s.touch i with mem := update s.mem i c }

end Msg

/-! ## `sys_m0rtzz` -/

/-- The first loop; `tmp` is what the stack holds before. -/
def readStr (str : ℕ → UInt8) : ℕ → ℕ → (ℕ → UInt8) → ℕ → UInt8
  | 0, _, tmp => tmp
  | k + 1, i, tmp => if str i = 0 then update tmp i 0 else readStr str k (i + 1) (update tmp i (str i))

/-- The second loop. -/
def count (tmp : ℕ → UInt8) : ℕ → ℕ → ℕ
  | 0, i => i
  | k + 1, i => if tmp i ≠ 0 then count tmp k (i + 1) else i

/-- `strcpy(msg, tmp)` when there is a terminator among the next bytes of `tmp`. -/
def strcpy (tmp : ℕ → UInt8) : ℕ → ℕ → Msg → Msg
  | 0, _, s => s
  | k + 1, i, s => if tmp i = 0 then s.store i 0 else strcpy tmp k (i + 1) (s.store i (tmp i))

def sysM0rtzz (str tmp : ℕ → UInt8) (s : Msg) : ℤ × Msg :=
  let tmp := readStr str TMP_SIZE 0 tmp
  let len := count tmp TMP_SIZE 0
  if len > 30 then (-EINVAL, s) else (len, strcpy tmp TMP_SIZE 0 s)

/-! ## `sys_ashore` -/

/-- The loop that counts; memory ends when there is no terminator in it. -/
def scan (s : Msg) : ℕ → ℕ → Option (ℕ × Msg)
  | 0, _ => none
  | k + 1, len => if s.mem len ≠ 0 then scan (s.touch len) k (len + 1) else some (len, s.touch len)

/-- The loop that copies, with what it has put into user space. -/
def copyOut (s : Msg) : ℕ → ℕ → List UInt8 → ℕ × List UInt8 × Msg
  | 0, i, out => (i, out, s)
  | k + 1, i, out =>
    if s.mem i = 0 then (i, out ++ [0], s.touch i)
    else copyOut (s.touch i) k (i + 1) (out ++ [s.mem i])

/-- The result, the bytes put at `str`, and the memory. -/
def sysAshore (size : UInt32) (s : Msg) : Option (ℤ × List UInt8 × Msg) :=
  (scan s MEMORY 0).map fun (len, s) =>
    if len > size.toNat then (-EINVAL, [], s)
    else
      let (i, out, s) := copyOut s size.toNat 0 []
      (i, out, s)

/-! ## Runs -/

/-- `other` is what the rest of the kernel does to its memory, after `msg`. -/
inductive Call
  | m0rtzz (str tmp : ℕ → UInt8)
  | ashore (size : UInt32)
  | other (mem : ℕ → UInt8)

def step : Call → Msg → Option Msg
  | .m0rtzz str tmp, s => some (sysM0rtzz str tmp s).2
  | .ashore size, s => (sysAshore size s).map fun r => r.2.2
  | .other mem, s => some { s with mem := fun i => if i < MSG_SIZE then s.mem i else mem i }

/-- `msg` is zero at first. -/
def boot (mem : ℕ → UInt8) : Msg where
  mem i := if i < MSG_SIZE then 0 else mem i
  touched := []

/-- No byte after `msg` has been used, and there is a terminator in `msg`. -/
def Safe (s : Msg) : Prop := (∀ i ∈ s.touched, i < MSG_SIZE) ∧ ∃ i < MSG_SIZE, s.mem i = 0

/-- The string has `n` characters. -/
def HasLength (str : ℕ → UInt8) (n : ℕ) : Prop := (∀ i < n, str i ≠ 0) ∧ str n = 0

/-- No string of exactly thirty characters. -/
def Fits : Call → Prop
  | .m0rtzz str _ => ¬ HasLength str 30
  | _ => True

variable {str tmp : ℕ → UInt8} {s s' : Msg} {i k m n : ℕ}

/-! ## The loops -/

/-- Up to its terminator the string is in `tmp`. -/
theorem readStr_spec (hm : i ≤ m) (hk : m < i + k) (hstr : ∀ l, i ≤ l → l < m → str l ≠ 0) :
    readStr str k i tmp m = str m := by
  have hbelow : ∀ k i tmp, m < i → readStr str k i tmp m = tmp m := by
    intro k
    induction k with
    | zero => exact fun _ _ _ => rfl
    | succ k ih =>
      intro i tmp hlt
      unfold readStr
      split
      · exact update_of_ne hlt.ne _ _
      · rw [ih (i + 1) _ (by omega), update_of_ne hlt.ne]
  induction k generalizing i tmp with
  | zero => omega
  | succ k ih =>
    unfold readStr
    rcases eq_or_lt_of_le hm with rfl | hlt
    · split
      · rename_i h
        rw [update_self, h]
      · rw [hbelow k _ _ (Nat.lt_succ_self i), update_self]
    · rw [if_neg (hstr i le_rfl hlt)]
      exact ih hlt (by omega) fun l hl => hstr l (by omega)

theorem count_spec (tmp : ℕ → UInt8) (k i : ℕ) : i ≤ count tmp k i ∧ count tmp k i ≤ i + k ∧
    (∀ l, i ≤ l → l < count tmp k i → tmp l ≠ 0) ∧
    (count tmp k i < i + k → tmp (count tmp k i) = 0) := by
  induction k generalizing i with
  | zero =>
    unfold count
    exact ⟨le_rfl, le_rfl, fun l _ _ => by omega, fun h => absurd h (lt_irrefl _)⟩
  | succ k ih =>
    unfold count
    split
    · rename_i hi
      obtain ⟨h₁, h₂, h₃, h₄⟩ := ih (i := i + 1)
      refine ⟨by omega, by omega, fun l hl hlt => ?_, fun h => h₄ (by omega)⟩
      rcases eq_or_lt_of_le hl with rfl | hl
      · exact hi
      · exact h₃ l hl hlt
    · rename_i hi
      exact ⟨le_rfl, by omega, fun l _ _ => by omega, fun _ => not_not.mp hi⟩

/-- The count is the length of the string, when it is less than the size of `tmp`. -/
theorem count_readStr (hn : count (readStr str TMP_SIZE 0 tmp) TMP_SIZE 0 = n) (hlt : n < TMP_SIZE) :
    HasLength str n ∧ HasLength (readStr str TMP_SIZE 0 tmp) n := by
  obtain ⟨-, -, hne, hz⟩ := count_spec (readStr str TMP_SIZE 0 tmp) TMP_SIZE 0
  rw [hn] at hne hz
  have hsame : ∀ m ≤ n, readStr str TMP_SIZE 0 tmp m = str m := by
    intro m
    induction m using Nat.strong_induction_on with
    | h m ih =>
      intro hm
      refine readStr_spec (Nat.zero_le m) (by omega) fun l _ hl => ?_
      rw [← ih l hl (by omega)]
      exact hne l (Nat.zero_le l) (by omega)
  have htmp : HasLength (readStr str TMP_SIZE 0 tmp) n :=
    ⟨fun l hl => hne l (Nat.zero_le l) hl, hz (by omega)⟩
  refine ⟨⟨fun l hl => ?_, ?_⟩, htmp⟩
  · rw [← hsame l hl.le]
    exact htmp.1 l hl
  · rw [← hsame n le_rfl]
    exact htmp.2

/-- A string with its terminator is stored, and nothing else. -/
theorem strcpy_spec (tmp : ℕ → UInt8) (hi : i ≤ n) (hk : n < i + k) (hne : ∀ l, i ≤ l → l < n → tmp l ≠ 0)
    (hz : tmp n = 0) :
    (∀ m, (strcpy tmp k i s).mem m = if i ≤ m ∧ m ≤ n then tmp m else s.mem m) ∧
    ∀ m, m ∈ (strcpy tmp k i s).touched ↔ m ∈ s.touched ∨ i ≤ m ∧ m ≤ n := by
  induction k generalizing i s with
  | zero => omega
  | succ k ih =>
    unfold strcpy
    rcases eq_or_lt_of_le hi with rfl | hlt
    · rw [if_pos hz]
      constructor
      · intro m
        rcases eq_or_ne m i with rfl | hm
        · simp [Msg.store, hz]
        · have : ¬ (i ≤ m ∧ m ≤ i) := by omega
          simp [Msg.store, hm, this]
      · intro m
        have hiff : m = i ↔ i ≤ m ∧ m ≤ i := by omega
        simp only [Msg.store, Msg.touch, List.mem_cons, hiff]
        exact or_comm
    · rw [if_neg (hne i le_rfl hlt)]
      obtain ⟨hmem, htouch⟩ := ih (s := s.store i (tmp i)) hlt (by omega)
        fun l hl => hne l (by omega)
      constructor
      · intro m
        rw [hmem m]
        rcases eq_or_ne m i with rfl | hm
        · rw [if_neg (by omega), if_pos ⟨le_rfl, hi⟩]
          simp [Msg.store]
        · have hiff : (i + 1 ≤ m ∧ m ≤ n) ↔ (i ≤ m ∧ m ≤ n) := by omega
          simp only [hiff]
          simp [Msg.store, hm]
      · intro m
        have hiff : i ≤ m ∧ m ≤ n ↔ m = i ∨ i + 1 ≤ m ∧ m ≤ n := by omega
        rw [htouch m, hiff, ← or_assoc, or_comm (b := m = i)]
        simp only [Msg.store, Msg.touch, List.mem_cons]

/-- The loop ends at the latest where there is a terminator. -/
theorem scan_spec (hi : i ≤ n) (hk : n < i + k) (hz : s.mem n = 0) :
    ∃ len s', scan s k i = some (len, s') ∧ len ≤ n ∧ s'.mem = s.mem ∧
      ∀ m ∈ s'.touched, m ∈ s.touched ∨ m ≤ n := by
  induction k generalizing i s with
  | zero => omega
  | succ k ih =>
    unfold scan
    split
    · rename_i hne
      have hlt : i < n := by
        rcases eq_or_lt_of_le hi with rfl | hlt
        · exact absurd hz hne
        · exact hlt
      obtain ⟨len, s', hs, hlen, hmem, htouch⟩ := ih (s := s.touch i) hlt (by omega) hz
      refine ⟨len, s', hs, hlen, hmem, fun m hm => ?_⟩
      rcases htouch m hm with hm | hm
      · rcases List.mem_cons.mp hm with rfl | hm
        · exact .inr hi
        · exact .inl hm
      · exact .inr hm
    · refine ⟨i, s.touch i, rfl, hi, rfl, fun m hm => ?_⟩
      rcases List.mem_cons.mp hm with rfl | hm
      · exact .inr hi
      · exact .inl hm

theorem copyOut_spec (out : List UInt8) (hi : i ≤ n) (hz : s.mem n = 0) :
    (copyOut s k i out).2.2.mem = s.mem ∧
      ∀ m ∈ (copyOut s k i out).2.2.touched, m ∈ s.touched ∨ m ≤ n := by
  induction k generalizing i s out with
  | zero => exact ⟨rfl, fun m hm => .inl hm⟩
  | succ k ih =>
    unfold copyOut
    split
    · refine ⟨rfl, fun m hm => ?_⟩
      rcases List.mem_cons.mp hm with rfl | hm
      · exact .inr hi
      · exact .inl hm
    · rename_i hne
      have hlt : i < n := by
        rcases eq_or_lt_of_le hi with rfl | hlt
        · exact absurd hz hne
        · exact hlt
      obtain ⟨hmem, htouch⟩ := ih (s := s.touch i) (out ++ [s.mem i]) hlt hz
      refine ⟨hmem, fun m hm => ?_⟩
      rcases htouch m hm with hm | hm
      · rcases List.mem_cons.mp hm with rfl | hm
        · exact .inr hi
        · exact .inl hm
      · exact .inr hm

/-! ## The last byte of `msg` -/

/-- The last byte of `msg` is never anything but the terminator. -/
structure Sound (s : Msg) : Prop where
  touched : ∀ i ∈ s.touched, i < MSG_SIZE
  last : s.mem (MSG_SIZE - 1) = 0

theorem Sound.safe (h : Sound s) : Safe s := ⟨h.touched, MSG_SIZE - 1, by decide, h.last⟩

theorem sound_boot (mem : ℕ → UInt8) : Sound (boot mem) := ⟨nofun, rfl⟩

theorem Sound.m0rtzz (h : Sound s) (hfits : ¬ HasLength str 30) : Sound (sysM0rtzz str tmp s).2 := by
  unfold sysM0rtzz
  dsimp only
  generalize hn : count (readStr str TMP_SIZE 0 tmp) TMP_SIZE 0 = n
  split
  · exact h
  · rename_i hle
    obtain ⟨hstr, htmp⟩ := count_readStr hn (by unfold TMP_SIZE; omega)
    have hlt : n < 30 := by
      rcases eq_or_lt_of_le (Nat.le_of_not_lt hle) with rfl | hlt
      · exact absurd hstr hfits
      · exact hlt
    obtain ⟨hmem, htouch⟩ := strcpy_spec _ (s := s) (Nat.zero_le n) (k := TMP_SIZE)
      (by unfold TMP_SIZE; omega) (fun l _ => htmp.1 l) htmp.2
    refine ⟨fun m hm => ?_, ?_⟩
    · rcases (htouch m).mp hm with hm | hm
      · exact h.touched m hm
      · unfold MSG_SIZE
        omega
    · rw [hmem]
      split
      · rename_i hle'
        obtain rfl : n = MSG_SIZE - 1 := by
          unfold MSG_SIZE at hle' ⊢
          omega
        exact htmp.2
      · exact h.last

/-- `sys_ashore` returns, and uses only what is in `msg`. -/
theorem Sound.ashore (h : Sound s) (size : UInt32) :
    ∃ ret out s', sysAshore size s = some (ret, out, s') ∧ Sound s' := by
  obtain ⟨len, s', hs, -, hmem, htouch⟩ := scan_spec (k := MEMORY) (Nat.zero_le (MSG_SIZE - 1))
    (by decide) h.last
  have h' : Sound s' := by
    refine ⟨fun m hm => ?_, by rw [hmem]; exact h.last⟩
    rcases htouch m hm with hm | hm
    · exact h.touched m hm
    · exact Nat.lt_of_le_of_lt hm (by decide)
  unfold sysAshore
  rw [hs, Option.map_some]
  dsimp only
  split
  · exact ⟨_, _, _, rfl, h'⟩
  · refine ⟨_, _, _, rfl, ?_⟩
    obtain ⟨hmem, htouch⟩ := copyOut_spec (k := size.toNat) [] (Nat.zero_le (MSG_SIZE - 1)) h'.last
    refine ⟨fun m hm => ?_, by rw [hmem]; exact h'.last⟩
    rcases htouch m hm with hm | hm
    · exact h'.touched m hm
    · unfold MSG_SIZE at hm ⊢
      omega

theorem Sound.step {c : Call} (h : Sound s) (hfits : Fits c) (hs : step c s = some s') : Sound s' := by
  cases c with
  | m0rtzz str tmp =>
    obtain rfl := Option.some.inj hs
    exact h.m0rtzz hfits
  | ashore size =>
    obtain ⟨ret, out, s₁, h₁, hsound⟩ := h.ashore size
    simp only [M0rtzz.step, h₁, Option.map_some] at hs
    obtain rfl := Option.some.inj hs
    exact hsound
  | other mem =>
    obtain rfl := Option.some.inj hs
    refine ⟨h.touched, ?_⟩
    dsimp only
    rw [if_pos (by decide)]
    exact h.last

/-- The terminator of a string of thirty characters goes behind `msg`. -/
theorem not_safe_m0rtzz (hlen : HasLength str 30) : ¬ Safe (sysM0rtzz str tmp s).2 := by
  intro hsafe
  have hsame : ∀ m ≤ 30, readStr str TMP_SIZE 0 tmp m = str m := fun m hm =>
    readStr_spec (Nat.zero_le m) (by unfold TMP_SIZE; omega) fun l _ hl => hlen.1 l (by omega)
  have hcount : count (readStr str TMP_SIZE 0 tmp) TMP_SIZE 0 = 30 := by
    obtain ⟨-, hle, hne, hz⟩ := count_spec (readStr str TMP_SIZE 0 tmp) TMP_SIZE 0
    rcases Nat.lt_trichotomy (count (readStr str TMP_SIZE 0 tmp) TMP_SIZE 0) 30 with hlt | heq | hgt
    · have h₀ := hz (by unfold TMP_SIZE at hlt ⊢; omega)
      rw [hsame _ hlt.le] at h₀
      exact absurd h₀ (hlen.1 _ hlt)
    · exact heq
    · have h₀ := hne 30 (by omega) hgt
      rw [hsame 30 le_rfl] at h₀
      exact absurd hlen.2 h₀
  unfold sysM0rtzz at hsafe
  simp only [hcount, lt_irrefl, if_false] at hsafe
  obtain ⟨-, htouch⟩ := strcpy_spec (readStr str TMP_SIZE 0 tmp) (s := s) (k := TMP_SIZE)
    (Nat.zero_le 30) (by decide) (fun l _ hl => by rw [hsame l hl.le]; exact hlen.1 l hl)
    (by rw [hsame 30 le_rfl]; exact hlen.2)
  have := hsafe.1 30 ((htouch 30).mpr (.inr ⟨Nat.zero_le _, le_rfl⟩))
  exact absurd this (by decide)

/-- In every run the calls stay within `msg`, and there is a terminator in it, exactly when no call
of `sys_m0rtzz` is given a string of thirty characters. -/
theorem msg_safe (mem : ℕ → UInt8) (calls : List Call) :
    Throughout step Safe calls (boot mem) ↔ Each step (fun _ c => Fits c) calls (boot mem) := by
  refine throughout_iff_each (I := Sound) (fun _ => Sound.safe) ?_ ?_ (sound_boot mem)
  · exact fun s c s' h hfits hs => h.step hfits hs
  · intro s c s' h hs hsafe
    cases c with
    | m0rtzz str tmp =>
      obtain rfl := Option.some.inj hs
      exact fun hlen => not_safe_m0rtzz hlen hsafe
    | ashore size => trivial
    | other mem => trivial

/-- Thirty characters `a`. -/
def thirty (i : ℕ) : UInt8 := if i < 30 then 97 else 0

/-- The byte behind `msg` is written, and there is no terminator in `msg`. -/
theorem msg_overrun :
    30 ∈ (sysM0rtzz thirty (fun _ => 0) (boot fun _ => 0)).2.touched ∧
    (∀ i < MSG_SIZE, (sysM0rtzz thirty (fun _ => 0) (boot fun _ => 0)).2.mem i ≠ 0) ∧
    ¬ Throughout step Safe [.m0rtzz thirty fun _ => 0] (boot fun _ => 0) := by
  refine ⟨by decide +kernel, by decide +kernel, fun h => ?_⟩
  exact not_safe_m0rtzz (by unfold HasLength; decide) (h.2 _ rfl)

end Linux012.M0rtzz
