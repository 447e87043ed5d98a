import Linux012.Kernel.M0rtzz

/-! # What comes back from the message buffer

`sys_ashore` answers with the string that `sys_m0rtzz` accepted last. The two disagree on a buffer with
room for the string and none for its terminator.
-/

namespace Linux012.M0rtzz

open Function Runs

/-- The characters of a string before its terminator. -/
def text (str : ℕ → UInt8) : ℕ → ℕ → List UInt8
  | 0, _ => []
  | k + 1, i => if str i = 0 then [] else str i :: text str k (i + 1)

/-- The memory with the argument of the last accepted call of `sys_m0rtzz` (not in the source). -/
structure Log where
  msg : Msg
  last : List UInt8

def start (mem : ℕ → UInt8) : Log := ⟨boot mem, []⟩

/-- The run goes on after a call of `sys_ashore` that finds no terminator. -/
def record : Call → Log → Option Log
  | .m0rtzz str tmp, l =>
    let r := sysM0rtzz str tmp l.msg
    some ⟨r.2, if 0 ≤ r.1 then text str TMP_SIZE 0 else l.last⟩
  | c, l => some { l with msg := (step c l.msg).getD l.msg }

/-- `sys_m0rtzz` returns the length of the string or refuses it. `sys_ashore` hands out the last string
with its terminator, or refuses when there is no room for it. -/
def Answers (l : Log) : Call → Prop
  | .m0rtzz str tmp =>
    (∃ n, HasLength str n ∧ (sysM0rtzz str tmp l.msg).1 = n) ∨
      (sysM0rtzz str tmp l.msg).1 = -EINVAL ∧ (sysM0rtzz str tmp l.msg).2.mem = l.msg.mem
  | .ashore size => ∃ s' : Msg, s'.mem = l.msg.mem ∧ sysAshore size l.msg =
      some (if l.last.length < size.toNat then ((l.last.length : ℤ), l.last ++ [0], s')
        else (-EINVAL, [], s'))
  | .other _ => True

/-- The size is not the length of the string. When the rest of the kernel has overwritten the
terminator, which lies behind `msg` for a string of thirty characters, the buffer is too small, and
there is another terminator in memory. -/
def Suits (l : Log) : Call → Prop
  | .ashore size =>
    if l.msg.mem l.last.length = 0 then size.toNat ≠ l.last.length
    else size.toNat ≤ l.last.length ∧ ∃ n < MEMORY, l.last.length < n ∧ l.msg.mem n = 0
  | _ => True

variable {str tmp : ℕ → UInt8} {s : Msg} {l : Log} {i k m n : ℕ}

/-! ## The loops -/

theorem text_eq (h : HasLength str n) (hi : i ≤ n) (hk : n ≤ i + k) :
    text str k i = (List.range' i (n - i)).map str := by
  induction k generalizing i with
  | zero =>
    obtain rfl : i = n := by omega
    rw [Nat.sub_self]
    rfl
  | succ k ih =>
    rw [text]
    rcases eq_or_lt_of_le hi with rfl | hlt
    · rw [if_pos h.2, Nat.sub_self]
      rfl
    · rw [if_neg (h.1 i hlt), ih hlt (by omega), show n - i = n - (i + 1) + 1 by omega,
        List.range'_succ, List.map_cons]

/-- The loop ends at the first terminator. -/
theorem scan_eq (hi : i ≤ n) (hk : n < i + k) (hne : ∀ m, i ≤ m → m < n → s.mem m ≠ 0) (hz : s.mem n = 0) :
    ∃ s', scan s k i = some (n, s') ∧ s'.mem = s.mem := by
  induction k generalizing i s with
  | zero => omega
  | succ k ih =>
    unfold scan
    rcases eq_or_lt_of_le hi with rfl | hlt
    · rw [if_neg (not_not.mpr hz)]
      exact ⟨_, rfl, rfl⟩
    · rw [if_pos (hne i le_rfl hlt)]
      exact ih (s := s.touch i) hlt (by omega) (fun m hm => hne m (by omega)) hz

theorem scan_none (hne : ∀ m, i ≤ m → m < i + k → s.mem m ≠ 0) : scan s k i = none := by
  induction k generalizing i s with
  | zero => rfl
  | succ k ih =>
    unfold scan
    rw [if_pos (hne i le_rfl (by omega))]
    exact ih (s := s.touch i) fun m hm hlt => hne m (by omega) (by omega)

/-- The loop copies the string with its terminator, or as much of it as there is room for. -/
theorem copyOut_eq (str : List UInt8) (hk : str.length < k) (out : List UInt8)
    (hstr : ∀ m, (hm : m < str.length) → s.mem (i + m) = str[m] ∧ str[m] ≠ 0)
    (hz : s.mem (i + str.length) = 0) :
    ∃ s', copyOut s k i out = (i + str.length, out ++ str ++ [0], s') ∧ s'.mem = s.mem := by
  induction str generalizing i s k out with
  | nil =>
    cases k with
    | zero => exact absurd hk (Nat.not_lt_zero _)
    | succ k =>
      unfold copyOut
      rw [List.length_nil, Nat.add_zero] at hz
      rw [if_pos hz, List.length_nil, List.append_nil]
      exact ⟨_, rfl, rfl⟩
  | cons c str ih =>
    cases k with
    | zero => exact absurd hk (Nat.not_lt_zero _)
    | succ k =>
      rw [List.length_cons] at hk hz ⊢
      obtain ⟨hc, hne⟩ := hstr 0 (by simp)
      rw [Nat.add_zero, List.getElem_cons_zero] at hc
      unfold copyOut
      rw [if_neg (by rw [hc]; exact hne), hc]
      obtain ⟨s', hs', hmem⟩ := ih (s := s.touch i) (i := i + 1) (k := k) (by omega) (out ++ [c])
        (fun m hm => by
          have := hstr (m + 1) (by rw [List.length_cons]; omega)
          rw [List.getElem_cons_succ] at this
          rwa [show i + (m + 1) = i + 1 + m by omega] at this)
        (by rw [← hz]; exact congrArg s.mem (by omega))
      refine ⟨s', ?_, hmem⟩
      rw [hs', List.append_assoc out [c]]
      congr 1
      omega

/-- Without a terminator among them the bytes are copied to the end of the buffer. -/
theorem copyOut_full (out : List UInt8) (hne : ∀ m, i ≤ m → m < i + k → s.mem m ≠ 0) :
    ∃ s', copyOut s k i out = (i + k, out ++ (List.range k).map (fun m => s.mem (i + m)), s') := by
  induction k generalizing i s out with
  | zero => exact ⟨s, by simp [copyOut]⟩
  | succ k ih =>
    unfold copyOut
    rw [if_neg (hne i le_rfl (by omega))]
    obtain ⟨s', hs'⟩ := ih (s := s.touch i) (i := i + 1) (out ++ [s.mem i])
      fun m hm hlt => hne m (by omega) (by omega)
    refine ⟨s', ?_⟩
    rw [hs', List.range_succ_eq_map]
    simp [Msg.touch, Nat.add_assoc, Nat.add_comm 1]

/-! ## Runs -/

/-- `msg` holds the last string, and its terminator unless that lies behind `msg`. -/
structure Holds (l : Log) : Prop where
  chars : ∀ m, (hm : m < l.last.length) → l.msg.mem m = l.last[m] ∧ l.last[m] ≠ 0
  length : l.last.length ≤ MSG_SIZE
  terminator : l.last.length < MSG_SIZE → l.msg.mem l.last.length = 0

theorem holds_start (mem : ℕ → UInt8) : Holds (start mem) :=
  ⟨fun m hm => absurd hm (Nat.not_lt_zero m), Nat.zero_le _, fun _ => rfl⟩

/-- What `sys_m0rtzz` does with a string -/
theorem sysM0rtzz_cases (str tmp : ℕ → UInt8) (s : Msg) : sysM0rtzz str tmp s = (-EINVAL, s) ∨
    ∃ n ≤ MSG_SIZE, HasLength str n ∧ (sysM0rtzz str tmp s).1 = n ∧
      ∀ m, (sysM0rtzz str tmp s).2.mem m = if m ≤ n then str m else s.mem m := by
  unfold sysM0rtzz
  dsimp only
  generalize hn : count (readStr str TMP_SIZE 0 tmp) TMP_SIZE 0 = n
  split
  · exact .inl rfl
  · rename_i hle
    obtain ⟨hstr, htmp⟩ := count_readStr hn (by unfold TMP_SIZE; omega)
    obtain ⟨hmem, -⟩ := strcpy_spec _ (s := s) (Nat.zero_le n) (k := TMP_SIZE)
      (by unfold TMP_SIZE; omega) (fun l _ => htmp.1 l) htmp.2
    refine .inr ⟨n, by unfold MSG_SIZE; omega, hstr, rfl, fun m => ?_⟩
    rw [hmem]
    by_cases hm : m ≤ n
    · rw [if_pos ⟨Nat.zero_le m, hm⟩, if_pos hm]
      exact readStr_spec (Nat.zero_le m) (by unfold TMP_SIZE; omega) fun l _ hl => hstr.1 l (by omega)
    · rw [if_neg (fun h => hm h.2), if_neg hm]

/-- `sys_ashore` only reads memory. -/
theorem sysAshore_mem {size : UInt32} {r : ℤ × List UInt8 × Msg} (h : sysAshore size s = some r) :
    r.2.2.mem = s.mem := by
  have hscan : ∀ k i (s : Msg) r, scan s k i = some r → r.2.mem = s.mem := by
    intro k
    induction k with
    | zero => exact fun _ _ _ h => nomatch h
    | succ k ih =>
      intro i s r h
      unfold scan at h
      split at h
      · exact ih (i + 1) (s.touch i) r h
      · cases h
        rfl
  have hcopy : ∀ k i (s : Msg) out, (copyOut s k i out).2.2.mem = s.mem := by
    intro k
    induction k with
    | zero => exact fun _ _ _ => rfl
    | succ k ih =>
      intro i s out
      unfold copyOut
      split
      · rfl
      · exact ih (i + 1) (s.touch i) _
  obtain ⟨⟨len, s'⟩, hs', rfl⟩ := Option.map_eq_some_iff.mp h
  dsimp only
  split
  · exact hscan _ _ _ _ hs'
  · exact (hcopy _ _ _ _).trans (hscan _ _ _ _ hs')

theorem Holds.congr {l' : Log} (h : Holds l) (hlast : l'.last = l.last)
    (hmem : ∀ m < MSG_SIZE, l'.msg.mem m = l.msg.mem m) : Holds l' := by
  obtain ⟨msg, last⟩ := l'
  obtain rfl : last = l.last := hlast
  refine ⟨fun m hm => ?_, h.length, fun hlt => ?_⟩
  · rw [hmem m (hm.trans_le h.length)]
    exact h.chars m hm
  · rw [hmem _ hlt]
    exact h.terminator hlt

theorem Holds.record {c : Call} {l' : Log} (h : Holds l) (hs : record c l = some l') : Holds l' := by
  cases c with
  | m0rtzz str tmp =>
    obtain rfl := Option.some.inj hs
    rcases sysM0rtzz_cases str tmp l.msg with hr | ⟨n, hn, hstr, hr, hmem⟩
    · refine h.congr ?_ fun m _ => ?_
      · dsimp only
        rw [hr]
        exact if_neg (show ¬ (0 : ℤ) ≤ -EINVAL by decide)
      · dsimp only
        rw [hr]
    · have hlast : (List.range' 0 n).map str = text str TMP_SIZE 0 :=
        (text_eq hstr (Nat.zero_le n) (by unfold MSG_SIZE at hn; unfold TMP_SIZE; omega)).symm
      rw [hr, if_pos (Int.natCast_nonneg n), ← hlast]
      refine ⟨fun m hm => ?_, ?_, fun _ => ?_⟩
      · dsimp only at hm ⊢
        rw [List.length_map, List.length_range'] at hm
        rw [hmem, if_pos hm.le, List.getElem_map, List.getElem_range']
        simp only [Nat.zero_add, Nat.one_mul, true_and]
        exact hstr.1 m hm
      · rw [List.length_map, List.length_range']
        exact hn
      · dsimp only
        rw [List.length_map, List.length_range', hmem, if_pos le_rfl]
        exact hstr.2
  | ashore size =>
    obtain rfl := Option.some.inj hs
    refine h.congr rfl fun m _ => ?_
    dsimp only [step]
    cases hr : sysAshore size l.msg with
    | none => rfl
    | some r => exact congrFun (sysAshore_mem hr) m
  | other mem =>
    obtain rfl := Option.some.inj hs
    exact h.congr rfl fun m hm => if_pos hm

/-- With the terminator in its place `sys_ashore` answers right on every other size. -/
theorem Holds.answers_of_terminator (h : Holds l) (hz : l.msg.mem l.last.length = 0) (size : UInt32) :
    Answers l (.ashore size) ↔ size.toNat ≠ l.last.length := by
  have hmem : MSG_SIZE < MEMORY := by decide
  obtain ⟨s₁, hscan, hs₁⟩ := scan_eq (s := l.msg) (k := MEMORY) (Nat.zero_le l.last.length)
    (by have := h.length; omega) (fun m _ hm => by rw [(h.chars m hm).1]; exact (h.chars m hm).2) hz
  have hsys : sysAshore size l.msg = some (if l.last.length > size.toNat then (-EINVAL, [], s₁)
      else ((copyOut s₁ size.toNat 0 []).1, (copyOut s₁ size.toNat 0 []).2)) := by
    unfold sysAshore
    rw [hscan, Option.map_some]
  dsimp only [Answers]
  rw [hsys]
  rcases Nat.lt_trichotomy size.toNat l.last.length with hlt | heq | hgt
  · refine iff_of_true ⟨s₁, hs₁, ?_⟩ hlt.ne
    rw [if_pos hlt, if_neg (by omega)]
  · refine iff_of_false ?_ (not_not.mpr heq)
    rintro ⟨s', -, hs'⟩
    rw [if_neg (by omega), if_neg (by omega)] at hs'
    obtain ⟨s₂, hcopy⟩ := copyOut_full (s := s₁) (k := size.toNat) (i := 0) [] fun m _ hm => by
      rw [hs₁, (h.chars m (by omega)).1]
      exact (h.chars m (by omega)).2
    rw [hcopy] at hs'
    have hret : ((0 + size.toNat : ℕ) : ℤ) = -EINVAL := congrArg Prod.fst (Option.some.inj hs')
    unfold EINVAL at hret
    omega
  · refine iff_of_true ?_ hgt.ne'
    obtain ⟨s₂, hcopy, hs₂⟩ := copyOut_eq (s := s₁) (i := 0) l.last (k := size.toNat) (by omega) []
      (fun m hm => by rw [Nat.zero_add, hs₁]; exact h.chars m hm) (by rw [Nat.zero_add, hs₁]; exact hz)
    refine ⟨s₂, hs₂.trans hs₁, ?_⟩
    rw [if_neg (by omega), if_pos hgt, hcopy, Nat.zero_add, List.nil_append]

/-- With the terminator overwritten the string appears to be longer. -/
theorem Holds.answers_of_overwritten (h : Holds l) (hz : l.msg.mem l.last.length ≠ 0) (size : UInt32) :
    Answers l (.ashore size) ↔
      size.toNat ≤ l.last.length ∧ ∃ n < MEMORY, l.last.length < n ∧ l.msg.mem n = 0 := by
  have hne : ∀ m ≤ l.last.length, l.msg.mem m ≠ 0 := by
    intro m hm
    rcases eq_or_lt_of_le hm with rfl | hlt
    · exact hz
    · rw [(h.chars m hlt).1]
      exact (h.chars m hlt).2
  by_cases hex : ∃ n < MEMORY, l.msg.mem n = 0
  · obtain ⟨hn, hz'⟩ := Nat.find_spec hex
    have hmin : ∀ m < Nat.find hex, l.msg.mem m ≠ 0 := fun m hm h₀ =>
      Nat.find_min hex hm ⟨hm.trans hn, h₀⟩
    generalize Nat.find hex = n at hn hz' hmin
    have hlt : l.last.length < n := by
      by_contra hle
      exact hne n (by omega) hz'
    obtain ⟨s₁, hscan, hs₁⟩ := scan_eq (s := l.msg) (k := MEMORY) (Nat.zero_le n) (by omega)
      (fun m _ hm => hmin m hm) hz'
    have hsys : sysAshore size l.msg = some (if n > size.toNat then (-EINVAL, [], s₁)
        else ((copyOut s₁ size.toNat 0 []).1, (copyOut s₁ size.toNat 0 []).2)) := by
      unfold sysAshore
      rw [hscan, Option.map_some]
    dsimp only [Answers]
    rw [hsys]
    by_cases hsize : size.toNat ≤ l.last.length
    · refine iff_of_true ⟨s₁, hs₁, ?_⟩ ⟨hsize, n, hn, hlt, hz'⟩
      rw [if_pos (show n > size.toNat by omega), if_neg (show ¬ l.last.length < size.toNat by omega)]
    · refine iff_of_false ?_ fun h => hsize h.1
      rintro ⟨s', -, hs'⟩
      rw [if_pos (show l.last.length < size.toNat by omega)] at hs'
      have hret := congrArg Prod.fst (Option.some.inj hs')
      have hword : ∀ m, (hm : m < ((List.range' 0 n).map l.msg.mem).length) →
          s₁.mem (0 + m) = ((List.range' 0 n).map l.msg.mem)[m] ∧ ((List.range' 0 n).map l.msg.mem)[m] ≠ 0 := by
        intro m hm
        rw [List.length_map, List.length_range'] at hm
        rw [hs₁, List.getElem_map, List.getElem_range', Nat.one_mul, Nat.zero_add]
        exact ⟨rfl, hmin m hm⟩
      have hlen : ((List.range' 0 n).map l.msg.mem).length = n := by
        rw [List.length_map, List.length_range']
      rcases Nat.lt_trichotomy size.toNat n with hshort | heq | hroom
      · rw [if_pos hshort] at hret
        dsimp only at hret
        unfold EINVAL at hret
        omega
      · obtain ⟨s₂, hcopy⟩ := copyOut_full (s := s₁) (k := size.toNat) (i := 0) [] fun m _ hm => by
          rw [hs₁]
          exact hmin m (by omega)
        rw [if_neg (show ¬ n > size.toNat by omega), hcopy] at hret
        dsimp only at hret
        omega
      · obtain ⟨s₂, hcopy, -⟩ := copyOut_eq (s := s₁) (i := 0) _ (k := size.toNat) (by rw [hlen]; exact hroom)
          [] hword (by rw [hlen, Nat.zero_add, hs₁]; exact hz')
        rw [if_neg (show ¬ n > size.toNat by omega), hcopy, hlen] at hret
        dsimp only at hret
        omega
  · refine iff_of_false ?_ ?_
    · rintro ⟨s', -, hs'⟩
      have hscan : scan l.msg MEMORY 0 = none :=
        scan_none fun m _ hm h₀ => hex ⟨m, by omega, h₀⟩
      unfold sysAshore at hs'
      rw [hscan] at hs'
      cases hs'
    · rintro ⟨-, n, hn, -, hz'⟩
      exact hex ⟨n, hn, hz'⟩

theorem Holds.answers_iff (h : Holds l) (c : Call) : Answers l c ↔ Suits l c := by
  cases c with
  | m0rtzz str tmp =>
    refine iff_of_true ?_ trivial
    rcases sysM0rtzz_cases str tmp l.msg with hr | ⟨n, -, hstr, hr, -⟩
    · right
      rw [hr]
      exact ⟨rfl, rfl⟩
    · exact .inl ⟨n, hstr, hr⟩
  | ashore size =>
    dsimp only [Suits]
    split
    · exact h.answers_of_terminator ‹_› size
    · exact h.answers_of_overwritten ‹_› size
  | other mem => exact Iff.rfl

/-- In every run the calls answer right exactly when no call of `sys_ashore` is for just the characters
of the string, and none comes after its terminator behind `msg` was overwritten. -/
theorem each_answers_iff (mem : ℕ → UInt8) (calls : List Call) :
    Each record Answers calls (start mem) ↔ Each record Suits calls (start mem) :=
  each_congr (I := Holds) (fun _ _ _ h _ hs => h.record hs) (fun _ c h => h.answers_iff c) (holds_start mem)

/-- The string `a`. -/
def single (i : ℕ) : UInt8 := if i < 1 then 97 else 0

/-- The character is handed out without its terminator. -/
theorem not_answers_single :
    ((sysAshore 1 (sysM0rtzz single (fun _ => 0) (boot fun _ => 0)).2).map fun r => (r.1, r.2.1)) =
      some (1, [97]) ∧
    ¬ Each record Answers [.m0rtzz single fun _ => 0, .ashore 1] (start fun _ => 0) := by
  have hout : ((sysAshore 1 (sysM0rtzz single (fun _ => 0) (boot fun _ => 0)).2).map
      fun r => (r.1, r.2.1)) = some (1, [97]) := by decide +kernel
  refine ⟨hout, fun h => ?_⟩
  obtain ⟨-, h⟩ := h _ rfl
  obtain ⟨⟨s', -, hs'⟩, -⟩ := h _ rfl
  rw [if_pos (by decide +kernel), if_neg (by decide +kernel)] at hs'
  have hret := hout.symm.trans (congrArg (Option.map fun r => (r.1, r.2.1)) hs')
  have hone : (1 : ℤ) = -EINVAL := congrArg Prod.fst (Option.some.inj hret)
  exact absurd hone (by decide)

end Linux012.M0rtzz
