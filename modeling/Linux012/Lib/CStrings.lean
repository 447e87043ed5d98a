import Linux012.Lib.X86

/-! # Strings in memory

Bytes in a row of addresses that wraps around, strings that a zero ends, and what the repeated string
instructions do with them.
-/

namespace X86

open Function

variable {m : Mem} {a b x : Addr} {c : Byte} {l l' : List Byte} {n : ℕ} {s t : Cpu} {r : Reg}

/-- From `a` on the memory holds `l`. -/
def Holds (m : Mem) : Addr → List Byte → Prop
  | _, [] => True
  | a, c :: l => m a = c ∧ Holds m (a + 1) l

instance Holds.decidable (m : Mem) : ∀ (a : Addr) (l : List Byte), Decidable (Holds m a l)
  | _, [] => isTrue trivial
  | a, c :: l =>
    have := Holds.decidable m (a + 1) l
    inferInstanceAs (Decidable (m a = c ∧ _))

/-- From `a` on the memory holds `l`, in which there is no zero, and then a zero. -/
structure Str (m : Mem) (a : Addr) (l : List Byte) : Prop where
  holds : Holds m a (l ++ [0])
  zero_notMem : 0 ∉ l

/-- `l` is written from `a` on. -/
def write (m : Mem) (a : Addr) (l : List Byte) : Mem := fun x => (l[(x - a).toNat]?).getD (m x)

/-- A memory with two strings -/
def twoStrings (l l' : List Byte) : Mem := write (write (fun _ => 0) 0x1000 (l ++ [0])) 0x2000 (l' ++ [0])

/-- The first `n` bytes from `a` on. -/
def bytes (m : Mem) (a : Addr) : ℕ → List Byte
  | 0 => []
  | n + 1 => m a :: bytes m (a + 1) n

@[simp] theorem length_bytes : (bytes m a n).length = n := by
  induction n generalizing a with
  | zero => rfl
  | succ n ih => rw [bytes, List.length_cons, ih]

theorem holds_bytes : Holds m a (bytes m a n) := by
  induction n generalizing a with
  | zero => trivial
  | succ n ih => exact ⟨rfl, ih⟩

theorem ofNat_succ (n : ℕ) : BitVec.ofNat 32 (n + 1) = 1 + BitVec.ofNat 32 n := by
  rw [Nat.add_comm]
  exact BitVec.ofNat_add 1 n

theorem add_ofNat_succ (a : Addr) (n : ℕ) : a + BitVec.ofNat 32 (n + 1) = a + 1 + BitVec.ofNat 32 n := by
  rw [ofNat_succ, BitVec.add_assoc]

theorem addr_sub_sub (a b c : Addr) : a - b - c = a - (b + c) := by bv_omega

theorem holds_append : Holds m a (l ++ l') ↔ Holds m a l ∧ Holds m (a + BitVec.ofNat 32 l.length) l' := by
  induction l generalizing a with
  | nil => simp [Holds]
  | cons c l ih =>
    rw [List.cons_append, Holds, ih, Holds, List.length_cons, add_ofNat_succ, and_assoc]

/-- The distance from `a`, in which the addresses are counted. -/
theorem sub_toNat_succ (hx : x ≠ a) : (x - a).toNat = (x - (a + 1)).toNat + 1 := by
  bv_omega

theorem toNat_sub_add {k : ℕ} (hk : k < 2 ^ 32) :
    k ≤ (x - a).toNat ∧ (x - (a + BitVec.ofNat 32 k)).toNat = (x - a).toNat - k ∨
      (x - a).toNat < k ∧ (x - (a + BitVec.ofNat 32 k)).toNat = (x - a).toNat + 2 ^ 32 - k := by
  rw [← addr_sub_sub, BitVec.toNat_sub (x - a), BitVec.toNat_ofNat, Nat.mod_eq_of_lt hk]
  have hlt := (x - a).isLt
  generalize (x - a).toNat = n at *
  rcases Nat.lt_or_ge n k with h | h
  · exact .inr ⟨h, by rw [Nat.mod_eq_of_lt (by omega)]; omega⟩
  · refine .inl ⟨h, ?_⟩
    rw [show 2 ^ 32 - k + n = n - k + 2 ^ 32 by omega, Nat.add_mod_right, Nat.mod_eq_of_lt (by omega)]

theorem Holds.congr {m' : Mem} (h : Holds m a l) (hm : ∀ x, (x - a).toNat < l.length → m' x = m x)
    (hlen : l.length ≤ 2 ^ 32) : Holds m' a l := by
  induction l generalizing a with
  | nil => trivial
  | cons c l ih =>
    rw [List.length_cons] at hm hlen
    refine ⟨(hm a (by simp)).trans h.1, ih h.2 (fun x hx => ?_) (by omega)⟩
    by_cases hxa : x = a
    · subst hxa
      exact hm x (by simp)
    · exact hm x (by rw [sub_toNat_succ hxa]; omega)

theorem write_nil : write m a [] = m := rfl

theorem write_of_le (h : l.length ≤ (x - a).toNat) : write m a l x = m x := by
  rw [write, List.getElem?_eq_none h]
  rfl

theorem write_cons (hlen : l.length < 2 ^ 32) : write m a (c :: l) = write (update m a c) (a + 1) l := by
  funext x
  by_cases hx : x = a
  · subst hx
    have h1 : (x - (x + 1)).toNat = 2 ^ 32 - 1 := by bv_omega
    rw [write_of_le (l := l) (by omega), update_self, write, BitVec.sub_self]
    rfl
  · rw [write, write, sub_toNat_succ hx, List.getElem?_cons_succ, update_of_ne hx]

theorem write_append (hlen : (l ++ l').length ≤ 2 ^ 32) :
    write m a (l ++ l') = write (write m a l) (a + BitVec.ofNat 32 l.length) l' := by
  induction l generalizing m a with
  | nil => simp [write_nil]
  | cons c l ih =>
    rw [List.cons_append, List.length_cons] at hlen
    have hl : l.length < 2 ^ 32 := by
      rw [List.length_append] at hlen
      omega
    rw [List.cons_append, write_cons (by omega), ih (by omega), write_cons hl, List.length_cons, add_ofNat_succ]

theorem Holds.get (h : Holds m a l) {i : ℕ} (hi : i < l.length) : m (a + BitVec.ofNat 32 i) = l[i] := by
  induction l generalizing a i with
  | nil => exact absurd hi (Nat.not_lt_zero i)
  | cons c l ih =>
    cases i with
    | zero => simpa using h.1
    | succ i =>
      rw [add_ofNat_succ]
      exact ih h.2 (Nat.lt_of_succ_lt_succ hi)

theorem ofNat_mod (n : ℕ) : BitVec.ofNat 32 (n % 2 ^ 32) = BitVec.ofNat 32 n :=
  BitVec.eq_of_toNat_eq (by simp)

theorem Str.length_lt (h : Str m a l) : l.length < 2 ^ 32 := by
  by_contra hle
  have hmod : l.length % 2 ^ 32 < l.length := (Nat.mod_lt _ (by decide)).trans_le (not_lt.mp hle)
  obtain ⟨hl, h0, -⟩ := holds_append.mp h.holds
  have hget := hl.get hmod
  rw [ofNat_mod, h0] at hget
  exact h.zero_notMem (hget ▸ List.getElem_mem hmod)

theorem Str.head (h : Str m a (c :: l)) : m a = c ∧ c ≠ 0 ∧ Str m (a + 1) l :=
  ⟨h.holds.1, fun h0 => h.zero_notMem (h0 ▸ List.mem_cons_self), h.holds.2,
    fun hm => h.zero_notMem (List.mem_cons_of_mem c hm)⟩

theorem Str.tail (h : Str m a (l ++ l')) : Str m (a + BitVec.ofNat 32 l.length) l' := by
  obtain ⟨hh, h0⟩ := h
  rw [List.append_assoc, holds_append] at hh
  exact ⟨hh.2, fun hm => h0 (List.mem_append_right l hm)⟩

theorem Str.congr {m' : Mem} (h : Str m a l) (hm : ∀ x, (x - a).toNat ≤ l.length → m' x = m x) : Str m' a l := by
  have hlt := h.length_lt
  refine ⟨h.holds.congr (fun x hx => hm x ?_) ?_, h.zero_notMem⟩
  · rw [List.length_append, List.length_singleton] at hx
    omega
  · rw [List.length_append, List.length_singleton]
    omega

/-- The bytes from `a` on up to a zero, at most `n` -/
def upto (m : Mem) : Addr → ℕ → List Byte
  | _, 0 => []
  | a, n + 1 => if m a = 0 then [] else m a :: upto m (a + 1) n

theorem length_upto_le : (upto m a n).length ≤ n := by
  induction n generalizing a with
  | zero => exact le_rfl
  | succ n ih =>
    rw [upto]
    split_ifs
    · exact Nat.zero_le _
    · exact Nat.succ_le_succ ih

theorem upto_congr {m' : Mem} (hm : ∀ x, (x - a).toNat ≤ (upto m a n).length → (x - a).toNat < n → m' x = m x)
    (hn : n < 2 ^ 32) : upto m' a n = upto m a n := by
  induction n generalizing a with
  | zero => rfl
  | succ n ih =>
    rw [upto] at hm ⊢
    rw [upto, hm a (by simp) (by simp)]
    split_ifs with h0
    · rfl
    · rw [if_neg h0, List.length_cons] at hm
      rw [ih (fun x hx hx' => ?_) (by omega)]
      by_cases hxa : x = a
      · subst hxa
        exact hm x (by simp) (by simp)
      · exact hm x (by rw [sub_toNat_succ hxa]; omega) (by rw [sub_toNat_succ hxa]; omega)

/-! ## Comparing -/

theorem toInt_sub_cases (a b : Byte) : (a - b).toInt = a.toInt - b.toInt ∨
    (a - b).toInt = a.toInt - b.toInt + 256 ∧ a.toInt - b.toInt < 0 ∧ 0 ≤ (a - b).toInt ∨
    (a - b).toInt = a.toInt - b.toInt - 256 ∧ 0 ≤ a.toInt - b.toInt ∧ (a - b).toInt < 0 := by
  have ha := a.toInt_lt
  have ha' := a.le_toInt
  have hb := b.toInt_lt
  have hb' := b.le_toInt
  rw [BitVec.toInt_sub, Int.bmod_def]
  norm_num at ha ha' hb hb' ⊢
  omega

/-- After `a - b` the jump on less compares signed numbers. -/
theorem less_subFlags (s : Cpu) (a b : Byte) :
    ((s.subFlags a b).sf != (s.subFlags a b).of) = decide (a.toInt < b.toInt) := by
  have hmsb : (a - b).msb = decide ((a - b).toInt < 0) := BitVec.msb_eq_toInt ..
  unfold Cpu.subFlags
  dsimp only
  rw [hmsb]
  have hcases := toInt_sub_cases a b
  generalize (a - b).toInt = d at hcases
  rcases hcases with h | h | h
  · rw [decide_eq_false (not_not.mpr h), Bool.bne_false, h]
    exact decide_eq_decide.mpr (by omega)
  · rw [decide_eq_false (by omega), decide_eq_true (by omega), decide_eq_true (by omega)]
    rfl
  · rw [decide_eq_true (by omega), decide_eq_true (by omega), decide_eq_false (by omega)]
    rfl

/-! ## Repeated instructions -/

/-- Nothing but some registers and the flags has changed. -/
structure Kept (rs : List Reg) (s t : Cpu) : Prop where
  mem : t.mem = s.mem
  df : t.df = s.df
  reg (r : Reg) : r ∉ rs → t.reg r = s.reg r

theorem Kept.trans {rs : List Reg} {u : Cpu} (h : Kept rs s t) (h' : Kept rs t u) : Kept rs s u :=
  ⟨h'.mem.trans h.mem, h'.df.trans h.df, fun r hr => (h'.reg r hr).trans (h.reg r hr)⟩

theorem Kept.al {rs : List Reg} (h : Kept rs s t) (hr : .eax ∉ rs) : t.al = s.al :=
  congrArg (BitVec.extractLsb' 0 8) (h.reg _ hr)

theorem turn_scasb (hdf : s.df = false) :
    Kept [.edi, .ecx] s (StrOp.scasb.turn s) ∧ (StrOp.scasb.turn s).reg .edi = s.reg .edi + 1 ∧
      (StrOp.scasb.turn s).reg .ecx = s.reg .ecx - 1 ∧
      (StrOp.scasb.turn s).zf = decide (s.al = s.mem (s.reg .edi)) := by
  refine ⟨⟨rfl, rfl, fun r hr => ?_⟩, ?_, ?_, rfl⟩
  · simp only [List.mem_cons, List.not_mem_nil, or_false, not_or] at hr
    simp [StrOp.turn, StrOp.exec, hr.1, hr.2, Cpu.subFlags]
  · simp [StrOp.turn, StrOp.exec, Cpu.stride, Cpu.subFlags, hdf]
  · simp [StrOp.turn]

theorem scan_found (hdf : s.df = false) (h : Holds s.mem (s.reg .edi) (l ++ [s.al])) (hl : s.al ∉ l)
    (hn : l.length < n) :
    Kept [.edi, .ecx] s (StrOp.scasb.whileTurns false n s) ∧ (StrOp.scasb.whileTurns false n s).zf = true ∧
      (StrOp.scasb.whileTurns false n s).reg .edi = s.reg .edi + BitVec.ofNat 32 (l.length + 1) ∧
      (StrOp.scasb.whileTurns false n s).reg .ecx = s.reg .ecx - BitVec.ofNat 32 (l.length + 1) := by
  induction l generalizing s n with
  | nil =>
    obtain ⟨n, rfl⟩ := Nat.exists_eq_succ_of_ne_zero (Nat.ne_zero_of_lt hn)
    obtain ⟨hk, hedi, hecx, hzf⟩ := turn_scasb hdf
    have hz : (StrOp.scasb.turn s).zf = true := by rw [hzf, h.1, decide_eq_true rfl]
    rw [StrOp.whileTurns, if_neg (by rw [hz]; decide)]
    exact ⟨hk, hz, by simpa using hedi, by simpa using hecx⟩
  | cons c l ih =>
    obtain ⟨n, rfl⟩ := Nat.exists_eq_succ_of_ne_zero (Nat.ne_zero_of_lt hn)
    obtain ⟨hk, hedi, hecx, hzf⟩ := turn_scasb hdf
    rw [List.mem_cons, not_or] at hl
    have hz : (StrOp.scasb.turn s).zf = false := by rw [hzf, h.1, decide_eq_false hl.1]
    rw [StrOp.whileTurns, if_pos hz]
    have hal := hk.al (by decide)
    obtain ⟨hk', hz', hedi', hecx'⟩ := ih (n := n) (hk.df.trans hdf) (by rw [hk.mem, hedi, hal]; exact h.2)
      (by rw [hal]; exact hl.2) (Nat.lt_of_succ_lt_succ hn)
    refine ⟨hk.trans hk', hz', ?_, ?_⟩
    · rw [hedi', hedi, List.length_cons, add_ofNat_succ _ (l.length + 1)]
    · rw [hecx', hecx, List.length_cons, ofNat_succ (l.length + 1), addr_sub_sub]

/-- No byte is the one that is looked for. With no bytes the flags stay as they are. -/
theorem scan_missed (hdf : s.df = false) (h : Holds s.mem (s.reg .edi) l) (hl : s.al ∉ l) :
    Kept [.edi, .ecx] s (StrOp.scasb.whileTurns false l.length s) ∧
      (StrOp.scasb.whileTurns false l.length s).zf = (decide (l = []) && s.zf) := by
  induction l generalizing s with
  | nil => exact ⟨⟨rfl, rfl, fun _ _ => rfl⟩, rfl⟩
  | cons c l ih =>
    rw [List.mem_cons, not_or] at hl
    obtain ⟨hk, hedi, -, hzf⟩ := turn_scasb hdf
    have hz : (StrOp.scasb.turn s).zf = false := by rw [hzf, h.1, decide_eq_false hl.1]
    rw [List.length_cons, StrOp.whileTurns, if_pos hz]
    have hal := hk.al (by decide)
    obtain ⟨hk', hz'⟩ := ih (hk.df.trans hdf) (by rw [hk.mem, hedi]; exact h.2) (by rw [hal]; exact hl.2)
    refine ⟨hk.trans hk', ?_⟩
    rw [hz', hz, Bool.and_false]
    rfl

theorem turn_cmpsb (hdf : s.df = false) :
    Kept [.esi, .edi, .ecx] s (StrOp.cmpsb.turn s) ∧ (StrOp.cmpsb.turn s).reg .esi = s.reg .esi + 1 ∧
      (StrOp.cmpsb.turn s).reg .edi = s.reg .edi + 1 ∧
      (StrOp.cmpsb.turn s).zf = decide (s.mem (s.reg .esi) = s.mem (s.reg .edi)) ∧
      ((StrOp.cmpsb.turn s).sf != (StrOp.cmpsb.turn s).of) =
        decide ((s.mem (s.reg .esi)).toInt < (s.mem (s.reg .edi)).toInt) := by
  refine ⟨⟨rfl, rfl, fun r hr => ?_⟩, ?_, ?_, rfl, less_subFlags s _ _⟩
  · simp only [List.mem_cons, List.not_mem_nil, or_false, not_or] at hr
    simp [StrOp.turn, StrOp.exec, hr.1, hr.2.1, hr.2.2, Cpu.subFlags]
  · simp [StrOp.turn, StrOp.exec, Cpu.stride, Cpu.subFlags, hdf]
  · simp [StrOp.turn, StrOp.exec, Cpu.stride, Cpu.subFlags, hdf]

/-- No byte differs. With no bytes the flags stay as they are. -/
theorem cmp_same (hdf : s.df = false) (h : Holds s.mem (s.reg .esi) l) (h' : Holds s.mem (s.reg .edi) l) :
    Kept [.esi, .edi, .ecx] s (StrOp.cmpsb.whileTurns true l.length s) ∧
      (StrOp.cmpsb.whileTurns true l.length s).zf = (decide (l ≠ []) || s.zf) := by
  induction l generalizing s with
  | nil => exact ⟨⟨rfl, rfl, fun _ _ => rfl⟩, rfl⟩
  | cons c l ih =>
    obtain ⟨hk, hesi, hedi, hzf, -⟩ := turn_cmpsb hdf
    have hz : (StrOp.cmpsb.turn s).zf = true := by rw [hzf, h.1, h'.1, decide_eq_true rfl]
    rw [List.length_cons, StrOp.whileTurns, if_pos hz]
    obtain ⟨hk', hz'⟩ := ih (hk.df.trans hdf) (by rw [hk.mem, hesi]; exact h.2) (by rw [hk.mem, hedi]; exact h'.2)
    refine ⟨hk.trans hk', ?_⟩
    rw [hz', hz, Bool.or_true]
    rfl

/-- Behind `l` the bytes differ. -/
theorem cmp_differ {c' : Byte} (hdf : s.df = false) (h : Holds s.mem (s.reg .esi) (l ++ [c]))
    (h' : Holds s.mem (s.reg .edi) (l ++ [c'])) (hc : c ≠ c') (hn : l.length < n) :
    Kept [.esi, .edi, .ecx] s (StrOp.cmpsb.whileTurns true n s) ∧
      (StrOp.cmpsb.whileTurns true n s).zf = false ∧
      ((StrOp.cmpsb.whileTurns true n s).sf != (StrOp.cmpsb.whileTurns true n s).of) =
        decide (c.toInt < c'.toInt) ∧
      (StrOp.cmpsb.whileTurns true n s).reg .esi = s.reg .esi + BitVec.ofNat 32 (l.length + 1) := by
  induction l generalizing s n with
  | nil =>
    obtain ⟨n, rfl⟩ := Nat.exists_eq_succ_of_ne_zero (Nat.ne_zero_of_lt hn)
    obtain ⟨hk, hesi, -, hzf, hlt⟩ := turn_cmpsb hdf
    have hz : (StrOp.cmpsb.turn s).zf = false := by rw [hzf, h.1, h'.1, decide_eq_false hc]
    rw [StrOp.whileTurns, if_neg (by rw [hz]; decide)]
    exact ⟨hk, hz, by rw [hlt, h.1, h'.1], by simpa using hesi⟩
  | cons d l ih =>
    obtain ⟨n, rfl⟩ := Nat.exists_eq_succ_of_ne_zero (Nat.ne_zero_of_lt hn)
    obtain ⟨hk, hesi, hedi, hzf, -⟩ := turn_cmpsb hdf
    have hz : (StrOp.cmpsb.turn s).zf = true := by rw [hzf, h.1, h'.1, decide_eq_true rfl]
    rw [StrOp.whileTurns, if_pos hz]
    obtain ⟨hk', hz', hlt', hesi'⟩ := ih (n := n) (hk.df.trans hdf) (by rw [hk.mem, hesi]; exact h.2)
      (by rw [hk.mem, hedi]; exact h'.2) (Nat.lt_of_succ_lt_succ hn)
    refine ⟨hk.trans hk', hz', hlt', ?_⟩
    rw [hesi', hesi, List.length_cons, add_ofNat_succ _ (l.length + 1)]

/-- `rep stosb` -/
theorem fill (hdf : s.df = false) (hn : n ≤ 2 ^ 32) :
    (StrOp.stosb.repTurns n s).mem = write s.mem (s.reg .edi) (List.replicate n s.al) ∧
      (StrOp.stosb.repTurns n s).df = false := by
  induction n generalizing s with
  | zero => exact ⟨rfl, hdf⟩
  | succ n ih =>
    have hal : (StrOp.stosb.turn s).al = s.al := by
      unfold StrOp.turn
      rw [Cpu.al_set_of_ne (by decide)]
      exact Cpu.al_set_of_ne (by decide)
    have hedi : (StrOp.stosb.turn s).reg .edi = s.reg .edi + 1 := by
      simp [StrOp.turn, StrOp.exec, Cpu.stride, hdf]
    obtain ⟨hm, hd⟩ := ih (s := StrOp.stosb.turn s) hdf (by omega)
    refine ⟨?_, hd⟩
    rw [StrOp.repTurns, hm, hal, hedi, List.replicate_succ, write_cons (by rw [List.length_replicate]; omega)]
    rfl

/-- `rep movsb`: the bytes one after another, each as it is when its turn comes -/
def copy (m : Mem) (d : Addr) : ℕ → Addr → Addr → Mem
  | 0, _, _ => m
  | n + 1, dst, src => copy (update m dst (m src)) d n (dst + d) (src + d)

theorem move (s : Cpu) (n : ℕ) :
    (StrOp.movsb.repTurns n s).mem = copy s.mem s.stride n (s.reg .edi) (s.reg .esi) ∧
      (StrOp.movsb.repTurns n s).df = s.df := by
  induction n generalizing s with
  | zero => exact ⟨rfl, rfl⟩
  | succ n ih =>
    obtain ⟨hm, hd⟩ := ih (StrOp.movsb.turn s)
    have hedi : (StrOp.movsb.turn s).reg .edi = s.reg .edi + s.stride := by simp [StrOp.turn, StrOp.exec]
    have hesi : (StrOp.movsb.turn s).reg .esi = s.reg .esi + s.stride := by simp [StrOp.turn, StrOp.exec]
    refine ⟨?_, hd⟩
    rw [StrOp.repTurns, hm, hedi, hesi]
    rfl

/-! ## Copying -/

theorem bytes_congr {m' : Mem} (hm : ∀ x, (x - a).toNat < n → m' x = m x) (hn : n ≤ 2 ^ 32) :
    bytes m' a n = bytes m a n := by
  induction n generalizing a with
  | zero => rfl
  | succ n ih =>
    rw [bytes, bytes, hm a (by simp), ih (fun x hx => ?_) (by omega)]
    by_cases hxa : x = a
    · subst hxa
      exact hm x (by simp)
    · exact hm x (by rw [sub_toNat_succ hxa]; omega)

theorem bytes_concat : bytes m a (n + 1) = bytes m a n ++ [m (a + BitVec.ofNat 32 n)] := by
  induction n generalizing a with
  | zero => simp [bytes]
  | succ n ih => rw [bytes, ih, bytes, List.cons_append, add_ofNat_succ]

theorem write_concat {y : Addr} (hlen : l.length < 2 ^ 32) (hy : y = a + BitVec.ofNat 32 l.length) :
    write m a (l ++ [c]) = write (update m y c) a l := by
  subst hy
  funext x
  have hself : (a + BitVec.ofNat 32 l.length - a).toNat = l.length := by bv_omega
  unfold write
  by_cases hx : x = a + BitVec.ofNat 32 l.length
  · subst hx
    rw [hself, List.getElem?_concat_length, List.getElem?_eq_none le_rfl, update_self]
    rfl
  · have hne : (x - a).toNat ≠ l.length := by
      intro h
      apply hx
      rw [← h, BitVec.ofNat_toNat, BitVec.setWidth_eq, BitVec.add_comm, BitVec.sub_add_cancel]
    rw [update_of_ne hx, List.getElem?_append]
    split_ifs with hlt
    · rfl
    · have hlen' : [c].length ≤ (x - a).toNat - l.length := by
        rw [List.length_singleton]
        omega
      rw [List.getElem?_eq_none hlen', List.getElem?_eq_none (not_lt.mp hlt)]

/-- Forwards, with a destination that is not inside the source behind its first byte -/
theorem copy_forward {dst src : Addr} (hd : n ≤ (dst - src).toNat ∨ dst = src) (hn : n ≤ 2 ^ 32) :
    copy m 1 n dst src = write m dst (bytes m src n) := by
  induction n generalizing m dst src with
  | zero => rfl
  | succ n ih =>
    have hd' : n ≤ (dst + 1 - (src + 1)).toNat ∨ dst + 1 = src + 1 := by
      rcases hd with hd | rfl
      · exact .inl (by bv_omega)
      · exact .inr rfl
    rw [copy, ih hd' (by omega), bytes, write_cons (by rw [length_bytes]; omega)]
    congr 1
    refine bytes_congr (fun x hx => ?_) (by omega)
    rcases hd with hd | rfl
    · exact update_of_ne (by rintro rfl; bv_omega) ..
    · rw [update_eq_self]

/-- Backwards, with a source that is not inside the destination -/
theorem copy_backward {dst src : Addr} (hd : n ≤ (src - dst).toNat ∨ dst = src) (hn : n ≤ 2 ^ 32) :
    copy m (-1) n (dst + BitVec.ofNat 32 n - 1) (src + BitVec.ofNat 32 n - 1) = write m dst (bytes m src n) := by
  induction n generalizing m with
  | zero => rfl
  | succ n ih =>
    have hlast (y : Addr) : y + BitVec.ofNat 32 (n + 1) - 1 = y + BitVec.ofNat 32 n := by
      rw [add_ofNat_succ]
      bv_omega
    have hback (y : Addr) : y + BitVec.ofNat 32 n + -1 = y + BitVec.ofNat 32 n - 1 := by bv_omega
    rw [copy, hlast, hlast, hback, hback, ih (hd.imp_left fun h => by omega) (by omega), bytes_concat,
      write_concat (by rw [length_bytes]; omega) (by rw [length_bytes])]
    congr 1
    refine bytes_congr (fun x hx => ?_) (by omega)
    rcases hd with hd | rfl
    · exact update_of_ne (by rintro rfl; bv_omega) ..
    · rw [update_eq_self]

theorem copy_of_le {dst src : Addr} (hx : n ≤ (x - dst).toNat) (hn : n ≤ 2 ^ 32) : copy m 1 n dst src x = m x := by
  induction n generalizing m dst src with
  | zero => rfl
  | succ n ih =>
    have hne : x ≠ dst := by
      rintro rfl
      rw [BitVec.sub_self] at hx
      exact absurd hx (Nat.not_succ_le_zero n)
    rw [copy, ih (by rw [sub_toNat_succ hne] at hx; omega) (by omega), update_of_ne hne]

/-- Forwards into the source itself the bytes before the destination are copied again and again. -/
theorem copy_periodic {dst src : Addr} {i : ℕ} (hd : dst ≠ src) (hn : n + (dst - src).toNat ≤ 2 ^ 32) (hi : i < n) :
    copy m 1 n dst src (dst + BitVec.ofNat 32 i) = m (src + BitVec.ofNat 32 (i % (dst - src).toNat)) := by
  have hpos : 0 < (dst - src).toNat := by bv_omega
  induction n generalizing m dst src i with
  | zero => exact absurd hi (Nat.not_lt_zero i)
  | succ n ih =>
    have hdist : (dst + 1 - (src + 1)).toNat = (dst - src).toNat := by bv_omega
    cases i with
    | zero =>
      have h1 : n ≤ (dst + BitVec.ofNat 32 0 - (dst + 1)).toNat := by bv_omega
      rw [copy, copy_of_le h1 (by omega), Nat.zero_mod]
      simp
    | succ i =>
      have hne : dst + 1 ≠ src + 1 := fun h => hd (by bv_omega)
      rw [copy, add_ofNat_succ, ih hne (by omega) (by omega) (by omega), hdist]
      generalize hD : (dst - src).toNat = D at *
      have hdst : dst = src + BitVec.ofNat 32 D := by
        rw [← hD, BitVec.ofNat_toNat, BitVec.setWidth_eq, BitVec.add_comm, BitVec.sub_add_cancel]
      rw [← add_ofNat_succ]
      have hmod := Nat.mod_lt i hpos
      have hnext : (i + 1) % D = (i % D + 1) % D := (Nat.mod_add_mod ..).symm
      by_cases hend : i % D + 1 = D
      · -- the copy has come to its own first byte
        rw [hend, ← hdst, update_self, hnext, hend, Nat.mod_self]
        simp
      · rw [hnext, Nat.mod_eq_of_lt (show i % D + 1 < D by omega)]
        refine update_of_ne (fun h => hend ?_) ..
        rw [hdst] at h
        bv_omega

end X86
