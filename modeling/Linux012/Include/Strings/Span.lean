import Linux012.Include.Strings.Compare
import Mathlib.Data.List.TakeWhile

/-! # Looking for characters and strings

`strspn`, `strcspn` and `strpbrk` look each character up in the second string, whose length they have
counted before. An empty second string works by the flags that `decl` and `testb` leave: a repeated
instruction that makes no turn does not change them.
-/

namespace Linux012.Strings

open Function X86

variable {p rest : List Line} {Q : ℕ → Cpu → Prop} {s : Cpu} {l l' : List Byte} {cs ct a : Addr} {c : Byte} {e : ℕ}

theorem ofNat_eq_zero_iff {n : ℕ} (h : n < 2 ^ 32) : BitVec.ofNat 32 n = 0 ↔ n = 0 := by
  constructor
  · intro h0
    have := congrArg BitVec.toNat h0
    rw [BitVec.toNat_ofNat, Nat.mod_eq_of_lt h] at this
    exact this
  · rintro rfl
    rfl

/-- The second string has been counted. -/
structure Counted (s : Cpu) (l : List Byte) (t : Cpu) : Prop where
  mem : t.mem = s.mem
  df : t.df = false
  esi : t.reg .esi = s.reg .esi
  edx : t.reg .edx = BitVec.ofNat 32 l.length
  zf : t.zf = decide (l = [])

theorem lengthOf_counts (hal : s.al = 0) (hecx : s.reg .ecx = 0xffffffff) (hs : Str s.mem ct l)
    (hl : l.length < 2 ^ 32 - 1) (h : ∀ t, Counted s l t → Reach (lengthOf ct ++ rest) Q 6 t) :
    Reach (lengthOf ct ++ rest) Q 0 s := by
  let d := Instr.exec (Instr.exec s .cld) (.movi ct .edi)
  have hal' : d.al = 0 := (Cpu.al_set_of_ne (by decide)).trans hal
  have hecx' : d.reg .ecx = 0xffffffff := (Cpu.reg_set_of_ne (by decide)).trans hecx
  have hedi : d.reg .edi = ct := Cpu.reg_set_self
  obtain ⟨hk, -, -, hecx₁⟩ := scan_end (d := d) rfl hal' hecx' (by rw [hedi]; exact hs) hl
  obtain ⟨hcount, hzf⟩ := length_after hecx₁
  refine .op rfl (.op rfl (.op rfl (.op rfl (.op rfl (.op rfl (h _ ⟨hk.mem, hk.df, ?_, ?_, ?_⟩))))))
  · refine (reg_mov (by decide)).trans ((reg_dec (by decide)).trans ((reg_not (by decide)).trans ?_))
    exact (hk.reg .esi (by decide)).trans (reg_movi (by decide))
  · exact Cpu.reg_set_self.trans hcount
  · refine Eq.trans rfl (hzf.trans (decide_eq_decide.mpr ?_))
    rw [ofNat_eq_zero_iff (by omega), List.length_eq_zero_iff]

/-- `movl %4,%edi`, `movl %edx,%ecx` and `repne scasb` -/
def member (ct : Addr) (s : Cpu) : Cpu :=
  Instr.exec (Instr.exec (Instr.exec s (.movi ct .edi)) (.mov .edx .ecx)) (.repne .scasb)

theorem member_spec (hdf : s.df = false) (hs : Str s.mem ct l) (hedx : s.reg .edx = BitVec.ofNat 32 l.length)
    (hz : s.zf = false) : Kept [.edi, .ecx] s (member ct s) ∧ (member ct s).zf = decide (s.al ∈ l) := by
  let d := Instr.exec (Instr.exec s (.movi ct .edi)) (.mov .edx .ecx)
  have hkd : Kept [.edi, .ecx] s d := by
    refine ⟨rfl, rfl, fun r hr => ?_⟩
    simp only [List.mem_cons, List.not_mem_nil, or_false, not_or] at hr
    exact (Cpu.reg_set_of_ne hr.2).trans (Cpu.reg_set_of_ne hr.1)
  have hal : d.al = s.al := hkd.al (by decide)
  have hedi : d.reg .edi = ct := (Cpu.reg_set_of_ne (by decide)).trans Cpu.reg_set_self
  have hecx : (d.reg .ecx).toNat = l.length := by
    have hreg : d.reg .ecx = s.reg .edx := Cpu.reg_set_self.trans (Cpu.reg_set_of_ne (by decide))
    rw [hreg, hedx, BitVec.toNat_ofNat, Nat.mod_eq_of_lt hs.length_lt]
  have hl : Holds d.mem (d.reg .edi) l := hedi ▸ (holds_append.mp hs.holds).1
  change Kept _ s (StrOp.scasb.whileTurns false (d.reg .ecx).toNat d) ∧
    (StrOp.scasb.whileTurns false (d.reg .ecx).toNat d).zf = _
  rw [hecx]
  by_cases hmem : s.al ∈ l
  · obtain ⟨q, r, hq, hnot⟩ := List.eq_append_cons_of_mem hmem
    have hlen : q.length < l.length := by
      rw [hq, List.length_append, List.length_cons]
      omega
    have hpre : Holds d.mem (d.reg .edi) (q ++ [d.al]) := by
      rw [hq, holds_append] at hl
      exact holds_append.mpr ⟨hl.1, hal ▸ hl.2.1, trivial⟩
    obtain ⟨hk, hzf, -, -⟩ := scan_found (s := d) hdf hpre (by rw [hal]; exact hnot) hlen
    exact ⟨hkd.trans hk, hzf.trans (decide_eq_true hmem).symm⟩
  · obtain ⟨hk, hzf⟩ := scan_missed (s := d) hdf hl (by rw [hal]; exact hmem)
    refine ⟨hkd.trans hk, hzf.trans ?_⟩
    have hzd : d.zf = false := hz
    rw [hzd, Bool.and_false, decide_eq_false hmem]

/-- `lodsb` and `testb %al,%al` -/
def loaded (s : Cpu) : Cpu := Instr.exec (Instr.exec s (.str .lodsb)) .testAl

theorem loaded_spec (hdf : s.df = false) :
    (loaded s).mem = s.mem ∧ (loaded s).reg .esi = s.reg .esi + 1 ∧
      (∀ r, r ≠ .eax → r ≠ .esi → (loaded s).reg r = s.reg r) ∧ (loaded s).al = s.mem (s.reg .esi) ∧
      (loaded s).zf = decide (s.mem (s.reg .esi) = 0) ∧ (loaded s).df = false := by
  have hal : (Instr.exec s (.str .lodsb)).al = s.mem (s.reg .esi) := by
    unfold Instr.exec StrOp.exec
    rw [Cpu.al_set_of_ne (by decide), Cpu.al_setAl]
  refine ⟨rfl, ?_, fun r hr hr' => ?_, hal, congrArg (fun b : Byte => decide (b = 0)) hal, hdf⟩
  · simp [loaded, Instr.exec, StrOp.exec, Cpu.testFlags, Cpu.stride, hdf]
  · simp [loaded, Instr.exec, StrOp.exec, Cpu.testFlags, hr, hr']

/-- The characters before the first one that ends the loop. -/
def span (l : List Byte) (z : Bool) (l' : List Byte) : List Byte := l'.takeWhile fun c => decide (c ∈ l) == z

/-- The loop over the first string: it goes on as long as looking up leaves the zero flag `z`. -/
structure SpanLoop (p : List Line) (ct : Addr) (z : Bool) (k b e : ℕ) : Prop where
  lab : p[k]? = some (.lab b)
  lods : p[k + 1]? = some (.op (.str .lodsb))
  test : p[k + 1 + 1]? = some (.op .testAl)
  je : ∃ n, p[k + 1 + 1 + 1]? = some (.jcc .e n .f) ∧ target p (k + 1 + 1 + 1) n .f = some e
  movi : p[k + 1 + 1 + 1 + 1]? = some (.op (.movi ct .edi))
  mov : p[k + 1 + 1 + 1 + 1 + 1]? = some (.op (.mov .edx .ecx))
  scas : p[k + 1 + 1 + 1 + 1 + 1 + 1]? = some (.op (.repne .scasb))
  jcc : p[k + 1 + 1 + 1 + 1 + 1 + 1 + 1]? = some (.jcc (if z then .e else .ne) b .b) ∧
    target p (k + 1 + 1 + 1 + 1 + 1 + 1 + 1) b .b = some k

/-- Where the loop ends: behind a character that ends it, or behind the zero. -/
structure Spanned (s : Cpu) (l : List Byte) (z : Bool) (l' : List Byte) (out stop k : ℕ) (t : Cpu) : Prop where
  mem : t.mem = s.mem
  df : t.df = false
  ebx : t.reg .ebx = s.reg .ebx
  edx : t.reg .edx = s.reg .edx
  esi : t.reg .esi = s.reg .esi + BitVec.ofNat 32 ((span l z l').length + 1)
  line : (k = out ∧ (span l z l').length < l'.length) ∨ (k = stop ∧ span l z l' = l')

theorem span_loop {z : Bool} {k b : ℕ} (h : SpanLoop p ct z k b e) (hdf : s.df = false) (hs : Str s.mem ct l)
    (hedx : s.reg .edx = BitVec.ofNat 32 l.length) (hs' : Str s.mem (s.reg .esi) l') :
    Reach p (Spanned s l z l' (k + 8) e) k s := by
  obtain ⟨n, hje, hte⟩ := h.je
  induction l' generalizing s with
  | nil =>
    obtain ⟨hm, hsi, hr, -, hz, hd⟩ := loaded_spec hdf
    have h0 : s.mem (s.reg .esi) = 0 := hs'.holds.1
    rw [h0, decide_eq_true rfl] at hz
    exact .lab h.lab (.op h.lods (.op h.test (.jump hje hte hz (.done
      ⟨hm, hd, hr .ebx (by decide) (by decide), hr .edx (by decide) (by decide), hsi, .inr ⟨rfl, rfl⟩⟩))))
  | cons c l' ih =>
    obtain ⟨hc, hne, hs''⟩ := hs'.head
    obtain ⟨hm, hsi, hr, hal, hz, hd⟩ := loaded_spec hdf
    have hdx := hr .edx (by decide) (by decide)
    rw [hc, decide_eq_false hne] at hz
    rw [hc] at hal
    obtain ⟨hk, hzm⟩ := member_spec hd (hm ▸ hs) (hdx.trans hedx) hz
    rw [hal] at hzm
    have hesi : (member ct (loaded s)).reg .esi = s.reg .esi + 1 := (hk.reg .esi (by decide)).trans hsi
    have hbx := (hk.reg .ebx (by decide)).trans (hr .ebx (by decide) (by decide))
    have hdx' := (hk.reg .edx (by decide)).trans hdx
    refine .lab h.lab (.op h.lods (.op h.test (.fall hje hz (.op h.movi (.op h.mov (.op h.scas ?_))))))
    by_cases hpass : decide (c ∈ l) = z
    · have hspan : span l z (c :: l') = c :: span l z l' := List.takeWhile_cons_of_pos (beq_iff_eq.mpr hpass)
      have hcond : Cond.holds (member ct (loaded s)) (if z then .e else .ne) = true := by
        rw [hpass] at hzm
        cases z with
        | true => exact hzm
        | false => exact congrArg not hzm
      have hrun := ih (s := member ct (loaded s)) (hk.df.trans hd) (by rw [hk.mem, hm]; exact hs)
        (hdx'.trans hedx) (by rw [hk.mem, hm, hesi]; exact hs'')
      refine .jump h.jcc.1 h.jcc.2 hcond (hrun.weaken fun j t ht =>
        ⟨ht.mem.trans (hk.mem.trans hm), ht.df, ht.ebx.trans hbx, ht.edx.trans hdx', ?_, ?_⟩)
      · rw [ht.esi, hesi, hspan, List.length_cons, add_ofNat_succ _ (_ + 1)]
      · rw [hspan]
        exact ht.line.imp (fun h => ⟨h.1, Nat.succ_lt_succ h.2⟩) fun h => ⟨h.1, congrArg (c :: ·) h.2⟩
    · have hspan : span l z (c :: l') = [] := List.takeWhile_cons_of_neg (fun h => hpass (beq_iff_eq.mp h))
      have hcond : Cond.holds (member ct (loaded s)) (if z then .e else .ne) = false := by
        cases z with
        | true => exact hzm.trans (Bool.eq_false_iff.mpr hpass)
        | false => exact congrArg not (hzm.trans (Bool.not_eq_false _ ▸ hpass))
      refine .fall h.jcc.1 hcond (.done ⟨hk.mem.trans hm, hk.df.trans hd, hbx, hdx', ?_, .inl ⟨rfl, ?_⟩⟩)
      · rw [hspan]
        exact hesi
      · rw [hspan]
        exact Nat.succ_pos _

/-- The second string is counted and the loop run. -/
theorem searched {z : Bool} {b : ℕ} (h : SpanLoop (lengthOf ct ++ rest) ct z 6 b e) (hal : s.al = 0)
    (hecx : s.reg .ecx = 0xffffffff) (hct : Str s.mem ct l) (hl : l.length < 2 ^ 32 - 1)
    (hcs : Str s.mem (s.reg .esi) l') :
    Reach (lengthOf ct ++ rest) (fun k t => t.mem = s.mem ∧ ∃ d : Cpu, d.reg .esi = s.reg .esi ∧
      Spanned d l z l' 14 e k t) 0 s := by
  apply lengthOf_counts hal hecx hct hl
  intro t ht
  apply (span_loop h ht.df (by rw [ht.mem]; exact hct) ht.edx (by rw [ht.mem, ht.esi]; exact hcs)).weaken
  intro k u hu
  exact ⟨hu.mem.trans ht.mem, t, ht.esi, hu⟩

theorem Spanned.dec {z : Bool} {out stop k : ℕ} {t : Cpu} (h : Spanned s l z l' out stop k t) :
    (Instr.exec t (.dec .esi)).reg .esi = s.reg .esi + BitVec.ofNat 32 (span l z l').length := by
  refine reg_dec_self.trans ?_
  rw [h.esi, add_succ_sub_one]

/-- The length of the beginning that has only characters of the second string -/
theorem strspn_counts (s : Cpu) (hcs : Str s.mem cs l') (hct : Str s.mem ct l) (hl : l.length < 2 ^ 32 - 1) :
    (strspn cs ct).Returns s fun v t => v = BitVec.ofNat 32 (span l true l').length ∧ t.df = false ∧
      t.mem = s.mem := by
  have hloop : SpanLoop (strspn cs ct).code ct true 6 1 14 := ⟨rfl, rfl, rfl, ⟨2, rfl, rfl⟩, rfl, rfl, rfl, rfl, rfl⟩
  refine (searched (s := (strspn cs ct).load s) hloop rfl rfl hct hl hcs).trans ?_
  rintro k t ⟨hm, d, hd, ht⟩
  have hk : k = 14 := ht.line.elim And.left And.left
  subst hk
  refine .lab rfl (.op rfl (.done ⟨rfl, ?_, ht.df, hm⟩))
  refine (congrArg (· - cs) ht.dec).trans ?_
  rw [hd, BitVec.add_comm]
  exact BitVec.add_sub_cancel ..

theorem strspn_counts_two : (strspn 0x1000 0x2000).Returns (.bare (twoStrings [97, 98, 99] [98, 97])) fun v t =>
    v = 2 ∧ t.df = false ∧ t.mem = twoStrings [97, 98, 99] [98, 97] := by
  have hcs : Str (twoStrings [97, 98, 99] [98, 97]) 0x1000 [97, 98, 99] := ⟨by decide +kernel, by decide⟩
  have hct : Str (twoStrings [97, 98, 99] [98, 97]) 0x2000 [98, 97] := ⟨by decide +kernel, by decide⟩
  exact strspn_counts (.bare _) hcs hct (by decide)

/-- The length of the beginning that has no characters of the second string -/
theorem strcspn_counts (s : Cpu) (hcs : Str s.mem cs l') (hct : Str s.mem ct l) (hl : l.length < 2 ^ 32 - 1) :
    (strcspn cs ct).Returns s fun v t => v = BitVec.ofNat 32 (span l false l').length ∧ t.df = false ∧
      t.mem = s.mem := by
  have hloop : SpanLoop (strcspn cs ct).code ct false 6 1 14 :=
    ⟨rfl, rfl, rfl, ⟨2, rfl, rfl⟩, rfl, rfl, rfl, rfl, rfl⟩
  refine (searched (s := (strcspn cs ct).load s) hloop rfl rfl hct hl hcs).trans ?_
  rintro k t ⟨hm, d, hd, ht⟩
  have hk : k = 14 := ht.line.elim And.left And.left
  subst hk
  refine .lab rfl (.op rfl (.done ⟨rfl, ?_, ht.df, hm⟩))
  refine (congrArg (· - cs) ht.dec).trans ?_
  rw [hd, BitVec.add_comm]
  exact BitVec.add_sub_cancel ..

theorem span_false_eq : span l false l' = l' ↔ ∀ c ∈ l', c ∉ l := by
  rw [span, List.takeWhile_eq_self_iff]
  simp

/-- The address of the first character of the second string; zero if there is none -/
theorem strpbrk_finds (s : Cpu) (hcs : Str s.mem cs l') (hct : Str s.mem ct l) (hl : l.length < 2 ^ 32 - 1) :
    (strpbrk cs ct).Returns s fun v t => t.df = false ∧ t.mem = s.mem ∧
      v = if ∀ c ∈ l', c ∉ l then 0 else cs + BitVec.ofNat 32 (span l false l').length := by
  have hloop : SpanLoop (strpbrk cs ct).code ct false 6 1 16 :=
    ⟨rfl, rfl, rfl, ⟨2, rfl, rfl⟩, rfl, rfl, rfl, rfl, rfl⟩
  refine (searched (s := (strpbrk cs ct).load s) hloop rfl rfl hct hl hcs).trans ?_
  rintro k t ⟨hm, d, hd, ht⟩
  rcases ht.line with ⟨rfl, hlt⟩ | ⟨rfl, heq⟩
  · have hsome : ¬ ∀ c ∈ l', c ∉ l := fun h => hlt.ne (congrArg List.length (span_false_eq.mpr h))
    rw [if_neg hsome]
    exact .op rfl (.jmp rfl rfl (.lab rfl (.done ⟨rfl, ht.df, hm, ht.dec.trans (congrArg (· + _) hd)⟩)))
  · rw [if_pos (span_false_eq.mp heq)]
    refine .lab rfl (.op rfl (.lab rfl (.done ⟨rfl, ht.df, hm, ?_⟩)))
    have hxor : (Instr.exec t (.xor .esi .esi)).reg .esi = 0 := Cpu.reg_set_self.trans BitVec.xor_self
    exact hxor

theorem strpbrk_finds_third : (strpbrk 0x1000 0x2000).Returns (.bare (twoStrings [97, 98, 99] [100, 99]))
    fun v t => t.df = false ∧ t.mem = twoStrings [97, 98, 99] [100, 99] ∧ v = 0x1002 := by
  have hcs : Str (twoStrings [97, 98, 99] [100, 99]) 0x1000 [97, 98, 99] := ⟨by decide +kernel, by decide⟩
  have hct : Str (twoStrings [97, 98, 99] [100, 99]) 0x2000 [100, 99] := ⟨by decide +kernel, by decide⟩
  exact strpbrk_finds (.bare _) hcs hct (by decide)

/-! ## Looking for a string -/

/-- `movl %4,%edi` to `repe cmpsb` -/
def matched (ct : Addr) (s : Cpu) : Cpu :=
  Instr.exec (Instr.exec (Instr.exec (Instr.exec s (.movi ct .edi)) (.mov .esi .eax)) (.mov .edx .ecx)) (.repe .cmpsb)

/-- What the comparison leaves -/
structure Matched (s t : Cpu) : Prop where
  mem : t.mem = s.mem
  df : t.df = false
  eax : t.reg .eax = s.reg .esi
  edx : t.reg .edx = s.reg .edx

theorem matched_same (hdf : s.df = false) (hct : Holds s.mem ct l) (hcs : Holds s.mem (s.reg .esi) l)
    (hedx : (s.reg .edx).toNat = l.length) (hz : l = [] → s.zf = true) :
    Matched s (matched ct s) ∧ (matched ct s).zf = true := by
  let d := Instr.exec (Instr.exec (Instr.exec s (.movi ct .edi)) (.mov .esi .eax)) (.mov .edx .ecx)
  have hecx : (d.reg .ecx).toNat = l.length := by simpa [d, Instr.exec] using hedx
  obtain ⟨hk, hzf⟩ := cmp_same (s := d) (l := l) hdf hcs hct
  rw [← hecx] at hk hzf
  refine ⟨⟨hk.mem, hk.df.trans hdf, hk.reg .eax (by decide), hk.reg .edx (by decide)⟩, hzf.trans ?_⟩
  by_cases hnil : l = []
  · exact Bool.or_eq_true_iff.mpr (.inr (hz hnil))
  · exact Bool.or_eq_true_iff.mpr (.inl (decide_eq_true hnil))

theorem matched_differ {u : List Byte} {d : Byte} (hdf : s.df = false) (hct : Holds s.mem ct (u ++ [c]))
    (hcs : Holds s.mem (s.reg .esi) (u ++ [d])) (hne : d ≠ c) (hn : u.length < (s.reg .edx).toNat) :
    Matched s (matched ct s) ∧ (matched ct s).zf = false ∧
      (matched ct s).reg .esi = s.reg .esi + BitVec.ofNat 32 (u.length + 1) := by
  let b := Instr.exec (Instr.exec (Instr.exec s (.movi ct .edi)) (.mov .esi .eax)) (.mov .edx .ecx)
  have hecx : u.length < (b.reg .ecx).toNat := by simpa [b, Instr.exec] using hn
  obtain ⟨hk, hzf, -, hesi⟩ := cmp_differ (s := b) hdf hcs hct hne hecx
  exact ⟨⟨hk.mem, hk.df.trans hdf, hk.reg .eax (by decide), hk.reg .edx (by decide)⟩, hzf, hesi⟩

/-- Where one string is not a beginning of the other they differ, at the zero at the latest. -/
theorem exists_mismatch (h0 : 0 ∉ l) (h : ¬ l <+: l') :
    ∃ u c d r r', l = u ++ c :: r ∧ l' ++ [0] = u ++ d :: r' ∧ d ≠ c := by
  induction l generalizing l' with
  | nil => exact absurd l'.nil_prefix h
  | cons c l ih =>
    rw [List.mem_cons, not_or] at h0
    cases l' with
    | nil => exact ⟨[], c, 0, l, [], rfl, rfl, h0.1⟩
    | cons d l' =>
      by_cases hcd : d = c
      · subst hcd
        rw [List.prefix_cons_inj] at h
        obtain ⟨u, e, f, r, r', rfl, hl', hne⟩ := ih h0.2 h
        exact ⟨d :: u, e, f, r, r', rfl, congrArg (d :: ·) hl', hne⟩
      · exact ⟨[], c, d, l, l' ++ [0], rfl, rfl, hcd⟩

/-- The address of the first place where `l` stands in `l'`; zero if it does not stand there -/
def FirstIn (l l' : List Byte) (cs v : Addr) : Prop :=
  (∃ i, v = cs + BitVec.ofNat 32 i ∧ l <+: l'.drop i ∧ ∀ j < i, ¬ l <+: l'.drop j) ∨ v = 0 ∧ ¬ l <:+: l'

theorem FirstIn.cons (h : FirstIn l l' (cs + 1) a) (hl : ¬ l <+: c :: l') : FirstIn l (c :: l') cs a := by
  rcases h with ⟨i, hv, hi, hj⟩ | ⟨hv, hno⟩
  · refine .inl ⟨i + 1, hv.trans (add_ofNat_succ cs i).symm, hi, fun j hlt => ?_⟩
    cases j with
    | zero => exact hl
    | succ j => exact hj j (Nat.lt_of_succ_lt_succ hlt)
  · exact .inr ⟨hv, fun h => (List.infix_cons_iff.mp h).elim hl hno⟩

/-- Where the zero is reached the string is too short. -/
theorem not_infix_of_end {u r r' : List Byte} (h0 : 0 ∉ l') (hl : l = u ++ c :: r) (hl' : l' ++ [0] = u ++ 0 :: r') :
    ¬ l <:+: l' := by
  have hu : l'.length ≤ u.length := by
    rcases List.append_eq_append_iff.mp hl' with ⟨v, rfl, -⟩ | ⟨v, rfl, hv⟩
    · exact List.length_append ▸ Nat.le_add_right _ _
    · cases v with
      | nil => rw [List.append_nil]
      | cons e v =>
        have he : 0 = e := (List.cons.inj hv).1
        exact absurd (List.mem_append_right u (he ▸ List.mem_cons_self)) h0
  intro hin
  have hlen := hin.length_le
  rw [hl, List.length_append, List.length_cons] at hlen
  omega

/-- One turn: the comparison ends the search, or it goes on behind the first character. -/
theorem strstr_turn (hdf : s.df = false) (hct : Str s.mem ct l) (hedx : (s.reg .edx).toNat = l.length)
    (hz : l = [] → s.zf = true) (hcs : Str s.mem (s.reg .esi) l') :
    Reach (strstr cs ct).code (fun k t => t.df = false ∧ t.mem = s.mem ∧
      (k = (strstr cs ct).code.length ∧ FirstIn l l' (s.reg .esi) (t.reg .eax) ∨
        k = 6 ∧ l' ≠ [] ∧ ¬ l <+: l' ∧ t.reg .esi = s.reg .esi + 1 ∧ t.reg .edx = s.reg .edx)) 6 s := by
  by_cases hp : l <+: l'
  · have hcs' : Holds s.mem (s.reg .esi) l := by
      obtain ⟨r, rfl⟩ := hp
      exact (holds_append.mp (holds_append.mp hcs.holds).1).1
    obtain ⟨hm, hzf⟩ := matched_same hdf (holds_append.mp hct.holds).1 hcs' hedx hz
    refine .lab rfl (.op rfl (.op rfl (.op rfl (.op rfl (.jump rfl rfl hzf (.lab rfl (.done ⟨hm.df, hm.mem, ?_⟩)))))))
    exact .inl ⟨rfl, .inl ⟨0, hm.eax.trans (BitVec.add_zero _).symm, hp, fun j hj => absurd hj (Nat.not_lt_zero j)⟩⟩
  · obtain ⟨u, c, d, r, r', hl, hl', hne⟩ := exists_mismatch hct.zero_notMem hp
    have hu : u.length < (s.reg .edx).toNat := by
      rw [hedx, hl, List.length_append, List.length_cons]
      omega
    have hpre := hct.holds
    rw [hl, List.append_assoc, List.cons_append, holds_append] at hpre
    have hpre' := hcs.holds
    rw [hl', holds_append] at hpre'
    obtain ⟨hm, hzf, hesi⟩ := matched_differ hdf (holds_append.mpr ⟨hpre.1, hpre.2.1, trivial⟩)
      (holds_append.mpr ⟨hpre'.1, hpre'.2.1, trivial⟩) hne hu
    let x := Instr.exec (Instr.exec (matched ct s) (.xchg .eax .esi)) (.inc .esi)
    have heax : x.reg .eax + -1 = s.reg .esi + BitVec.ofNat 32 u.length := by
      have hx : x.reg .eax = (matched ct s).reg .esi := by simp [x, Instr.exec, Cpu.testFlags]
      rw [hx, hesi, ← BitVec.sub_eq_add_neg, add_succ_sub_one]
    have hxesi : x.reg .esi = s.reg .esi + 1 := by
      rw [← hm.eax]
      simp [x, Instr.exec, Cpu.testFlags]
    have hxedx : x.reg .edx = s.reg .edx := by
      rw [← hm.edx]
      simp [x, Instr.exec, Cpu.testFlags]
    have hbyte : (Instr.exec x (.cmpb 0 (-1) .eax)).zf = decide (d = 0) := by
      change decide ((matched ct s).mem (x.reg .eax + -1) = 0) = _
      rw [heax, hm.mem, hpre'.2.1]
    refine .lab rfl (.op rfl (.op rfl (.op rfl (.op rfl (.fall rfl hzf (.op rfl (.op rfl (.op rfl ?_))))))))
    by_cases hd : d = 0
    · rw [decide_eq_true hd] at hbyte
      have hcond : Cond.holds (Instr.exec x (.cmpb 0 (-1) .eax)) .ne = false := congrArg not hbyte
      refine .fall rfl hcond (.op rfl (.lab rfl (.done ⟨hm.df, hm.mem, .inl ⟨rfl, .inr ⟨?_, ?_⟩⟩⟩)))
      · exact Cpu.reg_set_self.trans BitVec.xor_self
      · exact not_infix_of_end hcs.zero_notMem hl (hd ▸ hl')
    · rw [decide_eq_false hd] at hbyte
      have hcond : Cond.holds (Instr.exec x (.cmpb 0 (-1) .eax)) .ne = true := congrArg not hbyte
      refine .jump rfl rfl hcond (.done ⟨hm.df, hm.mem, .inr ⟨rfl, ?_, hp, hxesi, hxedx⟩⟩)
      rintro rfl
      cases u with
      | nil => exact hd (List.cons.inj hl').1.symm
      | cons e u => exact List.append_ne_nil_of_right_ne_nil u (List.cons_ne_nil d r') (List.cons.inj hl').2.symm

theorem strstr_loop (hdf : s.df = false) (hct : Str s.mem ct l) (hedx : (s.reg .edx).toNat = l.length)
    (hz : l = [] → s.zf = true) (hcs : Str s.mem (s.reg .esi) l') :
    Reach (strstr cs ct).code (fun k t => k = (strstr cs ct).code.length ∧ t.df = false ∧ t.mem = s.mem ∧
      FirstIn l l' (s.reg .esi) (t.reg .eax)) 6 s := by
  induction l' generalizing s with
  | nil =>
    refine (strstr_turn hdf hct hedx hz hcs).weaken ?_
    rintro k t ⟨hd, hm, ⟨hk, hv⟩ | ⟨-, hne, -⟩⟩
    · exact ⟨hk, hd, hm, hv⟩
    · exact absurd rfl hne
  | cons c l' ih =>
    refine (strstr_turn hdf hct hedx hz hcs).trans ?_
    rintro k t ⟨hd, hm, ⟨hk, hv⟩ | ⟨rfl, -, hno, hesi, hedx'⟩⟩
    · exact .done ⟨hk, hd, hm, hv⟩
    · have hne : l ≠ [] := by
        rintro rfl
        exact hno (List.nil_prefix)
      obtain ⟨-, -, hcs'⟩ := hcs.head
      have hrun := ih hd (hm ▸ hct) (hedx' ▸ hedx) (fun h => absurd h hne) (by rw [hm, hesi]; exact hcs')
      refine hrun.weaken ?_
      rintro j u ⟨hj, hdu, hmu, hv⟩
      rw [hesi] at hv
      exact ⟨hj, hdu, hmu.trans hm, hv.cons hno⟩

/-- The address of the first place where the second string stands in the first -/
theorem strstr_finds (s : Cpu) (hcs : Str s.mem cs l') (hct : Str s.mem ct l) (hl : l.length < 2 ^ 32 - 1) :
    (strstr cs ct).Returns s fun v t => t.df = false ∧ t.mem = s.mem ∧ FirstIn l l' cs v := by
  apply lengthOf_counts (s := (strstr cs ct).load s) rfl rfl hct hl
  intro t ht
  have hedx : (t.reg .edx).toNat = l.length := by
    rw [ht.edx, BitVec.toNat_ofNat, Nat.mod_eq_of_lt hct.length_lt]
  have hesi : t.reg .esi = cs := ht.esi
  have hmem : t.mem = s.mem := ht.mem
  have hrun : Reach (strstr cs ct).code (fun k u => k = (strstr cs ct).code.length ∧ u.df = false ∧
      u.mem = t.mem ∧ FirstIn l l' (t.reg .esi) (u.reg .eax)) 6 t := by
    apply strstr_loop ht.df (hmem ▸ hct) hedx fun h => ht.zf.trans (decide_eq_true h)
    rw [hmem, hesi]
    exact hcs
  refine hrun.weaken ?_
  rintro k u ⟨hk, hd, hm, hv⟩
  exact ⟨hk, hd, hm.trans hmem, hesi ▸ hv⟩

theorem strstr_finds_second : (strstr 0x1000 0x2000).Returns (.bare (twoStrings [97, 97, 98] [97, 98])) fun v t =>
    t.df = false ∧ t.mem = twoStrings [97, 97, 98] [97, 98] ∧ FirstIn [97, 98] [97, 97, 98] 0x1000 v := by
  have hcs : Str (twoStrings [97, 97, 98] [97, 98]) 0x1000 [97, 97, 98] := ⟨by decide +kernel, by decide⟩
  have hct : Str (twoStrings [97, 97, 98] [97, 98]) 0x2000 [97, 98] := ⟨by decide +kernel, by decide⟩
  exact strstr_finds (.bare _) hcs hct (by decide)

end Linux012.Strings
