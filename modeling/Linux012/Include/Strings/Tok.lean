import Linux012.Include.Strings.Span

/-! # Tokens

`strtok` ends a token by writing a zero over the character behind it, and keeps in `___strtok` where the rest
of the string begins. Called again and again it yields the tokens one after another.
-/

namespace Linux012.Strings

open Function X86

variable {s : Cpu} {l l' u v w : List Byte} {saved cs ct a : Addr} {c : Byte} {Q : ℕ → Cpu → Prop} {m : Mem}

theorem span_append {z : Bool} (hu : ∀ c ∈ u, decide (c ∈ l) = z) (hv : ∀ c ∈ v.head?, decide (c ∈ l) ≠ z) :
    span l z (u ++ v) = u := by
  rw [span, List.takeWhile_append_of_pos fun c hc => beq_iff_eq.mpr (hu c hc)]
  cases v with
  | nil => exact List.append_nil u
  | cons c v =>
    refine (congrArg (u ++ ·) (List.takeWhile_cons_of_neg ?_)).trans (List.append_nil u)
    exact fun h => hv c rfl (beq_iff_eq.mp h)

/-- The end of `strtok` without a token -/
theorem strtok_null (h : s.reg .ebx = 0) : Reach (strtok saved cs ct).code (fun k t =>
    k = (strtok saved cs ct).code.length ∧ t.reg .ebx = 0 ∧ t.reg .esi = 0 ∧ t.df = s.df ∧ t.mem = s.mem) 48 s := by
  have hz : Cond.holds (Instr.exec s (.test .ebx .ebx)) .ne = false := by
    change (!decide (s.reg .ebx &&& s.reg .ebx = 0)) = false
    rw [h]
    rfl
  refine .lab rfl (.op rfl (.fall rfl hz (.op rfl (.lab rfl (.done ⟨rfl, ?_, ?_, rfl, rfl⟩)))))
  · exact (reg_mov (by decide)).trans h
  · exact Cpu.reg_set_self.trans h

/-- The end of `strtok` with a token -/
theorem strtok_token (h : s.reg .ebx ≠ 0) (hc : s.mem (s.reg .ebx) ≠ 0) :
    Reach (strtok saved cs ct).code (fun k t => k = (strtok saved cs ct).code.length ∧
      t.reg .ebx = s.reg .ebx ∧ t.reg .esi = s.reg .esi ∧ t.df = s.df ∧ t.mem = s.mem) 44 s := by
  have hbyte : Cond.holds (Instr.exec s (.cmpb 0 0 .ebx)) .ne = true := by
    change (!decide (s.mem (s.reg .ebx + 0) = 0)) = true
    have hadd : s.reg .ebx + 0 = s.reg .ebx := BitVec.add_zero _
    rw [hadd, decide_eq_false hc]
    rfl
  have hz : Cond.holds (Instr.exec (Instr.exec s (.cmpb 0 0 .ebx)) (.test .ebx .ebx)) .ne = true := by
    change (!decide (s.reg .ebx &&& s.reg .ebx = 0)) = true
    rw [BitVec.and_self, decide_eq_false h]
    rfl
  exact .lab rfl (.op rfl (.jump rfl rfl hbyte (.lab rfl (.op rfl (.jump rfl rfl hz
    (.lab rfl (.done ⟨rfl, rfl, rfl, rfl, rfl⟩)))))))

/-- Where `strtok` begins to look: at its argument, or where it ended last time. -/
theorem strtok_begins (ha : a ≠ 0) (hcs : cs = a ∨ cs = 0 ∧ saved = a)
    (h : ∀ t : Cpu, t.reg .esi = a → t.mem = s.mem → Reach (strtok saved cs ct).code Q 5 t) :
    Reach (strtok saved cs ct).code Q 0 ((strtok saved cs ct).load s) := by
  rcases hcs with rfl | ⟨hcs, rfl⟩
  · have hz : Cond.holds (Instr.exec ((strtok saved cs ct).load s) (.test .esi .esi)) .ne = true := by
      change (!decide (cs &&& cs = 0)) = true
      rw [BitVec.and_self, decide_eq_false ha]
      rfl
    exact .op rfl (.jump rfl rfl hz (h _ rfl rfl))
  · have hz : Cond.holds (Instr.exec ((strtok saved cs ct).load s) (.test .esi .esi)) .ne = false := by
      change (!decide (cs &&& cs = 0)) = false
      rw [hcs]
      rfl
    have hz' : Cond.holds (Instr.exec (Instr.exec ((strtok saved cs ct).load s) (.test .esi .esi))
        (.test .ebx .ebx)) .e = false := by
      change decide (saved &&& saved = 0) = false
      rw [BitVec.and_self, decide_eq_false ha]
    exact .op rfl (.fall rfl hz (.op rfl (.fall rfl hz' (.op rfl (h _ rfl rfl)))))

/-- The delimiters have been counted, and there are some. -/
structure Ready (s : Cpu) (l : List Byte) (t : Cpu) : Prop where
  mem : t.mem = s.mem
  df : t.df = false
  ebx : t.reg .ebx = 0
  edx : t.reg .edx = BitVec.ofNat 32 l.length
  esi : t.reg .esi = s.reg .esi

theorem strtok_counts (hct : Str s.mem ct l) (hl : l.length < 2 ^ 32 - 1)
    (h : ∀ t, Ready s l t → l ≠ [] → Reach (strtok saved cs ct).code Q 16 t)
    (hnil : ∀ t : Cpu, t.reg .ebx = 0 → t.df = false → t.mem = s.mem → l = [] →
      Reach (strtok saved cs ct).code Q 48 t) :
    Reach (strtok saved cs ct).code Q 5 s := by
  let b := Instr.exec (Instr.exec (Instr.exec (Instr.exec (Instr.exec s (.xor .ebx .ebx)) (.movi (-1) .ecx))
    (.xor .eax .eax)) .cld) (.movi ct .edi)
  have hbx : b.reg .ebx = 0 := by simp [b, Instr.exec, Cpu.testFlags]
  have hsi : b.reg .esi = s.reg .esi := by simp [b, Instr.exec, Cpu.testFlags]
  have hal : b.al = 0 := by simp [b, Instr.exec, Cpu.testFlags, Cpu.al]
  have hecx : b.reg .ecx = 0xffffffff := by simp [b, Instr.exec, Cpu.testFlags]
  obtain ⟨hk, -, -, hecx'⟩ := scan_end (d := b) rfl hal hecx hct hl
  obtain ⟨hcount, hzf⟩ := length_after hecx'
  have hbx' := (hk.reg .ebx (by decide)).trans hbx
  refine .lab rfl (.op rfl (.op rfl (.op rfl (.op rfl (.op rfl (.op rfl (.op rfl (.op rfl ?_))))))))
  by_cases hempty : l = []
  · refine .jump rfl rfl (hzf.trans ?_) (hnil _ ?_ hk.df hk.mem hempty)
    · rw [hempty]
      rfl
    · exact (reg_dec (by decide)).trans ((reg_not (by decide)).trans hbx')
  · refine .fall rfl (hzf.trans ?_) (.op rfl (h _ ⟨hk.mem, hk.df, ?_, ?_, ?_⟩ hempty))
    · refine decide_eq_false fun h0 => hempty (List.length_eq_zero_iff.mp ?_)
      rwa [ofNat_eq_zero_iff (by omega)] at h0
    · exact (reg_mov (by decide)).trans ((reg_dec (by decide)).trans ((reg_not (by decide)).trans hbx'))
    · exact Cpu.reg_set_self.trans hcount
    · exact (reg_mov (by decide)).trans ((reg_dec (by decide)).trans ((reg_not (by decide)).trans
        ((hk.reg .esi (by decide)).trans hsi)))

theorem ne_zero_of_head {h : Str m a v} (hv : v ≠ []) : m a ≠ 0 := by
  cases v with
  | nil => exact absurd rfl hv
  | cons c v => exact h.head.1 ▸ h.head.2.1

/-- The second loop, at the first character of a token that the string ends with -/
theorem strtok_last_token (hdf : s.df = false) (hct : Str s.mem ct l)
    (hedx : s.reg .edx = BitVec.ofNat 32 l.length) (hebx : s.reg .ebx = s.reg .esi) (h0 : s.reg .ebx ≠ 0)
    (hs : Str s.mem (s.reg .esi) v) (hv : ∀ c ∈ v, c ∉ l) (hne : v ≠ []) :
    Reach (strtok saved cs ct).code (fun k t => k = (strtok saved cs ct).code.length ∧
      t.reg .ebx = s.reg .ebx ∧ t.reg .esi = 0 ∧ t.df = false ∧ t.mem = s.mem) 28 s := by
  have hloop : SpanLoop (strtok saved cs ct).code ct false 28 3 42 :=
    ⟨rfl, rfl, rfl, ⟨5, rfl, rfl⟩, rfl, rfl, rfl, rfl, rfl⟩
  refine (span_loop hloop hdf hct hedx hs).trans ?_
  intro k t ht
  have hspan : span l false v = v := span_false_eq.mpr hv
  rcases ht.line with ⟨-, hlt⟩ | ⟨rfl, -⟩
  · exact absurd hlt (by rw [hspan]; exact lt_irrefl _)
  · let b := Instr.exec t (.xor .esi .esi)
    have hbx : b.reg .ebx = s.reg .ebx := Eq.trans (by simp [b, Instr.exec, Cpu.testFlags]) ht.ebx
    have hsi : b.reg .esi = 0 := Cpu.reg_set_self.trans BitVec.xor_self
    have hm : b.mem = s.mem := ht.mem
    have hbyte : b.mem (b.reg .ebx) ≠ 0 := by
      rw [hm, hbx, hebx]
      exact ne_zero_of_head (h := hs) hne
    refine .lab rfl (.op rfl ((strtok_token (by rw [hbx]; exact h0) hbyte).weaken ?_))
    rintro k u ⟨hk, hu, hu', hd, hmu⟩
    exact ⟨hk, hu.trans hbx, hu'.trans hsi, hd.trans ht.df, hmu.trans hm⟩

theorem ne_add_ofNat {n : ℕ} (h0 : n ≠ 0) (hn : n < 2 ^ 32) : a ≠ a + BitVec.ofNat 32 n := by
  intro he
  have hsub := congrArg (· - a) he
  simp only [BitVec.sub_self] at hsub
  rw [BitVec.add_comm, BitVec.add_sub_cancel] at hsub
  exact h0 ((ofNat_eq_zero_iff hn).mp hsub.symm)

/-- The second loop, at the first character of a token that another delimiter follows -/
theorem strtok_inner_token (hdf : s.df = false) (hct : Str s.mem ct l)
    (hedx : s.reg .edx = BitVec.ofNat 32 l.length) (hebx : s.reg .ebx = s.reg .esi) (h0 : s.reg .ebx ≠ 0)
    (hs : Str s.mem (s.reg .esi) (v ++ c :: w)) (hv : ∀ c ∈ v, c ∉ l) (hne : v ≠ []) (hc : c ∈ l) :
    Reach (strtok saved cs ct).code (fun k t => k = (strtok saved cs ct).code.length ∧
      t.reg .ebx = s.reg .ebx ∧ t.reg .esi = s.reg .esi + BitVec.ofNat 32 (v.length + 1) ∧ t.df = false ∧
      t.mem = update s.mem (s.reg .esi + BitVec.ofNat 32 v.length) 0) 28 s := by
  have hloop : SpanLoop (strtok saved cs ct).code ct false 28 3 42 :=
    ⟨rfl, rfl, rfl, ⟨5, rfl, rfl⟩, rfl, rfl, rfl, rfl, rfl⟩
  refine (span_loop hloop hdf hct hedx hs).trans ?_
  intro k t ht
  have hspan : span l false (v ++ c :: w) = v := by
    apply span_append
    · exact fun e he => decide_eq_false (hv e he)
    · rintro e ⟨⟩
      rw [decide_eq_true hc]
      decide
  have hlt : v.length < (v ++ c :: w).length := by
    rw [List.length_append, List.length_cons]
    omega
  rcases ht.line with ⟨rfl, -⟩ | ⟨-, heq⟩
  · let d := Instr.exec t (.dec .esi)
    have hdsi : d.reg .esi = s.reg .esi + BitVec.ofNat 32 v.length := ht.dec.trans (by rw [hspan])
    have hcc : s.mem (s.reg .esi + BitVec.ofNat 32 v.length) ≠ 0 := by
      exact ne_zero_of_head (h := hs.tail) (List.cons_ne_nil c w)
    have hbyte : Cond.holds (Instr.exec d (.cmpb 0 0 .esi)) .e = false := by
      have hadd : d.reg .esi + 0 = d.reg .esi := BitVec.add_zero _
      refine decide_eq_false ?_
      rw [hadd, hdsi]
      exact ht.mem ▸ hcc
    let b := Instr.exec (Instr.exec (Instr.exec d (.cmpb 0 0 .esi)) (.movb 0 .esi)) (.inc .esi)
    have hbx : b.reg .ebx = s.reg .ebx :=
      Eq.trans (by simp [b, d, Instr.exec, Cpu.testFlags, Cpu.subFlags, Cpu.store]) ht.ebx
    have hsi : b.reg .esi = s.reg .esi + BitVec.ofNat 32 (v.length + 1) := by
      have hinc : b.reg .esi = d.reg .esi + 1 := Cpu.reg_set_self
      rw [hinc, hdsi, add_ofNat_succ, BitVec.add_assoc, BitVec.add_assoc, BitVec.add_comm 1]
    have hm : b.mem = update s.mem (s.reg .esi + BitVec.ofNat 32 v.length) 0 := by
      change update t.mem (d.reg .esi) 0 = _
      rw [hdsi, ht.mem]
    have hfirst : b.mem (b.reg .ebx) ≠ 0 := by
      have hne' : s.reg .esi ≠ s.reg .esi + BitVec.ofNat 32 v.length :=
        ne_add_ofNat (fun h => hne (List.length_eq_zero_iff.mp h)) (hlt.trans hs.length_lt)
      rw [hm, hbx, hebx, update_of_ne hne']
      exact ne_zero_of_head (h := hs) (List.append_ne_nil_of_left_ne_nil hne _)
    refine .op rfl (.op rfl (.fall rfl hbyte (.op rfl (.op rfl (.jmp rfl rfl
      ((strtok_token (by rw [hbx]; exact h0) hfirst).weaken ?_))))))
    rintro k u ⟨hk, hu, hu', hd, hmu⟩
    exact ⟨hk, hu.trans hbx, hu'.trans hsi, hd.trans ht.df, hmu.trans hm⟩
  · rw [hspan] at heq
    exact absurd (congrArg List.length heq) hlt.ne

/-! ## One call -/

/-- With no character that is not a delimiter, and with no delimiters, there is no token. -/
theorem strtok_none (ha : a ≠ 0) (hcs : cs = a ∨ cs = 0 ∧ saved = a) (hct : Str s.mem ct l)
    (hl : l.length < 2 ^ 32 - 1) (hs : Str s.mem a l') (h : l = [] ∨ ∀ c ∈ l', c ∈ l) :
    (strtok saved cs ct).Returns s fun v t => v = 0 ∧ t.reg .esi = 0 ∧ t.mem = s.mem := by
  apply strtok_begins ha hcs
  intro b hb hbm
  apply strtok_counts (hbm ▸ hct) hl
  · intro t ht hne
    have hloop : SpanLoop (strtok saved cs ct).code ct true 16 2 48 :=
      ⟨rfl, rfl, rfl, ⟨7, rfl, rfl⟩, rfl, rfl, rfl, rfl, rfl⟩
    have hm : t.mem = s.mem := ht.mem.trans hbm
    have hall : span l true l' = l' :=
      List.takeWhile_eq_self_iff.mpr fun c hc => beq_iff_eq.mpr (decide_eq_true (h.resolve_left hne c hc))
    refine (span_loop hloop ht.df (hm ▸ hct) ht.edx (by rw [hm, ht.esi, hb]; exact hs)).trans ?_
    intro k d hd
    rcases hd.line with ⟨-, hlt⟩ | ⟨rfl, -⟩
    · exact absurd hlt (by rw [hall]; exact lt_irrefl _)
    · refine (strtok_null (hd.ebx.trans ht.ebx)).weaken ?_
      rintro k u ⟨hk, hv, hu, -, hmu⟩
      exact ⟨hk, hv, hu, hmu.trans (hd.mem.trans hm)⟩
  · intro t h0 _ hm _
    refine (strtok_null h0).weaken ?_
    rintro k u ⟨hk, hv, hu, -, hmu⟩
    exact ⟨hk, hv, hu, hmu.trans (hm.trans hbm)⟩

/-- Delimiters are skipped up to the first character of a token. -/
theorem strtok_skips (ha : a ≠ 0) (hcs : cs = a ∨ cs = 0 ∧ saved = a) (hct : Str s.mem ct l)
    (hl : l.length < 2 ^ 32 - 1) (hs : Str s.mem a (u ++ v)) (hl0 : l ≠ []) (hu : ∀ c ∈ u, c ∈ l)
    (hne : v ≠ []) (hv : ∀ c ∈ v.head?, c ∉ l)
    (h : ∀ d : Cpu, d.df = false → d.reg .edx = BitVec.ofNat 32 l.length → d.reg .ebx = d.reg .esi →
      d.reg .esi = a + BitVec.ofNat 32 u.length → d.mem = s.mem → Reach (strtok saved cs ct).code Q 28 d) :
    Reach (strtok saved cs ct).code Q 0 ((strtok saved cs ct).load s) := by
  apply strtok_begins ha hcs
  intro b hb hbm
  apply strtok_counts (hbm ▸ hct) hl
  · intro t ht _
    have hloop : SpanLoop (strtok saved cs ct).code ct true 16 2 48 :=
      ⟨rfl, rfl, rfl, ⟨7, rfl, rfl⟩, rfl, rfl, rfl, rfl, rfl⟩
    have hm : t.mem = s.mem := ht.mem.trans hbm
    have hesi : t.reg .esi = a := ht.esi.trans hb
    have hspan : span l true (u ++ v) = u :=
      span_append (fun c hc => decide_eq_true (hu c hc)) fun c hc => by rw [decide_eq_false (hv c hc)]; decide
    refine (span_loop hloop ht.df (hm ▸ hct) ht.edx (by rw [hm, hesi]; exact hs)).trans ?_
    intro k d hd
    have hdm : d.mem = s.mem := hd.mem.trans hm
    rcases hd.line with ⟨rfl, -⟩ | ⟨-, heq⟩
    · let e := Instr.exec d (.dec .esi)
      have hesi' : e.reg .esi = a + BitVec.ofNat 32 u.length := by
        rw [hd.dec, hspan, hesi]
      have hbyte : Cond.holds (Instr.exec e (.cmpb 0 0 .esi)) .e = false := by
        have hadd : e.reg .esi + 0 = e.reg .esi := BitVec.add_zero _
        refine decide_eq_false ?_
        rw [hadd, hesi']
        exact hdm ▸ ne_zero_of_head (h := hs.tail) hne
      refine .op rfl (.op rfl (.fall rfl hbyte (.op rfl (h _ hd.df (hd.edx.trans ht.edx) ?_ ?_ hdm))))
      · exact Cpu.reg_set_self.trans (reg_mov (by decide)).symm
      · exact (reg_mov (by decide)).trans hesi'
    · rw [hspan] at heq
      exact absurd heq.symm (fun h => hne (List.append_right_eq_self.mp h))
  · exact fun t _ _ _ h0 => absurd h0 hl0

/-- The string begins at `a` and does not go around the end of the memory. -/
structure Inside (m : Mem) (a : Addr) (l : List Byte) : Prop where
  str : Str m a l
  ne_zero : a ≠ 0
  lt : a.toNat + l.length < 2 ^ 32

theorem Inside.toNat (h : Inside m a (u ++ v)) : (a + BitVec.ofNat 32 u.length).toNat = a.toNat + u.length := by
  have hlt := h.lt
  rw [List.length_append] at hlt
  rw [BitVec.toNat_add, BitVec.toNat_ofNat, Nat.add_mod_mod, Nat.mod_eq_of_lt (by omega)]

theorem Inside.tail (h : Inside m a (u ++ v)) : Inside m (a + BitVec.ofNat 32 u.length) v := by
  have hto := h.toNat
  have hlt := h.lt
  rw [List.length_append] at hlt
  have hpos : a.toNat ≠ 0 := fun h0 => h.ne_zero (BitVec.eq_of_toNat_eq h0)
  refine ⟨h.str.tail, fun h0 => ?_, by omega⟩
  rw [h0] at hto
  change 0 = _ at hto
  omega

/-- The last token, which the string ends with: there is no more to come. -/
theorem strtok_last (hs : Inside s.mem a (u ++ v)) (hcs : cs = a ∨ cs = 0 ∧ saved = a) (hct : Str s.mem ct l)
    (hl : l.length < 2 ^ 32 - 1) (hl0 : l ≠ []) (hu : ∀ c ∈ u, c ∈ l) (hne : v ≠ []) (hv : ∀ c ∈ v, c ∉ l) :
    (strtok saved cs ct).Returns s fun r t => r = a + BitVec.ofNat 32 u.length ∧ t.reg .esi = 0 ∧
      t.mem = s.mem := by
  have htail := hs.tail
  refine strtok_skips hs.ne_zero hcs hct hl hs.str hl0 hu hne (fun c hc => hv c (List.mem_of_mem_head? hc)) ?_
  intro d hdf hedx hebx hesi hm
  have hd0 : d.reg .ebx ≠ 0 := by rw [hebx, hesi]; exact htail.ne_zero
  refine (strtok_last_token hdf (hm ▸ hct) hedx hebx hd0 (by rw [hm, hesi]; exact htail.str) hv hne).weaken ?_
  rintro k t ⟨hk, hr, hsi, -, hmt⟩
  exact ⟨hk, hr.trans (hebx.trans hesi), hsi, hmt.trans hm⟩

/-- A token with a delimiter behind it: a zero is written over the delimiter, and the next call goes on behind it. -/
theorem strtok_next (hs : Inside s.mem a (u ++ (v ++ c :: w))) (hcs : cs = a ∨ cs = 0 ∧ saved = a)
    (hct : Str s.mem ct l) (hl : l.length < 2 ^ 32 - 1) (hu : ∀ c ∈ u, c ∈ l) (hne : v ≠ [])
    (hv : ∀ c ∈ v, c ∉ l) (hc : c ∈ l) :
    (strtok saved cs ct).Returns s fun r t => r = a + BitVec.ofNat 32 u.length ∧
      t.reg .esi = a + BitVec.ofNat 32 u.length + BitVec.ofNat 32 (v.length + 1) ∧
      t.mem = update s.mem (a + BitVec.ofNat 32 u.length + BitVec.ofNat 32 v.length) 0 := by
  have htail := hs.tail
  have hhead : ∀ e ∈ (v ++ c :: w).head?, e ∉ l := by
    cases v with
    | nil => exact absurd rfl hne
    | cons d v =>
      rintro e ⟨⟩
      exact hv d List.mem_cons_self
  refine strtok_skips hs.ne_zero hcs hct hl hs.str (List.ne_nil_of_mem hc) hu
    (List.append_ne_nil_of_left_ne_nil hne _) hhead ?_
  intro d hdf hedx hebx hesi hm
  have hd0 : d.reg .ebx ≠ 0 := by rw [hebx, hesi]; exact htail.ne_zero
  refine (strtok_inner_token hdf (hm ▸ hct) hedx hebx hd0 (by rw [hm, hesi]; exact htail.str) hv hne hc).weaken ?_
  rintro k t ⟨hk, hr, hsi, -, hmt⟩
  rw [hesi] at hsi
  rw [hesi, hm] at hmt
  exact ⟨hk, hr.trans (hebx.trans hesi), hsi, hmt⟩

/-! ## One call after another -/

/-- The calls with the delimiters at `ct`, the first with the argument `cs` and all others with zero, yield
addresses, and then zero. What happens in the registers between the calls does not matter. -/
inductive Yields (ct : Addr) : Addr → Addr → Mem → List Addr → Mem → Prop
  | last {saved cs : Addr} {m : Mem} : (∀ s : Cpu, s.mem = m →
      (strtok saved cs ct).Returns s fun r t => r = 0 ∧ t.mem = m) → Yields ct saved cs m [] m
  | next {saved cs a saved' : Addr} {m m₁ m' : Mem} {as : List Addr} : (∀ s : Cpu, s.mem = m →
      (strtok saved cs ct).Returns s fun r t => r = a ∧ t.reg .esi = saved' ∧ t.mem = m₁) → a ≠ 0 →
      Yields ct saved' 0 m₁ as m' → Yields ct saved cs m (a :: as) m'

/-- The pieces between the delimiters, without the empty ones -/
def tokens (l l' : List Byte) : List (List Byte) := (l'.splitOnP l.contains).filter (· ≠ [])

theorem contains_eq_false {c : Byte} (h : c ∉ l) : l.contains c = false :=
  Bool.eq_false_iff.mpr (mt List.contains_iff_mem.mp h)

theorem tokens_skip (hu : ∀ c ∈ u, c ∈ l) : tokens l (u ++ v) = tokens l v := by
  induction u with
  | nil => rfl
  | cons c u ih =>
    rw [List.forall_mem_cons] at hu
    rw [List.cons_append, tokens, List.splitOnP_cons_eq_if_modifyHead, if_pos (List.contains_iff_mem.mpr hu.1)]
    exact (List.filter_cons_of_neg (by decide)).trans (ih hu.2)

theorem tokens_last (hne : v ≠ []) (hv : ∀ c ∈ v, c ∉ l) : tokens l v = [v] := by
  rw [tokens, List.splitOnP_eq_singleton fun c hc => contains_eq_false (hv c hc)]
  exact List.filter_cons_of_pos (decide_eq_true hne)

theorem tokens_next (hne : v ≠ []) (hv : ∀ c ∈ v, c ∉ l) (hc : c ∈ l) :
    tokens l (v ++ c :: w) = v :: tokens l w := by
  rw [tokens, List.splitOnP_append_cons_of_forall_mem (fun c hc => contains_eq_false (hv c hc)) c
    (List.contains_iff_mem.mpr hc)]
  exact List.filter_cons_of_pos (decide_eq_true hne)

theorem exists_span {α : Type*} (P : α → Prop) [DecidablePred P] (l : List α) :
    ∃ u v, l = u ++ v ∧ (∀ c ∈ u, P c) ∧ ∀ c ∈ v.head?, ¬ P c := by
  induction l with
  | nil => exact ⟨[], [], rfl, List.forall_mem_nil _, by rintro c ⟨⟩⟩
  | cons c l ih =>
    by_cases hc : P c
    · obtain ⟨u, v, rfl, hu, hv⟩ := ih
      exact ⟨c :: u, v, rfl, List.forall_mem_cons.mpr ⟨hc, hu⟩, hv⟩
    · exact ⟨[], c :: l, rfl, List.forall_mem_nil _, by rintro e ⟨⟩; exact hc⟩

/-- A string is delimiters, or delimiters and a last token, or delimiters, a token and more behind a delimiter. -/
theorem tokens_cases (l l' : List Byte) : (∀ c ∈ l', c ∈ l) ∨
    (∃ u v, l' = u ++ v ∧ (∀ c ∈ u, c ∈ l) ∧ v ≠ [] ∧ ∀ c ∈ v, c ∉ l) ∨
    ∃ u v c w, l' = u ++ (v ++ c :: w) ∧ (∀ c ∈ u, c ∈ l) ∧ v ≠ [] ∧ (∀ c ∈ v, c ∉ l) ∧ c ∈ l := by
  obtain ⟨u, r, rfl, hu, hr⟩ := exists_span (· ∈ l) l'
  obtain ⟨v, r', rfl, hv, hr'⟩ := exists_span (· ∉ l) r
  cases v with
  | nil =>
    cases r' with
    | nil => exact .inl (by simpa using hu)
    | cons c w => exact absurd (hr c rfl) (hr' c rfl)
  | cons d v =>
    cases r' with
    | nil => exact .inr (.inl ⟨u, d :: v, by rw [List.append_nil], hu, List.cons_ne_nil d v, hv⟩)
    | cons c w => exact .inr (.inr ⟨u, d :: v, c, w, rfl, hu, List.cons_ne_nil d v, hv, not_not.mp (hr' c rfl)⟩)

theorem strtok_done : (strtok 0 0 ct).Returns s fun r t => r = 0 ∧ t.mem = s.mem := by
  have hz {t : Cpu} {r : Reg} (h : t.reg r = 0) : (Instr.exec t (.test r r)).zf = true := by
    change decide (t.reg r &&& t.reg r = 0) = true
    rw [h]
    rfl
  exact .op rfl (.fall rfl (congrArg not (hz rfl)) (.op rfl (.jump rfl rfl (hz rfl)
    (.lab rfl (.done ⟨rfl, rfl, rfl⟩)))))

/-- The token that a zero has been written behind. -/
theorem str_of_cut (h : Str m a (v ++ c :: w)) : Str (update m (a + BitVec.ofNat 32 v.length) 0) a v := by
  have hlt := h.length_lt
  rw [List.length_append, List.length_cons] at hlt
  refine ⟨holds_append.mpr ⟨?_, update_self .., trivial⟩, fun h0 => h.zero_notMem (List.mem_append_left _ h0)⟩
  have hv : Holds m a v := (holds_append.mp (holds_append.mp h.holds).1).1
  refine hv.congr (fun x hx => update_of_ne ?_ ..) (by omega)
  rintro rfl
  rw [BitVec.add_comm, BitVec.add_sub_cancel, BitVec.toNat_ofNat, Nat.mod_eq_of_lt (by omega)] at hx
  exact lt_irrefl _ hx

theorem strtok_run {n : ℕ} (hn : l'.length = n) (hs : Inside m a l') (hcs : cs = a ∨ cs = 0 ∧ saved = a)
    (hct : Str m ct l) (hl : l.length < 2 ^ 32 - 1) (hl0 : l ≠ [])
    (hdis : ∀ x, (x - a).toNat ≤ l'.length → l.length < (x - ct).toNat) :
    ∃ as m', Yields ct saved cs m as m' ∧ List.Forall₂ (Str m') as (tokens l l') ∧
      ∀ x, l'.length ≤ (x - a).toNat → m' x = m x := by
  induction n using Nat.strong_induction_on generalizing a saved cs m l' with
  | _ n ih =>
  rcases tokens_cases l l' with hall | ⟨u, v, rfl, hu, hne, hv⟩ | ⟨u, v, c, w, rfl, hu, hne, hv, hc⟩
  · refine ⟨[], m, .last ?_, ?_, fun _ _ => rfl⟩
    · rintro s rfl
      exact (strtok_none hs.ne_zero hcs hct hl hs.str (.inr hall)).weaken fun r t h => ⟨h.1, h.2.2⟩
    · have htok : tokens l (l' ++ []) = tokens l [] := tokens_skip hall
      rw [List.append_nil] at htok
      exact htok ▸ .nil
  · have hfirst (s : Cpu) (hm : s.mem = m) : (strtok saved cs ct).Returns s fun r t =>
        r = a + BitVec.ofNat 32 u.length ∧ t.reg .esi = 0 ∧ t.mem = m := by
      subst hm
      exact strtok_last hs hcs hct hl hl0 hu hne hv
    refine ⟨[a + BitVec.ofNat 32 u.length], m, .next hfirst hs.tail.ne_zero (.last ?_), ?_, fun _ _ => rfl⟩
    · rintro s rfl
      exact strtok_done
    · rw [tokens_skip hu, tokens_last hne hv]
      exact .cons hs.tail.str .nil
  · have hlen : (u ++ (v ++ c :: w)).length = u.length + (v.length + (w.length + 1)) := by
      rw [List.length_append, List.length_append, List.length_cons]
    have hlt := hs.lt
    rw [hlen] at hlt hn
    simp only [hlen] at hdis ⊢
    -- the token is at `b`, and the rest begins at `b'`
    obtain ⟨b, hb⟩ : ∃ b, b = a + BitVec.ofNat 32 u.length := ⟨_, rfl⟩
    obtain ⟨b', hb'⟩ : ∃ b', b' = b + BitVec.ofNat 32 (v.length + 1) := ⟨_, rfl⟩
    have htail : Inside m b (v ++ c :: w) := hb ▸ hs.tail
    have hrest : Inside m b' w := by
      rw [List.append_cons] at htail
      have h := htail.tail
      rwa [List.length_append, List.length_singleton, ← hb'] at h
    have hba (x : Addr) := toNat_sub_add (x := x) (a := a) (k := u.length) (by omega)
    have hbb (x : Addr) := toNat_sub_add (x := x) (a := b) (k := v.length + 1) (by omega)
    simp only [← hb] at hba
    simp only [← hb'] at hbb
    obtain ⟨p, hpb⟩ : ∃ p, p = b + BitVec.ofNat 32 v.length := ⟨_, rfl⟩
    have hp : (p - b).toNat = v.length := by
      rw [hpb, BitVec.add_comm, BitVec.add_sub_cancel, BitVec.toNat_ofNat, Nat.mod_eq_of_lt (by omega)]
    have hm₁ {x : Addr} (hx : (x - b).toNat ≠ v.length) : update m p 0 x = m x :=
      update_of_ne (by rintro rfl; exact hx hp) ..
    have hs₁ : Inside (update m p 0) b' w :=
      ⟨hrest.str.congr fun x hx => hm₁ (by have := hbb x; omega), hrest.ne_zero, hrest.lt⟩
    have hct₁ : Str (update m p 0) ct l := by
      refine hct.congr fun x hx => hm₁ fun h => ?_
      have := hdis x (by have := hba x; omega)
      omega
    have hdis₁ (x : Addr) (hx : (x - b').toNat ≤ w.length) : l.length < (x - ct).toNat := by
      refine hdis x ?_
      have := hba x
      have := hbb x
      omega
    obtain ⟨as, m', hrun, hall, hframe⟩ := ih w.length (by omega) rfl hs₁ (.inr ⟨rfl, rfl⟩) hct₁ hdis₁
    refine ⟨b :: as, m', .next ?_ htail.ne_zero hrun, ?_, fun x hx => ?_⟩
    · rintro s rfl
      have h := strtok_next hs hcs hct hl hu hne hv hc
      rwa [← hb, ← hb', ← hpb] at h
    · rw [tokens_skip hu, tokens_next hne hv hc]
      have hcut := str_of_cut htail.str
      rw [← hpb] at hcut
      refine .cons (hcut.congr fun x hx => hframe x ?_) hall
      have := hbb x
      omega
    · rw [hframe x (by have := hba x; have := hbb x; omega)]
      exact hm₁ (by have := hba x; omega)

/-- The calls yield the tokens one after another: each is a string at its address when the last call has returned.
Nothing but characters of the string is changed. -/
theorem strtok_yields (saved : Addr) (hs : Inside m a l') (hct : Str m ct l) (hl : l.length < 2 ^ 32 - 1)
    (hl0 : l ≠ []) (hdis : ∀ x, (x - a).toNat ≤ l'.length → l.length < (x - ct).toNat) :
    ∃ as m', Yields ct saved a m as m' ∧ List.Forall₂ (Str m') as (tokens l l') ∧
      ∀ x, l'.length ≤ (x - a).toNat → m' x = m x :=
  strtok_run rfl hs (.inl rfl) hct hl hl0 hdis

theorem strtok_yields_two : ∃ as m', Yields 0x2000 0 0x1000 (twoStrings [97, 44, 44, 98] [44]) as m' ∧
    List.Forall₂ (Str m') as [[97], [98]] := by
  have hs : Inside (twoStrings [97, 44, 44, 98] [44]) 0x1000 [97, 44, 44, 98] :=
    ⟨⟨by decide +kernel, by decide⟩, by decide, by decide⟩
  have hct : Str (twoStrings [97, 44, 44, 98] [44]) 0x2000 [44] := ⟨by decide +kernel, by decide⟩
  obtain ⟨as, m', hy, ht, -⟩ := strtok_yields 0 hs hct (by decide) (by decide) fun x hx => by
    simp only [List.length_cons, List.length_nil] at hx ⊢
    bv_omega
  exact ⟨as, m', hy, ht⟩

end Linux012.Strings
