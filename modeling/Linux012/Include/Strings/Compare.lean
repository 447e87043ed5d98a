import Linux012.Include.Strings.Copy

/-! # Comparing strings

The comparisons order characters as signed numbers, and a zero ends a string. With no bytes to compare
`memcmp` answers by the flags that it finds.
-/

namespace Linux012.Strings

open Function X86

variable {m : Mem} {n : ℕ} {s : Cpu} {l l' : List Byte} {cs ct a : Addr} {c d : Byte}

/-- `notl` and `decl` make a length of what is left of the count. -/
theorem length_after {t : Cpu} {n : ℕ} (h : t.reg .ecx = 0xffffffff - BitVec.ofNat 32 (n + 1)) :
    (Instr.exec (Instr.exec t (.not .ecx)) (.dec .ecx)).reg .ecx = BitVec.ofNat 32 n ∧
      (Instr.exec (Instr.exec t (.not .ecx)) (.dec .ecx)).zf = decide (BitVec.ofNat 32 n = 0) := by
  have hnot : (Instr.exec t (.not .ecx)).reg .ecx = 1 + BitVec.ofNat 32 n := by
    refine Cpu.reg_set_self.trans ?_
    rw [h, ofNat_succ]
    bv_omega
  constructor
  · refine Cpu.reg_set_self.trans ?_
    rw [hnot]
    bv_omega
  · change decide ((Instr.exec t (.not .ecx)).reg .ecx = 1) = _
    rw [hnot]
    exact decide_eq_decide.mpr (by bv_omega)

/-- The length of a string -/
theorem strlen_counts (s : Cpu) (hs : Str s.mem a l) (hl : l.length < 2 ^ 32 - 1) :
    (strlen a).Returns s fun v t => v = BitVec.ofNat 32 l.length ∧ t.df = false ∧ t.mem = s.mem := by
  obtain ⟨hk, -, -, hecx⟩ := scan_end (d := Instr.exec ((strlen a).load s) .cld) rfl rfl rfl hs hl
  refine .op rfl (.op rfl (.op rfl (.op rfl (.done ⟨rfl, ?_, hk.df, hk.mem⟩))))
  refine (length_after hecx).1

/-- The sign of a comparison by the first bytes that differ -/
def order (l l' : List Byte) : BitVec 32 :=
  if l = l' then 0 else if l'.map BitVec.toInt < l.map BitVec.toInt then 1 else -1

theorem order_cons : order (c :: l) (c :: l') = order l l' := by
  simp [order]

theorem order_of_ne (h : c ≠ d) : order (c :: l) (d :: l') = if d.toInt < c.toInt then 1 else -1 := by
  have hi : d.toInt ≠ c.toInt := fun he => h (BitVec.eq_of_toInt_eq he).symm
  simp [order, List.cons_lt_cons_iff, h, hi]

/-- `lodsb` and `scasb` -/
def compared (s : Cpu) : Cpu := Instr.exec (Instr.exec s (.str .lodsb)) (.str .scasb)

theorem compared_spec (hdf : s.df = false) :
    (compared s).mem = s.mem ∧ (compared s).reg .esi = s.reg .esi + 1 ∧ (compared s).reg .edi = s.reg .edi + 1 ∧
      (compared s).reg .ecx = s.reg .ecx ∧ (compared s).al = s.mem (s.reg .esi) ∧
      (compared s).zf = decide (s.mem (s.reg .esi) = s.mem (s.reg .edi)) ∧
      ((compared s).sf != (compared s).of) =
        decide ((s.mem (s.reg .esi)).toInt < (s.mem (s.reg .edi)).toInt) ∧ (compared s).df = false := by
  have hal : (Instr.exec s (.str .lodsb)).al = s.mem (s.reg .esi) := by
    unfold Instr.exec StrOp.exec
    rw [Cpu.al_set_of_ne (by decide), Cpu.al_setAl]
  have hedi : (Instr.exec s (.str .lodsb)).reg .edi = s.reg .edi := by
    simp [Instr.exec, StrOp.exec]
  have hal' : (compared s).al = (Instr.exec s (.str .lodsb)).al := Cpu.al_set_of_ne (by decide)
  refine ⟨rfl, ?_, ?_, ?_, hal'.trans hal, ?_, ?_, hdf⟩
  · simp [compared, Instr.exec, StrOp.exec, Cpu.subFlags, Cpu.stride, hdf]
  · simp [compared, Instr.exec, StrOp.exec, Cpu.subFlags, Cpu.stride, hdf]
  · simp [compared, Instr.exec, StrOp.exec, Cpu.subFlags]
  · change decide ((Instr.exec s (.str .lodsb)).al = s.mem ((Instr.exec s (.str .lodsb)).reg .edi)) = _
    rw [hal, hedi]
  · refine (less_subFlags (Instr.exec s (.str .lodsb)) _ _).trans ?_
    rw [hal, hedi]
    rfl

/-- The answer for two bytes that differ -/
theorem answer {t : Cpu} {b : Bool} (hlt : (t.sf != t.of) = b) :
    (if b then Instr.exec t (.movi 1 .eax) else Instr.exec (Instr.exec t (.movi 1 .eax)) (.neg .eax)).reg .eax =
      if b then 1 else -1 := by
  cases b with
  | true => exact Cpu.reg_set_self
  | false =>
    refine Cpu.reg_set_self.trans ?_
    exact congrArg (-·) Cpu.reg_set_self

theorem strcmp_differ (hdf : s.df = false) (hne : s.mem (s.reg .esi) ≠ s.mem (s.reg .edi)) :
    Reach (strcmp cs ct).code (fun k t => k = (strcmp cs ct).code.length ∧
      t.reg .eax = (if (s.mem (s.reg .esi)).toInt < (s.mem (s.reg .edi)).toInt then 1 else -1) ∧
      t.df = false ∧ t.mem = s.mem) 1 s := by
  obtain ⟨hm, -, -, -, -, hz, hlt, hd⟩ := compared_spec hdf
  have hj : (!(compared s).zf) = true := by
    rw [hz, decide_eq_false hne]
    rfl
  refine .lab rfl (.op rfl (.op rfl (.jump rfl rfl hj (.lab rfl (.op rfl ?_)))))
  by_cases hl : (s.mem (s.reg .esi)).toInt < (s.mem (s.reg .edi)).toInt
  · rw [decide_eq_true hl] at hlt
    refine .jump rfl rfl hlt (.lab rfl (.done ⟨rfl, ?_, hd, hm⟩))
    rw [if_pos hl]
    exact answer hlt
  · rw [decide_eq_false hl] at hlt
    refine .fall rfl hlt (.op rfl (.lab rfl (.done ⟨rfl, ?_, hd, hm⟩)))
    rw [if_neg hl]
    exact answer hlt

theorem strcmp_end (hdf : s.df = false) (heq : s.mem (s.reg .esi) = s.mem (s.reg .edi))
    (h0 : s.mem (s.reg .esi) = 0) : Reach (strcmp cs ct).code (fun k t => k = (strcmp cs ct).code.length ∧
      t.reg .eax = 0 ∧ t.df = false ∧ t.mem = s.mem) 1 s := by
  obtain ⟨hm, -, -, -, hal, hz, -, hd⟩ := compared_spec hdf
  have hj : (!(compared s).zf) = false := by
    rw [hz, decide_eq_true heq]
    rfl
  have hj' : (!(Instr.exec (compared s) .testAl).zf) = false := by
    change (!decide ((compared s).al = 0)) = false
    rw [hal, decide_eq_true h0]
    rfl
  refine .lab rfl (.op rfl (.op rfl (.fall rfl hj (.op rfl (.fall rfl hj' (.op rfl (.jmp rfl rfl
    (.lab rfl (.done ⟨rfl, ?_, hd, hm⟩)))))))))
  exact Cpu.reg_set_self.trans (BitVec.xor_self)

theorem strcmp_loop (hdf : s.df = false) (hc : Str s.mem (s.reg .edi) l) (ht : Str s.mem (s.reg .esi) l') :
    Reach (strcmp cs ct).code (fun k t => k = (strcmp cs ct).code.length ∧
      t.reg .eax = order (l ++ [0]) (l' ++ [0]) ∧ t.df = false ∧ t.mem = s.mem) 1 s := by
  induction l generalizing s l' with
  | nil =>
    have h0 : s.mem (s.reg .edi) = 0 := hc.holds.1
    cases l' with
    | nil =>
      have h0' : s.mem (s.reg .esi) = 0 := ht.holds.1
      exact (strcmp_end hdf (h0'.trans h0.symm) h0').weaken fun k t h => ⟨h.1, h.2.1.trans (if_pos rfl).symm, h.2.2⟩
    | cons d l' =>
      obtain ⟨hd, hne, -⟩ := ht.head
      refine (strcmp_differ hdf (by rw [h0, hd]; exact hne)).weaken fun k t h => ⟨h.1, h.2.1.trans ?_, h.2.2⟩
      rw [List.nil_append, List.cons_append, order_of_ne hne.symm, h0, hd]
  | cons c l ih =>
    obtain ⟨hcc, hne, hc'⟩ := hc.head
    cases l' with
    | nil =>
      have h0 : s.mem (s.reg .esi) = 0 := ht.holds.1
      refine (strcmp_differ hdf (by rw [h0, hcc]; exact hne.symm)).weaken fun k t h => ⟨h.1, h.2.1.trans ?_, h.2.2⟩
      rw [List.nil_append, List.cons_append, order_of_ne hne, h0, hcc]
    | cons d l' =>
      obtain ⟨hd, -, ht'⟩ := ht.head
      by_cases hcd : c = d
      · subst hcd
        obtain ⟨hm, hsi, hdi, -, hal, hz, -, hdf'⟩ := compared_spec hdf
        have hj : (!(compared s).zf) = false := by
          rw [hz, decide_eq_true (hd.trans hcc.symm)]
          rfl
        have hj' : (!(Instr.exec (compared s) .testAl).zf) = true := by
          change (!decide ((compared s).al = 0)) = true
          rw [hal, hd, decide_eq_false hne]
          rfl
        have hc'' : Str (Instr.exec (compared s) .testAl).mem ((compared s).reg .edi) l := by
          change Str (compared s).mem _ l
          rw [hm]
          exact hdi ▸ hc'
        have ht'' : Str (Instr.exec (compared s) .testAl).mem ((compared s).reg .esi) l' := by
          change Str (compared s).mem _ l'
          rw [hm]
          exact hsi ▸ ht'
        have hrun := ih (s := Instr.exec (compared s) .testAl) hdf' hc'' ht''
        refine .lab rfl (.op rfl (.op rfl (.fall rfl hj (.op rfl (.jump rfl rfl hj' (hrun.weaken ?_))))))
        rintro k t ⟨hk, hv, hdt, hmt⟩
        refine ⟨hk, hv.trans ?_, hdt, hmt.trans hm⟩
        rw [List.cons_append, List.cons_append, order_cons]
      · have hne' : s.mem (s.reg .esi) ≠ s.mem (s.reg .edi) := by
          rw [hd, hcc]
          exact Ne.symm hcd
        refine (strcmp_differ hdf hne').weaken fun k t h => ⟨h.1, h.2.1.trans ?_, h.2.2⟩
        rw [List.cons_append, List.cons_append, order_of_ne hcd, hd, hcc]

/-- The sign of the comparison up to the first difference, the zeros included -/
theorem strcmp_orders (s : Cpu) (hc : Str s.mem cs l) (ht : Str s.mem ct l') :
    (strcmp cs ct).Returns s fun v t => v = order (l ++ [0]) (l' ++ [0]) ∧ t.df = false ∧ t.mem = s.mem :=
  .op rfl (strcmp_loop (s := Instr.exec ((strcmp cs ct).load s) .cld) rfl hc ht)

/-! ## With a count -/

/-- The bytes from `a` on up to and with a zero, at most `n` -/
def field (m : Mem) : Addr → ℕ → List Byte
  | _, 0 => []
  | a, n + 1 => m a :: if m a = 0 then [] else field m (a + 1) n

theorem strncmp_none {t : Cpu} (hd : t.df = false) {count : BitVec 32} :
    Reach (strncmp cs ct count).code (fun k u => k = (strncmp cs ct count).code.length ∧
      u.reg .eax = 0 ∧ u.df = false ∧ u.mem = t.mem) 9 t :=
  .lab rfl (.op rfl (.jmp rfl rfl (.lab rfl
    (.done ⟨rfl, Cpu.reg_set_self.trans BitVec.xor_self, hd, rfl⟩))))

theorem strncmp_loop {count : BitVec 32} (hdf : s.df = false) (hn : turns (s.reg .ecx) = n) :
    Reach (strncmp cs ct count).code (fun k t => k = (strncmp cs ct count).code.length ∧
      t.reg .eax = order (field s.mem (s.reg .edi) n) (field s.mem (s.reg .esi) n) ∧ t.df = false ∧
      t.mem = s.mem) 1 s := by
  induction n generalizing s with
  | zero =>
    have hsf : (Instr.exec s (.dec .ecx)).sf = true := (dec_sf s).trans (decide_eq_true hn)
    have hdf' : (Instr.exec s (.dec .ecx)).df = false := hdf
    exact .lab rfl (.op rfl (.jump rfl rfl hsf (strncmp_none hdf')))
  | succ n ih =>
    let d := Instr.exec s (.dec .ecx)
    have hne : turns (s.reg .ecx) ≠ 0 := by omega
    have hsf : d.sf = false := (dec_sf s).trans (decide_eq_false hne)
    have hdf' : d.df = false := hdf
    have hesi : d.reg .esi = s.reg .esi := Cpu.reg_set_of_ne (by decide)
    have hedi : d.reg .edi = s.reg .edi := Cpu.reg_set_of_ne (by decide)
    have hecx : d.reg .ecx = s.reg .ecx - 1 := Cpu.reg_set_self
    obtain ⟨hm, hsi, hdi, hci, hal, hz, hlt, hdc⟩ := compared_spec hdf'
    have hmem : d.mem = s.mem := rfl
    rw [hmem, hesi] at hal
    rw [hmem, hesi, hedi] at hz hlt
    rw [field, field]
    by_cases heq : s.mem (s.reg .esi) = s.mem (s.reg .edi)
    · rw [decide_eq_true heq] at hz
      have hj : (!(compared d).zf) = false := by rw [hz, Bool.not_true]
      have htest : (Instr.exec (compared d) .testAl).zf = decide (s.mem (s.reg .esi) = 0) :=
        congrArg (fun b : Byte => decide (b = 0)) hal
      refine .lab rfl (.op rfl (.fall rfl hsf (.op rfl (.op rfl (.fall rfl hj (.op rfl ?_))))))
      rw [← heq, order_cons]
      by_cases h0 : s.mem (s.reg .esi) = 0
      · have hdt : (Instr.exec (compared d) .testAl).df = false := hdc
        have hstop : (!(Instr.exec (compared d) .testAl).zf) = false := by
          rw [htest, decide_eq_true h0]
          rfl
        refine .fall rfl hstop ?_
        refine (strncmp_none hdt).weaken fun k u h => ⟨h.1, h.2.1.trans ?_, h.2.2.1, h.2.2.2.trans hm⟩
        rw [if_pos h0, if_pos h0]
        exact (if_pos rfl).symm
      · have hrun := ih (s := Instr.exec (compared d) .testAl) hdc (by
          refine (congrArg turns (hci.trans hecx)).trans ?_
          rw [turns_sub_one hne, hn, Nat.add_sub_cancel])
        have hgo : (!(Instr.exec (compared d) .testAl).zf) = true := by
          rw [htest, decide_eq_false h0]
          rfl
        refine .jump rfl rfl hgo (hrun.weaken fun k u h => ⟨h.1, h.2.1.trans ?_, h.2.2.1, h.2.2.2.trans hm⟩)
        rw [if_neg h0, if_neg h0]
        change order (field (compared d).mem ((compared d).reg .edi) n)
          (field (compared d).mem ((compared d).reg .esi) n) = _
        rw [hm, hsi, hdi, hesi, hedi, hmem]
    · rw [decide_eq_false heq] at hz
      have hj : (!(compared d).zf) = true := by rw [hz, Bool.not_false]
      rw [order_of_ne (Ne.symm heq)]
      refine .lab rfl (.op rfl (.fall rfl hsf (.op rfl (.op rfl (.jump rfl rfl hj (.lab rfl (.op rfl ?_)))))))
      by_cases hl : (s.mem (s.reg .esi)).toInt < (s.mem (s.reg .edi)).toInt
      · rw [decide_eq_true hl] at hlt
        refine .jump rfl rfl hlt (.lab rfl (.done ⟨rfl, ?_, hdc, hm⟩))
        rw [if_pos hl]
        exact answer hlt
      · rw [decide_eq_false hl] at hlt
        refine .fall rfl hlt (.op rfl (.lab rfl (.done ⟨rfl, ?_, hdc, hm⟩)))
        rw [if_neg hl]
        exact answer hlt

/-- At most `count` characters are compared. -/
theorem strncmp_orders (s : Cpu) (cs ct : Addr) (count : BitVec 32) :
    (strncmp cs ct count).Returns s fun v t =>
      v = order (field s.mem cs (turns count)) (field s.mem ct (turns count)) ∧ t.df = false ∧ t.mem = s.mem :=
  .op rfl (strncmp_loop (s := Instr.exec ((strncmp cs ct count).load s) .cld) rfl rfl)

theorem exists_differ (h : l.length = l'.length) :
    l = l' ∨ ∃ p c d r r', l = p ++ c :: r ∧ l' = p ++ d :: r' ∧ c ≠ d := by
  induction l generalizing l' with
  | nil => exact .inl (List.eq_nil_of_length_eq_zero h.symm).symm
  | cons c l ih =>
    cases l' with
    | nil => cases h
    | cons d l' =>
      by_cases hcd : c = d
      · subst hcd
        rcases ih (Nat.succ.inj h) with rfl | ⟨p, c', d', r, r', rfl, rfl, hne⟩
        · exact .inl rfl
        · exact .inr ⟨c :: p, c', d', r, r', rfl, rfl, hne⟩
      · exact .inr ⟨[], c, d, l, l', rfl, rfl, hcd⟩

theorem order_append (p : List Byte) : order (p ++ l) (p ++ l') = order l l' := by
  induction p with
  | nil => rfl
  | cons c p ih => rw [List.cons_append, List.cons_append, order_cons, ih]

theorem holds_first {p r : List Byte} (h : bytes m a n = p ++ c :: r) : Holds m a (p ++ [c]) := by
  have hb : Holds m a (p ++ c :: r) := h ▸ holds_bytes
  obtain ⟨hp, hc, -⟩ := holds_append.mp hb
  exact holds_append.mpr ⟨hp, hc, trivial⟩

/-- The end of `memcmp` -/
theorem memcmp_answer {t : Cpu} {count : BitVec 32} (hd : t.df = false) (h0 : t.reg .eax = 0) :
    Reach (memcmp cs ct count).code (fun k u => k = (memcmp cs ct count).code.length ∧
      u.df = false ∧ u.mem = t.mem ∧ u.reg .eax = if t.zf then 0 else if t.sf != t.of then 1 else -1) 2 t := by
  cases hz : t.zf with
  | true => exact .jump rfl rfl hz (.lab rfl (.done ⟨rfl, hd, rfl, h0⟩))
  | false =>
    cases hl : t.sf != t.of with
    | true => exact .fall rfl hz (.op rfl (.jump rfl rfl hl (.lab rfl (.done ⟨rfl, hd, rfl, answer hl⟩))))
    | false => exact .fall rfl hz (.op rfl (.fall rfl hl (.op rfl (.lab rfl (.done ⟨rfl, hd, rfl, answer hl⟩)))))

/-- The sign of the comparison; with no bytes it depends on the flags that the function is entered with. -/
theorem memcmp_orders (s : Cpu) (cs ct : Addr) (count : BitVec 32) :
    (memcmp cs ct count).Returns s fun v t => t.df = false ∧ t.mem = s.mem ∧
      v = if count = 0 then (if s.zf then 0 else if s.sf != s.of then 1 else -1)
        else order (bytes s.mem cs count.toNat) (bytes s.mem ct count.toNat) := by
  let d := Instr.exec ((memcmp cs ct count).load s) .cld
  have hdf : d.df = false := rfl
  refine .op rfl (.op rfl ?_)
  by_cases h0 : count = 0
  · have hrun : (Instr.exec d (.repe .cmpsb)) = d := by
      change StrOp.cmpsb.whileTurns true count.toNat d = d
      rw [h0]
      rfl
    rw [if_pos h0]
    change Reach _ _ 2 (Instr.exec d (.repe .cmpsb))
    rw [hrun]
    exact memcmp_answer hdf rfl
  · rw [if_neg h0]
    have hpos : count.toNat ≠ 0 := fun h => h0 (BitVec.eq_of_toNat_eq h)
    have hlen : (bytes s.mem ct count.toNat).length = (bytes s.mem cs count.toNat).length := by
      rw [length_bytes, length_bytes]
    rcases exists_differ hlen with heq | ⟨p, c, e, r, r', hct, hcs, hne⟩
    · obtain ⟨hk, hz⟩ := cmp_same (s := d) hdf (holds_bytes (n := count.toNat))
        (heq ▸ holds_bytes (n := count.toNat) (a := cs))
      rw [length_bytes] at hk hz
      have hz' : (Instr.exec d (.repe .cmpsb)).zf = true := by
        refine hz.trans ?_
        have hnil : bytes s.mem ct count.toNat ≠ [] := by
          intro h
          apply hpos
          have hlen := congrArg List.length h
          rwa [length_bytes] at hlen
        exact Bool.or_eq_true_iff.mpr (.inl (decide_eq_true hnil))
      refine (memcmp_answer (hk.df.trans hdf) (hk.reg .eax (by decide))).weaken fun k u h =>
        ⟨h.1, h.2.1, h.2.2.1.trans hk.mem, h.2.2.2.trans ?_⟩
      refine (if_pos hz').trans ?_
      rw [order, if_pos heq.symm]
    · have hlen : p.length < count.toNat := by
        rw [← length_bytes (m := s.mem) (a := ct) (n := count.toNat), hct, List.length_append, List.length_cons]
        omega
      obtain ⟨hk, hz, hlt, -⟩ := cmp_differ (s := d) hdf (holds_first hct) (holds_first hcs) hne hlen
      refine (memcmp_answer (hk.df.trans hdf) (hk.reg .eax (by decide))).weaken fun k u h =>
        ⟨h.1, h.2.1, h.2.2.1.trans hk.mem, h.2.2.2.trans ?_⟩
      refine (if_neg (by rw [hz]; decide)).trans ?_
      rw [hct, hcs, order_append, order_of_ne (Ne.symm hne)]
      refine (if_congr ?_ rfl rfl)
      rw [hlt]
      exact decide_eq_true_iff

/-! ## Looking for a character -/

theorem dec_one {t : Cpu} {r : Reg} : (Instr.exec (Instr.exec t (.movi 1 r)) (.dec r)).reg r = 0 := by
  refine Cpu.reg_set_self.trans ?_
  exact congrArg (· - 1) Cpu.reg_set_self

/-- `lodsb` and `cmpb %ah,%al` -/
def looked (s : Cpu) : Cpu := Instr.exec (Instr.exec s (.str .lodsb)) .cmpAh

theorem looked_spec (hdf : s.df = false) :
    (looked s).mem = s.mem ∧ (looked s).reg .esi = s.reg .esi + 1 ∧ (looked s).reg .edx = s.reg .edx ∧
      (looked s).al = s.mem (s.reg .esi) ∧ (looked s).ah = s.ah ∧
      (looked s).zf = decide (s.mem (s.reg .esi) = s.ah) ∧ (looked s).df = false := by
  have hal : (Instr.exec s (.str .lodsb)).al = s.mem (s.reg .esi) := by
    unfold Instr.exec StrOp.exec
    rw [Cpu.al_set_of_ne (by decide), Cpu.al_setAl]
  have hah : (Instr.exec s (.str .lodsb)).ah = s.ah := by
    unfold Instr.exec StrOp.exec
    rw [Cpu.ah_set_of_ne (by decide), Cpu.ah_setAl]
  refine ⟨rfl, ?_, ?_, hal, hah, ?_, hdf⟩
  · simp [looked, Instr.exec, StrOp.exec, Cpu.subFlags, Cpu.stride, hdf]
  · simp [looked, Instr.exec, StrOp.exec, Cpu.subFlags]
  · change decide ((Instr.exec s (.str .lodsb)).al = (Instr.exec s (.str .lodsb)).ah) = _
    rw [hal, hah]

/-- The byte that `%al` is put into `%ah` for -/
theorem ah_of_movAh {c : BitVec 32} (h : s.reg .eax = c) : (Instr.exec s .movAh).ah = c.extractLsb' 0 8 := by
  refine Cpu.ah_setAh.trans ?_
  rw [Cpu.al, h]

/-- The end of `strchr` -/
theorem strchr_end {t : Cpu} {c : BitVec 32} (hd : t.df = false) :
    Reach (strchr a c).code (fun k u => k = (strchr a c).code.length ∧ u.reg .eax = t.reg .esi - 1 ∧
      u.df = false ∧ u.mem = t.mem) 9 t := by
  refine .lab rfl (.op rfl (.op rfl (.done ⟨rfl, Cpu.reg_set_self.trans ?_, hd, rfl⟩)))
  exact congrArg (· - 1) Cpu.reg_set_self

theorem strchr_loop {c : BitVec 32} (hdf : s.df = false) (hs : Str s.mem (s.reg .esi) l) :
    Reach (strchr a c).code (fun k t => k = (strchr a c).code.length ∧
      t.reg .eax = (if s.ah ∈ l ++ [0] then s.reg .esi + BitVec.ofNat 32 ((l ++ [0]).idxOf s.ah) else 0) ∧
      t.df = false ∧ t.mem = s.mem) 2 s := by
  induction l generalizing s with
  | nil =>
    obtain ⟨hm, hsi, -, hal, -, hz, hd⟩ := looked_spec hdf
    have h0 : s.mem (s.reg .esi) = 0 := hs.holds.1
    rw [h0] at hz hal
    by_cases hah : s.ah = 0
    · rw [hah, decide_eq_true rfl] at hz
      refine .lab rfl (.op rfl (.op rfl (.jump rfl rfl hz ((strchr_end hd).weaken ?_))))
      rintro k u ⟨hk, hv, hdu, hmu⟩
      refine ⟨hk, hv.trans ?_, hdu, hmu.trans hm⟩
      rw [hsi, hah, BitVec.add_sub_cancel]
      simp
    · rw [decide_eq_false (Ne.symm hah)] at hz
      have htest : (!(Instr.exec (looked s) .testAl).zf) = false := by
        change (!decide ((looked s).al = 0)) = false
        rw [hal]
        rfl
      have hd' : (Instr.exec (Instr.exec (looked s) .testAl) (.movi 1 .esi)).df = false := hd
      refine .lab rfl (.op rfl (.op rfl (.fall rfl hz (.op rfl (.fall rfl htest (.op rfl
        ((strchr_end hd').weaken ?_)))))))
      rintro k u ⟨hk, hv, hdu, hmu⟩
      refine ⟨hk, hv.trans ?_, hdu, hmu.trans hm⟩
      rw [if_neg (by simpa using hah)]
      exact congrArg (· - 1) Cpu.reg_set_self
  | cons b l ih =>
    obtain ⟨hm, hsi, -, hal, hh, hz, hd⟩ := looked_spec hdf
    obtain ⟨hb, hne, hs'⟩ := hs.head
    rw [hb] at hz hal
    by_cases hah : b = s.ah
    · rw [decide_eq_true hah] at hz
      refine .lab rfl (.op rfl (.op rfl (.jump rfl rfl hz ((strchr_end hd).weaken ?_))))
      rintro k u ⟨hk, hv, hdu, hmu⟩
      refine ⟨hk, hv.trans ?_, hdu, hmu.trans hm⟩
      rw [hsi, hah, BitVec.add_sub_cancel]
      simp
    · rw [decide_eq_false hah] at hz
      have htest : (!(Instr.exec (looked s) .testAl).zf) = true := by
        change (!decide ((looked s).al = 0)) = true
        rw [hal, decide_eq_false hne]
        rfl
      have hrun := ih (s := Instr.exec (looked s) .testAl) hd (by
        change Str (looked s).mem ((looked s).reg .esi) l
        rw [hm, hsi]
        exact hs')
      have hhead : (Instr.exec (looked s) .testAl).ah = s.ah := hh
      have hesi : (Instr.exec (looked s) .testAl).reg .esi = s.reg .esi + 1 := hsi
      rw [hhead, hesi] at hrun
      refine .lab rfl (.op rfl (.op rfl (.fall rfl hz (.op rfl (.jump rfl rfl htest (hrun.weaken ?_))))))
      rintro k u ⟨hk, hv, hdu, hmu⟩
      refine ⟨hk, hv.trans ?_, hdu, hmu.trans hm⟩
      rw [List.cons_append, List.idxOf_cons_ne _ hah, add_ofNat_succ]
      exact if_congr (by rw [List.mem_cons, or_iff_right (Ne.symm hah)]) rfl rfl

/-- The address of the first such character, which may be the zero at the end; zero if there is none -/
theorem strchr_finds (s : Cpu) (c : BitVec 32) (hs : Str s.mem a l) :
    (strchr a c).Returns s fun v t => t.df = false ∧ t.mem = s.mem ∧
      v = if c.extractLsb' 0 8 ∈ l ++ [0] then a + BitVec.ofNat 32 ((l ++ [0]).idxOf (c.extractLsb' 0 8)) else 0 := by
  let d := Instr.exec (Instr.exec ((strchr a c).load s) .cld) .movAh
  have hah : d.ah = c.extractLsb' 0 8 := ah_of_movAh rfl
  have hrun := strchr_loop (s := d) (a := a) (c := c) rfl hs
  rw [hah] at hrun
  exact .op rfl (.op rfl (hrun.weaken fun k t h => ⟨h.1, h.2.2.1, h.2.2.2, h.2.1⟩))

/-- The index of the last such byte -/
def lastIdx (b : Byte) (l : List Byte) : ℕ := l.length - 1 - l.reverse.idxOf b

theorem lastIdx_cons {b : Byte} (h : b ∈ l) : lastIdx b (c :: l) = lastIdx b l + 1 := by
  have hlt : l.reverse.idxOf b < l.length := by
    rw [← List.length_reverse]
    exact List.idxOf_lt_length_iff.mpr (List.mem_reverse.mpr h)
  rw [lastIdx, lastIdx, List.reverse_cons, List.idxOf_append_of_mem (List.mem_reverse.mpr h), List.length_cons]
  omega

theorem lastIdx_self {b : Byte} (h : b ∉ l) : lastIdx b (b :: l) = 0 := by
  rw [lastIdx, List.reverse_cons, List.idxOf_append_of_notMem (by rwa [List.mem_reverse])]
  simp

theorem strrchr_body {e : BitVec 32} (hdf : s.df = false) :
    Reach (strrchr a e).code (fun k t => k = 8 ∧
      t.reg .edx = (if s.mem (s.reg .esi) = s.ah then s.reg .esi else s.reg .edx) ∧
      t.reg .esi = s.reg .esi + 1 ∧ t.al = s.mem (s.reg .esi) ∧ t.ah = s.ah ∧ t.df = false ∧ t.mem = s.mem) 2 s := by
  obtain ⟨hm, hsi, hdx, hal, hh, hz, hd⟩ := looked_spec hdf
  by_cases hah : s.mem (s.reg .esi) = s.ah
  · rw [decide_eq_true hah] at hz
    have hj : (!(looked s).zf) = false := by rw [hz, Bool.not_true]
    refine .lab rfl (.op rfl (.op rfl (.fall rfl hj (.op rfl (.op rfl (.done ⟨rfl, ?_, ?_, hal, hh, hd, hm⟩))))))
    · rw [if_pos hah]
      refine Cpu.reg_set_self.trans ((congrArg (· - 1) Cpu.reg_set_self).trans ?_)
      exact (congrArg (· - 1) hsi).trans (BitVec.add_sub_cancel ..)
    · exact hsi
  · rw [decide_eq_false hah] at hz
    have hj : (!(looked s).zf) = true := by rw [hz, Bool.not_false]
    refine .lab rfl (.op rfl (.op rfl (.jump rfl rfl hj (.done ⟨rfl, ?_, hsi, hal, hh, hd, hm⟩))))
    rw [if_neg hah]
    exact hdx

theorem strrchr_loop {e : BitVec 32} (hdf : s.df = false) (hs : Str s.mem (s.reg .esi) l) :
    Reach (strrchr a e).code (fun k t => k = (strrchr a e).code.length ∧
      t.reg .edx = (if s.ah ∈ l ++ [0] then s.reg .esi + BitVec.ofNat 32 (lastIdx s.ah (l ++ [0])) else s.reg .edx) ∧
      t.df = false ∧ t.mem = s.mem) 2 s := by
  induction l generalizing s with
  | nil =>
    refine (strrchr_body hdf).trans ?_
    rintro k t ⟨rfl, hdx, -, hal, -, hd, hm⟩
    have h0 : s.mem (s.reg .esi) = 0 := hs.holds.1
    have htest : (!(Instr.exec t .testAl).zf) = false := by
      change (!decide (t.al = 0)) = false
      rw [hal, h0]
      rfl
    refine .lab rfl (.op rfl (.fall rfl htest (.done ⟨rfl, hdx.trans ?_, hd, hm⟩)))
    rw [h0, List.nil_append]
    refine if_ctx_congr ?_ (fun h => ?_) fun _ => rfl
    · rw [List.mem_singleton, eq_comm]
    · rw [List.mem_singleton.mp h]
      simp [lastIdx]
  | cons b l ih =>
    obtain ⟨hb, hne, hs'⟩ := hs.head
    refine (strrchr_body hdf).trans ?_
    rintro k t ⟨rfl, hdx, hsi, hal, hh, hd, hm⟩
    have htest : (!(Instr.exec t .testAl).zf) = true := by
      change (!decide (t.al = 0)) = true
      rw [hal, hb, decide_eq_false hne]
      rfl
    have hrun := ih (s := Instr.exec t .testAl) hd (by
      change Str t.mem (t.reg .esi) l
      rw [hm, hsi]
      exact hs')
    refine .lab rfl (.op rfl (.jump rfl rfl htest (hrun.weaken ?_)))
    rintro k u ⟨hk, hv, hdu, hmu⟩
    refine ⟨hk, hv.trans ?_, hdu, hmu.trans hm⟩
    have hhead : (Instr.exec t .testAl).ah = s.ah := hh
    have hesi : (Instr.exec t .testAl).reg .esi = s.reg .esi + 1 := hsi
    have hedx : (Instr.exec t .testAl).reg .edx = t.reg .edx := rfl
    rw [hhead, hesi, hedx, hdx, hb, List.cons_append]
    by_cases hmem : s.ah ∈ l ++ [0]
    · rw [if_pos hmem, if_pos (List.mem_cons_of_mem b hmem), lastIdx_cons hmem, add_ofNat_succ]
    · rw [if_neg hmem]
      by_cases hah : b = s.ah
      · rw [if_pos hah, ← hah, if_pos List.mem_cons_self, lastIdx_self (hah ▸ hmem)]
        simp
      · rw [if_neg hah, if_neg]
        rw [List.mem_cons, not_or]
        exact ⟨Ne.symm hah, hmem⟩

/-- The address of the last such character, which may be the zero at the end; zero if there is none -/
theorem strrchr_finds (s : Cpu) (c : BitVec 32) (hs : Str s.mem a l) :
    (strrchr a c).Returns s fun v t => t.df = false ∧ t.mem = s.mem ∧
      v = if c.extractLsb' 0 8 ∈ l ++ [0] then a + BitVec.ofNat 32 (lastIdx (c.extractLsb' 0 8) (l ++ [0])) else 0 := by
  let d := Instr.exec (Instr.exec ((strrchr a c).load s) .cld) .movAh
  have hah : d.ah = c.extractLsb' 0 8 := ah_of_movAh rfl
  have hrun := strrchr_loop (s := d) (a := a) (e := c) rfl hs
  rw [hah] at hrun
  exact .op rfl (.op rfl (hrun.weaken fun k t h => ⟨h.1, h.2.2.1, h.2.2.2, h.2.1⟩))

theorem strrchr_finds_second : (strrchr 0x1000 97).Returns (.bare (twoStrings [97, 98, 97] [])) fun v t =>
    t.df = false ∧ t.mem = twoStrings [97, 98, 97] [] ∧ v = 0x1002 :=
  strrchr_finds (l := [97, 98, 97]) (.bare (twoStrings [97, 98, 97] [])) 97 ⟨by decide +kernel, by decide⟩

/-- The address of the first such byte among `count`; zero if there is none -/
theorem memchr_finds (s : Cpu) (a : Addr) (c count : BitVec 32) :
    (memchr a c count).Returns s fun v t => t.mem = s.mem ∧
      v = if c.extractLsb' 0 8 ∈ bytes s.mem a count.toNat
        then a + BitVec.ofNat 32 ((bytes s.mem a count.toNat).idxOf (c.extractLsb' 0 8)) else 0 := by
  unfold memchr
  by_cases h0 : count = 0
  · rw [if_pos h0]
    subst h0
    exact .done ⟨rfl, rfl, (if_neg List.not_mem_nil).symm⟩
  · rw [if_neg h0]
    let d := Instr.exec (Cpu.set (Cpu.set (Cpu.set s .eax c) .edi a) .ecx count) .cld
    have hdf : d.df = false := rfl
    have hal : d.al = c.extractLsb' 0 8 := rfl
    have hecx : (d.reg .ecx).toNat = count.toNat := rfl
    refine .op rfl (.op rfl ?_)
    by_cases hmem : c.extractLsb' 0 8 ∈ bytes s.mem a count.toNat
    · obtain ⟨p, r, hp, hnot⟩ := List.eq_append_cons_of_mem hmem
      have hlen : p.length < count.toNat := by
        rw [← length_bytes (m := s.mem) (a := a) (n := count.toNat), hp, List.length_append, List.length_cons]
        omega
      obtain ⟨hk, hz, hedi, -⟩ := scan_found (s := d) hdf (hal ▸ holds_first hp) (hal ▸ hnot) hlen
      refine .jump rfl rfl hz (.lab rfl (.op rfl (.done ⟨rfl, hk.mem, ?_⟩)))
      refine Eq.trans (b := (Instr.exec d (.repne .scasb)).reg .edi - 1) rfl ?_
      rw [if_pos hmem, hp, List.idxOf_append_of_notMem hnot, List.idxOf_cons_self, Nat.add_zero,
        ← add_succ_sub_one]
      exact congrArg (· - 1) hedi
    · obtain ⟨hk, hz⟩ := scan_missed (s := d) (l := bytes s.mem a count.toNat) hdf holds_bytes (hal ▸ hmem)
      rw [length_bytes] at hk hz
      have hnil : bytes s.mem a count.toNat ≠ [] := by
        intro h
        have hlen := congrArg List.length h
        rw [length_bytes] at hlen
        exact h0 (BitVec.eq_of_toNat_eq hlen)
      rw [decide_eq_false hnil, Bool.false_and] at hz
      refine .fall rfl hz (.op rfl (.lab rfl (.op rfl (.done ⟨rfl, hk.mem, ?_⟩))))
      rw [if_neg hmem]
      exact dec_one (t := Instr.exec d (.repne .scasb)) (r := .edi)

end Linux012.Strings