import Linux012.Include.Strings.Basic

/-! # Copying strings

What `strcpy`, `strcat` and their bounded forms write, and when `memcpy` and `memmove` copy what was there.
-/

namespace Linux012.Strings

open Function X86

variable {m : Mem} {p : List Line} {k n : ℕ} {s : Cpu} {l l' : List Byte} {dest src : Addr}

/-- `lodsb`, `stosb` and the test of the character -/
def copied (s : Cpu) : Cpu := Instr.exec (Instr.exec (Instr.exec s (.str .lodsb)) (.str .stosb)) .testAl

theorem copied_spec (hdf : s.df = false) :
    (copied s).mem = update s.mem (s.reg .edi) (s.mem (s.reg .esi)) ∧
      (copied s).reg .esi = s.reg .esi + 1 ∧ (copied s).reg .edi = s.reg .edi + 1 ∧
      (copied s).reg .ecx = s.reg .ecx ∧ (copied s).al = s.mem (s.reg .esi) ∧
      (copied s).zf = decide (s.mem (s.reg .esi) = 0) ∧ (copied s).df = false := by
  have hal : (Instr.exec s (.str .lodsb)).al = s.mem (s.reg .esi) := by
    unfold Instr.exec StrOp.exec
    rw [Cpu.al_set_of_ne (by decide), Cpu.al_setAl]
  have hal' : (copied s).al = (Instr.exec s (.str .lodsb)).al := Cpu.al_set_of_ne (by decide)
  refine ⟨?_, ?_, ?_, ?_, hal'.trans hal, ?_, hdf⟩
  · change update s.mem (s.reg .edi) (Instr.exec s (.str .lodsb)).al = _
    rw [hal]
  · simp [copied, Instr.exec, StrOp.exec, Cpu.testFlags, Cpu.store, Cpu.stride, hdf]
  · simp [copied, Instr.exec, StrOp.exec, Cpu.testFlags, Cpu.store, Cpu.stride, hdf]
  · simp [copied, Instr.exec, StrOp.exec, Cpu.testFlags, Cpu.store]
  · rw [← hal, ← hal']
    rfl

/-- The distance that keeps a destination out of the `n` bytes behind the first of a source. -/
def Clear (dst src : Addr) (n : ℕ) : Prop := n ≤ (dst - src).toNat ∨ dst = src

theorem Clear.succ {dst : Addr} (h : Clear dst src (n + 1)) : Clear (dst + 1) (src + 1) n := by
  rcases h with h | rfl
  · exact .inl (by bv_omega)
  · exact .inr rfl

theorem Clear.mono {dst : Addr} {n' : ℕ} (h : Clear dst src n) (hn : n' ≤ n) : Clear dst src n' :=
  h.imp_left hn.trans

/-- The first byte is written, and the source behind it is as before. -/
theorem Clear.update_eq {dst x : Addr} (h : Clear dst src (n + 1)) (hx : (x - (src + 1)).toNat < n) :
    update m dst (m src) x = m x := by
  rcases h with h | rfl
  · exact update_of_ne (by rintro rfl; bv_omega) ..
  · rw [update_eq_self]

/-- The loop of `strcpy` and `strcat` -/
theorem copy_loop (h0 : p[k]? = some (.lab 1)) (h1 : p[k + 1]? = some (.op (.str .lodsb)))
    (h2 : p[k + 1 + 1]? = some (.op (.str .stosb))) (h3 : p[k + 1 + 1 + 1]? = some (.op .testAl))
    (h4 : p[k + 1 + 1 + 1 + 1]? = some (.jcc .ne 1 .b)) (ht : target p (k + 1 + 1 + 1 + 1) 1 .b = some k)
    (hdf : s.df = false) (hs : Str s.mem (s.reg .esi) l)
    (hc : Clear (s.reg .edi) (s.reg .esi) (l.length + 1)) :
    Reach p (fun j t => j = k + 5 ∧ t.df = false ∧ t.mem = write s.mem (s.reg .edi) (l ++ [0])) k s := by
  induction l generalizing s with
  | nil =>
    obtain ⟨hm, -, -, -, -, hz, hd⟩ := copied_spec hdf
    have hzero : s.mem (s.reg .esi) = 0 := hs.holds.1
    refine .lab h0 (.op h1 (.op h2 (.op h3 (.fall h4 ?_ (.done ⟨rfl, hd, ?_⟩)))))
    · change (!(copied s).zf) = false
      rw [hz, hzero]
      rfl
    · refine hm.trans ?_
      rw [hzero, List.nil_append, write_cons (by simp), write_nil]
  | cons c l ih =>
    obtain ⟨hm, hsi, hdi, -, -, hz, hd⟩ := copied_spec hdf
    obtain ⟨hc0, hne, hs'⟩ := hs.head
    have hlen := hs.length_lt
    rw [List.length_cons] at hc hlen
    have hstr : Str (copied s).mem ((copied s).reg .esi) l := by
      rw [hm, hsi]
      exact hs'.congr fun x hx => hc.update_eq (by omega)
    have hrun := ih hd hstr (by rw [hdi, hsi]; exact hc.succ)
    refine .lab h0 (.op h1 (.op h2 (.op h3 (.jump h4 ht ?_ (hrun.weaken ?_)))))
    · change (!(copied s).zf) = true
      rw [hz, hc0, decide_eq_false hne]
      rfl
    · rintro j t ⟨hj, hdt, hmt⟩
      refine ⟨hj, hdt, ?_⟩
      rw [hmt, hm, hdi, hc0, List.cons_append, write_cons]
      rw [List.length_append, List.length_singleton]
      omega

/-- The string is copied with its zero if the destination does not begin inside of it. -/
theorem strcpy_copies (s : Cpu) (hs : Str s.mem src l) (hc : Clear dest src (l.length + 1)) :
    (strcpy dest src).Returns s fun v t => v = dest ∧ t.df = false ∧ t.mem = write s.mem dest (l ++ [0]) := by
  refine .op rfl ((copy_loop (k := 1) rfl rfl rfl rfl rfl rfl rfl hs hc).weaken ?_)
  rintro j t ⟨hj, hd, hm⟩
  exact ⟨hj, rfl, hd, hm⟩

/-- The end of the string at `dest` is found. -/
theorem scan_end {d : Cpu} (hd : d.df = false) (hal : d.al = 0) (hecx : d.reg .ecx = 0xffffffff)
    (hs : Str d.mem (d.reg .edi) l) (hl : l.length < 2 ^ 32 - 1) :
    Kept [.edi, .ecx] d (Instr.exec d (.repne .scasb)) ∧ (Instr.exec d (.repne .scasb)).zf = true ∧
      (Instr.exec d (.repne .scasb)).reg .edi = d.reg .edi + BitVec.ofNat 32 (l.length + 1) ∧
      (Instr.exec d (.repne .scasb)).reg .ecx = 0xffffffff - BitVec.ofNat 32 (l.length + 1) := by
  have hn : l.length < (d.reg .ecx).toNat := by
    rw [hecx]
    exact hl
  have h := scan_found hd (by rw [hal]; exact hs.holds) (by rw [hal]; exact hs.zero_notMem) hn
  rw [← hecx]
  exact h

theorem add_succ_sub_one (a : Addr) (n : ℕ) : a + BitVec.ofNat 32 (n + 1) - 1 = a + BitVec.ofNat 32 n := by
  rw [add_ofNat_succ]
  bv_omega

/-- `repne scasb` and `decl %edi` -/
theorem at_end {d : Cpu} (hd : d.df = false) (hal : d.al = 0) (hecx : d.reg .ecx = 0xffffffff)
    (hs : Str d.mem (d.reg .edi) l) (hl : l.length < 2 ^ 32 - 1) :
    Kept [.edi, .ecx] d (Instr.exec (Instr.exec d (.repne .scasb)) (.dec .edi)) ∧
      (Instr.exec (Instr.exec d (.repne .scasb)) (.dec .edi)).reg .edi = d.reg .edi + BitVec.ofNat 32 l.length := by
  obtain ⟨hk, -, hedi, -⟩ := scan_end hd hal hecx hs hl
  refine ⟨⟨hk.mem, hk.df, fun r hr => ?_⟩, ?_⟩
  · have hne : r ≠ .edi := fun h => hr (h ▸ List.mem_cons_self)
    exact (Cpu.reg_set_of_ne hne).trans (hk.reg r hr)
  · refine Cpu.reg_set_self.trans ?_
    rw [hedi, add_succ_sub_one]

/-- The string is copied behind the other one. -/
theorem strcat_appends (s : Cpu) (hd : Str s.mem dest l) (hs : Str s.mem src l') (hl : l.length < 2 ^ 32 - 1)
    (hc : Clear (dest + BitVec.ofNat 32 l.length) src (l'.length + 1)) :
    (strcat dest src).Returns s fun v t => v = dest ∧ t.df = false ∧
      t.mem = write s.mem (dest + BitVec.ofNat 32 l.length) (l' ++ [0]) := by
  obtain ⟨hk, hedi⟩ := at_end (d := Instr.exec ((strcat dest src).load s) .cld) rfl rfl rfl hd hl
  have hesi := hk.reg .esi (by decide)
  refine .op rfl (.op rfl (.op rfl ((copy_loop (k := 3) (l := l') rfl rfl rfl rfl rfl rfl hk.df ?_ ?_).weaken ?_)))
  · rw [hk.mem, hesi]
    exact hs
  · rw [hedi, hesi]
    exact hc
  · rintro j t ⟨hj, hdf, hm⟩
    refine ⟨hj, rfl, hdf, ?_⟩
    rw [hm, hk.mem, hedi]
    rfl

/-! ## With a bound -/

/-- How often `decl` leaves a count that is not negative. -/
def turns (count : BitVec 32) : ℕ := if count.toNat ≤ 2 ^ 31 then count.toNat else 0

theorem sub_one_cases (v : BitVec 32) :
    v.toNat = 0 ∧ (v - 1).toNat = 2 ^ 32 - 1 ∨ 0 < v.toNat ∧ (v - 1).toNat = v.toNat - 1 := by
  by_cases h : v.toNat = 0
  · exact .inl ⟨h, by bv_omega⟩
  · exact .inr ⟨Nat.pos_of_ne_zero h, by bv_omega⟩

theorem dec_sf (s : Cpu) {r : Reg} : (Instr.exec s (.dec r)).sf = decide (turns (s.reg r) = 0) := by
  have hmsb : (Instr.exec s (.dec r)).sf = (s.reg r - 1).msb := rfl
  have hlt := (s.reg r).isLt
  rw [hmsb, BitVec.msb_eq_decide]
  unfold turns
  rcases sub_one_cases (s.reg r) with ⟨h, h'⟩ | ⟨h, h'⟩ <;> rw [h'] <;>
    split_ifs <;> exact decide_eq_decide.mpr (by omega)

theorem turns_le {v : BitVec 32} : turns v ≤ 2 ^ 31 := by
  unfold turns
  split_ifs with h
  · exact h
  · exact Nat.zero_le _

theorem turns_sub_one {v : BitVec 32} (h : turns v ≠ 0) : turns (v - 1) = turns v - 1 := by
  unfold turns at h ⊢
  rcases sub_one_cases v with ⟨h1, h'⟩ | ⟨h1, h'⟩ <;> rw [h'] <;> split_ifs at h ⊢ <;> omega

theorem turns_eq {v : BitVec 32} (h : turns v ≠ 0) : v.toNat = turns v := by
  unfold turns at h ⊢
  split_ifs at h ⊢
  · rfl
  · exact absurd rfl h

/-- The loop of `strncpy` and `strncat` has come to its bound. -/
structure AtBound (m : Mem) (dest : Addr) (u : List Byte) (n : ℕ) (t : Cpu) : Prop where
  length : u.length = n
  mem : t.mem = write m dest u
  edi : t.reg .edi = dest + BitVec.ofNat 32 u.length

/-- It has copied a zero. -/
structure BehindZero (m : Mem) (dest : Addr) (u : List Byte) (n : ℕ) (t : Cpu) : Prop where
  length : u.length < n
  mem : t.mem = write m dest (u ++ [0])
  edi : t.reg .edi = dest + BitVec.ofNat 32 (u.length + 1)
  al : t.al = 0
  ecx : (t.reg .ecx).toNat = n - (u.length + 1)

theorem bounded_loop {e : ℕ} (hc : Clear dest src (min n ((upto m src n).length + 1)))
    (h0 : p[k]? = some (.lab 1)) (h1 : p[k + 1]? = some (.op (.dec .ecx)))
    (h2 : p[k + 1 + 1]? = some (.jcc .s 2 .f)) (h3 : p[k + 1 + 1 + 1]? = some (.op (.str .lodsb)))
    (h4 : p[k + 1 + 1 + 1 + 1]? = some (.op (.str .stosb)))
    (h5 : p[k + 1 + 1 + 1 + 1 + 1]? = some (.op .testAl))
    (h6 : p[k + 1 + 1 + 1 + 1 + 1 + 1]? = some (.jcc .ne 1 .b))
    (he : target p (k + 1 + 1) 2 .f = some e) (ht : target p (k + 1 + 1 + 1 + 1 + 1 + 1) 1 .b = some k)
    (hdf : s.df = false) (hm : s.mem = m) (hdi : s.reg .edi = dest) (hsi : s.reg .esi = src)
    (hn : turns (s.reg .ecx) = n) :
    Reach p (fun j t => t.df = false ∧ (j = e ∧ AtBound m dest (upto m src n) n t ∨
      j = k + 7 ∧ BehindZero m dest (upto m src n) n t)) k s := by
  have hle : n ≤ 2 ^ 31 := hn ▸ turns_le
  subst hm hdi hsi
  induction n generalizing s with
  | zero =>
    refine .lab h0 (.op h1 (.jump h2 he ?_ (.done ⟨hdf, .inl ⟨rfl, rfl, rfl, ?_⟩⟩)))
    · exact (dec_sf s).trans (decide_eq_true hn)
    · simp [upto, Instr.exec, Cpu.subFlags]
  | succ n ih =>
    let d := Instr.exec s (.dec .ecx)
    have hd : d.df = false := hdf
    have hne : turns (s.reg .ecx) ≠ 0 := by omega
    have hecx : d.reg .ecx = s.reg .ecx - 1 := Cpu.reg_set_self
    have hesi : d.reg .esi = s.reg .esi := Cpu.reg_set_of_ne (by decide)
    have hedi : d.reg .edi = s.reg .edi := Cpu.reg_set_of_ne (by decide)
    have hsf : d.sf = false := (dec_sf s).trans (decide_eq_false hne)
    obtain ⟨hm, hsi, hdi, hci, hal, hz, hdf'⟩ := copied_spec hd
    rw [hesi, hedi] at hm
    rw [hesi] at hsi hal hz
    rw [hedi] at hdi
    rw [hecx] at hci
    have hmem : d.mem = s.mem := rfl
    rw [hmem] at hm hal hz
    have hn' : turns ((copied d).reg .ecx) = n := by
      rw [hci, turns_sub_one hne, hn, Nat.add_sub_cancel]
    by_cases hzero : s.mem (s.reg .esi) = 0
    · have hu : upto s.mem (s.reg .esi) (n + 1) = [] := by rw [upto, if_pos hzero]
      rw [hu]
      refine .lab h0 (.op h1 (.fall h2 hsf (.op h3 (.op h4 (.op h5 (.fall h6 ?_
        (.done ⟨hdf', .inr ⟨rfl, Nat.succ_pos n, ?_, ?_, ?_, ?_⟩⟩)))))))
      · change (!(copied d).zf) = false
        rw [hz, decide_eq_true hzero]
        rfl
      · refine hm.trans ?_
        rw [hzero, List.nil_append, write_cons (by simp), write_nil]
      · exact hdi.trans (by simp)
      · exact hal.trans hzero
      · have hv := turns_eq hne
        have hsub : (s.reg .ecx - 1).toNat = (s.reg .ecx).toNat - 1 :=
          (sub_one_cases (s.reg .ecx)).elim (fun h => by omega) And.right
        change ((copied d).reg .ecx).toNat = _
        rw [hci, hsub, hv, hn]
        rfl
    · rw [upto, if_neg hzero] at hc ⊢
      rw [List.length_cons, Nat.add_min_add_right] at hc
      have hu : upto (copied d).mem (s.reg .esi + 1) n = upto s.mem (s.reg .esi + 1) n := by
        refine upto_congr (fun x hx hx' => ?_) (by omega)
        rw [hm]
        exact hc.update_eq (lt_min hx' (Nat.lt_succ_of_le hx))
      have hlen : (upto s.mem (s.reg .esi + 1) n).length ≤ n := length_upto_le
      have hrun := ih (s := copied d) hdf' hn' (by omega) (by rw [hsi, hdi, hu]; exact hc.succ)
      rw [hdi, hsi, hu] at hrun
      refine .lab h0 (.op h1 (.fall h2 hsf (.op h3 (.op h4 (.op h5 (.jump h6 ht ?_ (hrun.weaken ?_)))))))
      · change (!(copied d).zf) = true
        rw [hz, decide_eq_false hzero]
        rfl
      · rintro j t ⟨hdt, ⟨hj, hb⟩ | ⟨hj, hb⟩⟩
        · refine ⟨hdt, .inl ⟨hj, congrArg (· + 1) hb.length, ?_, ?_⟩⟩
          · rw [hb.mem, hm, write_cons (by omega)]
          · rw [hb.edi, List.length_cons, add_ofNat_succ]
        · refine ⟨hdt, .inr ⟨hj, Nat.succ_lt_succ hb.length, ?_, ?_, hb.al, ?_⟩⟩
          · rw [hb.mem, hm, List.cons_append, write_cons]
            rw [List.length_append, List.length_singleton]
            omega
          · rw [hb.edi, List.length_cons, add_ofNat_succ _ (_ + 1)]
          · rw [hb.ecx, List.length_cons]
            omega

theorem write_behind {c : Byte} (hlen : (l ++ c :: l').length ≤ 2 ^ 32) :
    write (write m dest (l ++ [c])) (dest + BitVec.ofNat 32 (l.length + 1)) l' = write m dest (l ++ c :: l') := by
  have hl : (l ++ [c]).length = l.length + 1 := by rw [List.length_append, List.length_singleton]
  rw [List.append_cons] at hlen
  rw [← hl, ← write_append hlen, ← List.append_cons]

/-- At most `count` characters, and zeros up to `count` behind them -/
theorem strncpy_pads (s : Cpu) (count : BitVec 32)
    (hc : Clear dest src (min (turns count) ((upto s.mem src (turns count)).length + 1))) :
    (strncpy dest src count).Returns s fun v t => v = dest ∧ t.df = false ∧
      t.mem = write s.mem dest (upto s.mem src (turns count) ++
        List.replicate (turns count - (upto s.mem src (turns count)).length) 0) := by
  have hle : turns count ≤ 2 ^ 31 := turns_le
  let d := Instr.exec ((strncpy dest src count).load s) .cld
  refine .op rfl ((bounded_loop (s := d) (k := 1) hc rfl rfl rfl rfl rfl rfl rfl rfl rfl rfl rfl rfl rfl rfl).trans ?_)
  rintro j t ⟨hdt, ⟨rfl, hb⟩ | ⟨rfl, hb⟩⟩
  · refine .lab rfl (.done ⟨rfl, rfl, hdt, hb.mem.trans ?_⟩)
    rw [hb.length, Nat.sub_self, List.replicate_zero, List.append_nil]
  · have hlen := hb.length
    obtain ⟨hf, hdf⟩ := fill (n := (t.reg .ecx).toNat) hdt (by rw [hb.ecx]; omega)
    refine .op rfl (.lab rfl (.done ⟨rfl, rfl, hdf, hf.trans ?_⟩))
    have hcount : turns count - (upto s.mem src (turns count)).length =
        (turns count - ((upto s.mem src (turns count)).length + 1)) + 1 := by omega
    rw [hb.mem, hb.edi, hb.al, hb.ecx, hcount, List.replicate_succ, write_behind]
    rw [List.length_append, List.length_cons, List.length_replicate]
    omega

theorem strncpy_pads_three : (strncpy 0x3000 0x1000 3).Returns (.bare (twoStrings [97] [])) fun v t =>
    v = 0x3000 ∧ t.df = false ∧ t.mem = write (twoStrings [97] []) 0x3000 [97, 0, 0] :=
  strncpy_pads (.bare (twoStrings [97] [])) 3 (.inl (by decide +kernel))

/-- `xorl %eax,%eax` and `stosb` -/
theorem put_zero {t : Cpu} (hd : t.df = false) :
    (Instr.exec (Instr.exec t (.xor .eax .eax)) (.str .stosb)).mem = write t.mem (t.reg .edi) [0] ∧
      (Instr.exec (Instr.exec t (.xor .eax .eax)) (.str .stosb)).df = false := by
  have hal : (Instr.exec t (.xor .eax .eax)).al = 0 := by
    simp [Instr.exec, Cpu.al]
  refine ⟨?_, hd⟩
  change update t.mem (t.reg .edi) (Instr.exec t (.xor .eax .eax)).al = _
  rw [hal, write_cons (by simp), write_nil]

/-- At most `count` characters behind the string at `dest`, and a zero; a second zero where the source ends
before the bound -/
theorem strncat_appends (s : Cpu) (count : BitVec 32) (hd : Str s.mem dest l) (hl : l.length < 2 ^ 32 - 1)
    (hc : Clear (dest + BitVec.ofNat 32 l.length) src
      (min (turns count) ((upto s.mem src (turns count)).length + 1))) :
    (strncat dest src count).Returns s fun v t => v = dest ∧ t.df = false ∧
      t.mem = write s.mem (dest + BitVec.ofNat 32 l.length) (upto s.mem src (turns count) ++
        if (upto s.mem src (turns count)).length < turns count then [0, 0] else [0]) := by
  let d := Instr.exec ((strncat dest src count).load s) .cld
  let b := Instr.exec (Instr.exec (Instr.exec d (.repne .scasb)) (.dec .edi)) (.movi count .ecx)
  obtain ⟨hk, hedi⟩ := at_end (d := d) rfl rfl rfl hd hl
  have hesi := hk.reg .esi (by decide)
  refine .op rfl (.op rfl (.op rfl (.op rfl
    ((bounded_loop (s := b) (k := 4) hc rfl rfl rfl rfl rfl rfl rfl rfl rfl hk.df hk.mem hedi hesi rfl).trans ?_))))
  have hle : turns count ≤ 2 ^ 31 := turns_le
  have hlen : (upto s.mem src (turns count)).length ≤ turns count := length_upto_le
  rintro j t ⟨hdt, ⟨rfl, hb⟩ | ⟨rfl, hb⟩⟩
  · obtain ⟨hm, hdf⟩ := put_zero hdt
    refine .lab rfl (.op rfl (.op rfl (.done ⟨rfl, rfl, hdf, ?_⟩)))
    rw [hm, hb.mem, hb.edi, if_neg (by rw [hb.length]; exact lt_irrefl _), write_append]
    rw [List.length_append, List.length_singleton]
    omega
  · obtain ⟨hm, hdf⟩ := put_zero hdt
    refine .lab rfl (.op rfl (.op rfl (.done ⟨rfl, rfl, hdf, ?_⟩)))
    rw [hm, hb.mem, hb.edi, if_pos hb.length, write_behind]
    rw [List.length_append]
    change _ + 2 ≤ _
    omega

theorem strncat_appends_one : (strncat 0x1000 0x2000 1).Returns (.bare (twoStrings [97] [98, 99])) fun v t =>
    v = 0x1000 ∧ t.df = false ∧ t.mem = write (twoStrings [97] [98, 99]) 0x1001 [98, 0] :=
  strncat_appends (l := [97]) (.bare (twoStrings [97] [98, 99])) 1 ⟨by decide +kernel, by decide⟩ (by decide)
    (.inl (by decide +kernel))

/-! ## Blocks of memory -/

/-- The bytes are copied as they were if the destination does not begin inside of the source, behind its first
byte. Otherwise the bytes before it are copied again and again. -/
theorem memcpy_copies (s : Cpu) (n : BitVec 32) :
    (memcpy dest src n).Returns s fun v t => v = dest ∧ t.df = false ∧
      (Clear dest src n.toNat → t.mem = write s.mem dest (bytes s.mem src n.toNat)) ∧
      (¬ Clear dest src n.toNat → n.toNat + (dest - src).toNat ≤ 2 ^ 32 → ∀ i < n.toNat,
        t.mem (dest + BitVec.ofNat 32 i) = s.mem (src + BitVec.ofNat 32 (i % (dest - src).toNat))) := by
  obtain ⟨hm, hd⟩ := move (Instr.exec ((memcpy dest src n).load s) .cld) n.toNat
  have hlt := n.isLt
  refine .op rfl (.op rfl (.done ⟨rfl, rfl, hd, fun hc => ?_, fun hc hn i hi => ?_⟩))
  · exact hm.trans (copy_forward hc hlt.le)
  · exact (congrFun hm _).trans (copy_periodic (fun h => hc (.inr h)) hn hi)

/-- Where neither block goes around the end of the memory the bytes are copied as they were, and the direction
flag is left set if they were copied backwards. -/
theorem memmove_copies (s : Cpu) (n : BitVec 32) (hd : dest.toNat + n.toNat ≤ 2 ^ 32)
    (hs : src.toNat + n.toNat ≤ 2 ^ 32) :
    (memmove dest src n).Returns s fun v t => v = dest ∧ t.df = !decide (dest < src) ∧
      t.mem = write s.mem dest (bytes s.mem src n.toNat) := by
  unfold memmove
  split_ifs with h
  · obtain ⟨hm, hdf⟩ := move (Instr.exec (Cpu.set (Cpu.set (Cpu.set s .ecx n) .esi src) .edi dest) .cld) n.toNat
    refine .op rfl (.op rfl (.done ⟨rfl, rfl, ?_, ?_⟩))
    · rw [decide_eq_true h]
      exact hdf
    · have hc : Clear dest src n.toNat := .inl (by bv_omega)
      exact hm.trans (copy_forward hc n.isLt.le)
  · obtain ⟨hm, hdf⟩ := move
      (Instr.exec (Cpu.set (Cpu.set (Cpu.set s .ecx n) .esi (src + n - 1)) .edi (dest + n - 1)) .std) n.toNat
    refine .op rfl (.op rfl (.done ⟨rfl, rfl, ?_, ?_⟩))
    · rw [decide_eq_false h]
      exact hdf
    · refine hm.trans ?_
      have hc : n.toNat ≤ (src - dest).toNat ∨ dest = src := by
        by_cases heq : dest = src
        · exact .inr heq
        · exact .inl (by bv_omega)
      have hback := copy_backward (m := s.mem) hc n.isLt.le
      rw [BitVec.ofNat_toNat, BitVec.setWidth_eq] at hback
      exact hback

theorem memmove_copies_back : (memmove 0x1001 0x1000 2).Returns (.bare (twoStrings [97, 98] [])) fun v t =>
    v = 0x1001 ∧ t.df = true ∧ t.mem = write (twoStrings [97, 98] []) 0x1001 [97, 98] :=
  memmove_copies (.bare (twoStrings [97, 98] [])) 2 (by decide) (by decide)

/-- Every byte of the block becomes the character. -/
theorem memset_fills (s : Cpu) (a : Addr) (c n : BitVec 32) :
    (memset a c n).Returns s fun v t => v = a ∧ t.df = false ∧
      t.mem = write s.mem a (List.replicate n.toNat (c.extractLsb' 0 8)) := by
  obtain ⟨hm, hd⟩ := fill (s := Instr.exec ((memset a c n).load s) .cld) (n := n.toNat) rfl n.isLt.le
  exact .op rfl (.op rfl (.done ⟨rfl, rfl, hd, hm⟩))

end Linux012.Strings