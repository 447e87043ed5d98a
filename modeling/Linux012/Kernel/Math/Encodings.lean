import Linux012.Kernel.Math.Compare
import Linux012.Kernel.Math.Emulate
import Linux012.Lib.Index

/-! # The encodings of comparisons

An instruction runs in the state in which `do_emu` has fetched it. The comparisons by their encodings: which of
them only compare.
-/

namespace Linux012.Math

open Function
open scoped Index

variable {s : Emulator} {c : I387} {t tmp : TempReal} {act : Emu Unit} {swd mask : Long}

/-! ## The top of the stack -/

/-- The field of the status word -/
def top (swd : Long) : BitVec 3 := swd.extractLsb' 11 3

theorem I387.index_eq (i : BitVec 16) (c : I387) : c.index i = (i.setWidth 3 + top c.swd).toFin := by
  have hseven : ∀ x : Long, (x &&& 7).setWidth 3 = x.setWidth 3 := by
    intro x
    ext k hk
    interval_cases k <;> simp
  have htop : (c.swd.sshiftRight 11).setWidth 3 = top c.swd := by
    unfold top
    ext k hk
    interval_cases k <;> simp [BitVec.getElem_sshiftRight]
  unfold I387.index
  rw [hseven, BitVec.setWidth_add _ _ (by decide), htop, BitVec.setWidth_setWidth_of_le _ (by decide)]

theorem top_or (h : top mask = 0) (swd : Long) : top (swd ||| mask) = top swd := by
  unfold top at h ⊢
  rw [BitVec.extractLsb'_or, h]
  exact BitVec.or_zero

@[simp] theorem top_busy (c : I387) : top c.busy.swd = top c.swd := by
  unfold I387.busy
  dsimp only
  split_ifs
  · exact top_or (by decide) _
  · unfold top
    ext k hk
    interval_cases k <;> simp

@[simp] theorem top_ftst (t : TempReal) (swd : Long) : top (ftst t swd) = top swd := by
  have hclear : top (clearCx swd) = top swd := by
    unfold top clearCx
    ext k hk
    interval_cases k <;> simp
  unfold ftst
  dsimp only
  split_ifs
  · exact (top_or (by decide) _).trans hclear
  · exact hclear
  · exact (top_or (by decide) _).trans hclear

/-- The register of an index depends on the top alone. -/
theorem st_congr {c c' : I387} (htop : top c'.swd = top c.swd) (hst : c'.stSpace = c.stSpace) (i : BitVec 16) :
    c'.st i = c.st i := by
  unfold I387.st
  rw [I387.index_eq, I387.index_eq, htop, hst]

/-! ## Up to the `switch` -/

/-- The instruction that is fetched -/
def Emulator.instruction (s : Emulator) : BitVec 16 :=
  let word := s.getFsWord s.info.eip
  (word.setWidth 8 ++ (word >>> 8).setWidth 8 : BitVec 16) &&& 0x7ff

/-- The state in which an instruction is executed -/
def Emulator.started (s : Emulator) : Emulator :=
  { s with
    i387 := { s.i387.busy with fip := s.info.eip, fcs := s.instruction ++ s.info.cs.setWidth 16 }
    info := { s.info with origEip := s.info.eip, eip := s.info.eip + 2 } }

theorem doEmu_eq (hcs : s.info.cs.setWidth 16 = (0x000f : BitVec 16)) (tmp : TempReal) :
    doEmu tmp s = execute tmp s.instruction s.started := by
  have henter : enter s =
      .ok () { s with i387 := s.i387.busy, info := { s.info with origEip := s.info.eip } } :=
    if_neg (not_not.mpr hcs)
  unfold doEmu
  rw [bind_ok henter]
  rfl

@[simp] theorem started_st (s : Emulator) (i : BitVec 16) : s.started.i387.st i = s.i387.st i :=
  st_congr (top_busy s.i387) rfl i

theorem execute_register {code : BitVec 16} (hspecial : special code = none)
    (hregister : register tmp (code >>> 3) (code &&& 7) = some act) : execute tmp code = act := by
  unfold execute
  rw [hspecial, hregister]

/-- A code of the second `switch` -/
def encode (group : BitVec 13) (i : BitVec 3) : BitVec 16 := group.setWidth 16 <<< 3 ||| i.setWidth 16

theorem encode_group (group : BitVec 13) (i : BitVec 3) : encode group i >>> 3 = group.setWidth 16 := by
  unfold encode
  ext k hk
  interval_cases k <;> simp

theorem encode_index (group : BitVec 13) (i : BitVec 3) : encode group i &&& 7 = i.setWidth 16 := by
  unfold encode
  ext k hk
  interval_cases k <;> simp

/-- The case of a group is executed, unless its codes have one of their own. -/
theorem execute_encode {group : BitVec 13} {i : BitVec 3} (hspecial : special (encode group i) = none)
    (hregister : register tmp (group.setWidth 16) (i.setWidth 16) = some act) :
    execute tmp (encode group i) = act := by
  apply execute_register hspecial
  rw [encode_group, encode_index, hregister]

/-! ## Comparing -/

/-- The flags of a comparison have been set, or the stack popped. -/
def Emulator.flagged (s : Emulator) (swd : Long) : Emulator := { s with i387 := { s.i387 with swd := swd } }

theorem emuCom_spec (src1 src2 : TempReal) (s : Emulator) :
    ∃ swd, fcom src1 src2 s.i387.swd = some swd ∧ emuCom src1 src2 s = .ok () (s.flagged swd) ∧
      top swd = top s.i387.swd := by
  obtain ⟨p, hp⟩ := fadd_isSome src1.neg src2
  have hcom : fcom src1 src2 s.i387.swd = some (ftst p s.i387.swd) := by
    unfold fcom
    rw [hp]
    rfl
  refine ⟨_, hcom, ?_, top_ftst ..⟩
  unfold emuCom
  rw [hcom]
  rfl

theorem compare_spec (i : BitVec 16) (s : Emulator) :
    ∃ swd, fcom (s.i387.st i) (s.i387.st 0) s.i387.swd = some swd ∧ compare i s = .ok () (s.flagged swd) := by
  obtain ⟨swd, hcom, hrun, -⟩ := emuCom_spec (s.i387.st i) (s.i387.st 0) s
  exact ⟨swd, hcom, hrun⟩

/-! ## Encodings -/

/-- The comparisons with a register that it names, by escape byte and extension -/
inductive RegisterForm | fcom | fcomp | fcom2 | fcomp3 | fcomp5 | fucom | fucomp
  deriving DecidableEq

/-- Memory operands are numbered as in the escape bytes: a short real, a long integer, a long real, a short
integer. -/
inductive Comparison
  | register (form : RegisterForm) (i : BitVec 3)
  | fcompp
  | fucompp
  | memory (format : BitVec 2) (pop : Bool) (mode : {m : BitVec 2 // m ≠ 3}) (rm : BitVec 3)

def RegisterForm.group : RegisterForm → BitVec 13
  | fcom => 0x1a
  | fcomp => 0x1b
  | fcom2 => 0x9a
  | fcomp3 => 0x9b
  | fcomp5 => 0xda
  | fucom => 0xbc
  | fucomp => 0xbd

def RegisterForm.pops : RegisterForm → ℕ
  | fcom | fcom2 | fucom => 0
  | fcomp | fcomp3 | fcomp5 | fucomp => 1

def memoryCode (format : BitVec 2) (reg : BitVec 3) (mode : BitVec 2) (rm : BitVec 3) : BitVec 16 :=
  format.setWidth 16 <<< 9 ||| mode.setWidth 16 <<< 6 ||| reg.setWidth 16 <<< 3 ||| rm.setWidth 16

/-- The extension of a comparison with memory -/
def comparing (pop : Bool) : BitVec 3 := if pop then 3 else 2

def Comparison.code : Comparison → BitVec 16
  | .register form i => encode form.group i
  | .fcompp => 0x6d9
  | .fucompp => 0x2e9
  | .memory format pop mode rm => memoryCode format (comparing pop) mode rm

def Comparison.pops : Comparison → ℕ
  | .register form _ => form.pops
  | .fcompp | .fucompp => 2
  | .memory _ pop _ _ => if pop then 1 else 0

/-- The address of the operand of an instruction -/
def Emulator.operandAddress (s : Emulator) (mode : BitVec 2) (rm : BitVec 3) : Long :=
  (Form.ofModRM mode rm (s.started.memory s.started.info.eip)).address s.started

/-- A number in memory -/
def Emulator.load (s : Emulator) (addr : Long) : BitVec 2 → Option TempReal
  | 0#2 => some (shortToTemp (s.getFsLong addr))
  | 1#2 => getLongInt (s.getFsLong addr)
  | 2#2 => some (longToTemp ⟨s.getFsLong addr, s.getFsLong (addr + 4)⟩)
  | 3#2 => getShortInt (s.getFsWord addr)

/-- What ST(0) is to be compared with -/
def Comparison.operand (s : Emulator) : Comparison → Option TempReal
  | .register _ i => some (s.i387.st (i.setWidth 16))
  | .fcompp | .fucompp => some (s.i387.st 1)
  | .memory format _ mode rm => s.load (s.operandAddress mode rm) format

/-- The instruction compares, sets the flags and pops, and does nothing else to the registers of the stack. -/
def Comparison.Compares (c : Comparison) (s : Emulator) (tmp : TempReal) : Prop :=
  ∃ src swd s', c.operand s = some src ∧ fcom src (s.i387.st 0) s.i387.busy.swd = some swd ∧
    doEmu tmp s = .ok () s' ∧ s'.i387.stSpace = s.i387.stSpace ∧ s'.i387.swd = fpopSwd^[c.pops] swd

/-- All but the first two register forms and those with a short integer -/
def Comparison.Sound : Comparison → Prop
  | .register form _ => form ≠ .fcom ∧ form ≠ .fcomp
  | .fcompp | .fucompp => True
  | .memory format _ _ _ => format ≠ 3

/-! ## Register forms -/

theorem special_group (form : RegisterForm) (i : BitVec 3) : special (encode form.group i) = none := by
  apply Option.isNone_iff_eq_none.mp
  revert i
  cases form <;> decide +kernel

/-- The case of a register form -/
def RegisterForm.run (tmp : TempReal) (i : BitVec 16) : RegisterForm → Emu Unit
  | fcom => compareTmp tmp i
  | fcomp => popping (compareTmp tmp i)
  | fcom2 | fucom => compare i
  | fcomp3 | fcomp5 | fucomp => popping (compare i)

theorem execute_form (form : RegisterForm) (tmp : TempReal) (i : BitVec 3) :
    execute tmp (encode form.group i) = form.run tmp (i.setWidth 16) := by
  apply execute_encode (special_group form i)
  cases form <;> rfl

theorem execute_fcompp (tmp : TempReal) (code : BitVec 16) (h : code = 0x6d9 ∨ code = 0x2e9) :
    execute tmp code = (do
      compare 1
      fpop
      fpop) := by
  obtain rfl | rfl := h <;> rfl

/-! ## Memory forms -/

/-- The second `switch` has only cases whose mode is 3. -/
theorem register_memoryCode (format : BitVec 2) (pop : Bool) {mode : BitVec 2} (hmode : mode ≠ 3) (rm : BitVec 3)
    (tmp : TempReal) (i : BitVec 16) :
    register tmp (memoryCode format (comparing pop) mode rm >>> 3) i = none := by
  have hformat : format = 0 ∨ format = 1 ∨ format = 2 ∨ format = 3 := by
    revert format
    decide
  have hcases : mode = 0 ∨ mode = 1 ∨ mode = 2 := by
    clear hformat
    revert mode
    decide
  have hgroup : memoryCode format (comparing pop) mode rm >>> 3 =
      memoryCode format (comparing pop) mode 0 >>> 3 := by
    clear hformat hcases
    revert format pop mode rm
    decide +kernel
  rw [hgroup]
  obtain rfl | rfl | rfl | rfl := hformat <;> obtain rfl | rfl | rfl := hcases <;> cases pop <;> rfl

/-- No `switch` before the last ones has a case for a comparison with memory. -/
theorem execute_memoryCode (format : BitVec 2) (pop : Bool) {mode : BitVec 2} (hmode : mode ≠ 3) (rm : BitVec 3)
    (tmp : TempReal) :
    execute tmp (memoryCode format (comparing pop) mode rm) =
      operand tmp (memoryCode format (comparing pop) mode rm) >>=
        fun tmp => memory tmp (memoryCode format (comparing pop) mode rm) := by
  have hspecial : special (memoryCode format (comparing pop) mode rm) = none := by
    apply Option.isNone_iff_eq_none.mp
    revert format pop mode rm
    decide +kernel
  have htransfer : transfer (memoryCode format (comparing pop) mode rm >>> 3 &&& 0xe7)
      (memoryCode format (comparing pop) mode rm) = none := by
    apply Option.isNone_iff_eq_none.mp
    clear hspecial
    revert format pop mode rm
    decide +kernel
  unfold execute
  rw [hspecial, register_memoryCode format pop hmode, htransfer]

theorem memory_comparing (format : BitVec 2) (pop : Bool) {mode : BitVec 2} (hmode : mode ≠ 3) (rm : BitVec 3)
    (tmp : TempReal) :
    memory tmp (memoryCode format (comparing pop) mode rm) = (if pop then do
        emuCom tmp (← ST 0)
        fpop
      else do emuCom tmp (← ST 0)) := by
  have hreg : (memoryCode format (comparing pop) mode rm >>> 3 &&& 0x27).toNat = if pop then 3 else 2 := by
    revert format pop mode rm
    decide +kernel
  unfold memory
  rw [hreg]
  cases pop <;> rfl

theorem memoryCode_fields (format : BitVec 2) (pop : Bool) (mode : BitVec 2) (rm : BitVec 3) :
    (memoryCode format (comparing pop) mode rm).extractLsb' 6 2 = mode ∧
      (memoryCode format (comparing pop) mode rm).extractLsb' 0 3 = rm ∧
      (memoryCode format (comparing pop) mode rm >>> 9).toNat = format.toNat := by
  revert format pop mode rm
  decide +kernel

/-- `ea` reads the address of the operand, and leaves the registers of the stack and the memory alone. -/
theorem ea_operandAddress (format : BitVec 2) (pop : Bool) {mode : BitVec 2} (hmode : mode ≠ 3) (rm : BitVec 3)
    (s : Emulator) :
    ∃ s', ea (memoryCode format (comparing pop) mode rm) s.started = .ok (s.operandAddress mode rm) s' ∧
      s'.memory = s.memory ∧ s'.i387.swd = s.i387.busy.swd ∧ s'.i387.stSpace = s.i387.stSpace := by
  obtain ⟨hm, hrm, -⟩ := memoryCode_fields format pop mode rm
  obtain ⟨foo, hea⟩ := ea_decodes (memoryCode format (comparing pop) mode rm) s.started (by rwa [hm])
  rw [hm, hrm] at hea
  exact ⟨_, hea, rfl, rfl, rfl⟩

/-- The operands of three formats are loaded. -/
theorem operand_spec {format : BitVec 2} (hformat : format ≠ 3) (pop : Bool) {mode : BitVec 2} (hmode : mode ≠ 3)
    (rm : BitVec 3) (tmp : TempReal) (s : Emulator) :
    ∃ src s', operand tmp (memoryCode format (comparing pop) mode rm) s.started = .ok src s' ∧
      s.load (s.operandAddress mode rm) format = some src ∧ s'.i387.swd = s.i387.busy.swd ∧
      s'.i387.stSpace = s.i387.stSpace := by
  obtain ⟨-, -, hfield⟩ := memoryCode_fields format pop mode rm
  obtain ⟨s', hea, hmemory, hswd, hst⟩ := ea_operandAddress format pop hmode rm s
  have hlong : ∀ addr, s'.getFsLong addr = s.getFsLong addr := by
    intro addr
    unfold Emulator.getFsLong
    rw [hmemory]
  have hcases : format = 0 ∨ format = 1 ∨ format = 2 := by
    clear hfield hea
    revert format
    decide
  unfold operand
  rw [hfield]
  generalize memoryCode format (comparing pop) mode rm = code at hea
  obtain rfl | rfl | rfl := hcases
  · refine ⟨_, s', ?_, rfl, hswd, hst⟩
    change getShortReal code s.started = _
    unfold getShortReal
    rw [bind_ok hea, ← hlong]
    rfl
  · obtain ⟨t, ht, -⟩ := long_round_trip .nearest (s.getFsLong (s.operandAddress mode rm))
    refine ⟨t, s', ?_, ht, hswd, hst⟩
    change emuGetLongInt code s.started = _
    unfold emuGetLongInt
    rw [bind_ok hea]
    change ended (getLongInt (s'.getFsLong (s.operandAddress mode rm))) s' = _
    rw [hlong, ht]
    rfl
  · refine ⟨_, s', ?_, rfl, hswd, hst⟩
    change getLongReal code s.started = _
    unfold getLongReal
    rw [bind_ok hea, ← hlong, ← hlong]
    rfl

/-- There is no case for a short integer. -/
theorem operand_shortInt (pop : Bool) (mode : BitVec 2) (rm : BitVec 3) (tmp : TempReal) :
    operand tmp (memoryCode 3 (comparing pop) mode rm) = pure tmp := by
  obtain ⟨-, -, hfield⟩ := memoryCode_fields 3 pop mode rm
  unfold operand
  rw [hfield]
  rfl

/-! ## Equality -/

/-- C3 -/
def equal (swd : Long) : Bool := swd.getLsbD 14

theorem equal_fpopSwd (swd : Long) : equal (fpopSwd swd) = equal swd := by
  unfold equal fpopSwd
  simp

theorem equal_pops (n : ℕ) (swd : Long) : equal (fpopSwd^[n] swd) = equal swd := by
  induction n with
  | zero => rfl
  | succ n ih => rw [iterate_succ_apply', equal_fpopSwd, ih]

/-- A number is equal to itself. -/
theorem fcom_self (t : TempReal) (swd : Long) : ∃ w, fcom t t swd = some w ∧ equal w := by
  obtain ⟨hmsb, hlow⟩ := neg_exponent t
  refine ⟨ftst ⟨0, 0, 0⟩ swd, ?_, ?_⟩
  · unfold fcom
    rw [fadd_opposite hlow hmsb rfl]
    rfl
  · change (clearCx swd ||| 0x4000).getLsbD 14
    rw [BitVec.getLsbD_or]
    exact Bool.or_true _

/-- The number with this exponent, the other sign and a mantissa of one bit -/
def TempReal.against (t : TempReal) : TempReal := ⟨0, 0x80000000, t.exponent ^^^ 0x8000⟩

theorem ftst_normalised (h : t.Normalised) (swd : Long) : equal (ftst t swd) = false := by
  have hb : t.b ≠ 0 := by
    intro h0
    rw [TempReal.Normalised, h0] at h
    exact absurd h (by decide)
  have hclear : equal (clearCx swd) = false := by
    unfold equal clearCx
    simp
  unfold ftst
  dsimp only
  rw [normalizeReal_of_normalised h, if_pos (.inr (.inl hb))]
  split_ifs
  · unfold equal setC0 at *
    rw [BitVec.getLsbD_or, hclear]
    decide
  · exact hclear

theorem fcom_against (t : TempReal) (swd : Long) : ∃ w, fcom t.against t swd = some w ∧ ¬ equal w := by
  have hexp : t.against.neg.exponent = t.exponent := by
    change t.exponent ^^^ 0x8000 ^^^ 0x8000 = _
    rw [BitVec.xor_assoc, BitVec.xor_self]
    exact BitVec.xor_zero
  have hbig : 4 ≤ t.against.neg.mantissa := by
    have hm : t.against.neg.mantissa = (0x80000000 : Long).toNat * 2 ^ 32 + (0 : Long).toNat := toNat_join ..
    rw [hm]
    decide
  obtain ⟨p, hp, hn⟩ := (fadd_same hexp).2 (.inl hbig)
  refine ⟨ftst p swd, ?_, ?_⟩
  · unfold fcom
    rw [hp]
    rfl
  · rw [ftst_normalised hn]
    exact Bool.false_ne_true

/-! ## What the encodings do -/

@[simp] theorem flagged_stSpace (s : Emulator) (swd : Long) : (s.flagged swd).i387.stSpace = s.i387.stSpace := rfl

theorem fpop_run (s : Emulator) : fpop s = .ok () (s.flagged (fpopSwd s.i387.swd)) := rfl

theorem popping_run {s' : Emulator} (h : act s = .ok () s') :
    popping act s = .ok () (s'.flagged (fpopSwd s'.i387.swd)) := bind_ok h

variable {cmp : Comparison}

theorem compares_of_run {src : TempReal} {s' : Emulator} (hsrc : cmp.operand s = some src)
    (hcom : fcom src (s.i387.st 0) s.i387.busy.swd = some swd) (hrun : doEmu tmp s = .ok () s')
    (hst : s'.i387.stSpace = s.i387.stSpace) (hswd : s'.i387.swd = fpopSwd^[cmp.pops] swd) : cmp.Compares s tmp :=
  ⟨src, swd, s', hsrc, hcom, hrun, hst, hswd⟩

variable (hcs : s.info.cs.setWidth 16 = (0x000f : BitVec 16))

include hcs

theorem register_compares {form : RegisterForm} (hform : form ≠ .fcom ∧ form ≠ .fcomp) {i : BitVec 3}
    (hcode : s.instruction = encode form.group i) (tmp : TempReal) :
    (Comparison.register form i).Compares s tmp := by
  obtain ⟨swd, hcom, hrun⟩ := compare_spec (i.setWidth 16) s.started
  rw [started_st, started_st] at hcom
  have hemu : doEmu tmp s = form.run tmp (i.setWidth 16) s.started := by
    rw [doEmu_eq hcs, hcode, execute_form]
  cases form with
  | fcom => exact absurd rfl hform.1
  | fcomp => exact absurd rfl hform.2
  | fcom2 => exact compares_of_run rfl hcom (hemu.trans hrun) rfl rfl
  | fucom => exact compares_of_run rfl hcom (hemu.trans hrun) rfl rfl
  | fcomp3 => exact compares_of_run rfl hcom (hemu.trans (popping_run hrun)) rfl rfl
  | fcomp5 => exact compares_of_run rfl hcom (hemu.trans (popping_run hrun)) rfl rfl
  | fucomp => exact compares_of_run rfl hcom (hemu.trans (popping_run hrun)) rfl rfl

theorem pops_compare (hcmp : cmp = .fcompp ∨ cmp = .fucompp) (hcode : s.instruction = cmp.code) (tmp : TempReal) :
    cmp.Compares s tmp := by
  obtain ⟨swd, hcom, hrun⟩ := compare_spec 1 s.started
  rw [started_st, started_st] at hcom
  have hemu : doEmu tmp s = .ok () ((s.started.flagged swd).flagged (fpopSwd swd) |>.flagged (fpopSwd (fpopSwd swd))) := by
    have hcases : cmp.code = 0x6d9 ∨ cmp.code = 0x2e9 := by
      obtain rfl | rfl := hcmp
      · exact .inl rfl
      · exact .inr rfl
    rw [doEmu_eq hcs, hcode, execute_fcompp tmp _ hcases, bind_ok hrun]
    rfl
  obtain rfl | rfl := hcmp
  · exact compares_of_run rfl hcom hemu rfl rfl
  · exact compares_of_run rfl hcom hemu rfl rfl

theorem memory_compares {format : BitVec 2} (hformat : format ≠ 3) (pop : Bool) (mode : {m : BitVec 2 // m ≠ 3})
    (rm : BitVec 3) (hcode : s.instruction = memoryCode format (comparing pop) mode rm) (tmp : TempReal) :
    (Comparison.memory format pop mode rm).Compares s tmp := by
  obtain ⟨src, s', hread, hload, hswd, hst⟩ := operand_spec hformat pop mode.2 rm tmp s
  obtain ⟨swd, hcom, hrun, -⟩ := emuCom_spec src (s'.i387.st 0) s'
  have hst0 : s'.i387.st 0 = s.i387.st 0 := st_congr (by rw [hswd, top_busy]) hst 0
  rw [hst0, hswd] at hcom
  rw [hst0] at hrun
  have hemu : doEmu tmp s = memory src (memoryCode format (comparing pop) mode rm) s' := by
    rw [doEmu_eq hcs, hcode, execute_memoryCode format pop mode.2, bind_ok hread]
  rw [memory_comparing format pop mode.2] at hemu
  have hread0 : ST 0 s' = .ok (s.i387.st 0) s' := by
    rw [← hst0]
    rfl
  cases pop with
  | false =>
    have hend : doEmu tmp s = .ok () (s'.flagged swd) := hemu.trans ((bind_ok hread0).trans hrun)
    exact compares_of_run hload hcom hend hst rfl
  | true =>
    have hend : doEmu tmp s = .ok () ((s'.flagged swd).flagged (fpopSwd swd)) :=
      hemu.trans ((bind_ok hread0).trans (bind_ok hrun))
    exact compares_of_run hload hcom hend hst rfl

/-! ## What they do not do -/

omit hcs in
theorem compareTmp_run (tmp : TempReal) (i : BitVec 16) (s : Emulator) :
    ∃ s', compareTmp tmp i s = .ok () s' ∧
      s'.i387.stSpace = update s.i387.stSpace (s.i387.index 0) tmp := by
  obtain ⟨swd, -, hrun, htop⟩ := emuCom_spec (s.i387.st i) tmp s
  refine ⟨_, (bind_ok rfl).trans (bind_ok hrun), ?_⟩
  have hindex : (s.flagged swd).i387.index 0 = s.i387.index 0 := by
    rw [I387.index_eq, I387.index_eq]
    exact congrArg (fun x : BitVec 3 => (BitVec.setWidth 3 0 + x).toFin) htop
  change update s.i387.stSpace ((s.flagged swd).i387.index 0) tmp = _
  rw [hindex]

omit hcs in
theorem neg_ne (t : TempReal) : t.neg ≠ t := by
  intro h
  have hmsb := (neg_exponent t).1
  rw [h] at hmsb
  cases hb : t.exponent.msb <;> rw [hb] at hmsb <;> exact absurd hmsb (by decide)

/-- What `tmp` holds goes to ST(0). -/
theorem register_overwrites {form : RegisterForm} (hform : ¬ (form ≠ .fcom ∧ form ≠ .fcomp)) {i : BitVec 3}
    (hcode : s.instruction = encode form.group i) :
    ¬ (Comparison.register form i).Compares s (s.i387.st 0).neg := by
  rintro ⟨-, -, s', -, -, hrun, hst, -⟩
  rw [doEmu_eq hcs, hcode, execute_form] at hrun
  obtain ⟨s'', hcompare, hstSpace⟩ := compareTmp_run (s.i387.st 0).neg (i.setWidth 16) s.started
  have hend : s'.i387.stSpace = s''.i387.stSpace := by
    cases form with
    | fcom => cases hcompare.symm.trans hrun; rfl
    | fcomp => cases (popping_run hcompare).symm.trans hrun; rfl
    | _ => exact absurd ⟨by decide, by decide⟩ hform
  have hupdate : update s.i387.stSpace (s.started.i387.index 0) (s.i387.st 0).neg = s.i387.stSpace :=
    (hend.trans hstSpace).symm.trans hst
  rw [update_eq_self_iff] at hupdate
  exact neg_ne (s.i387.st 0) (hupdate.trans (started_st s 0))

/-- Without a case for the operand the flags come from what `tmp` holds. -/
theorem shortInt_flags {pop : Bool} {mode : {m : BitVec 2 // m ≠ 3}} {rm : BitVec 3}
    (hcode : s.instruction = memoryCode 3 (comparing pop) mode rm)
    (h : (Comparison.memory 3 pop mode rm).Compares s tmp) :
    ∃ src w w', (Comparison.memory 3 pop mode rm).operand s = some src ∧
      fcom src (s.i387.st 0) s.i387.busy.swd = some w ∧ fcom tmp (s.i387.st 0) s.i387.busy.swd = some w' ∧
      equal w = equal w' := by
  obtain ⟨src, w, s', hsrc, hcom, hrun, -, hswd⟩ := h
  obtain ⟨w', hcom', hrun', -⟩ := emuCom_spec tmp (s.i387.st 0) s.started
  have hread0 : ST 0 s.started = .ok (s.i387.st 0) s.started := by
    rw [← started_st]
    rfl
  have hend : equal s'.i387.swd = equal w' := by
    rw [doEmu_eq hcs, hcode, execute_memoryCode 3 pop mode.2, operand_shortInt, pure_bind,
      memory_comparing 3 pop mode.2] at hrun
    cases pop with
    | false =>
      cases hrun.symm.trans ((bind_ok hread0).trans hrun')
      rfl
    | true =>
      cases hrun.symm.trans ((bind_ok hread0).trans (bind_ok hrun'))
      exact equal_fpopSwd w'
  rw [hswd, equal_pops] at hend
  exact ⟨src, w, w', hsrc, hcom, hcom', hend⟩

theorem memory_unread (pop : Bool) (mode : {m : BitVec 2 // m ≠ 3}) (rm : BitVec 3)
    (hcode : s.instruction = memoryCode 3 (comparing pop) mode rm) :
    ¬ ∀ tmp, (Comparison.memory 3 pop mode rm).Compares s tmp := by
  intro h
  obtain ⟨src, w, v, hsrc, hw, hv, heq⟩ := shortInt_flags hcs hcode (h (s.i387.st 0))
  obtain ⟨src', w', v', hsrc', hw', hv', hne⟩ := shortInt_flags hcs hcode (h (s.i387.st 0).against)
  cases hsrc.symm.trans hsrc'
  cases hw.symm.trans hw'
  obtain ⟨u, hu, htrue⟩ := fcom_self (s.i387.st 0) s.i387.busy.swd
  obtain ⟨u', hu', hfalse⟩ := fcom_against (s.i387.st 0) s.i387.busy.swd
  cases hv.symm.trans hu
  cases hv'.symm.trans hu'
  exact hfalse (hne.symm.trans (heq.trans htrue))

omit hcs

/-- The instruction compares, whatever `tmp` holds before it, just if it is not one of the first two forms with a
register and its operand is not a short integer. -/
theorem comparisons_compare_iff (cmp : Comparison) (s : Emulator)
    (hcs : s.info.cs.setWidth 16 = (0x000f : BitVec 16)) (hcode : s.instruction = cmp.code) :
    (∀ tmp, cmp.Compares s tmp) ↔ cmp.Sound := by
  cases cmp with
  | register form i =>
    constructor
    · intro h
      by_contra hform
      exact register_overwrites hcs hform hcode (h _)
    · exact fun hform => register_compares hcs hform hcode
  | fcompp => exact iff_of_true (pops_compare hcs (.inl rfl) hcode) trivial
  | fucompp => exact iff_of_true (pops_compare hcs (.inr rfl) hcode) trivial
  | memory format pop mode rm =>
    constructor
    · rintro h rfl
      exact memory_unread hcs pop mode rm hcode h
    · exact fun hformat => memory_compares hcs hformat pop mode rm hcode

/-- An instruction of two bytes at the address 0x100, with one and a half in ST(0) -/
def running (first second : BitVec 8) : Emulator where
  info :=
    { origEip := 0, edi := 0, esi := 0, ebp := 0, eax := 0, ebx := 0, ecx := 0, edx := 0, eip := 0x100
      cs := 0x0f, esp := 0x2000 }
  i387 := ⟨0x037f, 0, 0, 0, 0, 0, 0, fun r => if r = 0 then ⟨0, 0xc0000000, 0x3fff⟩ else ⟨0, 0, 0⟩⟩
  signal := 0
  memory addr := if addr = 0x100 then first else if addr = 0x101 then second else 0

/-- `fcom %st(1)` -/
theorem comparisons_compare_iff_fcom : (∀ tmp, (Comparison.register .fcom 1).Compares (running 0xd8 0xd1) tmp) ↔
    (Comparison.register .fcom 1).Sound :=
  comparisons_compare_iff (.register .fcom 1) (running 0xd8 0xd1) (by decide) (by decide +kernel)

theorem not_comparisons_compare : ¬ ∀ (cmp : Comparison) (s : Emulator),
    s.info.cs.setWidth 16 = (0x000f : BitVec 16) → s.instruction = cmp.code → ∀ tmp, cmp.Compares s tmp := by
  intro h
  have hcode : (running 0xd8 0xd1).instruction = encode RegisterForm.fcom.group 1 := by decide +kernel
  exact register_overwrites (by decide) (by decide) hcode
    (h (.register .fcom 1) (running 0xd8 0xd1) (by decide) hcode _)

end Linux012.Math
