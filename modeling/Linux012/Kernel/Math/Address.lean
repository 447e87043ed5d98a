import Linux012.Kernel.Math.Basic

/-! # The effective address of an operand

`ea.c`, with the state of the emulator: the registers of the task that was interrupted, the image of the
coprocessor and the memory behind `fs`. The rows of the manual's tables for the ModR/M and the SIB byte are
a definition of their own.
-/

namespace Linux012.Math

/-! ## The emulator -/

structure Info where
  origEip : Long
  edi : Long
  esi : Long
  ebp : Long
  eax : Long
  ebx : Long
  ecx : Long
  edx : Long
  eip : Long
  cs : Long
  esp : Long

/-- `st_space` has eight reals of ten bytes. -/
structure I387 where
  cwd : Long
  swd : Long
  twd : Long
  fip : Long
  fcs : Long
  foo : Long
  fos : Long
  stSpace : Fin 8 → TempReal

structure Emulator where
  info : Info
  i387 : I387
  /-- `current->signal` -/
  signal : Long
  memory : Long → BitVec 8

/-- `panic`, and `math_abort`, which does not return; a loop that goes on for ever. -/
inductive Stop | panic | abort | loops
  deriving DecidableEq

abbrev Emu := EStateM Stop Emulator

def SIGILL : ℕ := 4

def SIGFPE : ℕ := 8

def mathAbort {α : Type} (signal : Long) : Emu α := fun s =>
  .error .abort { s with info := { s.info with eip := s.info.origEip }, signal := s.signal ||| signal }

def Emulator.getFsWord (s : Emulator) (addr : Long) : BitVec 16 := s.memory (addr + 1) ++ s.memory addr

def Emulator.getFsLong (s : Emulator) (addr : Long) : Long :=
  s.memory (addr + 3) ++ s.memory (addr + 2) ++ s.memory (addr + 1) ++ s.memory addr

/-- `get_fs_byte((char *) EIP); EIP++` -/
def nextByte : Emu (BitVec 8) := fun s =>
  .ok (s.memory s.info.eip) { s with info := { s.info with eip := s.info.eip + 1 } }

/-- `get_fs_long((unsigned long *) EIP); EIP += 4` -/
def nextLong : Emu Long := fun s =>
  .ok (s.getFsLong s.info.eip) { s with info := { s.info with eip := s.info.eip + 4 } }

/-! ## `ea.c` -/

/-- `__regoffset` -/
def regoffset : Fin 8 → Info → Long :=
  ![Info.eax, Info.ecx, Info.edx, Info.ebx, Info.esp, Info.ebp, Info.esi, Info.edi]

def REG (x : BitVec 8) : Emu Long := fun s => .ok (regoffset (x.setWidth 3).toFin s.info) s

/-- `I387.foo = offset; I387.fos = 0x17` -/
def setOperand (offset : Long) : Emu Unit := fun s =>
  .ok () { s with i387 := { s.i387 with foo := offset, fos := 0x17 } }

/-- The index of `sib`, before it is shifted. -/
def sibIndex (index : BitVec 8) : Emu Long := if index = 4 then pure 0 else REG index

/-- The base that `sib` adds. -/
def sibBase (mod base : BitVec 8) : Emu Long := if mod ≠ 0 ∨ base ≠ 5 then REG base else pure 0

/-- The displacement that `sib` adds. -/
def sibDisplacement (mod base : BitVec 8) : Emu Long :=
  if mod = 1 then BitVec.signExtend 32 <$> nextByte
  else if mod = 2 ∨ base = 5 then nextLong
  else pure 0

def sib (mod : BitVec 8) : Emu Long := do
  let byte ← nextByte
  let ss := byte >>> 6
  let index := byte >>> 3 &&& 7
  let base := byte &&& 7
  let offset ← sibIndex index
  let offset := offset <<< ss.toNat
  let register ← sibBase mod base
  let displacement ← sibDisplacement mod base
  let offset := offset + register + displacement
  setOperand offset
  return offset

/-- The `switch` of `ea`. -/
def eaDisplacement (mod : BitVec 8) : Emu Long :=
  if mod = 0 then pure 0
  else if mod = 1 then BitVec.signExtend 32 <$> nextByte
  else if mod = 2 then nextLong
  else mathAbort (1 <<< (SIGILL - 1))

/-- An absolute address. -/
def absolute : Emu Long := do
  let offset ← nextLong
  setOperand offset
  return offset

/-- A register and a displacement. -/
def relative (mod rm : BitVec 8) : Emu Long := do
  let tmp ← REG rm
  let offset ← eaDisplacement mod
  setOperand offset
  return offset + tmp

def ea (code : BitVec 16) : Emu Long :=
  let mod : BitVec 8 := (code >>> 6 &&& 3).setWidth 8
  let rm : BitVec 8 := (code &&& 7).setWidth 8
  if rm = 4 ∧ mod ≠ 3 then sib mod
  else if rm = 5 ∧ mod = 0 then absolute
  else relative mod rm

/-! ## The tables of the manual -/

inductive Register | eax | ecx | edx | ebx | esp | ebp | esi | edi
  deriving DecidableEq

def Register.ofNumber : BitVec 3 → Register
  | 0#3 => .eax
  | 1#3 => .ecx
  | 2#3 => .edx
  | 3#3 => .ebx
  | 4#3 => .esp
  | 5#3 => .ebp
  | 6#3 => .esi
  | 7#3 => .edi

def Info.value (info : Info) : Register → Long
  | .eax => info.eax
  | .ecx => info.ecx
  | .edx => info.edx
  | .ebx => info.ebx
  | .esp => info.esp
  | .ebp => info.ebp
  | .esi => info.esi
  | .edi => info.edi

/-- The displacements of an instruction -/
inductive Displacement | none | disp8 | disp32
  deriving DecidableEq

def Displacement.length : Displacement → ℕ
  | .none => 0
  | .disp8 => 1
  | .disp32 => 4

/-- `[base] + [index * scale] + displacement`, and whether there is a SIB byte. -/
structure Form where
  sib : Bool
  base : Option Register
  index : Option (Register × ℕ)
  displacement : Displacement
  deriving DecidableEq

/-- The displacement that the mode asks for. -/
def displacementOf : BitVec 2 → Displacement
  | 0#2 => .none
  | 1#2 => .disp8
  | _ => .disp32

/-- The table of the SIB byte: the index 4 is none, and the base 5 without a displacement is a displacement of
32 bits without a base. -/
def Form.ofSib (mode scale : BitVec 2) (index base : BitVec 3) : Form where
  sib := true
  base := if mode = 0 ∧ base = 5 then none else some (.ofNumber base)
  index := if index = 4 then none else some (.ofNumber index, 2 ^ scale.toNat)
  displacement := if mode = 0 ∧ base = 5 then .disp32 else displacementOf mode

/-- The table of the ModR/M byte, for the modes of memory operands -/
def Form.ofModRM (mode : BitVec 2) (rm : BitVec 3) (sib : BitVec 8) : Form :=
  if rm = 4 then .ofSib mode (sib.extractLsb' 6 2) (sib.extractLsb' 3 3) (sib.extractLsb' 0 3)
  else if mode = 0 ∧ rm = 5 then ⟨false, none, none, .disp32⟩
  else ⟨false, some (.ofNumber rm), none, displacementOf mode⟩

/-- The bytes after the ModR/M byte -/
def Form.length (f : Form) : ℕ := (if f.sib then 1 else 0) + f.displacement.length

/-- The displacement that stands at an address. -/
def Displacement.value (s : Emulator) (addr : Long) : Displacement → ℤ
  | .none => 0
  | .disp8 => (s.memory addr).toInt
  | .disp32 => (s.getFsLong addr).toInt

/-- The address of a form whose bytes begin at `eip`. -/
def Form.address (f : Form) (s : Emulator) : Long :=
  let base : ℤ := f.base.elim 0 fun r => (s.info.value r).toNat
  let index : ℤ := f.index.elim 0 fun p => (s.info.value p.1).toNat * p.2
  let displacement := f.displacement.value s (s.info.eip + if f.sib then 1 else 0)
  .ofInt 32 (base + index + displacement)

/-! ## Fields of an instruction -/

variable {s : Emulator} {mode : BitVec 2} {f : Form}

theorem mod_field (code : BitVec 16) :
    ((code >>> 6 &&& 3).setWidth 8 : BitVec 8) = (code.extractLsb' 6 2).setWidth 8 := by
  ext i hi
  interval_cases i <;> simp

theorem rm_field (code : BitVec 16) :
    ((code &&& 7).setWidth 8 : BitVec 8) = (code.extractLsb' 0 3).setWidth 8 := by
  ext i hi
  interval_cases i <;> simp

theorem base_field (byte : BitVec 8) : byte &&& 7 = (byte.extractLsb' 0 3).setWidth 8 := by
  ext i hi
  interval_cases i <;> simp

theorem index_field (byte : BitVec 8) : byte >>> 3 &&& 7 = (byte.extractLsb' 3 3).setWidth 8 := by
  ext i hi
  interval_cases i <;> simp

theorem scale_field (byte : BitVec 8) : byte >>> 6 = (byte.extractLsb' 6 2).setWidth 8 := by
  ext i hi
  interval_cases i <;> simp

theorem regoffset_eq (x : BitVec 3) (info : Info) :
    regoffset ((x.setWidth 8).setWidth 3).toFin info = info.value (.ofNumber x) := by
  rw [show (x.setWidth 8).setWidth 3 = x by ext i hi; interval_cases i <;> simp]
  revert x
  have h : ∀ i : Fin 8, regoffset i info = info.value (.ofNumber (.ofFin i)) := by
    intro i
    fin_cases i <;> rfl
  exact fun x => h x.toFin

/-! ## Addresses as words -/

/-- What is read for a form's displacement, as a word -/
def Displacement.word (s : Emulator) (addr : Long) : Displacement → Long
  | .none => 0
  | .disp8 => (s.memory addr).signExtend 32
  | .disp32 => s.getFsLong addr

theorem ofInt_value (s : Emulator) (addr : Long) (d : Displacement) :
    .ofInt 32 (d.value s addr) = d.word s addr := by
  cases d with
  | none => rfl
  | disp8 => rfl
  | disp32 => exact BitVec.ofInt_toInt

theorem shiftLeft_eq_ofInt (x : Long) (k : ℕ) : x <<< k = .ofInt 32 (x.toNat * (2 ^ k : ℕ)) := by
  apply BitVec.eq_of_toNat_eq
  rw [BitVec.toNat_shiftLeft, Nat.shiftLeft_eq, ← Nat.cast_mul, BitVec.ofInt_natCast, BitVec.toNat_ofNat]

/-- The address as a sum of words -/
theorem address_eq {x y : Long} (hx : (f.base.elim 0 fun r => s.info.value r) = x)
    (hy : (f.index.elim 0 fun p => BitVec.ofInt 32 ((s.info.value p.1).toNat * p.2)) = y) :
    f.address s = y + x + f.displacement.word s (s.info.eip + if f.sib then 1 else 0) := by
  have hbase : BitVec.ofInt 32 (f.base.elim 0 fun r => ((s.info.value r).toNat : ℤ)) = x := by
    rw [← hx]
    cases f.base with
    | none => rfl
    | some r =>
      rw [Option.elim_some, Option.elim_some, BitVec.ofInt_natCast, BitVec.ofNat_toNat, BitVec.setWidth_eq]
  have hindex : BitVec.ofInt 32 (f.index.elim 0 fun p => ((s.info.value p.1).toNat * p.2 : ℤ)) = y := by
    rw [← hy]
    cases f.index <;> rfl
  unfold Form.address
  rw [BitVec.ofInt_add, BitVec.ofInt_add, hbase, hindex, ofInt_value, BitVec.add_comm x]

/-! ## Reading an address -/

theorem bind_ok {α β : Type} {x : Emu α} {g : α → Emu β} {a : α} {s s' : Emulator} (h : x s = .ok a s') :
    (x >>= g) s = g a s' := by
  change EStateM.bind x g s = g a s'
  rw [EStateM.bind, h]

/-- The state when the instruction has been read up to the end of its address -/
def Emulator.addressed (s : Emulator) (length : ℕ) (foo : Long) : Emulator :=
  { s with
    info := { s.info with eip := s.info.eip + .ofNat 32 length }
    i387 := { s.i387 with foo := foo, fos := 0x17 } }

/-- A displacement has been read. -/
def Emulator.read (s : Emulator) (d : Displacement) : Emulator :=
  { s with info := { s.info with eip := s.info.eip + .ofNat 32 d.length } }

theorem setWidth_inj {w : ℕ} (hw : w ≤ 8) {x : BitVec w} (y : BitVec w) :
    x.setWidth 8 = y.setWidth 8 ↔ x = y := by
  constructor
  · intro h
    have h' := congrArg BitVec.toNat h
    apply BitVec.eq_of_toNat_eq
    rwa [BitVec.toNat_setWidth_of_le hw, BitVec.toNat_setWidth_of_le hw] at h'
  · rintro rfl
    rfl

theorem read_none (s : Emulator) : s.read .none = s := by
  unfold Emulator.read
  exact congrArg (fun e => ({ s with info := { s.info with eip := e } } : Emulator)) (BitVec.add_zero _)

theorem sibDisplacement_spec (hmode : mode ≠ 3) (base : BitVec 3) (s : Emulator) :
    let d := (Form.ofSib mode 0 0 base).displacement
    sibDisplacement (mode.setWidth 8) (base.setWidth 8) s = .ok (d.word s s.info.eip) (s.read d) := by
  have hcases : mode = 0 ∨ mode = 1 ∨ mode = 2 := by
    revert mode
    decide
  have hbase : (base.setWidth 8 : BitVec 8) = 5 ↔ base = 5 := setWidth_inj (by decide) 5
  dsimp only
  obtain rfl | rfl | rfl := hcases
  · by_cases h5 : base = 5
    · subst h5
      rfl
    · have hd : (Form.ofSib 0 0 0 base).displacement = .none := if_neg fun h => h5 h.2
      have hno : ¬ ((0 : BitVec 2).setWidth 8 = (2 : BitVec 8) ∨ base.setWidth 8 = (5 : BitVec 8)) := by
        rintro (h | h)
        · exact absurd h (by decide)
        · exact h5 (hbase.mp h)
      unfold sibDisplacement
      rw [hd, read_none, if_neg (by decide), if_neg hno]
      rfl
  · rfl
  · rfl

theorem eaDisplacement_spec (hmode : mode ≠ 3) (s : Emulator) :
    eaDisplacement (mode.setWidth 8) s =
      .ok ((displacementOf mode).word s s.info.eip) (s.read (displacementOf mode)) := by
  have hcases : mode = 0 ∨ mode = 1 ∨ mode = 2 := by
    revert mode
    decide
  obtain rfl | rfl | rfl := hcases
  · exact congrArg _ (read_none s).symm
  · rfl
  · rfl

theorem sibIndex_spec (index : BitVec 3) (s : Emulator) :
    sibIndex (index.setWidth 8) s = .ok (if index = 4 then 0 else s.info.value (.ofNumber index)) s := by
  have h4 : (index.setWidth 8 : BitVec 8) = 4 ↔ index = 4 := setWidth_inj (by decide) 4
  unfold sibIndex
  by_cases h : index = 4
  · rw [if_pos (h4.mpr h), if_pos h]
    rfl
  · rw [if_neg (mt h4.mp h), if_neg h, ← regoffset_eq]
    rfl

theorem sibBase_spec (mode : BitVec 2) (base : BitVec 3) (s : Emulator) :
    sibBase (mode.setWidth 8) (base.setWidth 8) s =
      .ok (if mode = 0 ∧ base = 5 then 0 else s.info.value (.ofNumber base)) s := by
  have h0 : (mode.setWidth 8 : BitVec 8) = 0 ↔ mode = 0 := setWidth_inj (by decide) 0
  have h5 : (base.setWidth 8 : BitVec 8) = 5 ↔ base = 5 := setWidth_inj (by decide) 5
  unfold sibBase
  by_cases h : mode = 0 ∧ base = 5
  · have hno : ¬ ((mode.setWidth 8 : BitVec 8) ≠ 0 ∨ (base.setWidth 8 : BitVec 8) ≠ 5) := by
      rintro (hne | hne)
      · exact hne (h0.mpr h.1)
      · exact hne (h5.mpr h.2)
    rw [if_neg hno, if_pos h]
    rfl
  · have hyes : (mode.setWidth 8 : BitVec 8) ≠ 0 ∨ (base.setWidth 8 : BitVec 8) ≠ 5 := by
      by_contra hno
      exact h ⟨h0.mp (not_not.mp fun h => hno (.inl h)), h5.mp (not_not.mp fun h => hno (.inr h))⟩
    rw [if_pos hyes, if_neg h, ← regoffset_eq]
    rfl

theorem sib_spec (hmode : mode ≠ 3) (s : Emulator) :
    let byte := s.memory s.info.eip
    let f := Form.ofSib mode (byte.extractLsb' 6 2) (byte.extractLsb' 3 3) (byte.extractLsb' 0 3)
    sib (mode.setWidth 8) s = .ok (f.address s) (s.addressed f.length (f.address s)) := by
  intro byte f
  let s' : Emulator := { s with info := { s.info with eip := s.info.eip + 1 } }
  have hread : nextByte s = .ok byte s' := rfl
  have hindex : (f.index.elim 0 fun p => BitVec.ofInt 32 ((s.info.value p.1).toNat * p.2)) =
      (if byte.extractLsb' 3 3 = 4 then 0 else s.info.value (.ofNumber (byte.extractLsb' 3 3))) <<<
        ((byte.extractLsb' 6 2).setWidth 8 : BitVec 8).toNat := by
    rw [BitVec.toNat_setWidth_of_le (by decide)]
    change Option.elim (if _ then _ else _) _ _ = _
    by_cases h : byte.extractLsb' 3 3 = 4
    · rw [if_pos h, if_pos h]
      exact (BitVec.zero_shiftLeft _).symm
    · rw [if_neg h, if_neg h]
      exact (shiftLeft_eq_ofInt _ _).symm
  have hbase : (f.base.elim 0 fun r => s.info.value r) =
      if mode = 0 ∧ byte.extractLsb' 0 3 = 5 then 0 else s.info.value (.ofNumber (byte.extractLsb' 0 3)) := by
    change Option.elim (if _ then _ else _) _ _ = _
    split_ifs <;> rfl
  have hlength : s'.info.eip + .ofNat 32 f.displacement.length = s.info.eip + .ofNat 32 f.length := by
    change s.info.eip + 1 + _ = s.info.eip + .ofNat 32 (1 + f.displacement.length)
    rw [BitVec.ofNat_add, BitVec.add_assoc]
    rfl
  unfold sib
  rw [bind_ok hread]
  dsimp only
  rw [index_field, base_field, scale_field, bind_ok (sibIndex_spec _ s'), bind_ok (sibBase_spec mode _ s'),
    bind_ok (sibDisplacement_spec hmode _ s'), address_eq hbase hindex, Emulator.addressed, ← hlength]
  rfl

theorem relative_spec (hmode : mode ≠ 3) (rm : BitVec 3) (s : Emulator) :
    let f : Form := ⟨false, some (.ofNumber rm), none, displacementOf mode⟩
    ∃ foo, relative (mode.setWidth 8) (rm.setWidth 8) s = .ok (f.address s) (s.addressed f.length foo) := by
  intro f
  have hREG : REG (rm.setWidth 8) s = .ok (s.info.value (.ofNumber rm)) s := by
    rw [← regoffset_eq]
    rfl
  refine ⟨(displacementOf mode).word s s.info.eip, ?_⟩
  have hlength : f.length = (displacementOf mode).length := Nat.zero_add _
  have haddr : f.address s = (displacementOf mode).word s s.info.eip + s.info.value (.ofNumber rm) := by
    rw [address_eq rfl rfl, BitVec.add_comm]
    simp [f]
  unfold relative
  rw [bind_ok hREG, bind_ok (eaDisplacement_spec hmode s), haddr, hlength]
  rfl

/-- The address is that of the manual's tables, and the instruction pointer passes over the bytes of its form. -/
theorem ea_decodes (code : BitVec 16) (s : Emulator) (hmode : code.extractLsb' 6 2 ≠ 3) :
    let f := Form.ofModRM (code.extractLsb' 6 2) (code.extractLsb' 0 3) (s.memory s.info.eip)
    ∃ foo, ea code s = .ok (f.address s) (s.addressed f.length foo) := by
  intro f
  set mode := code.extractLsb' 6 2 with hm
  set rm := code.extractLsb' 0 3 with hr
  have h0 : (mode.setWidth 8 : BitVec 8) = 0 ↔ mode = 0 := setWidth_inj (by decide) 0
  have h3 : (mode.setWidth 8 : BitVec 8) = 3 ↔ mode = 3 := setWidth_inj (by decide) 3
  have h4 : (rm.setWidth 8 : BitVec 8) = 4 ↔ rm = 4 := setWidth_inj (by decide) 4
  have h5 : (rm.setWidth 8 : BitVec 8) = 5 ↔ rm = 5 := setWidth_inj (by decide) 5
  unfold ea
  rw [mod_field, rm_field, ← hm, ← hr]
  by_cases hsib : rm = 4
  · have hf : f = .ofSib mode _ _ _ := if_pos hsib
    rw [if_pos ⟨h4.mpr hsib, mt h3.mp hmode⟩, hf]
    exact ⟨_, sib_spec hmode s⟩
  · rw [if_neg fun h => hsib (h4.mp h.1)]
    by_cases habs : mode = 0 ∧ rm = 5
    · have hf : f = ⟨false, none, none, .disp32⟩ := (if_neg hsib).trans (if_pos habs)
      rw [if_pos ⟨h5.mpr habs.2, h0.mpr habs.1⟩, hf]
      have haddr : Form.address ⟨false, none, none, .disp32⟩ s = s.getFsLong s.info.eip := by
        rw [address_eq rfl rfl]
        simp [Displacement.word]
      rw [haddr]
      exact ⟨_, rfl⟩
    · have hf : f = ⟨false, some (.ofNumber rm), none, displacementOf mode⟩ :=
        (if_neg hsib).trans (if_neg habs)
      rw [if_neg fun h => habs ⟨h0.mp h.2, h5.mp h.1⟩, hf]
      exact relative_spec hmode rm s

/-- `-4(%esp)` -/
def stackOperand : Emulator where
  info :=
    { origEip := 0, edi := 0, esi := 0, ebp := 0, eax := 0, ebx := 0, ecx := 0, edx := 0, eip := 0x100
      cs := 0x0f, esp := 0x2000 }
  i387 := ⟨0x037f, 0, 0, 0, 0, 0, 0, fun _ => ⟨0, 0, 0⟩⟩
  signal := 0
  memory addr := if addr = 0x100 then 0x24 else if addr = 0x101 then 0xfc else 0

theorem ea_decodes_stackOperand :
    ∃ foo, ea 0x144 stackOperand = .ok 0x1ffc (stackOperand.addressed 2 foo) := by
  have haddr : (Form.ofModRM 1 4 0x24).address stackOperand = 0x1ffc := by decide +kernel
  rw [← haddr]
  exact ea_decodes 0x144 stackOperand (by decide)

end Linux012.Math
