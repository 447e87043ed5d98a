import Mathlib.Logic.Function.Basic
import Mathlib.Tactic

/-! # String instructions

The part of the i386 that inline string functions are written in: six registers, the flags that the jumps
test and the direction flag. A program is a list of lines with the assembler's local labels, which may be
defined again and again; `1b` is the last one before the jump and `1f` the next one behind it.
-/

namespace X86

open Function

abbrev Addr := BitVec 32
abbrev Byte := BitVec 8
abbrev Mem := Addr → Byte

inductive Reg
  | eax
  | ebx
  | ecx
  | edx
  | esi
  | edi
  deriving DecidableEq

theorem low_append {m n : ℕ} (x : BitVec m) (y : BitVec n) : (x ++ y).extractLsb' 0 n = y := by
  ext i hi
  simp [BitVec.getLsbD_append, hi]

theorem high_append {m n : ℕ} (x : BitVec m) (y : BitVec n) (k : ℕ) :
    (x ++ y).extractLsb' n k = x.extractLsb' 0 k := by
  ext i hi
  simp [BitVec.getLsbD_append]

structure Cpu where
  reg : Reg → BitVec 32
  zf : Bool
  sf : Bool
  of : Bool
  df : Bool
  mem : Mem

namespace Cpu

/-- A processor with the memory `m` -/
def bare (m : Mem) : Cpu := ⟨fun _ => 0, false, false, false, false, m⟩

variable {s : Cpu} {r r' : Reg} {v : BitVec 32} {b : Byte}

def set (s : Cpu) (r : Reg) (v : BitVec 32) : Cpu := { s with reg := update s.reg r v }

def al (s : Cpu) : Byte := (s.reg .eax).extractLsb' 0 8

def ah (s : Cpu) : Byte := (s.reg .eax).extractLsb' 8 8

def setAl (s : Cpu) (b : Byte) : Cpu := s.set .eax ((s.reg .eax).extractLsb' 8 24 ++ b)

def setAh (s : Cpu) (b : Byte) : Cpu := s.set .eax ((s.reg .eax).extractLsb' 16 16 ++ b ++ s.al)

def store (s : Cpu) (a : Addr) (b : Byte) : Cpu := { s with mem := update s.mem a b }

/-- What a string instruction adds to its pointers. -/
def stride (s : Cpu) : BitVec 32 := if s.df then -1 else 1

/-- The flags after `a - b`. -/
def subFlags {w : ℕ} (s : Cpu) (a b : BitVec w) : Cpu :=
  { s with zf := a = b, sf := (a - b).msb, of := (a - b).toInt ≠ a.toInt - b.toInt }

/-- The flags after a logical operation. -/
def testFlags {w : ℕ} (s : Cpu) (v : BitVec w) : Cpu := { s with zf := v = 0, sf := v.msb, of := false }

@[simp] theorem reg_set_self : (s.set r v).reg r = v := update_self ..

theorem reg_set_of_ne (h : r' ≠ r) : (s.set r v).reg r' = s.reg r' := update_of_ne h ..

@[simp] theorem reg_set : (s.set r v).reg r' = if r' = r then v else s.reg r' := by
  split_ifs with h
  · rw [h, reg_set_self]
  · exact reg_set_of_ne h

@[simp] theorem zf_set : (s.set r v).zf = s.zf := rfl
@[simp] theorem sf_set : (s.set r v).sf = s.sf := rfl
@[simp] theorem of_set : (s.set r v).of = s.of := rfl
@[simp] theorem df_set : (s.set r v).df = s.df := rfl
@[simp] theorem mem_set : (s.set r v).mem = s.mem := rfl

@[simp] theorem zf_setAl : (s.setAl b).zf = s.zf := rfl
@[simp] theorem df_setAl : (s.setAl b).df = s.df := rfl
@[simp] theorem mem_setAl : (s.setAl b).mem = s.mem := rfl
@[simp] theorem reg_setAl (h : r ≠ .eax) : (s.setAl b).reg r = s.reg r := reg_set_of_ne h

@[simp] theorem df_setAh : (s.setAh b).df = s.df := rfl
@[simp] theorem mem_setAh : (s.setAh b).mem = s.mem := rfl
@[simp] theorem reg_setAh (h : r ≠ .eax) : (s.setAh b).reg r = s.reg r := reg_set_of_ne h

@[simp] theorem al_setAl : (s.setAl b).al = b := by
  unfold al setAl
  rw [reg_set_self]
  exact low_append _ _

@[simp] theorem ah_setAl : (s.setAl b).ah = s.ah := by
  unfold ah setAl
  rw [reg_set_self]
  refine (high_append _ _ 8).trans ?_
  ext i hi
  simp
  omega

@[simp] theorem ah_setAh : (s.setAh b).ah = b := by
  unfold ah setAh
  rw [reg_set_self]
  exact (high_append _ _ 8).trans (low_append _ _)

@[simp] theorem al_setAh : (s.setAh b).al = s.al := by
  unfold al setAh
  rw [reg_set_self]
  exact low_append _ _

theorem al_set_of_ne (h : r ≠ .eax) : (s.set r v).al = s.al :=
  congrArg (BitVec.extractLsb' 0 8) (reg_set_of_ne h.symm)

theorem ah_set_of_ne (h : r ≠ .eax) : (s.set r v).ah = s.ah :=
  congrArg (BitVec.extractLsb' 8 8) (reg_set_of_ne h.symm)

end Cpu

/-! ## Instructions -/

inductive StrOp
  | lodsb
  | stosb
  | scasb
  | movsb
  | cmpsb

/-- A string instruction without a prefix. -/
def StrOp.exec (s : Cpu) : StrOp → Cpu
  | .lodsb => (s.setAl (s.mem (s.reg .esi))).set .esi (s.reg .esi + s.stride)
  | .stosb => (s.store (s.reg .edi) s.al).set .edi (s.reg .edi + s.stride)
  | .scasb => (s.subFlags s.al (s.mem (s.reg .edi))).set .edi (s.reg .edi + s.stride)
  | .movsb =>
    ((s.store (s.reg .edi) (s.mem (s.reg .esi))).set .esi (s.reg .esi + s.stride)).set .edi
      (s.reg .edi + s.stride)
  | .cmpsb =>
    ((s.subFlags (s.mem (s.reg .esi)) (s.mem (s.reg .edi))).set .esi (s.reg .esi + s.stride)).set .edi
      (s.reg .edi + s.stride)

/-- One turn of a repeated instruction. -/
def StrOp.turn (o : StrOp) (s : Cpu) : Cpu := (o.exec s).set .ecx (s.reg .ecx - 1)

def StrOp.repTurns (o : StrOp) : ℕ → Cpu → Cpu
  | 0, s => s
  | n + 1, s => o.repTurns n (o.turn s)

/-- The turns end as well when the zero flag is not `z`. -/
def StrOp.whileTurns (o : StrOp) (z : Bool) : ℕ → Cpu → Cpu
  | 0, s => s
  | n + 1, s => if (o.turn s).zf = z then o.whileTurns z n (o.turn s) else o.turn s

inductive Instr
  | cld
  | std
  | str (o : StrOp)
  | rep (o : StrOp)
  | repe (o : StrOp)
  | repne (o : StrOp)
  /-- `movl` from a register -/
  | mov (src dst : Reg)
  /-- `movl` of a value -/
  | movi (v : BitVec 32) (dst : Reg)
  /-- `movb %al,%ah` -/
  | movAh
  /-- `movb` of a byte to where a register points -/
  | movb (b : Byte) (dst : Reg)
  | xchg (r r' : Reg)
  | inc (r : Reg)
  | dec (r : Reg)
  | not (r : Reg)
  | neg (r : Reg)
  | xor (src dst : Reg)
  /-- `testb %al,%al` -/
  | testAl
  | test (r r' : Reg)
  /-- `cmpb %ah,%al` -/
  | cmpAh
  /-- `cmpb` of a byte with the one at a distance from where a register points -/
  | cmpb (b : Byte) (d : BitVec 32) (r : Reg)

def Instr.exec (s : Cpu) : Instr → Cpu
  | .cld => { s with df := false }
  | .std => { s with df := true }
  | .str o => o.exec s
  | .rep o => o.repTurns (s.reg .ecx).toNat s
  | .repe o => o.whileTurns true (s.reg .ecx).toNat s
  | .repne o => o.whileTurns false (s.reg .ecx).toNat s
  | .mov src dst => s.set dst (s.reg src)
  | .movi v dst => s.set dst v
  | .movAh => s.setAh s.al
  | .movb b dst => s.store (s.reg dst) b
  | .xchg r r' => (s.set r (s.reg r')).set r' (s.reg r)
  | .inc r => { s.testFlags (s.reg r + 1) with of := s.reg r = 0x7fffffff }.set r (s.reg r + 1)
  | .dec r => (s.subFlags (s.reg r) 1).set r (s.reg r - 1)
  | .not r => s.set r (~~~s.reg r)
  | .neg r => (s.subFlags 0 (s.reg r)).set r (-s.reg r)
  | .xor src dst => (s.testFlags (s.reg dst ^^^ s.reg src)).set dst (s.reg dst ^^^ s.reg src)
  | .testAl => s.testFlags s.al
  | .test r r' => s.testFlags (s.reg r &&& s.reg r')
  | .cmpAh => s.subFlags s.al s.ah
  | .cmpb b d r => s.subFlags (s.mem (s.reg r + d)) b

section

variable {s : Cpu} {r r' : Reg} {v : BitVec 32}

theorem reg_movi (h : r' ≠ r) : (Instr.exec s (.movi v r)).reg r' = s.reg r' := Cpu.reg_set_of_ne h

theorem reg_mov {src : Reg} (h : r' ≠ r) : (Instr.exec s (.mov src r)).reg r' = s.reg r' := Cpu.reg_set_of_ne h

theorem reg_not (h : r' ≠ r) : (Instr.exec s (.not r)).reg r' = s.reg r' := Cpu.reg_set_of_ne h

theorem reg_dec (h : r' ≠ r) : (Instr.exec s (.dec r)).reg r' = s.reg r' := Cpu.reg_set_of_ne h

theorem reg_dec_self : (Instr.exec s (.dec r)).reg r = s.reg r - 1 := Cpu.reg_set_self

end

/-! ## Programs -/

inductive Cond
  | e
  | ne
  | s
  | l
  deriving DecidableEq

def Cond.holds (s : Cpu) : Cond → Bool
  | .e => s.zf
  | .ne => !s.zf
  | .s => s.sf
  | .l => s.sf != s.of

inductive Dir
  | b
  | f

inductive Line
  | lab (n : ℕ)
  | op (i : Instr)
  | jmp (n : ℕ) (d : Dir)
  | jcc (c : Cond) (n : ℕ) (d : Dir)

def Line.isLab (n : ℕ) : Line → Bool
  | .lab m => m == n
  | _ => false

/-- The line that a jump in line `k` goes to. -/
def target (p : List Line) (k n : ℕ) : Dir → Option ℕ
  | .b => ((p.take k).reverse.findIdx? (Line.isLab n)).map fun j => k - 1 - j
  | .f => ((p.drop (k + 1)).findIdx? (Line.isLab n)).map fun j => k + 1 + j

def step (p : List Line) (k : ℕ) (s : Cpu) : Option (ℕ × Cpu) :=
  match p[k]? with
  | none => none
  | some (.lab _) => some (k + 1, s)
  | some (.op i) => some (k + 1, i.exec s)
  | some (.jmp n d) => (target p k n d).map fun j => (j, s)
  | some (.jcc c n d) => if c.holds s then (target p k n d).map fun j => (j, s) else some (k + 1, s)

/-- From a line on, the program comes to a line and a state with `Q`. -/
inductive Reach (p : List Line) (Q : ℕ → Cpu → Prop) : ℕ → Cpu → Prop
  | done {k : ℕ} {s : Cpu} : Q k s → Reach p Q k s
  | next {k k' : ℕ} {s s' : Cpu} : step p k s = some (k', s') → Reach p Q k' s' → Reach p Q k s

namespace Reach

variable {p : List Line} {P Q : ℕ → Cpu → Prop} {k n j : ℕ} {s : Cpu} {i : Instr} {c : Cond} {d : Dir}

theorem trans (h : Reach p P k s) (hPQ : ∀ k s, P k s → Reach p Q k s) : Reach p Q k s := by
  induction h with
  | done h => exact hPQ _ _ h
  | next hs _ ih => exact .next hs ih

theorem weaken (h : Reach p P k s) (hPQ : ∀ k s, P k s → Q k s) : Reach p Q k s :=
  h.trans fun k s h => .done (hPQ k s h)

theorem lab (h : p[k]? = some (.lab n)) (hr : Reach p Q (k + 1) s) : Reach p Q k s :=
  .next (by rw [step, h]) hr

theorem op (h : p[k]? = some (.op i)) (hr : Reach p Q (k + 1) (i.exec s)) : Reach p Q k s :=
  .next (by rw [step, h]) hr

theorem jmp (h : p[k]? = some (.jmp n d)) (ht : target p k n d = some j) (hr : Reach p Q j s) :
    Reach p Q k s :=
  .next (by rw [step, h]; exact congrArg (Option.map _) ht) hr

theorem jump (h : p[k]? = some (.jcc c n d)) (ht : target p k n d = some j) (hc : c.holds s = true)
    (hr : Reach p Q j s) : Reach p Q k s :=
  .next (by rw [step, h]; exact (if_pos hc).trans (congrArg (Option.map _) ht)) hr

theorem fall (h : p[k]? = some (.jcc c n d)) (hc : c.holds s = false) (hr : Reach p Q (k + 1) s) :
    Reach p Q k s :=
  .next (by rw [step, h]; exact if_neg (by rw [hc]; exact Bool.false_ne_true)) hr

end Reach

/-! ## Inline functions -/

/-- An `asm` statement in a function: the registers that it is given, and the function's value -/
structure Asm where
  code : List Line
  inputs : List (Reg × BitVec 32)
  value : Cpu → BitVec 32

namespace Asm

variable {f : Asm} {s : Cpu} {Q Q' : BitVec 32 → Cpu → Prop}

def load (f : Asm) (s : Cpu) : Cpu := f.inputs.foldl (fun s i => s.set i.1 i.2) s

/-- The function comes to its end, with a value and a state that have `Q`. -/
def Returns (f : Asm) (s : Cpu) (Q : BitVec 32 → Cpu → Prop) : Prop :=
  Reach f.code (fun k t => k = f.code.length ∧ Q (f.value t) t) 0 (f.load s)

theorem Returns.weaken (h : f.Returns s Q) (hQ : ∀ v t, Q v t → Q' v t) : f.Returns s Q' :=
  Reach.weaken h fun _ _ h => ⟨h.1, hQ _ _ h.2⟩

end Asm

end X86
