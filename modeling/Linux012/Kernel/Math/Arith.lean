import Linux012.Kernel.Math.Basic
import Linux012.Lib.Carries

/-! # Arithmetic of temporary reals

`add.c`, `mul.c`, `div.c` and `compare.c`. The routines that set bits of the status word take it and return it.
A result that is not written is none. Numbers of four words go through the carry of the processor.
-/

namespace Linux012.Math

open Carries

/-! ## `add.c` -/

/-- `NEGINT` -/
def TempReal.negint (t : TempReal) : TempReal :=
  let x := join (~~~t.a) (~~~t.b) + 1
  { t with a := low x, b := high x }

/-- `shrdl`, `shrl` -/
def TempReal.shr (t : TempReal) (count : ℕ) : TempReal := { t with a := shrd count t.b t.a, b := t.b >>> count }

def signify (t : TempReal) : TempReal :=
  let t := { t with exponent := t.exponent + 2 }.shr 2
  let t := if t.exponent.msb then t.negint else t
  { t with exponent := t.exponent &&& 0x7fff }

/-- The loop of `int_to_real` is the loop here, too. -/
def unsignify (t : TempReal) : Option TempReal :=
  if t.a = 0 ∧ t.b = 0 then some { t with exponent := 0 }
  else
    let t := { t with exponent := t.exponent &&& 0x7fff }
    normalize 64 (if t.b.msb then { t.negint with exponent := t.exponent ||| 0x8000 } else t)

/-- The number with the lower exponent is shifted. -/
def TempReal.align (b : TempReal) (shift : ℕ) : TempReal :=
  if 32 ≤ shift then { b with a := b.b, b := 0 }.shr (shift - 32) else b.shr shift

/-- `addl`, `adcl` -/
def TempReal.plus (a b : TempReal) : TempReal :=
  { a with a := low (join a.a a.b + join b.a b.b), b := high (join a.a a.b + join b.a b.b) }

/-- The number with the higher exponent, the other one, and how far apart they are. -/
def order (src1 src2 : TempReal) : TempReal × TempReal × ℕ :=
  let x1 := (src1.exponent &&& 0x7fff).toNat
  let x2 := (src2.exponent &&& 0x7fff).toNat
  if x1 > x2 then (src1, src2, x1 - x2) else (src2, src1, x2 - x1)

def fadd (src1 src2 : TempReal) : Option TempReal :=
  let (a, b, shift) := order src1 src2
  if 64 ≤ shift then some a
  else unsignify ((signify a).plus (signify (b.align shift)))

/-! ## `compare.c` -/

def clearCx (swd : Long) : Long := swd &&& ~~~0x4500

def setC0 (swd : Long) : Long := swd ||| 0x0100

def setC3 (swd : Long) : Long := swd ||| 0x4000

/-- The loop of `normalize` from the exponent `i` on -/
def normalizeFrom : ℕ → BitVec 64 → ℕ × BitVec 64
  | 0, x => (0, x)
  | i + 1, x => if x.msb then (i + 1, x) else normalizeFrom i (x + x)

/-- `normalize` of `compare.c` -/
def normalizeReal (t : TempReal) : TempReal :=
  if t.a = 0 ∧ t.b = 0 then { t with exponent := 0 }
  else
    let (i, x) := normalizeFrom (t.exponent &&& 0x7fff).toNat (join t.a t.b)
    ⟨low x, high x, .ofNat 16 i ||| t.exponent &&& 0x8000⟩

def ftst (t : TempReal) (swd : Long) : Long :=
  let swd := clearCx swd
  let b := normalizeReal t
  if b.a ≠ 0 ∨ b.b ≠ 0 ∨ b.exponent ≠ 0 then
    if b.exponent.msb then setC0 swd else swd
  else setC3 swd

def TempReal.neg (t : TempReal) : TempReal := { t with exponent := t.exponent ^^^ 0x8000 }

def fcom (src1 src2 : TempReal) (swd : Long) : Option Long := (fadd src1.neg src2).map fun a => ftst a swd

def fucom (src1 src2 : TempReal) (swd : Long) : Option Long := fcom src1 src2 swd

/-! ## Four words -/

/-- An array of four words, the lowest first -/
structure Quad where
  c0 : Long
  c1 : Long
  c2 : Long
  c3 : Long
  deriving DecidableEq

/-- `shift`, `shift_left` -/
def Quad.shift (c : Quad) : Quad :=
  let (c0, carry) := adc c.c0 c.c0 false
  let (c1, carry) := adc c.c1 c.c1 carry
  let (c2, carry) := adc c.c2 c.c2 carry
  let (c3, _) := adc c.c3 c.c3 carry
  ⟨c0, c1, c2, c3⟩

/-- `shift_right` -/
def Quad.shiftRight (c : Quad) : Quad :=
  let (c3, carry) := rcr c.c3 false
  let (c2, carry) := rcr c.c2 carry
  let (c1, carry) := rcr c.c1 carry
  let (c0, _) := rcr c.c0 carry
  ⟨c0, c1, c2, c3⟩

/-- A product in the middle is added to the upper three words. -/
def Quad.addMiddle (c : Quad) (eax edx : Long) : Quad :=
  let (c1, carry) := adc c.c1 eax false
  let (c2, carry) := adc c.c2 edx carry
  let (c3, _) := adc c.c3 0 carry
  { c with c1 := c1, c2 := c2, c3 := c3 }

/-- `try_sub`: `b` without `a`, and whether there was no borrow. -/
def trySub (a b : Quad) : Quad × Bool :=
  let (c0, borrow) := sbb b.c0 a.c0 false
  let (c1, borrow) := sbb b.c1 a.c1 borrow
  let (c2, borrow) := sbb b.c2 a.c2 borrow
  let (c3, borrow) := sbb b.c3 a.c3 borrow
  (⟨c0, c1, c2, c3⟩, !borrow)

/-- `tmp[0] || tmp[1] || tmp[2] || tmp[3]` -/
def Quad.any (c : Quad) : Bool := c.c0 ≠ 0 ∨ c.c1 ≠ 0 ∨ c.c2 ≠ 0 ∨ c.c3 ≠ 0

/-- `while (i && tmp[3] >= 0)` from `i` on -/
def normalizeQuad : ℕ → Quad → ℕ × Quad
  | 0, c => (0, c)
  | i + 1, c => if c.c3.msb then (i + 1, c) else normalizeQuad i c.shift

/-! ## `mul.c` -/

def set_ZE (swd : Long) : Long := swd ||| 4

def set_DE (swd : Long) : Long := swd ||| 2

def set_OE (swd : Long) : Long := swd ||| 8

def set_UE (swd : Long) : Long := swd ||| 16

def set_PE (swd : Long) : Long := swd ||| 32

def mul64 (a b : TempReal) : Quad :=
  let low := mul a.a b.a
  let high := mul a.b b.b
  let c : Quad := ⟨low.1, low.2, high.1, high.2⟩
  let first := mul a.a b.b
  let second := mul a.b b.a
  (c.addMiddle first.1 first.2).addMiddle second.1 second.2

/-- `sign = (src1->exponent ^ src2->exponent) & 0x8000` -/
def signOf (src1 src2 : TempReal) : BitVec 16 := (src1.exponent ^^^ src2.exponent) &&& 0x8000

def fmul (src1 src2 : TempReal) (swd : Long) : Option TempReal × Long :=
  let sign := signOf src1 src2
  let i : ℤ := (src1.exponent &&& 0x7fff).toNat + (src2.exponent &&& 0x7fff).toNat - 16383 + 1
  if i < 0 then (some ⟨0, 0, sign⟩, swd)
  else if 0x7fff < i then (none, set_OE swd)
  else
    let tmp := mul64 src1 src2
    let (i, tmp) := if tmp.any then normalizeQuad i.toNat tmp else (0, tmp)
    (some ⟨tmp.c2, tmp.c3, .ofNat 16 i ||| sign⟩, swd)

/-! ## `div.c` -/

/-- `c[index] |= mask` -/
def Quad.orWord (c : Quad) (index : ℕ) (mask : Long) : Quad :=
  match index with
  | 0 => { c with c0 := c.c0 ||| mask }
  | 1 => { c with c1 := c.c1 ||| mask }
  | 2 => { c with c2 := c.c2 ||| mask }
  | _ => { c with c3 := c.c3 ||| mask }

/-- `index` is where the pointer `c` has got to. -/
structure Division where
  a : Quad
  b : Quad
  c : Quad
  index : ℕ
  mask : Long

/-- `if (!(mask >>= 1)) { c--; mask = 0x80000000; }` -/
def Division.next (d : Division) : Division :=
  if d.mask >>> 1 = 0 then { d with index := d.index - 1, mask := 0x80000000 }
  else { d with mask := d.mask >>> 1 }

/-- A round of the loop of `div64` -/
def Division.round (d : Division) : Division :=
  let d := d.next
  let d := match trySub d.b d.a with
    | (tmp, true) => { d with a := tmp, c := d.c.orWord d.index d.mask }
    | (_, false) => d
  { d with b := d.b.shiftRight }

def div64 (a b : Quad) : Quad := (Division.round^[64] ⟨a, b, ⟨0, 0, 0, 0⟩, 4, 0⟩).c

/-- `while (b[3] >= 0)`, for so many rounds; also how often `i` is raised. -/
def shiftDivisor : ℕ → Quad → Option (ℕ × Quad)
  | 0, _ => none
  | k + 1, b => if b.c3.msb then some (0, b) else (shiftDivisor k b.shift).map fun p => (p.1 + 1, p.2)

/-- `fdiv` from `div64` on -/
def finishDivision (i : ℕ) (sign : BitVec 16) (tmp : Quad) (swd : Long) : Option TempReal × Long :=
  let any := tmp.any
  let (i, tmp) := if any then normalizeQuad i tmp else (0, tmp)
  let swd := if any ∧ ¬ tmp.c3.msb then set_DE swd else swd
  if 0x7fff < i then (none, set_OE swd)
  else
    let swd := if tmp.c0 ≠ 0 ∨ tmp.c1 ≠ 0 then set_PE swd else swd
    (some ⟨tmp.c2, tmp.c3, .ofNat 16 i ||| sign⟩, swd)

/-- None if the loop over the divisor has not ended. -/
def fdiv (src1 src2 : TempReal) (swd : Long) : Option (Option TempReal × Long) :=
  let sign := signOf src1 src2
  if src2.a = 0 ∧ src2.b = 0 then some (none, set_ZE swd)
  else
    let i : ℤ := (src1.exponent &&& 0x7fff).toNat - (src2.exponent &&& 0x7fff).toNat + 16383
    if i < 0 then some (some ⟨0, 0, sign⟩, set_UE swd)
    else
      let a : Quad := ⟨0, 0, src1.a, src1.b⟩
      (shiftDivisor 64 ⟨0, 0, src2.a, src2.b⟩).map fun (k, b) =>
        finishDivision (i.toNat + k) sign (div64 a b) swd

end Linux012.Math
