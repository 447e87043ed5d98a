import Mathlib.Tactic

/-! # Conversions of the coprocessor emulator

`convert.c`, and the functions of `get_put.c` for integers and decimal numbers. A mantissa or an integer
is a pair of words that the assembler statements add to and shift.
-/

namespace Linux012.Math

open Function

abbrev Long := BitVec 32

/-- `b` is the upper word. -/
structure TempReal where
  a : Long
  b : Long
  exponent : BitVec 16
  deriving DecidableEq

structure LongReal where
  a : Long
  b : Long
  deriving DecidableEq

structure TempInt where
  a : Long
  b : Long
  sign : Bool
  deriving DecidableEq

/-- `ROUNDING` -/
inductive Rounding | nearest | down | up | zero
  deriving DecidableEq

/-! ## Pairs of words -/

def join (a b : Long) : BitVec 64 := b ++ a

def low (x : BitVec 64) : Long := x.setWidth 32

def high (x : BitVec 64) : Long := (x >>> 32).setWidth 32

/-- `shrdl` -/
def shrd (count : ℕ) (src dst : Long) : Long := ((src ++ dst) >>> count).setWidth 32

def LongReal.succ (x : LongReal) : LongReal := ⟨low (join x.a x.b + 1), high (join x.a x.b + 1)⟩

def TempInt.succ (n : TempInt) : TempInt := { n with a := low (join n.a n.b + 1), b := high (join n.a n.b + 1) }

/-- `notl`, `notl`, `addl $1`, `adcl $0` -/
def TempInt.neg (n : TempInt) : TempInt := { n with a := ~~~n.a, b := ~~~n.b }.succ

/-! ## Reals -/

def shortToTemp (x : Long) : TempReal :=
  if x &&& 0x7fffffff = 0 then ⟨0, 0, if x ≠ 0 then 0x8000 else 0⟩
  else
    let exponent := ((x.sshiftRight 23 &&& 0xff) - 127 + 16383).setWidth 16
    ⟨0, x <<< 8 ||| 0x80000000, if x.msb then exponent ||| 0x8000 else exponent⟩

def longToTemp (x : LongReal) : TempReal :=
  if x.a = 0 ∧ x.b &&& 0x7fffffff = 0 then ⟨0, 0, if x.b ≠ 0 then 0x8000 else 0⟩
  else
    let exponent := ((x.b.sshiftRight 20 &&& 0x7ff) - 1023 + 16383).setWidth 16
    ⟨x.a <<< 11, 0x80000000 ||| x.b <<< 11 ||| x.a >>> 21,
      if x.b.msb then exponent ||| 0x8000 else exponent⟩

def tempToShort (r : Rounding) (t : TempReal) : Long :=
  if t.exponent &&& 0x7fff = 0 then (if t.exponent ≠ 0 then 0x80000000 else 0)
  else
    let b := (t.exponent.signExtend 32 - 16383 + 127) <<< 23 &&& 0x7f800000
    let b := if t.exponent.msb then b ||| 0x80000000 else b
    let b := b ||| (t.b.sshiftRight 8 &&& 0x007fffff)
    match r with
    | .nearest => if 0x80 < t.b &&& 0xff then b + 1 else b
    | .down => if t.exponent &&& 0x8000 ≠ 0 ∧ t.b &&& 0xff ≠ 0 then b + 1 else b
    | .up => if ¬ t.exponent &&& 0x8000 ≠ 0 ∧ t.b &&& 0xff ≠ 0 then b + 1 else b
    | .zero => b

/-- The modes `down` and `up` test the upper word. -/
def tempToLong (r : Rounding) (t : TempReal) : LongReal :=
  if t.exponent &&& 0x7fff = 0 then ⟨0, if t.exponent ≠ 0 then 0x80000000 else 0⟩
  else
    let b := ((0x7fff &&& t.exponent.signExtend 32) - 16383 + 1023) <<< 20 &&& 0x7ff00000
    let b := if t.exponent.msb then b ||| 0x80000000 else b
    let b := b ||| (t.b.sshiftRight 11 &&& 0x000fffff)
    let a := t.b <<< 21 ||| (t.a.sshiftRight 11 &&& 0x001fffff)
    let x : LongReal := ⟨a, b⟩
    match r with
    | .nearest => if 0x400 < t.a &&& 0x7ff then x.succ else x
    | .down => if t.exponent &&& 0x8000 ≠ 0 ∧ t.b &&& 0xff ≠ 0 then x.succ else x
    | .up => if ¬ t.exponent &&& 0x8000 ≠ 0 ∧ t.b &&& 0xff ≠ 0 then x.succ else x
    | .zero => x

/-! ## Integers -/

def shiftOf (t : TempReal) : ℤ := 16383 + 63 - (t.exponent &&& 0x7fff).toNat

/-- The words that are shifted, with `underflow`. -/
def shifted (b a underflow : Long) (shift : ℕ) (sign : Bool) : TempInt × Long :=
  (⟨shrd shift b a, b >>> shift, sign⟩, shrd shift a underflow)

def rounded (r : Rounding) : TempInt × Long → TempInt
  | (n, underflow) =>
    match r with
    | .nearest => if 2 ^ 32 ≤ underflow.toNat + (0x7fffffff + (n.a &&& 1)).toNat then n.succ else n
    | .up => if ¬ n.sign ∧ underflow ≠ 0 then n.succ else n
    | .down => if n.sign ∧ underflow ≠ 0 then n.succ else n
    | .zero => n

/-- Also whether `set_OE` is called. -/
def realToInt (r : Rounding) (t : TempReal) : TempInt × Bool :=
  let shift := shiftOf t
  let sign := t.exponent.msb
  if shift < 0 then (⟨0, 0, sign⟩, true)
  else if shift < 32 then (rounded r (shifted t.b t.a 0 shift.toNat sign), false)
  else if shift < 64 then (rounded r (shifted 0 t.b t.a (shift - 32).toNat sign), false)
  else if shift < 96 then (rounded r (shifted 0 0 t.b (shift - 64).toNat sign), false)
  else (⟨0, 0, sign⟩, false)

def TempReal.double (t : TempReal) : TempReal where
  a := low (join t.a t.b + join t.a t.b)
  b := high (join t.a t.b + join t.a t.b)
  exponent := t.exponent - 1

/-- The loop of `int_to_real`, for so many rounds. -/
def normalize : ℕ → TempReal → Option TempReal
  | 0, _ => none
  | k + 1, t => if t.b.msb then some t else normalize k t.double

/-- Some bit of 64 is set. -/
def intToReal (n : TempInt) : Option TempReal :=
  if n.a ≠ 0 ∨ n.b ≠ 0 then normalize 64 ⟨n.a, n.b, 16383 + 63 + if n.sign then 0x8000 else 0⟩
  else some ⟨n.a, n.b, 0⟩

def getShortInt (w : BitVec 16) : Option TempReal :=
  let a : Long := w.signExtend 32
  intToReal ⟨if a.msb then -a else a, 0, a.msb⟩

def getLongInt (a : Long) : Option TempReal := intToReal ⟨if a.msb then -a else a, 0, a.msb⟩

def getLonglongInt (a b : Long) : Option TempReal :=
  let n : TempInt := ⟨a, b, b.msb⟩
  intToReal (if b.msb then n.neg else n)

def putShortInt (r : Rounding) (t : TempReal) : BitVec 16 :=
  let n := (realToInt r t).1
  (if n.sign then -n.a else n.a).setWidth 16

def putLongInt (r : Rounding) (t : TempReal) : Long :=
  let n := (realToInt r t).1
  if n.sign then -n.a else n.a

/-- Both words. -/
def putLonglongInt (r : Rounding) (t : TempReal) : Long × Long :=
  let n := (realToInt r t).1
  let n := if n.sign then n.neg else n
  (n.a, n.b)

/-! ## Decimal numbers -/

def MUL10 (x : BitVec 64) : BitVec 64 :=
  let x₂ := x + x
  let x₄ := x₂ + x₂
  let x₈ := x₄ + x₄
  x₈ + x₂

def ADD64 (val : BitVec 8) (x : BitVec 64) : BitVec 64 := x + val.setWidth 64

/-- A round of the loop of `get_BCD`. -/
def addDigits (x : BitVec 64) (c : BitVec 8) : BitVec 64 :=
  ADD64 (c &&& 0xf) (MUL10 (ADD64 (c >>> 4) (MUL10 x)))

/-- The number in the bytes below `k`, from the highest one down. -/
def digits (mem : ℕ → BitVec 8) : ℕ → BitVec 64 → BitVec 64
  | 0, x => x
  | k + 1, x => digits mem k (addDigits x (mem k))

/-- `mem` is the memory from the address on. -/
def getBCD (mem : ℕ → BitVec 8) : Option TempReal :=
  let x := digits mem 9 0
  intToReal ⟨low x, high x, 0x80 &&& mem 9 ≠ 0⟩

/-- Two digits of the number, as `DIV10` leaves them. -/
def digitsOf (x : BitVec 64) : BitVec 8 := (x % 10).setWidth 8 + (x / 10 % 10).setWidth 8 <<< 4

/-- The loop of `put_BCD` from byte `i` on. -/
def putDigits : ℕ → ℕ → BitVec 64 → (ℕ → BitVec 8) → ℕ → BitVec 8
  | 0, _, _, mem => mem
  | k + 1, i, x, mem => putDigits k (i + 1) (x / 10 / 10) (update mem i (digitsOf x))

def putBCD (r : Rounding) (t : TempReal) (mem : ℕ → BitVec 8) : ℕ → BitVec 8 :=
  let n := (realToInt r t).1
  putDigits 9 0 (join n.a n.b) (update mem 9 (if n.sign then 0x80 else 0))

end Linux012.Math
