import Mathlib.Data.BitVec
import Mathlib.Data.Stream.Defs
import Mathlib.Tactic

/-! # Formatted text

`number` and `vsprintf`. A format is read through an index into its characters and the NUL after them; a
read beyond the NUL has no result. An `int` wraps around.
-/

namespace Linux012.Vsprintf

abbrev Word := BitVec 32

abbrev Byte := UInt8

def ascii (c : Char) : Byte := c.toUInt8

/-- The flags to `number` -/
structure Flags where
  zeropad : Bool
  sign : Bool
  plus : Bool
  space : Bool
  left : Bool
  special : Bool
  small : Bool
  deriving DecidableEq, Repr

def noFlags : Flags := ⟨false, false, false, false, false, false, false⟩

/-! ## Numbers -/

def digitsOf (small : Bool) : List Byte :=
  (if small then "0123456789abcdefghijklmnopqrstuvwxyz"
    else "0123456789ABCDEFGHIJKLMNOPQRSTUVWXYZ").toList.map ascii

/-- `digits[i]` -/
def digit (small : Bool) (i : ℕ) : Byte := (digitsOf small).getD i 0

/-- `while (num != 0) tmp[i++] = digits[do_div(num, base)]`; `divl` is unsigned. -/
def digitsLoop (small : Bool) (base : Word) (hbase : 2 ≤ base.toNat) (num : Word) : List Byte :=
  if num = 0 then []
  else digit small (num % base).toNat :: digitsLoop small base hbase (num / base)
termination_by num.toNat
decreasing_by
  rename_i h
  rw [BitVec.toNat_udiv]
  exact Nat.div_lt_self (Nat.pos_of_ne_zero fun h0 => h (BitVec.eq_of_toNat_eq h0)) hbase

theorem toInt_sub_one {a b : Word} (h : a.slt b) : (b - 1).toInt = b.toInt - 1 := by
  rw [BitVec.slt_iff_toInt_lt] at h
  have hlow := a.le_toInt
  have hhigh := b.toInt_lt
  rw [BitVec.toInt_sub, show (1 : Word).toInt = 1 from rfl]
  exact Int.bmod_eq_of_le (by omega) (by omega)

/-- `while (len < size--) *str++ = c`, and the `size` after it -/
def padFrom (c : Byte) (len size : Word) : List Byte × Word :=
  if len.slt size then (c :: (padFrom c len (size - 1)).1, (padFrom c len (size - 1)).2)
  else ([], size - 1)
termination_by (size.toInt - len.toInt).toNat
decreasing_by
  all_goals
    rename_i h
    have hsub := toInt_sub_one h
    rw [BitVec.slt_iff_toInt_lt] at h
    omega

/-- `while (size-- > 0) *str++ = c` -/
def pad (c : Byte) (size : Word) : List Byte × Word := padFrom c 0 size

/-- The digits in `tmp`, the last one first -/
def tmp (small : Bool) (base : Word) (hbase : 2 ≤ base.toNat) (num : Word) : List Byte :=
  if num = 0 then [digit small 0] else digitsLoop small base hbase num

/-- The sign, if any, and the number without it -/
def signOf (type : Flags) (num : Word) : List Byte × Word :=
  if type.sign ∧ num.slt 0 then ([ascii '-'], -num)
  else (if type.plus then [ascii '+'] else if type.space then [ascii ' '] else [], num)

def prefixOf (type : Flags) (base : Word) : List Byte :=
  if type.special then
    if base = 8 then [ascii '0'] else if base = 16 then [ascii '0', digit type.small 33] else []
  else []

theorem two_le {base : Word} (h : ¬ (base.slt 2 ∨ BitVec.slt 36 base)) : 2 ≤ base.toNat := by
  rw [not_or, BitVec.slt_iff_toInt_lt, BitVec.slt_iff_toInt_lt, show (2 : Word).toInt = 2 from rfl,
    show (36 : Word).toInt = 36 from rfl] at h
  have := BitVec.toInt_eq_toNat_cond base
  omega

/-- The text at `str`; for another base the result is the null pointer. -/
def number (num base size precision : Word) (type : Flags) : Option (List Byte) :=
  let type := if type.left then { type with zeropad := false } else type
  if h : base.slt 2 ∨ BitVec.slt 36 base then none
  else
    let c := if type.zeropad then ascii '0' else ascii ' '
    let sign := (signOf type num).1
    let num := (signOf type num).2
    let size := if sign ≠ [] then size - 1 else size
    let size :=
      if type.special then if base = 16 then size - 2 else if base = 8 then size - 1 else size
      else size
    let tmp := tmp type.small base (two_le h) num
    let i := BitVec.ofNat 32 tmp.length
    let precision := if precision.slt i then i else precision
    let size := size - precision
    let blanks := if ¬ type.zeropad ∧ ¬ type.left then pad (ascii ' ') size else ([], size)
    let fill := if ¬ type.left then pad c blanks.2 else ([], blanks.2)
    let zeros := (padFrom (ascii '0') i precision).1
    let trailing := (pad (ascii ' ') fill.2).1
    some (blanks.1 ++ sign ++ prefixOf type base ++ fill.1 ++ zeros ++ tmp.reverse ++ trailing)

/-! ## Formats -/

/-- The character at `fmt + i` -/
def rd (fmt : List Byte) (i : ℕ) : Option Byte := (fmt ++ [0])[i]?

theorem lt_of_rd {fmt : List Byte} {i : ℕ} {c : Byte} (h : rd fmt i = some c) : i < fmt.length + 1 := by
  obtain ⟨hi, -⟩ := List.getElem?_eq_some_iff.mp h
  simpa using hi

def isDigit (c : Byte) : Bool := ascii '0' ≤ c ∧ c ≤ ascii '9'

/-- The number and the index after it -/
def skipAtoi (fmt : List Byte) (i : ℕ) (n : Word) : Option (ℕ × Word) :=
  match _h : rd fmt i with
  | none => none
  | some c => if isDigit c then skipAtoi fmt (i + 1) (n * 10 + BitVec.ofNat 32 c.toNat - 48) else some (i, n)
termination_by fmt.length + 1 - i
decreasing_by
  have := lt_of_rd _h
  omega

/-- The flags with the one that a character stands for -/
def Flags.add (flags : Flags) (c : Byte) : Option Flags :=
  if c = ascii '-' then some { flags with left := true }
  else if c = ascii '+' then some { flags with plus := true }
  else if c = ascii ' ' then some { flags with space := true }
  else if c = ascii '#' then some { flags with special := true }
  else if c = ascii '0' then some { flags with zeropad := true }
  else none

/-- From `repeat:` on -/
def flagsLoop (fmt : List Byte) (i : ℕ) (flags : Flags) : Option (ℕ × Flags) :=
  match _h : rd fmt (i + 1) with
  | none => none
  | some c =>
    match flags.add c with
    | some flags => flagsLoop fmt (i + 1) flags
    | none => some (i + 1, flags)
termination_by fmt.length + 1 - i
decreasing_by
  have := lt_of_rd _h
  omega

/-- The arguments from `args` on, one word each -/
abbrev Args := Stream' Word

/-- The field width; after `*` the index stays. -/
def fieldWidth (fmt : List Byte) (i : ℕ) (flags : Flags) (args : Args) : Option (ℕ × Word × Flags × Args) := do
  let c ← rd fmt i
  if isDigit c then
    let (i, w) ← skipAtoi fmt i 0
    some (i, w, flags, args)
  else if c = ascii '*' then
    if args.head.slt 0 then some (i, -args.head, { flags with left := true }, args.tail)
    else some (i, args.head, flags, args.tail)
  else some (i, -1, flags, args)

def precisionOf (fmt : List Byte) (i : ℕ) (args : Args) : Option (ℕ × Word × Args) := do
  let c ← rd fmt i
  if c = ascii '.' then
    let c ← rd fmt (i + 1)
    let (i, p, args) ←
      if isDigit c then (skipAtoi fmt (i + 1) 0).map fun (i, p) => (i, p, args)
      else if c = ascii '*' then some (i + 1, args.head, args.tail)
      else some (i + 1, -1, args)
    some (i, if p.slt 0 then 0 else p, args)
  else some (i, -1, args)

def isQualifier (c : Byte) : Bool := c = ascii 'h' ∨ c = ascii 'l' ∨ c = ascii 'L'

/-- The qualifier is not used. -/
def qualifier (fmt : List Byte) (i : ℕ) : Option ℕ := do
  let c ← rd fmt i
  if isQualifier c then some (i + 1) else some i

/-- A conversion with its argument -/
structure Use where
  letter : Byte
  flags : Flags
  width : Word
  precision : Word
  arg : Word
  deriving DecidableEq

/-- `while (--width > 0) *str++ = ' '` -/
def padBefore (width : Word) : List Byte × Word :=
  if BitVec.slt 0 (width - 1) then (ascii ' ' :: (padBefore (width - 1)).1, (padBefore (width - 1)).2)
  else ([], width - 1)
termination_by width.toNat
decreasing_by
  all_goals
    rename_i h
    have hwidth : width ≠ 0 := by
      rintro rfl
      exact absurd h (by decide)
    clear h
    bv_omega

def Use.char (u : Use) : List Byte :=
  let blanks := if u.flags.left then ([], u.width) else padBefore u.width
  blanks.1 ++ [UInt8.ofNat u.arg.toNat] ++ (padBefore blanks.2).1

/-- The string at an address is `str`. -/
def Use.string (str : Word → List Byte) (u : Use) : List Byte :=
  let len := BitVec.ofNat 32 (str u.arg).length
  let len := if u.precision.slt 0 then len else if u.precision.slt len then u.precision else len
  let blanks := if u.flags.left then ([], u.width) else padFrom (ascii ' ') len u.width
  blanks.1 ++ (str u.arg).take len.toInt.toNat ++ (padFrom (ascii ' ') len blanks.2).1

/-- What is written for a conversion -/
def Use.text (str : Word → List Byte) (u : Use) : Option (List Byte) :=
  if u.letter = ascii 'c' then some u.char
  else if u.letter = ascii 's' then some (u.string str)
  else if u.letter = ascii 'o' then number u.arg 8 u.width u.precision u.flags
  else if u.letter = ascii 'p' then
    if u.width = -1 then number u.arg 16 8 u.precision { u.flags with zeropad := true }
    else number u.arg 16 u.width u.precision u.flags
  else if u.letter = ascii 'x' then number u.arg 16 u.width u.precision { u.flags with small := true }
  else if u.letter = ascii 'X' then number u.arg 16 u.width u.precision u.flags
  else if u.letter = ascii 'd' ∨ u.letter = ascii 'i' then
    number u.arg 10 u.width u.precision { u.flags with sign := true }
  else if u.letter = ascii 'u' then number u.arg 10 u.width u.precision u.flags
  else some []

/-- The conversions that take an argument -/
def letters : List Byte := "csopxXdiun".toList.map ascii

/-- The buffer up to `str`, the arguments that are left, what `%n` has stored, and the conversions so far,
which are not in the source -/
structure State where
  buf : List Byte
  args : Args
  stores : List (Word × Word)
  uses : List Use

def State.write (st : State) (text : List Byte) : State := { st with buf := st.buf ++ text }

/-- The conversion at `c`, and the index at its end -/
def convert (str : Word → List Byte) (i : ℕ) (c : Byte) (flags : Flags) (width precision : Word) (st : State) :
    Option (ℕ × State) :=
  if c ∈ letters then do
    let u : Use := ⟨c, flags, width, precision, st.args.head⟩
    let text ← u.text str
    some (i,
      { buf := st.buf ++ text
        args := st.args.tail
        stores := if c = ascii 'n' then st.stores ++ [(u.arg, BitVec.ofNat 32 st.buf.length)] else st.stores
        uses := st.uses ++ [u] })
  else
    let st := if c ≠ ascii '%' then st.write [ascii '%'] else st
    if c ≠ 0 then some (i, st.write [c]) else some (i - 1, st)

/-- The body of the loop, from a `%` on -/
def conversion (str : Word → List Byte) (fmt : List Byte) (i : ℕ) (st : State) : Option (ℕ × State) := do
  let (i, flags) ← flagsLoop fmt i noFlags
  let (i, width, flags, args) ← fieldWidth fmt i flags st.args
  let (i, precision, args) ← precisionOf fmt i args
  let i ← qualifier fmt i
  let c ← rd fmt i
  convert str i c flags width precision { st with args := args }

/-- `for (str = buf; *fmt; ++fmt)`, for at most so many characters -/
def loop (str : Word → List Byte) (fmt : List Byte) : ℕ → ℕ → State → Option State
  | 0, _, _ => none
  | fuel + 1, i, st => do
    let c ← rd fmt i
    if c = 0 then some st
    else if c ≠ ascii '%' then loop str fmt fuel (i + 1) (st.write [c])
    else
      let (i, st) ← conversion str fmt i st
      loop str fmt fuel (i + 1) st

def vsprintf (str : Word → List Byte) (fmt : List Byte) (args : Args) (fuel : ℕ) : Option State :=
  loop str fmt fuel 0 ⟨[], args, [], []⟩

end Linux012.Vsprintf
