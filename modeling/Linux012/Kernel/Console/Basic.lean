import Mathlib.Data.UInt
import Mathlib.Logic.Function.Basic
import Linux012.Lib.Runs

/-! # The consoles

`con_write` of `kernel/chr_drv/console.c` with the routines behind its escape sequences, and the part of
`con_init` that lays the consoles out in video memory. What goes to the ports (the hardware origin, the
cursor, the bell), the answer of `respond` and the blank interval are left out.
-/

namespace Linux012.Console

open Function

def NPAR : ℕ := 16

def MAX_CONSOLES : ℕ := 8

/-- `INIT_C_CC[VERASE]` -/
def INIT_VERASE : UInt8 := 0x7f

inductive VideoType
  | MDA
  | CGA
  | EGAM
  | EGAC
  deriving DecidableEq

/-- What `con_init` finds out about the display. -/
structure Video where
  type : VideoType
  numColumns : ℕ
  numLines : ℕ
  memBase : ℕ
  memTerm : ℕ
  canDoColour : Bool

namespace Video

/-- `video_size_row` -/
def sizeRow (v : Video) : ℕ := v.numColumns * 2

def isEga (v : Video) : Bool := v.type = .EGAC || v.type = .EGAM

end Video

/-- `other` is the value -1. -/
inductive EscState
  | normal
  | esc
  | square
  | getpars
  | funckey
  | setterm
  | setgraph
  | other
  deriving DecidableEq

/-- An entry of `vc_cons`; `graf` is `translate == GRAF_TRANS`. -/
structure Vc where
  videoEraseChar : UInt16
  attr : UInt8
  defAttr : UInt8
  boldAttr : UInt32
  ques : Bool
  state : EscState
  origin : ℕ
  scrEnd : ℕ
  pos : ℕ
  x : ℕ
  y : ℕ
  top : ℕ
  bottom : ℕ
  npar : ℕ
  par : ℕ → UInt32
  videoMemStart : ℕ
  videoMemEnd : ℕ
  savedX : ℕ
  savedY : ℕ
  iscolor : Bool
  graf : Bool

/-- The console that is written to, its tty's erase character, and memory; `stores` lists the bytes
that have been stored (not in the source). -/
structure Term where
  vc : Vc
  verase : UInt8
  mem : ℕ → UInt8
  stores : List ℕ

namespace Term

/-! ## Stores -/

def storeByte (a : ℕ) (b : UInt8) (t : Term) : Term :=
  { t with mem := update t.mem a b, stores := a :: t.stores }

/-- A store of a word. -/
def storeWord (a : ℕ) (w : UInt16) (t : Term) : Term :=
  (t.storeByte a w.toUInt8).storeByte (a + 1) (w >>> 8).toUInt8

def loadWord (a : ℕ) (t : Term) : UInt16 := (t.mem a).toUInt16 ||| (t.mem (a + 1)).toUInt16 <<< 8

/-- `rep stosw` -/
def stosw (w : UInt16) : ℕ → ℕ → Term → Term
  | 0, _, t => t
  | n + 1, di, t => stosw w n (di + 2) (t.storeWord di w)

/-- `rep stosw` after `std` -/
def stoswDown (w : UInt16) : ℕ → ℕ → Term → Term
  | 0, _, t => t
  | n + 1, di, t => stoswDown w n (di - 2) (t.storeWord di w)

/-- `movsl` moves two words. -/
def movsl1 (si di : ℕ) (t : Term) : Term :=
  let lo := t.loadWord si
  let hi := t.loadWord (si + 2)
  (t.storeWord di lo).storeWord (di + 2) hi

/-- `rep movsl` -/
def movsl : ℕ → ℕ → ℕ → Term → Term
  | 0, _, _, t => t
  | n + 1, si, di, t => movsl n (si + 4) (di + 4) (t.movsl1 si di)

/-- `rep movsl` after `std` -/
def movslDown : ℕ → ℕ → ℕ → Term → Term
  | 0, _, _, t => t
  | n + 1, si, di, t => movslDown n (si - 4) (di - 4) (t.movsl1 si di)

/-! ## The cursor and the scroll region -/

def gotoxy (v : Video) (newX newY : UInt32) (t : Term) : Term :=
  if newX.toNat > v.numColumns ∨ newY.toNat ≥ v.numLines then t
  else { t with
    vc.x := newX.toNat
    vc.y := newY.toNat
    vc.pos := t.vc.origin + newY.toNat * v.sizeRow + newX.toNat * 2 }

/-- The rows of the scroll region move up, and the last is erased. -/
def scrollUp (v : Video) (t : Term) : Term :=
  let count := (t.vc.bottom - t.vc.top - 1) * v.numColumns / 2
  let di := t.vc.origin + v.sizeRow * t.vc.top
  (t.movsl count (t.vc.origin + v.sizeRow * (t.vc.top + 1)) di).stosw t.vc.videoEraseChar
    v.numColumns (di + 4 * count)

/-- The screen starts again at the beginning of the memory of the console. -/
def scrollWrap (v : Video) (t : Term) : Term :=
  let count := (v.numLines - 1) * v.numColumns / 2
  let t := (t.movsl count t.vc.origin t.vc.videoMemStart).stosw t.vc.videoEraseChar v.numColumns
    (t.vc.videoMemStart + 4 * count)
  { t with
    vc.scrEnd := t.vc.scrEnd - (t.vc.origin - t.vc.videoMemStart)
    vc.pos := t.vc.pos - (t.vc.origin - t.vc.videoMemStart)
    vc.origin := t.vc.videoMemStart }

def scrup (v : Video) (t : Term) : Term :=
  if t.vc.bottom ≤ t.vc.top then t
  else if v.isEga then
    if t.vc.top = 0 ∧ t.vc.bottom = v.numLines then
      let t := { t with
        vc.origin := t.vc.origin + v.sizeRow
        vc.pos := t.vc.pos + v.sizeRow
        vc.scrEnd := t.vc.scrEnd + v.sizeRow }
      if t.vc.scrEnd > t.vc.videoMemEnd then t.scrollWrap v
      else t.stosw t.vc.videoEraseChar v.numColumns (t.vc.scrEnd - v.sizeRow)
    else t.scrollUp v
  else t.scrollUp v

/-- Both branches on the video type are the same. -/
def scrdown (v : Video) (t : Term) : Term :=
  if t.vc.bottom ≤ t.vc.top then t
  else
    let count := (t.vc.bottom - t.vc.top - 1) * v.numColumns / 2
    let di := t.vc.origin + v.sizeRow * t.vc.bottom - 4
    (t.movslDown count (t.vc.origin + v.sizeRow * (t.vc.bottom - 1) - 4) di).stoswDown
      t.vc.videoEraseChar v.numColumns (di - 4 * count + 2)

def lf (v : Video) (t : Term) : Term :=
  if t.vc.y + 1 < t.vc.bottom then { t with vc.y := t.vc.y + 1, vc.pos := t.vc.pos + v.sizeRow }
  else t.scrup v

def ri (v : Video) (t : Term) : Term :=
  if t.vc.y > t.vc.top then { t with vc.y := t.vc.y - 1, vc.pos := t.vc.pos - v.sizeRow }
  else t.scrdown v

def cr (t : Term) : Term := { t with vc.pos := t.vc.pos - t.vc.x * 2, vc.x := 0 }

def del (t : Term) : Term :=
  if t.vc.x ≠ 0 then
    { t with vc.pos := t.vc.pos - 2, vc.x := t.vc.x - 1 }.storeWord (t.vc.pos - 2) t.vc.videoEraseChar
  else t

/-! ## Erasing, inserting and deleting -/

def csi_J (v : Video) (vpar : UInt32) (t : Term) : Term :=
  match vpar.toNat with
  | 0 => t.stosw t.vc.videoEraseChar ((t.vc.scrEnd - t.vc.pos) / 2) t.vc.pos
  | 1 => t.stosw t.vc.videoEraseChar ((t.vc.pos - t.vc.origin) / 2) t.vc.origin
  | 2 => t.stosw t.vc.videoEraseChar (v.numColumns * v.numLines) t.vc.origin
  | _ => t

def csi_K (v : Video) (vpar : UInt32) (t : Term) : Term :=
  match vpar.toNat with
  | 0 =>
    if t.vc.x ≥ v.numColumns then t
    else t.stosw t.vc.videoEraseChar (v.numColumns - t.vc.x) t.vc.pos
  | 1 =>
    t.stosw t.vc.videoEraseChar (if t.vc.x < v.numColumns then t.vc.x else v.numColumns)
      (t.vc.pos - t.vc.x * 2)
  | 2 => t.stosw t.vc.videoEraseChar v.numColumns (t.vc.pos - t.vc.x * 2)
  | _ => t

/-- The loop of `insert_char`: `n` words from `p` on move up by one, `old` comes first. -/
def shiftIn : ℕ → ℕ → UInt16 → Term → Term
  | 0, _, _, t => t
  | n + 1, p, old, t => shiftIn n (p + 2) (t.loadWord p) (t.storeWord p old)

def insertChar (v : Video) (t : Term) : Term :=
  t.shiftIn (v.numColumns - t.vc.x) t.vc.pos t.vc.videoEraseChar

/-- The loop of `delete_char`: `n` words from `p` on are overwritten by the next ones, the last is
erased. -/
def shiftOut (last : UInt16) : ℕ → ℕ → Term → Term
  | 0, p, t => t.storeWord p last
  | n + 1, p, t => shiftOut last n (p + 2) (t.storeWord p (t.loadWord (p + 2)))

def deleteChar (v : Video) (t : Term) : Term :=
  if t.vc.x ≥ v.numColumns then t
  else t.shiftOut t.vc.videoEraseChar (v.numColumns - t.vc.x - 1) t.vc.pos

/-- A scroll from the line of the cursor to the last. -/
def scrollRest (v : Video) (scroll : Term → Term) (t : Term) : Term :=
  let oldtop := t.vc.top
  let oldbottom := t.vc.bottom
  let t := scroll { t with vc.top := t.vc.y, vc.bottom := v.numLines }
  { t with vc.top := oldtop, vc.bottom := oldbottom }

def insertLine (v : Video) (t : Term) : Term := t.scrollRest v (scrdown v)

def deleteLine (v : Video) (t : Term) : Term := t.scrollRest v (scrup v)

/-- At least once, at most `limit` times. -/
def times (limit : ℕ) (nr : UInt32) : ℕ := if nr.toNat > limit then limit else if nr = 0 then 1 else nr.toNat

def csi_at (v : Video) (nr : UInt32) (t : Term) : Term := (insertChar v)^[times v.numColumns nr] t

def csi_L (v : Video) (nr : UInt32) (t : Term) : Term := (insertLine v)^[times v.numLines nr] t

def csi_P (v : Video) (nr : UInt32) (t : Term) : Term := (deleteChar v)^[times v.numColumns nr] t

def csi_M (v : Video) (nr : UInt32) (t : Term) : Term := (deleteLine v)^[times v.numLines nr] t

/-! ## Attributes -/

/-- The case of `csi_m` for one parameter. -/
def setAttr (v : Video) (par : UInt32) (c : Vc) : Vc :=
  match par.toNat with
  | 0 => { c with attr := c.defAttr }
  | 1 => { c with attr := if c.iscolor then c.attr ||| 0x08 else c.attr ||| 0x0f }
  | 4 =>
    if ¬ c.iscolor then { c with attr := c.attr ||| 0x01 }
    else if c.boldAttr ≠ 0xffffffff then
      { c with attr := c.boldAttr.toUInt8 &&& 0x0f ||| 0xf0 &&& c.attr }
    else
      let newattr := c.attr &&& 0xf0 ||| 0xf &&& ~~~ c.attr
      { c with attr :=
          if newattr &&& (0xf : UInt8) = c.attr >>> 4 &&& (0xf : UInt8) then
            c.attr &&& 0xf0 ||| ((c.attr &&& 0xf) + 1) % 0xf
          else newattr }
  | 5 => { c with attr := c.attr ||| 0x80 }
  | 7 => { c with attr := c.attr <<< 4 ||| c.attr >>> 4 }
  | 22 => { c with attr := c.attr &&& 0xf7 }
  | 24 => { c with attr := c.attr &&& 0xfe }
  | 25 => { c with attr := c.attr &&& 0x7f }
  | 27 => { c with attr := c.defAttr }
  | 39 => { c with attr := c.attr &&& 0xf0 ||| c.defAttr &&& 0x0f }
  | 49 => { c with attr := c.attr &&& 0x0f ||| c.defAttr &&& 0xf0 }
  | _ =>
    if ¬ v.canDoColour then c
    else if 30 ≤ par ∧ par ≤ 38 then
      { c with iscolor := true, attr := c.attr &&& 0xf0 ||| (par - 30).toUInt8 }
    else if 40 ≤ par ∧ par ≤ 48 then
      { c with iscolor := true, attr := c.attr &&& (0x0f : UInt8) ||| ((par - 40).toUInt8 <<< (4 : UInt8)) }
    else { c with iscolor := true }

def csi_m (v : Video) (t : Term) : Term :=
  { t with vc := (List.range (t.vc.npar + 1)).foldl (fun c i => setAttr v (c.par i) c) t.vc }

/-! ## Escape sequences -/

def saveCur (t : Term) : Term := { t with vc.savedX := t.vc.x, vc.savedY := t.vc.y }

def restoreCur (v : Video) (t : Term) : Term := t.gotoxy v (.ofNat t.vc.savedX) (.ofNat t.vc.savedY)

def setPar (i : ℕ) (p : UInt32) (t : Term) : Term := { t with vc.par := update t.vc.par i p }

/-- `if (!par[0]) par[0]++` -/
def atLeastOne (t : Term) : Term := if t.vc.par 0 = 0 then t.setPar 0 1 else t

/-- `if (par[i]) par[i]--` -/
def oneLess (i : ℕ) (t : Term) : Term := if t.vc.par i ≠ 0 then t.setPar i (t.vc.par i - 1) else t

/-- The case `'r'`. -/
def setRegion (v : Video) (t : Term) : Term :=
  let t := t.oneLess 0
  let t := if t.vc.par 1 = 0 then t.setPar 1 (.ofNat v.numLines) else t
  if t.vc.par 0 < t.vc.par 1 ∧ (t.vc.par 1).toNat ≤ v.numLines then
    { t with vc.top := (t.vc.par 0).toNat, vc.bottom := (t.vc.par 1).toNat }
  else t

/-- The case `'b'`. -/
def setBold (t : Term) : Term :=
  if t.vc.npar ≥ 2 ∧ t.vc.par 1 - 13 = t.vc.par 0 ∧ t.vc.par 2 - 17 = t.vc.par 0 then
    { t with vc.boldAttr := t.vc.par 0 }
  else t

/-- The final character of a sequence. -/
def gotpars (v : Video) (c : Char) (t : Term) : Term :=
  let x := UInt32.ofNat t.vc.x
  let y := UInt32.ofNat t.vc.y
  match c with
  | 'G' | '\x60' => let t := t.oneLess 0; t.gotoxy v (t.vc.par 0) y
  | 'A' => let t := t.atLeastOne; t.gotoxy v x (y - t.vc.par 0)
  | 'B' | 'e' => let t := t.atLeastOne; t.gotoxy v x (y + t.vc.par 0)
  | 'C' | 'a' => let t := t.atLeastOne; t.gotoxy v (x + t.vc.par 0) y
  | 'D' => let t := t.atLeastOne; t.gotoxy v (x - t.vc.par 0) y
  | 'E' => let t := t.atLeastOne; t.gotoxy v 0 (y + t.vc.par 0)
  | 'F' => let t := t.atLeastOne; t.gotoxy v 0 (y - t.vc.par 0)
  | 'd' => let t := t.oneLess 0; t.gotoxy v x (t.vc.par 0)
  | 'H' | 'f' => let t := (t.oneLess 0).oneLess 1; t.gotoxy v (t.vc.par 1) (t.vc.par 0)
  | 'J' => t.csi_J v (t.vc.par 0)
  | 'K' => t.csi_K v (t.vc.par 0)
  | 'L' => t.csi_L v (t.vc.par 0)
  | 'M' => t.csi_M v (t.vc.par 0)
  | 'P' => t.csi_P v (t.vc.par 0)
  | '@' => t.csi_at v (t.vc.par 0)
  | 'm' => t.csi_m v
  | 'r' => t.setRegion v
  | 's' => t.saveCur
  | 'u' => t.restoreCur v
  | 'b' => t.setBold
  | _ => t

def setState (state : EscState) (t : Term) : Term := { t with vc.state := state }

/-- The cases `ESgetpars` and `ESgotpars`. -/
def getpars (v : Video) (c : UInt8) (t : Term) : Term :=
  let ch := Char.ofNat c.toNat
  if ch = ';' ∧ t.vc.npar < NPAR - 1 then { t with vc.npar := t.vc.npar + 1 }
  else if '0' ≤ ch ∧ ch ≤ '9' then
    t.setPar t.vc.npar (10 * t.vc.par t.vc.npar + c.toUInt32 - 0x30)
  else
    let t := t.setState .normal
    if t.vc.ques then { t with vc.ques := false } else t.gotpars v ch

/-- The case `ESsquare`. -/
def square (v : Video) (c : UInt8) (t : Term) : Term :=
  let t := { t with vc.par := fun i => if i < NPAR then 0 else t.vc.par i, vc.npar := 0 }
  let t := t.setState .getpars
  let ch := Char.ofNat c.toNat
  if ch = '[' then t.setState .funckey
  else
    let t := { t with vc.ques := ch = '?' }
    if t.vc.ques then t else t.getpars v c

/-- The case `ESesc`. -/
def esc (v : Video) (c : UInt8) (t : Term) : Term :=
  let t := t.setState .normal
  match Char.ofNat c.toNat with
  | '[' => t.setState .square
  | 'E' => t.gotoxy v 0 (.ofNat t.vc.y + 1)
  | 'M' => t.ri v
  | 'D' => t.lf v
  | '7' => t.saveCur
  | '8' => t.restoreCur v
  | '(' | ')' => t.setState .setgraph
  | 'P' => t.setState .setterm
  | '#' => t.setState .other
  | 'c' => { t.setState .normal with verase := INIT_VERASE, vc.top := 0, vc.bottom := v.numLines }
  | _ => t

/-! ## Characters -/

/-- What `GRAF_TRANS` has from code 0x5f on. -/
def grafTail : List UInt8 :=
  [0x20, 0x04, 0xb1, 0x07, 0x07, 0x07, 0x07, 0xf8, 0xf1, 0x07, 0x07, 0xbd, 0xb7, 0xd6, 0xd3, 0xd7, 0xc4,
    0xc4, 0xc4, 0xc4, 0xc4, 0xc7, 0xb6, 0xd0, 0xd2, 0xba, 0xf3, 0xf2, 0xe3, 0x5c, 0x30, 0x30]

/-- `translate[c-32]` -/
def translate (graf : Bool) (c : UInt8) : UInt8 := if graf ∧ 0x5f ≤ c then grafTail.getD (c.toNat - 0x5f) 0x20 else c

/-- A line is wrapped before the character behind its end. -/
def wrap (v : Video) (t : Term) : Term :=
  { t with vc.x := t.vc.x - v.numColumns, vc.pos := t.vc.pos - v.sizeRow }.lf v

def putChar (v : Video) (c : UInt8) (t : Term) : Term :=
  let t := if t.vc.x ≥ v.numColumns then t.wrap v else t
  let t := t.storeWord t.vc.pos ((translate t.vc.graf c).toUInt16 ||| t.vc.attr.toUInt16 <<< 8)
  { t with vc.pos := t.vc.pos + 2, vc.x := t.vc.x + 1 }

def tab (v : Video) (t : Term) : Term :=
  let c := 8 - t.vc.x % 8
  let t := { t with vc.x := t.vc.x + c, vc.pos := t.vc.pos + c * 2 }
  if t.vc.x > v.numColumns then t.wrap v else t

/-- The case `ESnormal`. -/
def normal (v : Video) (c : UInt8) (t : Term) : Term :=
  if 31 < c ∧ c < 127 then t.putChar v c
  else if c = 27 then t.setState .esc
  else if c = 10 ∨ c = 11 ∨ c = 12 then t.lf v
  else if c = 13 then t.cr
  else if c = t.verase then t.del
  else if c = 8 then
    if t.vc.x ≠ 0 then { t with vc.x := t.vc.x - 1, vc.pos := t.vc.pos - 2 } else t
  else if c = 9 then t.tab v
  else if c = 14 then { t with vc.graf := true }
  else if c = 15 then { t with vc.graf := false }
  else t

/-- The case `ESsetterm`. -/
def setterm (c : UInt8) (t : Term) : Term :=
  let t := t.setState .normal
  if Char.ofNat c.toNat = 'S' then
    { t with
      vc.defAttr := t.vc.attr
      vc.videoEraseChar := t.vc.videoEraseChar &&& (0x0ff : UInt16) ||| t.vc.attr.toUInt16 <<< (8 : UInt16) }
  else t

/-- The case `ESsetgraph`. -/
def setgraph (c : UInt8) (t : Term) : Term :=
  let t := t.setState .normal
  match Char.ofNat c.toNat with
  | '0' => { t with vc.graf := true }
  | 'B' => { t with vc.graf := false }
  | _ => t

/-- One turn of the loop of `con_write`. -/
def writeByte (v : Video) (c : UInt8) (t : Term) : Term :=
  let t := if c = 24 ∨ c = 26 then t.setState .normal else t
  match t.vc.state with
  | .normal => t.normal v c
  | .esc => t.esc v c
  | .square => t.square v c
  | .getpars => t.getpars v c
  | .funckey => t.setState .normal
  | .setterm => t.setterm c
  | .setgraph => t.setgraph c
  | .other => t.setState .normal

end Term

/-! ## `con_init` -/

/-- What `setup.s` has left. -/
structure Bios where
  origX : UInt8
  origY : UInt8
  videoMode : UInt8
  videoCols : UInt8
  videoLines : UInt8
  egaBx : UInt16

namespace Bios

def video (b : Bios) : Video :=
  let noEga : Bool := b.egaBx &&& (0xff : UInt16) = 0x10
  let mono : Bool := b.videoMode = 7
  { numColumns := b.videoCols.toNat
    numLines := b.videoLines.toNat
    type :=
      match mono, noEga with
      | true, false => .EGAM
      | true, true => .MDA
      | false, false => .EGAC
      | false, true => .CGA
    memBase := if mono then 0xb0000 else 0xb8000
    memTerm :=
      match mono, noEga with
      | true, false => 0xb8000
      | true, true => 0xb2000
      | false, false => 0xc0000
      | false, true => 0xba000
    canDoColour := !mono }

/-- `NR_CONSOLES` -/
def nrConsoles (b : Bios) : ℕ :=
  let v := b.video
  let n := (v.memTerm - v.memBase) / (v.numLines * v.sizeRow)
  let n := if n > MAX_CONSOLES then MAX_CONSOLES else n
  if n = 0 then 1 else n

/-- `video_memory`, for one console. -/
def videoMemory (b : Bios) : ℕ := (b.video.memTerm - b.video.memBase) / b.nrConsoles

/-- Console `i` with its cursor, before `gotoxy`; what is not set is zero. -/
def layout (b : Bios) (i : ℕ) : Vc :=
  let v := b.video
  let start := v.memBase + i * b.videoMemory
  { videoEraseChar := 0x0720
    attr := 0x07
    defAttr := 0x07
    boldAttr := 0xffffffff
    ques := false
    state := .normal
    origin := start
    scrEnd := start + v.numLines * v.sizeRow
    pos := 0
    x := 0
    y := 0
    top := 0
    bottom := v.numLines
    npar := 0
    par := fun _ => 0
    videoMemStart := start
    videoMemEnd := start + b.videoMemory
    savedX := 0
    savedY := 0
    iscolor := false
    graf := false }

end Bios

/-! ## Runs -/

/-- All the consoles; `stores` has each byte that was stored with the console that was written to. -/
structure Consoles where
  vc : ℕ → Vc
  verase : ℕ → UInt8
  mem : ℕ → UInt8
  stores : List (ℕ × ℕ)

/-- `con_init` -/
def conInit (b : Bios) (mem : ℕ → UInt8) : Consoles where
  vc i :=
    let t : Term := ⟨b.layout i, INIT_VERASE, mem, []⟩
    if i = 0 then (t.gotoxy b.video b.origX.toUInt32 b.origY.toUInt32).vc
    else (t.gotoxy b.video 0 0).vc
  verase _ := INIT_VERASE
  mem := mem
  stores := []

/-- `write` is one turn of the loop of `con_write`, `termios` sets the erase character of a tty. -/
inductive Event
  | write (currcons : ℕ) (c : UInt8)
  | termios (currcons : ℕ) (verase : UInt8)

def step (b : Bios) : Event → Consoles → Option Consoles
  | .write i c, s =>
    if i < b.nrConsoles then
      let t := Term.writeByte b.video c ⟨s.vc i, s.verase i, s.mem, []⟩
      some
        { vc := update s.vc i t.vc
          verase := update s.verase i t.verase
          mem := t.mem
          stores := t.stores.map (fun a => (i, a)) ++ s.stores }
    else none
  | .termios i verase, s => some { s with verase := update s.verase i verase }

end Linux012.Console
