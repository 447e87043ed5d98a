import Linux012.Lib.Coop

/-! # The inode table

The table of in-core inodes of `fs/inode.c` with `new_inode` and `free_inode` of
`fs/bitmap.c`, one frame for each place where they sleep, call or go on after a call.
File systems stay mounted, so super blocks do not change and `get_super` does not wait.
-/

namespace Linux012.Inodes

open Function Coop

def NR_INODE : ℕ := 64
def ROOT_INO : ℕ := 1

def S_IFMT : BitVec 16 := 0o170000
def S_IFBLK : BitVec 16 := 0o060000
def S_IFREG : BitVec 16 := 0o100000
def S_IFDIR : BitVec 16 := 0o040000
def S_IFLNK : BitVec 16 := 0o120000

/-- The part of an inode that is on the disk. -/
structure DInode where
  iMode : BitVec 16
  iNlinks : ℕ

structure MInode extends DInode where
  iDev : ℕ
  iNum : ℕ
  iCount : ℕ
  iLock : Bool
  iDirt : Bool
  iPipe : Bool
  iMount : Bool

namespace MInode

def isBlk (i : MInode) : Bool := i.iMode &&& S_IFMT = S_IFBLK

/-- What `truncate` is for. -/
def hasZones (i : MInode) : Bool :=
  i.iMode &&& S_IFMT = S_IFREG || i.iMode &&& S_IFMT = S_IFDIR || i.iMode &&& S_IFMT = S_IFLNK

/-- The effect of `memset`. -/
def zero : MInode :=
  { iMode := 0, iNlinks := 0, iDev := 0, iNum := 0, iCount := 0, iLock := false, iDirt := false,
    iPipe := false, iMount := false }

end MInode

/-- A super block; `sImapBits` bits of the inode bitmap are in memory. -/
structure Super where
  sDev : ℕ
  sNinodes : ℕ
  sImapBits : ℕ
  sImount : Option ℕ
  sIsup : Option ℕ

/-- A device and the number of an inode on it. -/
abbrev Key := ℕ × ℕ

structure Table where
  inodes : ℕ → MInode
  lastInode : ℕ
  superBlock : List Super
  imap : ℕ → ℕ → Bool
  disk : ℕ → ℕ → DInode

inductive Panic
  | igetDev0 | freeFreeInode | noFreeInodes | freeInode | freeWithLinks | noDevice | freeNumber
  | bitAlreadySet
  deriving DecidableEq, Repr

namespace Table

def key (T : Table) (e : ℕ) : Key := ((T.inodes e).iDev, (T.inodes e).iNum)

def upd (T : Table) (e : ℕ) (g : MInode → MInode) : Table :=
  { T with inodes := update T.inodes e (g (T.inodes e)) }

def getSuper (T : Table) (dev : ℕ) : Option Super :=
  if dev = 0 then none else T.superBlock.find? fun sb => sb.sDev = dev

/-- The entry of the table that has the key. -/
def find (T : Table) (k : Key) : Option ℕ := (List.range NR_INODE).find? fun e => T.key e = k

def mountedOn (T : Table) (e : ℕ) : Option Super := T.superBlock.find? fun sb => sb.sImount = some e

end Table

/-- An `unsigned short` goes up. -/
def incCount (T : Table) (e : ℕ) : Table :=
  T.upd e fun x => { x with iCount := (x.iCount + 1) % 65536 }

def decCount (T : Table) (e : ℕ) : Table := T.upd e fun x => { x with iCount := x.iCount - 1 }

/-! ## Frames -/

/-- `req` is what `iget` was asked for, `key` what it looks for after crossing mount points. -/
inductive Frame
  | code (held : List ℕ)
  | getEmptyInode
  | getEmptyWait (e : ℕ)
  | iget (dev nr : ℕ)
  | igetEmpty (req : Key)
  | igetScan (req key : Key) (empty : ℕ)
  | igetWait (req key : Key) (empty e : ℕ)
  | igetRet (req : Key) (e : ℕ)
  | readInode (req : Key) (e : ℕ)
  | readInodeBread (req : Key) (e : ℕ)
  | iput (e : ℕ)
  | iputWait (e : ℕ)
  | iputRepeat (e : ℕ)
  | iputTruncate (e : ℕ)
  | writeInode (e : ℕ)
  | writeInodeBread (e : ℕ)
  | newInode (dev : ℕ)
  | newInodeEmpty (dev : ℕ)
  | newInodeGot (dev e : ℕ)
  | returnNull
  | getPipeInode
  | pipeEmpty
  | pipeGot (e : ℕ)
  deriving DecidableEq

/-- What the rest of the kernel does next, and whether `bread`, `truncate` or `get_free_page`
sleeps, ends or fails. -/
inductive Choice
  | iget (dev nr : ℕ)
  | iput (e : ℕ)
  | newInode (dev : ℕ)
  | getPipeInode
  | dup (e : ℕ)
  | setInode (e : ℕ) (d : DInode)
  | writeInode (e : ℕ)
  | sleep
  | busy
  | done
  | fail

/-- What a function returns: `NULL` or nothing, an empty entry of `get_empty_inode`, an inode, or
a pipe for a reader and a writer. -/
inductive Value
  | null
  | empty (e : ℕ)
  | inode (e : ℕ)
  | pipe (e : ℕ)
  deriving DecidableEq

abbrev Piece := Table × Next Frame Value Panic

/-- The code that uses inodes. It may also take another reference to one that it holds, as `fork`
does, and write out any inode, as `sync_inodes` does. -/
def execCode (T : Table) (held : List ℕ) : Choice → Option Piece
  | .iget dev nr => some (T, .call (.code held) (.iget dev nr))
  | .iput e => if e ∈ held then some (T, .call (.code (held.erase e)) (.iput e)) else none
  | .newInode dev => some (T, .call (.code held) (.newInode dev))
  | .getPipeInode => some (T, .call (.code held) .getPipeInode)
  | .dup e => if e ∈ held then some (incCount T e, .goto (.code (e :: held))) else none
  | .setInode e d =>
    if e ∈ held then some (T.upd e fun x => { x with toDInode := d, iDirt := true }, .goto (.code held))
    else none
  | .writeInode e => some (T, .call (.code held) (.writeInode e))
  | .sleep => some (T, .sleep (.code held))
  | .done => if held = [] then some (T, .ret .null) else none
  | _ => none

def waitOnInode (T : Table) (e : ℕ) (self : Frame) (go : Piece) : Piece :=
  if (T.inodes e).iLock then (T, .sleep self) else go

/-- The scan of `get_empty_inode`: the cursor and the entry found so far. -/
def scanEmpty (T : Table) : ℕ → ℕ → Option ℕ → ℕ × Option ℕ
  | 0, last, inode => (last, inode)
  | i + 1, last, inode =>
    let last := if last + 1 ≥ NR_INODE then 0 else last + 1
    if (T.inodes last).iCount = 0 then
      if ¬ (T.inodes last).iDirt ∧ ¬ (T.inodes last).iLock then (last, some last)
      else scanEmpty T i last (some last)
    else scanEmpty T i last inode

def getEmptyInode (T : Table) : Piece :=
  match scanEmpty T NR_INODE T.lastInode none with
  | (last, none) => ({ T with lastInode := last }, .panic .noFreeInodes)
  | (last, some e) => ({ T with lastInode := last }, .goto (.getEmptyWait e))

def getEmptyWait (T : Table) (e : ℕ) : Piece :=
  waitOnInode T e (.getEmptyWait e) <|
    if (T.inodes e).iDirt then (T, .call (.getEmptyWait e) (.writeInode e))
    else if (T.inodes e).iCount ≠ 0 then (T, .goto .getEmptyInode)
    else (T.upd e fun _ => { MInode.zero with iCount := 1 }, .ret (.empty e))

def igetScan (T : Table) (req key : Key) (empty : ℕ) : Piece :=
  match T.find key with
  | some e => (T, .goto (.igetWait req key empty e))
  | none =>
    (T.upd empty fun x => { x with iDev := key.1, iNum := key.2 }, .goto (.readInode req empty))

def igetWait (T : Table) (req key : Key) (empty e : ℕ) : Piece :=
  waitOnInode T e (.igetWait req key empty e) <|
    if T.key e ≠ key then (T, .goto (.igetScan req key empty))
    else if (T.inodes e).iMount then
      match T.mountedOn e with
      | none => (incCount T e, .call (.igetRet req e) (.iput empty))
      | some sb => (incCount T e, .call (.igetScan req (sb.sDev, ROOT_INO) empty) (.iput e))
    else (incCount T e, .call (.igetRet req e) (.iput empty))

def readInode (T : Table) (req : Key) (e : ℕ) : Piece :=
  waitOnInode T e (.readInode req e) <|
    match T.getSuper (T.inodes e).iDev with
    | none => (T, .panic .noDevice)
    | some _ => (T.upd e fun x => { x with iLock := true }, .goto (.readInodeBread req e))

def readInodeBread (T : Table) (e : ℕ) : Piece :=
  (T.upd e fun x => { x with toDInode := T.disk x.iDev x.iNum, iLock := false }, .ret (.inode e))

def iput (T : Table) (e : ℕ) : Piece :=
  let x := T.inodes e
  waitOnInode T e (.iput e) <|
    if x.iCount = 0 then (T, .panic .freeFreeInode)
    else if x.iPipe then
      if x.iCount = 1 then
        (T.upd e fun x => { x with iCount := 0, iDirt := false, iPipe := false }, .ret .null)
      else (decCount T e, .ret .null)
    else if x.iDev = 0 then (decCount T e, .ret .null)
    -- `sync_dev` writes inodes out
    else if x.isBlk then (T, .call (.iputWait e) (.code []))
    else (T, .goto (.iputRepeat e))

def iputRepeat (T : Table) (e : ℕ) : Piece :=
  let x := T.inodes e
  if x.iCount > 1 then (decCount T e, .ret .null)
  else if x.iNlinks = 0 then (T, .goto (.iputTruncate e))
  else if x.iDirt then (T, .call (.iputWait e) (.writeInode e))
  else (decCount T e, .ret .null)

def freeInode (T : Table) (e : ℕ) : Piece :=
  let x := T.inodes e
  if x.iDev = 0 then (T.upd e fun _ => .zero, .ret .null)
  else if x.iCount > 1 then (T, .panic .freeInode)
  else if x.iNlinks ≠ 0 then (T, .panic .freeWithLinks)
  else match T.getSuper x.iDev with
    | none => (T, .panic .noDevice)
    | some sb =>
      if x.iNum < 1 ∨ x.iNum > sb.sNinodes then (T, .panic .freeNumber)
      else
        let T := { T with imap := update T.imap x.iDev (update (T.imap x.iDev) x.iNum false) }
        (T.upd e fun _ => .zero, .ret .null)

/-- `truncate` sleeps, the last times with `i_dirt` set, before `free_inode` follows. -/
def iputTruncate (T : Table) (e : ℕ) : Choice → Piece
  | .sleep => if (T.inodes e).hasZones then (T, .sleep (.iputTruncate e)) else freeInode T e
  | .busy =>
    if (T.inodes e).hasZones then
      (T.upd e fun x => { x with iDirt := true }, .sleep (.iputTruncate e))
    else freeInode T e
  | _ => freeInode T e

def writeInode (T : Table) (e : ℕ) : Piece :=
  waitOnInode T e (.writeInode e) <|
    if ¬ (T.inodes e).iDirt ∨ (T.inodes e).iDev = 0 then (T, .ret .null)
    else match T.getSuper (T.inodes e).iDev with
      | none => (T, .panic .noDevice)
      | some _ => (T.upd e fun x => { x with iLock := true }, .goto (.writeInodeBread e))

def writeInodeBread (T : Table) (e : ℕ) : Piece :=
  let x := T.inodes e
  let T := { T with disk := update T.disk x.iDev (update (T.disk x.iDev) x.iNum x.toDInode) }
  (T.upd e fun x => { x with iDirt := false, iLock := false }, .ret .null)

/-- The first zero bit from `j` on. -/
def findFirstZero (bits : ℕ → Bool) : ℕ → ℕ → Option ℕ
  | 0, _ => none
  | fuel + 1, j => if bits j then findFirstZero bits fuel (j + 1) else some j

/-- The number that `new_inode` takes. -/
def freeNumber (T : Table) (dev : ℕ) : Option ℕ :=
  (T.getSuper dev).bind fun sb =>
    (findFirstZero (T.imap dev) sb.sImapBits 0).bind fun j =>
      if j > sb.sNinodes then none else some j

def newInodeGot (T : Table) (dev e : ℕ) : Piece :=
  match T.getSuper dev with
  | none => (T, .panic .noDevice)
  | some _ =>
    match freeNumber T dev with
    | none => (T, .call .returnNull (.iput e))
    | some j =>
      if T.imap dev j then (T, .panic .bitAlreadySet) else
      let T := { T with imap := update T.imap dev (update (T.imap dev) j true) }
      (T.upd e fun x =>
        { x with iCount := 1, iNlinks := 1, iDev := dev, iDirt := true, iNum := j }, .ret (.inode e))

def pipeGot (T : Table) (e : ℕ) : Choice → Piece
  | .sleep => (T, .sleep (.pipeGot e))
  | .fail => (T.upd e fun x => { x with iCount := 0 }, .ret .null)
  | _ => (T.upd e fun x => { x with iCount := 2, iPipe := true }, .ret (.pipe e))

/-- `bread` sleeps, or the piece after it runs. -/
def afterBread (T : Table) (self : Frame) (go : Piece) : Choice → Piece
  | .sleep => (T, .sleep self)
  | _ => go

/-- One uninterrupted piece of code. -/
def exec (T : Table) (ch : Choice) : Frame → Option Piece
  | .code held => execCode T held ch
  | .getEmptyInode => some (getEmptyInode T)
  | .getEmptyWait e => some (getEmptyWait T e)
  | .iget dev nr => some <|
    if dev = 0 then (T, .panic .igetDev0) else (T, .call (.igetEmpty (dev, nr)) .getEmptyInode)
  | .igetEmpty _ => none
  | .igetScan req key empty => some (igetScan T req key empty)
  | .igetWait req key empty e => some (igetWait T req key empty e)
  | .igetRet _ e => some (T, .ret (.inode e))
  | .readInode req e => some (readInode T req e)
  | .readInodeBread req e =>
    some (afterBread T (.readInodeBread req e) (readInodeBread T e) ch)
  | .iput e => some (iput T e)
  | .iputWait e => some (waitOnInode T e (.iputWait e) (T, .goto (.iputRepeat e)))
  | .iputRepeat e => some (iputRepeat T e)
  | .iputTruncate e => some (iputTruncate T e ch)
  | .writeInode e => some (writeInode T e)
  | .writeInodeBread e => some (afterBread T (.writeInodeBread e) (writeInodeBread T e) ch)
  | .newInode dev => some (T, .call (.newInodeEmpty dev) .getEmptyInode)
  | .newInodeEmpty _ => none
  | .newInodeGot dev e => some (newInodeGot T dev e)
  | .returnNull => some (T, .ret .null)
  | .getPipeInode => some (T, .call .pipeEmpty .getEmptyInode)
  | .pipeEmpty => none
  | .pipeGot e => some (pipeGot T e ch)

/-- How a frame goes on with the value returned to it. -/
def resume : Frame → Value → Option Frame
  | .code held, .null => some (.code held)
  | .code held, .inode e => some (.code (e :: held))
  | .code held, .pipe e => some (.code (e :: e :: held))
  | .getEmptyWait e, .null => some (.getEmptyWait e)
  | .igetEmpty req, .empty e => some (.igetScan req req e)
  | .igetScan req key empty, .null => some (.igetScan req key empty)
  | .igetRet req e, .null => some (.igetRet req e)
  | .iputWait e, .null => some (.iputWait e)
  | .newInodeEmpty dev, .empty e => some (.newInodeGot dev e)
  | .returnNull, .null => some .returnNull
  | .pipeEmpty, .empty e => some (.pipeGot e)
  | _, _ => none

variable (n : ℕ)

/-- The tasks that use the table; no interrupt changes it. -/
def program : Program n Table Frame Value Choice Empty Panic where
  exec _ ch f T := exec T ch f
  resume := resume
  user
    | .code _ => true
    | _ => false
  intr := fun h => h.elim

end Linux012.Inodes
