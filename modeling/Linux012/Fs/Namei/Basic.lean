import Linux012.Lib.Triples
import Linux012.Fs.Dir.Basic
import Linux012.Fs.Files.Basic

/-! # Inodes and directories of mounted file systems

`iget`, `iput` and `new_inode` with the entries of directories, for calls that run one at a time.
An inode in memory is an entry of the table; what it says of the file is kept under its device and
number. Tables are small enough for counts not to wrap around.
-/

namespace Linux012.Namei

open Function Triples
open Dirs (Name DirEntry matchEntry putEntry freeSlot findFirstZero dot dotdot)

def NR_INODE : ℕ := 64
def NR_SUPER : ℕ := 8
def ROOT_INO : ℕ := 1
def NAME_LEN : ℕ := 14
def DIR_ENTRIES_PER_BLOCK : ℕ := 64

def S_ISVTX : BitVec 16 := 0o1000

/-- A device and the number of an inode on it. -/
abbrev Key := ℕ × ℕ

/-- What an inode says of its file, with the entries of a directory or the path in a symbolic
link. -/
structure File where
  iMode : BitVec 16
  iUid : ℕ
  iGid : ℕ
  iNlinks : ℕ
  zone : Bool
  entries : List DirEntry
  link : Name

namespace File

def isDir (f : File) : Bool := f.iMode &&& Files.S_IFMT = Files.S_IFDIR
def isBlk (f : File) : Bool := f.iMode &&& Files.S_IFMT = Files.S_IFBLK
def isLnk (f : File) : Bool := f.iMode &&& Files.S_IFMT = Files.S_IFLNK

def zero : File :=
  { iMode := 0, iUid := 0, iGid := 0, iNlinks := 0, zone := false, entries := [], link := [] }

end File

def File.truncate (f : File) : File :=
  if f.iMode &&& Files.S_IFMT = Files.S_IFREG ∨ f.isDir ∨ f.isLnk then
    { f with zone := false, entries := [], link := [] }
  else f

/-- An entry of the inode table. -/
structure MInode where
  iDev : ℕ
  iNum : ℕ
  iCount : ℕ
  iDirt : Bool
  iPipe : Bool
  iMount : Bool

/-- The effect of `memset`. -/
def MInode.zero : MInode :=
  { iDev := 0, iNum := 0, iCount := 0, iDirt := false, iPipe := false, iMount := false }

structure Super where
  sDev : ℕ
  sNinodes : ℕ
  sImount : Option ℕ

/-- `io` says which of the next reads and allocations of blocks succeed. -/
structure Sys where
  inodes : ℕ → MInode
  lastInode : ℕ
  superBlock : List Super
  imap : ℕ → ℕ → Bool
  files : Key → File
  io : List Bool

structure Current where
  root : ℕ
  pwd : ℕ
  cred : Files.Cred
  umask : BitVec 32

abbrev M (α : Type) := Code Sys α

namespace Sys

def key (s : Sys) (e : ℕ) : Key := ((s.inodes e).iDev, (s.inodes e).iNum)

def file (s : Sys) (e : ℕ) : File := s.files (s.key e)

def count (s : Sys) (e : ℕ) : ℕ := (s.inodes e).iCount

def upd (s : Sys) (e : ℕ) (g : MInode → MInode) : Sys :=
  { s with inodes := update s.inodes e (g (s.inodes e)) }

def setFile (s : Sys) (e : ℕ) (g : File → File) : Sys :=
  { s with files := update s.files (s.key e) (g (s.file e)) }

def getSuper (s : Sys) (dev : ℕ) : Option Super :=
  if dev = 0 then none else s.superBlock.find? fun sb => sb.sDev = dev

/-- The entry of the table that has the key. -/
def find (s : Sys) (k : Key) : Option ℕ := (List.range NR_INODE).find? fun e => s.key e = k

def mountedOn (s : Sys) (e : ℕ) : Option Super := s.superBlock.find? fun sb => sb.sImount = some e

def hold (s : Sys) (e : ℕ) : Sys := s.upd e fun x => { x with iCount := x.iCount + 1 }

def drop (s : Sys) (e : ℕ) : Sys := s.upd e fun x => { x with iCount := x.iCount - 1 }

def setDirt (s : Sys) (e : ℕ) (d : Bool) : Sys := s.upd e fun x => { x with iDirt := d }

def permission (s : Sys) (c : Files.Cred) (e : ℕ) (mask : BitVec 32) : Bool :=
  let f := s.file e
  Files.permission c
    { iMode := f.iMode, iUid := f.iUid, iGid := f.iGid, iNlinks := f.iNlinks,
      iDev := (s.inodes e).iDev, iPipe := (s.inodes e).iPipe, iSize := 0, data := fun _ => 0 } mask

/-- `sync_inodes` -/
def syncInodes (s : Sys) : Sys :=
  { s with inodes := fun e => { s.inodes e with iDirt := (s.inodes e).iDirt && (s.inodes e).iPipe } }

end Sys

/-! ## `fs/inode.c` and `fs/bitmap.c` -/

/-- The scan of `get_empty_inode`: the cursor and the entry found so far. -/
def scanEmpty (s : Sys) : ℕ → ℕ → Option ℕ → ℕ × Option ℕ
  | 0, last, inode => (last, inode)
  | i + 1, last, inode =>
    let last := if last + 1 ≥ NR_INODE then 0 else last + 1
    if s.count last = 0 then
      if ¬ (s.inodes last).iDirt then (last, some last) else scanEmpty s i last (some last)
    else scanEmpty s i last inode

/-- A dirty inode is written out before its entry is cleared. -/
def getEmptyInode : M ℕ := fun s =>
  match scanEmpty s NR_INODE s.lastInode none with
  | (_, none) => none
  | (last, some e) =>
    some (e, { s.upd e fun _ => { MInode.zero with iCount := 1 } with lastInode := last })

/-- `truncate` and `free_inode`, which panics for a number that the device does not have. -/
def freeInode (s : Sys) (e : ℕ) : Option Sys :=
  let (dev, nr) := s.key e
  match s.getSuper dev with
  | none => none
  | some sb =>
    if nr < 1 ∨ nr > sb.sNinodes then none
    else
      let s := s.setFile e fun _ => .zero
      let s := { s with imap := update s.imap dev (update (s.imap dev) nr false) }
      some (s.upd e fun _ => .zero)

def iputs (s : Sys) (e : ℕ) : Option Sys :=
  let x := s.inodes e
  if x.iCount = 0 then none
  else if x.iPipe then
    some (s.upd e fun x =>
      if x.iCount = 1 then { x with iCount := 0, iDirt := false, iPipe := false }
      else { x with iCount := x.iCount - 1 })
  else if x.iDev = 0 then some (s.drop e)
  else
    let s := if (s.file e).isBlk then s.syncInodes else s
    if x.iCount > 1 then some (s.drop e)
    else if (s.file e).iNlinks = 0 then freeInode s e
    else some ((s.setDirt e false).drop e)

def iput (e : ℕ) : M Unit := fun s => (iputs s e).map fun s => ((), s)

def hold (e : ℕ) : M Unit := modifies fun s => s.hold e

/-- The loop of `iget`. It goes round again where a file system is mounted; after all super blocks
it would do so for ever. -/
def igetLoop (empty : ℕ) : ℕ → ℕ → ℕ → M (Option ℕ)
  | 0, _, _ => failure
  | k + 1, dev, nr => do
    match ← reads fun s => s.find (dev, nr) with
    | some e => do
      hold e
      if ← reads fun s => (s.inodes e).iMount then
        match ← reads fun s => s.mountedOn e with
        | none => do
          iput empty
          pure (some e)
        | some sb => do
          iput e
          igetLoop empty k sb.sDev ROOT_INO
      else do
        iput empty
        pure (some e)
    | none => do
      modifies fun s => s.upd empty fun x => { x with iDev := dev, iNum := nr }
      -- `read_inode` panics without a super block
      match ← reads fun s => s.getSuper dev with
      | none => failure
      | some _ => pure (some empty)

def iget (dev nr : ℕ) : M (Option ℕ) :=
  if dev = 0 then failure
  else do
    let empty ← getEmptyInode
    igetLoop empty (NR_SUPER + 1) dev nr

/-- The number that `new_inode` takes. -/
def freeNumber (s : Sys) (dev : ℕ) (sb : Super) : Option ℕ :=
  findFirstZero (s.imap dev) (sb.sNinodes + 1) 0

def newInode (cur : Current) (dev : ℕ) : M (Option ℕ) := do
  let e ← getEmptyInode
  match ← reads fun s => s.getSuper dev with
  | none => failure
  | some sb =>
    match ← reads fun s => freeNumber s dev sb with
    | none => do
      iput e
      pure none
    | some j => do
      modifies fun s =>
        let s := { s with imap := update s.imap dev (update (s.imap dev) j true) }
        let s := s.upd e fun x => { x with iDev := dev, iNum := j, iDirt := true }
        s.setFile e fun _ =>
          { File.zero with iNlinks := 1, iUid := cur.cred.euid, iGid := cur.cred.egid }
      pure (some e)

/-! ## Directories -/

/-- Whether a block can be read, or a new one can be had. -/
def io : M Bool := fun s =>
  match s.io with
  | [] => some (true, s)
  | ok :: l => some (ok, { s with io := l })

/-- The loop of `find_entry` from the second block on, which leaves out blocks that cannot be
read. -/
def searchBlocks (name : Name) (entries : List DirEntry) : ℕ → ℕ → M (Option ℕ)
  | 0, _ => pure none
  | k + 1, i =>
    if i < entries.length then do
      if ← io then
        match ((entries.drop i).take DIR_ENTRIES_PER_BLOCK).findIdx? (matchEntry name) with
        | some j => pure (some (i + j))
        | none => searchBlocks name entries k (i + DIR_ENTRIES_PER_BLOCK)
      else searchBlocks name entries k (i + DIR_ENTRIES_PER_BLOCK)
    else pure none

/-- The number of the entry of a directory that has the name. -/
def search (dir : ℕ) (name : Name) : M (Option ℕ) := do
  let f ← reads fun s => s.file dir
  if ¬ f.zone then pure none
  else do
    if ← io then
      match (f.entries.take DIR_ENTRIES_PER_BLOCK).findIdx? (matchEntry name) with
      | some j => pure (some j)
      | none => searchBlocks name f.entries f.entries.length DIR_ENTRIES_PER_BLOCK
    else pure none

/-- `find_entry`, with the directory that it leaves in `*dir`. -/
def findEntry (cur : Current) (dir : ℕ) (name : Name) : M (ℕ × Option ℕ) := do
  let name := name.take NAME_LEN
  if name ≠ dotdot then do
    let r ← search dir name
    pure (dir, r)
  else if dir = cur.root then do
    let r ← search dir dot
    pure (dir, r)
  else do
    let (dev, nr) ← reads fun s => s.key dir
    if nr = ROOT_INO then
      match ← reads fun s => s.getSuper dev with
      | none => failure
      | some ⟨_, _, some e⟩ => do
        iput dir
        hold e
        let r ← search e dotdot
        pure (e, r)
      | some ⟨_, _, none⟩ => do
        let r ← search dir dotdot
        pure (dir, r)
    else do
      let r ← search dir dotdot
      pure (dir, r)

/-- The number in an entry of a directory. -/
def entryInode (dir k : ℕ) : M ℕ :=
  reads fun s => ((((s.file dir).entries)[k]?).map DirEntry.inode).getD 0

def enterEntry (dir k : ℕ) (de : DirEntry) : M Bool := do
  modifies fun s =>
    (s.setFile dir fun f => { f with entries := putEntry f.entries k de }).setDirt dir true
  pure true

/-- `add_entry` with the number that its callers enter at once. From the second block on, reads
succeed. -/
def addEntry (dir : ℕ) (name : Name) (inode : ℕ) : M Bool := do
  let f ← reads fun s => s.file dir
  let k := freeSlot f.entries
  let de : DirEntry := ⟨inode, name.take NAME_LEN⟩
  if name = [] ∨ ¬ f.zone then pure false
  else do
    if ← io then
      -- `create_block` for an entry after the last block
      if k = f.entries.length ∧ k % DIR_ENTRIES_PER_BLOCK = 0 ∧ k ≠ 0 then do
        if ← io then enterEntry dir k de else pure false
      else enterEntry dir k de
    else pure false

def clearEntry (dir k : ℕ) : M Unit :=
  modifies fun s => s.setFile dir fun f =>
    { f with entries := f.entries.modify k fun de => { de with inode := 0 } }

end Linux012.Namei
