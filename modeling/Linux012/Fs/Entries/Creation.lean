import Linux012.Fs.Entries.Map
import Linux012.Fs.FileDev.Growth

/-! # Making files

`open` with `O_CREAT`, `mknod`, `mkdir` and `symlink` of `fs/namei.c` on the bitmaps of the devices and the blocks of
the directory, with `new_inode` and `free_inode` of `fs/bitmap.c` and `iput` of `fs/inode.c`. The directory that
the path leads to has a link, so that `iput` only counts it down.
-/

namespace Linux012.Creation

open Function Splice
open FileDev (Fs Block newBlock scanZmap setBit setWord)
open FileDev.Truncate (clearBit)
open Entries (Name Stop)
open Files (Errno)

structure Device where
  fs : Fs
  sNinodes : ℕ
  sImap : ℕ → Option (ℕ → Bool)

/-- The inode bitmap, which is read like a zone bitmap. -/
def Device.imap (d : Device) : Fs := { d.fs with sZmap := d.sImap }

/-- The devices by their numbers. -/
abbrev State := ℕ → Device

def State.setFs (s : State) (dev : ℕ) (fs : Fs) : State := update s dev { s dev with fs := fs }

def State.setImap (s : State) (dev : ℕ) (imap : Fs) : State := update s dev { s dev with sImap := imap.sZmap }

/-- A directory; `mayWrite` is what `permission` says about it. -/
structure Dir where
  iDev : ℕ
  iNum : ℕ
  iNlinks : ℕ
  inode : FileDev.Inode
  mayWrite : Bool

/-- The inode of a new file. -/
structure Inode where
  iDev : ℕ
  iNum : ℕ
  iNlinks : ℕ
  iMode : BitVec 16
  inode : FileDev.Inode

/-! ## Inodes -/

/-- `new_inode`. The loop over the bitmap is the one of `new_block`. -/
def newInode (s : State) (dev : ℕ) : Option (State × Inode) :=
  match scanZmap (s dev).imap 8 0 with
  | none => none
  | some (i, j) =>
    if j + i * 8192 > (s dev).sNinodes then none
    else
      some (s.setImap dev (setBit (s dev).imap i j),
        { iDev := dev
          iNum := j + i * 8192
          iNlinks := 1
          iMode := 0
          inode := { iZone := fun _ => 0, iSize := 0 } })

def freeInode (s : State) (inode : Inode) : Except Stop State :=
  let d := s inode.iDev
  if inode.iNum < 1 ∨ inode.iNum > d.sNinodes then .error .panic
  else
    match d.sImap (inode.iNum / 8192) with
    | none => .error .panic
    | some _ => .ok (s.setImap inode.iDev (clearBit d.imap (inode.iNum / 8192) (inode.iNum % 8192)))

/-- `iput` of an inode that nobody else uses, by a task that runs alone. An inode with links is written back. -/
def iput (s : State) (inode : Inode) : Except Stop State :=
  if inode.iNlinks ≠ 0 then .ok s
  else
    match FileDev.Truncate.truncate (fun _ _ => false) FileDev.fine inode.iMode 1
        (FileDev.Truncate.start (s inode.iDev).fs inode.inode) with
    | none => .error .panic
    | some (t, _) => freeInode (s.setFs inode.iDev t.fs) inode

/-- `new_block` for `i_zone[0]`. -/
def newZone (s : State) (inode : Inode) : State × ℕ :=
  let (fs, z) := newBlock (s inode.iDev).fs
  (s.setFs inode.iDev fs, z)

def Inode.setZone (inode : Inode) (z : ℕ) : Inode :=
  { inode with inode := { inode.inode with iZone := update inode.inode.iZone 0 z } }

def Inode.setSize (inode : Inode) (n : ℕ) : Inode := { inode with inode := { inode.inode with iSize := n } }

/-- The buffer of the zone is changed. -/
def store (s : State) (dev z : ℕ) (f : Block → Block) : State :=
  s.setFs dev { (s dev).fs with blocks := update (s dev).fs.blocks z (f ((s dev).fs.blocks z)) }

/-! ## Entries -/

/-- What a call starts with: whether `dir_namei` has returned the directory `dir`, and the last name. `root` says that
it is the root of the task, `imount` is the directory that its device is mounted on if it is the root of this
device. The reads that fail are those of `find_entry`, of the new block and of `add_entry`. -/
structure Args where
  there : Bool
  dir : Dir
  name : Name
  root : Bool
  imount : Option Dir
  umask : BitVec 16
  badFind : ℕ → Bool
  badNew : ℕ → Bool
  badAdd : ℕ → Bool

/-- The error of a call, the devices, and the directory that `find_entry` leaves. -/
abbrev Result := Option Errno × State × Dir

namespace Args

variable (c : Args)

/-- The directory that `find_entry` leaves. -/
def parent : Dir :=
  if c.name.take Entries.NAME_LEN = [Entries.dot, Entries.dot] ∧ ¬ c.root then c.imount.getD c.dir else c.dir

def fail (e : Errno) (s : State) : Except Stop Result := .ok (some e, s, c.parent)

/-- `find_entry`, which finds an entry or not. -/
def findEntry (s : State) : Except Stop Bool :=
  (Entries.findEntry (s c.dir.iDev).fs c.dir.inode ⟨c.root, c.imount.map fun d => ((s d.iDev).fs, d.inode)⟩ c.badFind
    c.name).map fun r => r.1.isSome

/-- `iput` of a new inode for which there is no entry. It has no link any more. -/
def drop (inode : Inode) (e : Errno) (s : State) : Except Stop Result :=
  (iput s { inode with iNlinks := 0 }).bind fun s => c.fail e s

/-- The end of the calls: `add_entry` and the number of the inode in the entry. -/
def addEntry (inode : Inode) (s : State) : Except Stop Result :=
  let dir := c.parent
  (Entries.addEntry (s dir.iDev).fs dir.inode c.badAdd c.name).bind fun
    | ((fs, d), some (z, k), _) =>
      .ok (none, s.setFs dir.iDev (Entries.setInode fs z k inode.iNum), { dir with inode := d })
    | ((fs, d), none, _) =>
      (iput (s.setFs dir.iDev fs) { inode with iNlinks := 0 }).map fun s =>
        (some .ENOSPC, s, { dir with inode := d })

/-! ## Calls -/

/-- `open_namei`. A file that is there is not opened if `refused` says so. -/
def openNamei (flag : BitVec 32) (mode : BitVec 16) (refused : Option Errno) (s : State) : Except Stop Result :=
  let mode := (mode &&& (0o777 &&& ~~~c.umask)) ||| Files.S_IFREG
  if ¬ c.there then c.fail .ENOENT s
  else if c.name = [] then
    if flag &&& (Files.O_ACCMODE ||| Files.O_CREAT ||| Files.O_TRUNC) = 0 then .ok (none, s, c.parent)
    else c.fail .EISDIR s
  else
    (c.findEntry s).bind fun
      | true => if flag &&& Files.O_EXCL ≠ 0 then c.fail .EEXIST s else .ok (refused, s, c.parent)
      | false =>
        if flag &&& Files.O_CREAT = 0 then c.fail .ENOENT s
        else if ¬ c.parent.mayWrite then c.fail .EACCES s
        else
          match newInode s c.parent.iDev with
          | none => c.fail .ENOSPC s
          | some (s, inode) => c.addEntry { inode with iMode := mode } s

def sysMknod (suser : Bool) (mode : BitVec 16) (dev : ℕ) (s : State) : Except Stop Result :=
  if ¬ suser then c.fail .EPERM s
  else if ¬ c.there then c.fail .ENOENT s
  else if c.name = [] then c.fail .ENOENT s
  else if ¬ c.dir.mayWrite then c.fail .EPERM s
  else
    (c.findEntry s).bind fun
      | true => c.fail .EEXIST s
      | false =>
        match newInode s c.parent.iDev with
        | none => c.fail .ENOSPC s
        | some (s, inode) =>
          let inode := { inode with iMode := mode }
          let special := mode &&& Files.S_IFMT = Files.S_IFBLK ∨ mode &&& Files.S_IFMT = Files.S_IFCHR
          c.addEntry (if special then inode.setZone (dev % 65536) else inode) s

/-- The entries `.` and `..` of a new directory. -/
def dots (iNum parent : ℕ) (b : Block) : Block :=
  let b := splice (setWord b 0 iNum) 2 [Entries.dot, 0]
  splice (setWord b 8 parent) 18 [Entries.dot, Entries.dot, 0]

/-- The mode is set after the new block has been read. -/
def sysMkdir (mode : BitVec 16) (s : State) : Except Stop Result :=
  if ¬ c.there then c.fail .ENOENT s
  else if c.name = [] then c.fail .ENOENT s
  else if ¬ c.dir.mayWrite then c.fail .EPERM s
  else
    (c.findEntry s).bind fun
      | true => c.fail .EEXIST s
      | false =>
        match newInode s c.parent.iDev with
        | none => c.fail .ENOSPC s
        | some (s, inode) =>
          let inode := inode.setSize 32
          let (s, z) := newZone s inode
          let inode := inode.setZone z
          if z = 0 then c.drop inode .ENOSPC s
          else if c.badNew z = true then c.drop inode .ERROR s
          else
            let s := store s inode.iDev z (dots inode.iNum c.parent.iNum)
            let inode := { inode with iNlinks := 2, iMode := Files.S_IFDIR ||| (mode &&& 0o777 &&& ~~~c.umask) }
            (c.addEntry inode s).map fun
              | (none, s, dir) => (none, s, { dir with iNlinks := dir.iNlinks + 1 })
              | r => r

/-- The bytes of a link, up to the zero that ends the path. -/
def linkName (oldname : List UInt8) : List UInt8 := (oldname.takeWhile (· ≠ 0)).take 1023

/-- The name is looked up after the block of the link has been written. -/
def sysSymlink (oldname : List UInt8) (s : State) : Except Stop Result :=
  if ¬ c.there then c.fail .EACCES s
  else if c.name = [] then c.fail .EPERM s
  else if ¬ c.dir.mayWrite then c.fail .EACCES s
  else
    match newInode s c.dir.iDev with
    | none => c.fail .ENOSPC s
    | some (s, inode) =>
      let inode := { inode with iMode := Files.S_IFLNK ||| (0o777 &&& ~~~c.umask) }
      let (s, z) := newZone s inode
      let inode := inode.setZone z
      if z = 0 then c.drop inode .ENOSPC s
      else if c.badNew z = true then c.drop inode .ERROR s
      else
        let s := store s inode.iDev z fun b => splice b 0 (linkName oldname ++ [0])
        let inode := inode.setSize (linkName oldname).length
        (c.findEntry s).bind fun
          | true => c.drop inode .EEXIST s
          | false => c.addEntry inode s

end Args

inductive Call
  | openNamei (flag : BitVec 32) (mode : BitVec 16) (refused : Option Errno)
  | sysMknod (suser : Bool) (mode : BitVec 16) (dev : ℕ)
  | sysMkdir (mode : BitVec 16)
  | sysSymlink (oldname : List UInt8)

def Call.run (c : Args) : Call → State → Except Stop Result
  | openNamei flag mode refused => c.openNamei flag mode refused
  | sysMknod suser mode dev => c.sysMknod suser mode dev
  | sysMkdir mode => c.sysMkdir mode
  | sysSymlink oldname => c.sysSymlink oldname

end Linux012.Creation
