import Linux012.Fs.Namei.Calls

/-! # Symbolic links in paths

`follow_link`, `get_dir`, `_namei` and `open_namei` of `fs/namei.c` on files that do not change, with the segment
register `fs` and the uses of null pointers. A link is followed in the user's segment only, and the path in it is
followed in the kernel's, so that two levels of `_namei` are enough.
-/

namespace Linux012.Symlinks

open Namei (Key File Path Errno ROOT_INO DIR_ENTRIES_PER_BLOCK MAY_EXEC MAY_WRITE components slash)
open Dirs (Name DirEntry matchEntry dot dotdot)

/-- A device and the directory that it is mounted on. -/
structure Mount where
  dev : ℕ
  dir : Key

/-- The files on all devices, with the blocks that cannot be read. `sys_mount` refuses the root directory of a
device. -/
structure Tree where
  files : Key → File
  bad : Key → ℕ → Bool
  mounts : List Mount
  mount_dir : ∀ m ∈ mounts, m.dir.2 ≠ ROOT_INO

structure Current where
  root : Key
  pwd : Key
  cred : Files.Cred
  umask : BitVec 32

/-- `null` records that an inode has been used through a null pointer (not in the source). -/
structure State where
  fs : BitVec 16
  null : Bool
  deriving DecidableEq

def USER_SEG : BitVec 16 := 0x17
def KERNEL_SEG : BitVec 16 := 0x10

/-! ## Entries and inodes -/

/-- The number in the entry of a directory that has the name; blocks that cannot be read are left out. -/
def Tree.search (t : Tree) (dir : Key) (name : Name) : Option ℕ :=
  let f := t.files dir
  if ¬ f.zone ∨ t.bad dir 0 then none
  else
    let i := (List.range f.entries.length).find? fun i =>
      !t.bad dir (i / DIR_ENTRIES_PER_BLOCK) && (f.entries[i]?).any (matchEntry name)
    i.bind fun i => (f.entries[i]?).map DirEntry.inode

/-- The loop of `iget`, which goes round again for the root directory of a device that is mounted here. -/
def Tree.igetLoop (t : Tree) : ℕ → Key → Option Key
  | 0, _ => none
  | n + 1, k =>
    match t.mounts.find? fun m => m.dir = k with
    | none => some k
    | some m => igetLoop t n (m.dev, ROOT_INO)

/-- `iget` returns an inode (or panics). -/
def Tree.iget (t : Tree) (dev nr : ℕ) : Option Key := t.igetLoop 2 (dev, nr)

def Tree.permission (t : Tree) (cur : Current) (k : Key) (mask : BitVec 32) : Bool :=
  let f := t.files k
  Files.permission cur.cred
    { iMode := f.iMode, iUid := f.iUid, iGid := f.iGid, iNlinks := f.iNlinks, iDev := k.1, iPipe := false,
      iSize := 0, data := fun _ => 0 } mask

section

variable (t : Tree) (cur : Current)

/-- `find_entry`, with the directory that it leaves in `*dir`. -/
def findEntry (dir : Key) (name : Name) : Key × Option ℕ :=
  let name := name.take Namei.NAME_LEN
  if name ≠ dotdot then (dir, t.search dir name)
  else if dir = cur.root then (dir, t.search dir dot)
  else if dir.2 = ROOT_INO then
    match t.mounts.find? fun m => m.dev = dir.1 with
    | some m => (m.dir, t.search m.dir dotdot)
    | none => (dir, t.search dir dotdot)
  else (dir, t.search dir dotdot)

/-- A directory that may be searched. -/
def searchable (dir : Key) : Bool := (t.files dir).isDir && t.permission cur dir MAY_EXEC

/-! ## Paths -/

/-- Code that returns a pointer to an inode; `none` stands for code that has not returned. -/
abbrev Code := State → Option (Option Key × State)

/-- `follow_link`. The path in the link is read through the kernel's segment. -/
def followLink (namei : Path → Option Key → Bool → Code) (dir inode : Option Key) : Code := fun s =>
  let dir := dir.getD cur.root
  match inode with
  | none => some (none, s)
  | some inode =>
    let f := t.files inode
    if ¬ f.isLnk then some (some inode, s)
    else if s.fs ≠ USER_SEG ∨ ¬ f.zone ∨ t.bad inode 0 then some (none, s)
    else
      (namei f.link (some dir) false { s with fs := KERNEL_SEG }).map fun (inode, s') => (inode, { s' with fs := s.fs })

/-- The loop of `get_dir` over the names that are followed by a slash. -/
def getDirLoop (follow : Option Key → Option Key → Code) : List Name → Key → Code
  | [], inode, s => some (if searchable t cur inode then some inode else none, s)
  | thisname :: names, inode, s =>
    if searchable t cur inode then
      match findEntry t cur inode thisname with
      | (_, none) => some (none, s)
      | (dir, some inr) =>
        (t.iget dir.1 inr).bind fun inode =>
          (follow (some dir) (some inode) s).bind fun
            | (none, s) => some (none, s)
            | (some inode, s) => getDirLoop follow names inode s
    else some (none, s)

/-- Where a path starts. -/
def startOf (pathname : Path) (inode : Option Key) : Key :=
  if pathname.head? = some slash then cur.root else inode.getD cur.pwd

def getDir (follow : Option Key → Option Key → Code) (pathname : Path) (inode : Option Key) : Code :=
  getDirLoop t cur follow (components pathname).dropLast (startOf cur pathname inode)

def baseName (pathname : Path) : Name := (components pathname).getLastD []

/-- `i_atime` and `i_dirt` are stored. -/
def touch (inode : Option Key) (s : State) : State := { s with null := s.null || inode.isNone }

/-- `_namei`, with `dir_namei` in it. -/
def nameiWith (follow : Option Key → Option Key → Code) (pathname : Path) (base : Option Key) (followLinks : Bool) :
    Code := fun s =>
  (getDir t cur follow pathname base s).bind fun
    | (none, s) => some (none, s)
    | (some base, s) =>
      if baseName pathname = [] then some (some base, s)
      else
        match findEntry t cur base (baseName pathname) with
        | (_, none) => some (none, s)
        | (base, some inr) =>
          (t.iget base.1 inr).bind fun inode =>
            (if followLinks then follow (some base) (some inode) s else some (some inode, s)).map
              fun (inode, s) => (inode, touch inode s)

/-- `_namei` with at most `n` calls of it inside each other. -/
def _namei : ℕ → Path → Option Key → Bool → Code
  | 0, _, _, _ => fun _ => none
  | n + 1, pathname, base, followLinks =>
    nameiWith t cur (followLink t cur (_namei n)) pathname base followLinks

def lnamei (n : ℕ) (pathname : Path) : Code := _namei t cur n pathname none false

def namei (n : ℕ) (pathname : Path) : Code := _namei t cur n pathname none true

/-- `open_namei`; `newInode` and `added` are what `new_inode` and `add_entry` return for a new file. -/
def openNamei (n : ℕ) (pathname : Path) (flag : BitVec 32) (newInode : Option Key) (added : Bool) (s : State) :
    Option (Except Errno Key × State) :=
  let flag := if flag &&& Files.O_TRUNC ≠ 0 ∧ flag &&& Files.O_ACCMODE = 0 then flag ||| Files.O_WRONLY else flag
  let follow := followLink t cur (_namei t cur n)
  (getDir t cur follow pathname none s).bind fun
    | (none, s) => some (.error .ENOENT, s)
    | (some dir, s) =>
      if baseName pathname = [] then
        if flag &&& (Files.O_ACCMODE ||| Files.O_CREAT ||| Files.O_TRUNC) = 0 then some (.ok dir, s)
        else some (.error .EISDIR, s)
      else
        match findEntry t cur dir (baseName pathname) with
        | (dir, none) =>
          if flag &&& Files.O_CREAT = 0 then some (.error .ENOENT, s)
          else if ¬ t.permission cur dir MAY_WRITE then some (.error .EACCES, s)
          else
            match newInode with
            | none => some (.error .ENOSPC, s)
            | some inode => if added then some (.ok inode, s) else some (.error .ENOSPC, s)
        | (dir, some inr) =>
          if flag &&& Files.O_EXCL ≠ 0 then some (.error .EEXIST, s)
          else
            (t.iget dir.1 inr).bind fun inode =>
              (follow (some dir) (some inode) s).map fun
                | (none, s) => (.error .EACCES, s)
                | (some inode, s) =>
                  if (t.files inode).isDir ∧ flag &&& Files.O_ACCMODE ≠ 0 ∨
                      ¬ t.permission cur inode (Files.accMode flag) then (.error .EPERM, s)
                  else (.ok inode, s)

end

end Linux012.Symlinks
