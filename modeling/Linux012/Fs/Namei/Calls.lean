import Linux012.Fs.Namei.Basic

/-! # Paths

The functions of `fs/namei.c` that follow a path, and the calls that use them. A path ends before
its first null byte. `follow_link` refuses a symbolic link when it has been called for the path in
another one (`fs` is then the kernel's segment), so two levels of `_namei` are all there are.
-/

namespace Linux012.Namei

open Function Triples
open Dirs (Name DirEntry dot dotdot)

inductive Errno
  | EPERM | ENOENT | EACCES | EEXIST | EXDEV | ENOTDIR | EISDIR | ENOSPC | ENOTEMPTY | ERROR
  deriving DecidableEq, Repr

abbrev Path := List UInt8

/-- `/` -/
def slash : UInt8 := 47

def MAY_EXEC : BitVec 32 := 1
def MAY_WRITE : BitVec 32 := 2

variable (cur : Current)

def permission (e : ℕ) (mask : BitVec 32) : M Bool := reads fun s => s.permission cur.cred e mask

def isDir (e : ℕ) : M Bool := reads fun s => (s.file e).isDir

/-! ## Following a path -/

section Follow

/-- A null pointer stands for the inode `e`, of which a reference is taken. -/
def orHold (e : ℕ) : Option ℕ → M ℕ
  | none => do
    hold e
    pure e
  | some inode => pure inode

/-- The block with the path of a symbolic link, unless `follow_link` refuses it. -/
def readLink (user : Bool) (f : File) : M Bool := if user ∧ f.zone then io else pure false

/-- `follow_link`; `user` says that `fs` is the user's segment. -/
def followLink (namei : Path → ℕ → M (Option ℕ)) (user : Bool) (dir inode : Option ℕ) :
    M (Option ℕ) := do
  let dir ← orHold cur.root dir
  match inode with
  | none => do
    iput dir
    pure none
  | some inode => do
    let f ← reads fun s => s.file inode
    if ¬ f.isLnk then do
      iput dir
      pure (some inode)
    else do
      if ← readLink user f then do
        iput inode
        namei f.link dir
      else do
        iput dir
        iput inode
        pure none

variable (follow : Option ℕ → Option ℕ → M (Option ℕ))

/-- A directory that may be searched. -/
def searchable (inode : ℕ) : M Bool :=
  reads fun s => (s.file inode).isDir && s.permission cur.cred inode MAY_EXEC

/-- The loop of `get_dir` over the names that are followed by a slash. -/
def getDirLoop : List Name → ℕ → M (Option ℕ)
  | [], inode => do
    if ← searchable cur inode then pure (some inode)
    else do
      iput inode
      pure none
  | thisname :: names, inode => do
    if ← searchable cur inode then
      match ← findEntry cur inode thisname with
      | (dir, none) => do
        iput dir
        pure none
      | (dir, some k) => do
        let inr ← entryInode dir k
        let dev ← reads fun s => (s.inodes dir).iDev
        match ← iget dev inr with
        | none => do
          iput dir
          pure none
        | some inode => do
          match ← follow (some dir) (some inode) with
          | none => pure none
          | some inode => getDirLoop names inode
    else do
      iput inode
      pure none

/-- The names in a path, without a slash at its beginning. -/
def components (pathname : Path) : List Name :=
  (if pathname.head? = some slash then pathname.tail else pathname).splitOn slash

/-- A path from the root directory leaves the directory `inode`. -/
def fromRoot (pathname : Path) (inode : ℕ) : M ℕ :=
  if pathname.head? = some slash then do
    iput inode
    hold cur.root
    pure cur.root
  else pure inode

def getDir (pathname : Path) (inode : Option ℕ) : M (Option ℕ) := do
  let inode ← orHold cur.pwd inode
  let inode ← fromRoot cur pathname inode
  getDirLoop cur follow (components pathname).dropLast inode

/-- The directory of a path, and the name within it. -/
def dirNamei (pathname : Path) (base : Option ℕ) : M (Option (ℕ × Name)) := do
  match ← getDir cur follow pathname base with
  | none => pure none
  | some dir => pure (some (dir, (components pathname).getLastD []))

/-- The end of `_namei` with the inode of the last name. -/
def lastLink (followLinks : Bool) (base inode : ℕ) : M (Option ℕ) :=
  if followLinks then follow (some base) (some inode)
  else do
    iput base
    pure (some inode)

/-- `_namei`. With a null pointer for the inode, `i_atime` and `i_dirt` are stored in no inode. -/
def nameiWith (pathname : Path) (base : Option ℕ) (followLinks : Bool) : M (Option ℕ) := do
  match ← dirNamei cur follow pathname base with
  | none => pure none
  | some (base, basename) =>
    if basename = [] then pure (some base)
    else do
      match ← findEntry cur base basename with
      | (base, none) => do
        iput base
        pure none
      | (base, some k) => do
        let inr ← entryInode base k
        let dev ← reads fun s => (s.inodes base).iDev
        match ← iget dev inr with
        | none => do
          iput base
          pure none
        | some inode => do
          match ← lastLink follow followLinks base inode with
          | none => pure none
          | some inode => do
            modifies fun s => s.setDirt inode true
            pure (some inode)

end Follow

/-- `follow_link` for the path in a symbolic link. -/
def kernelFollow : Option ℕ → Option ℕ → M (Option ℕ) := followLink cur (fun _ _ => failure) false

/-- `_namei` for the path in a symbolic link. -/
def linkNamei (pathname : Path) (dir : ℕ) : M (Option ℕ) :=
  nameiWith cur (kernelFollow cur) pathname (some dir) false

/-- `follow_link` for the path of a system call. -/
def follow : Option ℕ → Option ℕ → M (Option ℕ) := followLink cur (linkNamei cur) true

/-- `follow_link` as it is called with either segment. -/
def followFor : Bool → Option ℕ → Option ℕ → M (Option ℕ)
  | true => follow cur
  | false => kernelFollow cur

def lnamei (pathname : Path) : M (Option ℕ) := nameiWith cur (follow cur) pathname none false

def namei (pathname : Path) : M (Option ℕ) := nameiWith cur (follow cur) pathname none true

def sysChroot (filename : Path) : M (Except Errno Current) := do
  match ← namei cur filename with
  | none => pure (.error .ENOENT)
  | some inode => do
    if ¬ (← isDir inode) then do
      iput inode
      pure (.error .ENOTDIR)
    else do
      iput cur.root
      pure (.ok { cur with root := inode })

/-! ## `open_namei` -/

def openNamei (pathname : Path) (flag mode : BitVec 32) : M (Except Errno ℕ) := do
  let flag := if flag &&& Files.O_TRUNC ≠ 0 ∧ flag &&& Files.O_ACCMODE = 0
    then flag ||| Files.O_WRONLY else flag
  let mode := (mode &&& (0o777 &&& ~~~cur.umask)) ||| Files.I_REGULAR
  match ← dirNamei cur (follow cur) pathname none with
  | none => pure (.error .ENOENT)
  | some (dir, basename) =>
    if basename = [] then
      if flag &&& (Files.O_ACCMODE ||| Files.O_CREAT ||| Files.O_TRUNC) = 0 then pure (.ok dir)
      else do
        iput dir
        pure (.error .EISDIR)
    else do
      match ← findEntry cur dir basename with
      | (dir, none) =>
        if flag &&& Files.O_CREAT = 0 then do
          iput dir
          pure (.error .ENOENT)
        else if ¬ (← permission cur dir MAY_WRITE) then do
          iput dir
          pure (.error .EACCES)
        else do
          let dev ← reads fun s => (s.inodes dir).iDev
          match ← newInode cur dev with
          | none => do
            iput dir
            pure (.error .ENOSPC)
          | some inode => do
            modifies fun s =>
              (s.setFile inode fun f =>
                { f with iUid := cur.cred.euid, iMode := mode.setWidth 16 }).setDirt inode true
            let inr ← reads fun s => (s.inodes inode).iNum
            if ← addEntry dir basename inr then do
              iput dir
              pure (.ok inode)
            else do
              modifies fun s => s.setFile inode fun f => { f with iNlinks := (f.iNlinks + 255) % 256 }
              iput inode
              iput dir
              pure (.error .ENOSPC)
      | (dir, some k) => do
        let inr ← entryInode dir k
        let dev ← reads fun s => (s.inodes dir).iDev
        if flag &&& Files.O_EXCL ≠ 0 then do
          iput dir
          pure (.error .EEXIST)
        else do
          let inode ← iget dev inr
          match ← follow cur (some dir) inode with
          | none => pure (.error .EACCES)
          | some inode => do
            let dir ← isDir inode
            let allowed ← permission cur inode (Files.accMode flag)
            if dir ∧ flag &&& Files.O_ACCMODE ≠ 0 ∨ ¬ allowed then do
              iput inode
              pure (.error .EPERM)
            else if flag &&& Files.O_TRUNC ≠ 0 then do
              modifies fun s => s.setFile inode File.truncate
              pure (.ok inode)
            else pure (.ok inode)

/-! ## Calls -/

/-- `iput` of two inodes, and an error. -/
def putBoth (a b : ℕ) (err : Errno) : M (Except Errno Unit) := do
  iput a
  iput b
  pure (.error err)

def putOne (a : ℕ) (err : Errno) : M (Except Errno Unit) := do
  iput a
  pure (.error err)

def setMode (inode : ℕ) (mode : BitVec 16) : M Unit :=
  modifies fun s => (s.setFile inode fun f => { f with iMode := mode }).setDirt inode true

def setNlinks (inode n : ℕ) : M Unit :=
  modifies fun s => s.setFile inode fun f => { f with iNlinks := n }

/-- An `unsigned char` counts the links. -/
def incNlinks (inode : ℕ) : M Unit :=
  modifies fun s => (s.setFile inode fun f => { f with iNlinks := (f.iNlinks + 1) % 256 }).setDirt inode true

def decNlinks (inode : ℕ) : M Unit :=
  modifies fun s => (s.setFile inode fun f => { f with iNlinks := (f.iNlinks + 255) % 256 }).setDirt inode true

/-- `i_zone[0]` of a device file. -/
def setDevice (inode : ℕ) (mode : BitVec 16) (dev : ℕ) : M Unit :=
  modifies fun s =>
    if mode &&& Files.S_IFMT = Files.S_IFBLK ∨ mode &&& Files.S_IFMT = Files.S_IFCHR then
      s.setFile inode fun f => { f with zone := dev ≠ 0 }
    else s

def sysMknod (filename : Path) (mode : BitVec 16) (dev : ℕ) : M (Except Errno Unit) := do
  if ¬ cur.cred.suser then pure (.error .EPERM)
  else
    match ← dirNamei cur (follow cur) filename none with
    | none => pure (.error .ENOENT)
    | some (dir, basename) =>
      if basename = [] then putOne dir .ENOENT
      else do
        if ¬ (← permission cur dir MAY_WRITE) then putOne dir .EPERM
        else
          match ← findEntry cur dir basename with
          | (dir, some _) => putOne dir .EEXIST
          | (dir, none) => do
            let iDev ← reads fun s => (s.inodes dir).iDev
            match ← newInode cur iDev with
            | none => putOne dir .ENOSPC
            | some inode => do
              setMode inode mode
              setDevice inode mode dev
              let inr ← reads fun s => (s.inodes inode).iNum
              if ← addEntry dir basename inr then do
                iput dir
                iput inode
                pure (.ok ())
              else do
                iput dir
                setNlinks inode 0
                putOne inode .ENOSPC

/-- The directory that `sys_mkdir` has made gets its two entries. -/
def makeEntries (cur : Current) (dir inode : ℕ) (mode : BitVec 32) : M Unit :=
  modifies fun s =>
    (s.setFile inode fun f =>
      { f with
        entries := [⟨(s.inodes inode).iNum, dot⟩, ⟨(s.inodes dir).iNum, dotdot⟩]
        iNlinks := 2
        iMode := Files.S_IFDIR ||| (mode &&& 0o777 &&& ~~~cur.umask).setWidth 16 }).setDirt inode true

def sysMkdir (pathname : Path) (mode : BitVec 32) : M (Except Errno Unit) := do
  match ← dirNamei cur (follow cur) pathname none with
  | none => pure (.error .ENOENT)
  | some (dir, basename) =>
    if basename = [] then putOne dir .ENOENT
    else do
      if ¬ (← permission cur dir MAY_WRITE) then putOne dir .EPERM
      else
        match ← findEntry cur dir basename with
        | (dir, some _) => putOne dir .EEXIST
        | (dir, none) => do
          let dev ← reads fun s => (s.inodes dir).iDev
          match ← newInode cur dev with
          | none => putOne dir .ENOSPC
          | some inode => do
            -- `new_block`
            if ← io then do
              modifies fun s => s.setFile inode fun f => { f with zone := true }
              if ← io then do
                makeEntries cur dir inode mode
                let inr ← reads fun s => (s.inodes inode).iNum
                if ← addEntry dir basename inr then do
                  incNlinks dir
                  iput dir
                  iput inode
                  pure (.ok ())
                else do
                  iput dir
                  setNlinks inode 0
                  putOne inode .ENOSPC
              else do
                iput dir
                decNlinks inode
                putOne inode .ERROR
            else do
              iput dir
              decNlinks inode
              putOne inode .ENOSPC

/-- The loop of `empty_dir` from the block with entry `nr` on. -/
def emptyFrom (entries : List DirEntry) : ℕ → ℕ → M Bool
  | 0, _ => pure true
  | k + 1, nr =>
    if nr < entries.length then do
      if ← io then
        if ((entries.drop nr).take DIR_ENTRIES_PER_BLOCK).all fun de => de.inode = 0 then
          emptyFrom entries k (nr + DIR_ENTRIES_PER_BLOCK)
        else pure false
      else pure false
    else pure true

def emptyDir (inode : ℕ) : M Bool := do
  let f ← reads fun s => s.file inode
  let nr ← reads fun s => (s.inodes inode).iNum
  if ¬ f.zone then pure false
  else do
    if ← io then
      match f.entries with
      | a :: b :: rest =>
        if a.inode = nr ∧ b.inode ≠ 0 ∧ a.name = dot ∧ b.name = dotdot then
          if (rest.take (DIR_ENTRIES_PER_BLOCK - 2)).all fun de => de.inode = 0 then
            emptyFrom f.entries f.entries.length DIR_ENTRIES_PER_BLOCK
          else pure false
        else pure false
      | _ => pure false
    else pure false

/-- The end of `sys_rmdir`. -/
def removeDir (dir inode k : ℕ) : M (Except Errno Unit) := do
  clearEntry dir k
  setNlinks inode 0
  modifies fun s => s.setDirt inode true
  decNlinks dir
  iput dir
  iput inode
  pure (.ok ())

def sysRmdir (name : Path) : M (Except Errno Unit) := do
  match ← dirNamei cur (follow cur) name none with
  | none => pure (.error .ENOENT)
  | some (dir, basename) =>
    if basename = [] then putOne dir .ENOENT
    else do
      if ¬ (← permission cur dir MAY_WRITE) then putOne dir .EPERM
      else
        match ← findEntry cur dir basename with
        | (dir, none) => putOne dir .ENOENT
        | (dir, some k) => do
          let inr ← entryInode dir k
          let dev ← reads fun s => (s.inodes dir).iDev
          match ← iget dev inr with
          | none => putOne dir .EPERM
          | some inode => do
            let d ← reads fun s => s.file dir
            let f ← reads fun s => s.file inode
            let x ← reads fun s => s.inodes inode
            if d.iMode &&& S_ISVTX ≠ 0 ∧ cur.cred.euid ≠ 0 ∧ f.iUid ≠ cur.cred.euid then
              putBoth dir inode .EPERM
            else if x.iDev ≠ dev ∨ x.iCount > 1 then putBoth dir inode .EPERM
            -- we may not delete ".", but "../dir" is ok
            else if inode = dir then putBoth inode dir .EPERM
            else if ¬ f.isDir then putBoth inode dir .ENOTDIR
            else do
              if ← emptyDir inode then removeDir dir inode k
              else putBoth inode dir .ENOTEMPTY

/-- The end of `sys_unlink`. -/
def removeEntry (dir inode k : ℕ) : M (Except Errno Unit) := do
  modifies fun s =>
    s.setFile inode fun f => { f with iNlinks := if f.iNlinks = 0 then 1 else f.iNlinks }
  clearEntry dir k
  decNlinks inode
  iput inode
  iput dir
  pure (.ok ())

def sysUnlink (name : Path) : M (Except Errno Unit) := do
  match ← dirNamei cur (follow cur) name none with
  | none => pure (.error .ENOENT)
  | some (dir, basename) =>
    if basename = [] then putOne dir .ENOENT
    else do
      if ¬ (← permission cur dir MAY_WRITE) then putOne dir .EPERM
      else
        match ← findEntry cur dir basename with
        | (dir, none) => putOne dir .ENOENT
        | (dir, some k) => do
          let inr ← entryInode dir k
          let dev ← reads fun s => (s.inodes dir).iDev
          match ← iget dev inr with
          | none => putOne dir .ENOENT
          | some inode => do
            let d ← reads fun s => s.file dir
            let f ← reads fun s => s.file inode
            if d.iMode &&& S_ISVTX ≠ 0 ∧ ¬ cur.cred.suser ∧ cur.cred.euid ≠ f.iUid ∧
                cur.cred.euid ≠ d.iUid then putBoth dir inode .EPERM
            else if f.isDir then putBoth inode dir .EPERM
            else removeEntry dir inode k

def sysSymlink (oldname newname : Path) : M (Except Errno Unit) := do
  match ← dirNamei cur (follow cur) newname none with
  | none => pure (.error .EACCES)
  | some (dir, basename) =>
    if basename = [] then putOne dir .EPERM
    else do
      if ¬ (← permission cur dir MAY_WRITE) then putOne dir .EACCES
      else do
        let dev ← reads fun s => (s.inodes dir).iDev
        match ← newInode cur dev with
        | none => putOne dir .ENOSPC
        | some inode => do
          setMode inode (Files.S_IFLNK ||| (0o777 &&& ~~~cur.umask).setWidth 16)
          if ← io then do
            modifies fun s => s.setFile inode fun f => { f with zone := true }
            if ← io then do
              modifies fun s => s.setFile inode fun f => { f with link := oldname.take 1023 }
              match ← findEntry cur dir basename with
              | (dir, some _) => do
                decNlinks inode
                putBoth inode dir .EEXIST
              | (dir, none) => do
                let inr ← reads fun s => (s.inodes inode).iNum
                if ← addEntry dir basename inr then do
                  iput dir
                  iput inode
                  pure (.ok ())
                else do
                  decNlinks inode
                  putBoth inode dir .ENOSPC
            else do
              iput dir
              decNlinks inode
              putOne inode .ERROR
          else do
            iput dir
            decNlinks inode
            putOne inode .ENOSPC

def sysLink (oldname newname : Path) : M (Except Errno Unit) := do
  match ← namei cur oldname with
  | none => pure (.error .ENOENT)
  | some oldinode => do
    if ← isDir oldinode then putOne oldinode .EPERM
    else
      match ← dirNamei cur (follow cur) newname none with
      | none => putOne oldinode .EACCES
      | some (dir, basename) =>
        if basename = [] then putBoth oldinode dir .EPERM
        else do
          let dev ← reads fun s => (s.inodes dir).iDev
          let old ← reads fun s => s.inodes oldinode
          if dev ≠ old.iDev then putBoth dir oldinode .EXDEV
          else if ¬ (← permission cur dir MAY_WRITE) then putBoth dir oldinode .EACCES
          else
            match ← findEntry cur dir basename with
            | (dir, some _) => putBoth dir oldinode .EEXIST
            | (dir, none) => do
              if ← addEntry dir basename old.iNum then do
                iput dir
                incNlinks oldinode
                iput oldinode
                pure (.ok ())
              else putBoth dir oldinode .ENOSPC

end Linux012.Namei
