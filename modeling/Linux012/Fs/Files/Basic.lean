import Mathlib.Logic.Function.Basic
import Mathlib.Data.Nat.Notation

/-! # Open files

The file table of `fs/file_table.c` with the calls of `fs/open.c`, `fs/fcntl.c` and
`fs/read_write.c`. Every call runs to its end. What a path leads to, whether a block can
be had and what a device answers are left open and come with the call.
-/

namespace Linux012.Files

open Function

def NR_TASKS : ℕ := 64
def NR_OPEN : ℕ := 20
def NR_FILE : ℕ := 64
def BLOCK_SIZE : ℕ := 1024

/-! ## Flags and permissions -/

def O_ACCMODE : BitVec 32 := 0o3
def O_RDONLY : BitVec 32 := 0o0
def O_WRONLY : BitVec 32 := 0o1
def O_RDWR : BitVec 32 := 0o2
def O_CREAT : BitVec 32 := 0o100
def O_EXCL : BitVec 32 := 0o200
def O_TRUNC : BitVec 32 := 0o1000
def O_APPEND : BitVec 32 := 0o2000
def O_NONBLOCK : BitVec 32 := 0o4000

def MAY_WRITE : BitVec 32 := 2

def S_IFMT : BitVec 16 := 0o170000
def S_IFLNK : BitVec 16 := 0o120000
def S_IFREG : BitVec 16 := 0o100000
def S_IFBLK : BitVec 16 := 0o060000
def S_IFDIR : BitVec 16 := 0o040000
def S_IFCHR : BitVec 16 := 0o020000

inductive Errno
  | EPERM | ENOENT | EIO | EBADF | EAGAIN | EACCES | EEXIST | EISDIR | EINVAL | EMFILE | ENOSPC
  | ERROR
  deriving DecidableEq, Repr

/-- An in-core inode, with the bytes of the file it stands for. -/
structure Inode where
  iMode : BitVec 16
  iUid : ℕ
  iGid : ℕ
  iNlinks : ℕ
  iDev : ℕ
  iPipe : Bool
  iSize : ℕ
  data : ℕ → UInt8

namespace Inode

def isReg (i : Inode) : Bool := i.iMode &&& S_IFMT = S_IFREG
def isDir (i : Inode) : Bool := i.iMode &&& S_IFMT = S_IFDIR
def isChr (i : Inode) : Bool := i.iMode &&& S_IFMT = S_IFCHR
def isBlk (i : Inode) : Bool := i.iMode &&& S_IFMT = S_IFBLK
def isLnk (i : Inode) : Bool := i.iMode &&& S_IFMT = S_IFLNK

end Inode

/-- Whose rights a task has; `groups` ends where the source has `NOGROUP`. -/
structure Cred where
  euid : ℕ
  egid : ℕ
  groups : List ℕ

def Cred.suser (c : Cred) : Bool := c.euid = 0

def Cred.inGroupP (c : Cred) (grp : ℕ) : Bool := grp = c.egid || c.groups.contains grp

def permission (c : Cred) (inode : Inode) (mask : BitVec 32) : Bool :=
  let mode : BitVec 32 := inode.iMode.setWidth 32
  -- not even root can read/write a deleted file
  if inode.iDev ≠ 0 ∧ inode.iNlinks = 0 then false
  else
    let mode := if c.euid = inode.iUid then mode >>> 6
      else if c.inGroupP inode.iGid then mode >>> 3 else mode
    mode &&& mask &&& 0o7 = mask || c.suser

def accMode (x : BitVec 32) : BitVec 32 :=
  match (x &&& O_ACCMODE).toNat with
  | 0 => 0o4
  | 1 => 0o2
  | 2 => 0o6
  | _ => -1

/-! ## Tables -/

/-- How a descriptor was opened: the file, the access mode asked for, and what `permission` said
of writing to the file (not in the source). -/
structure Opening where
  inode : ℕ
  accmode : BitVec 32
  mayWrite : Bool

/-- An entry of `filp`: the number of a file, and how the descriptor was opened. -/
structure Desc where
  file : ℕ
  opening : Opening

structure File where
  fMode : BitVec 16
  fFlags : BitVec 16
  fCount : ℕ
  fInode : ℕ
  fPos : ℕ

structure Task where
  cred : Cred
  umask : BitVec 32
  filp : ℕ → Option Desc

structure State where
  tasks : Fin NR_TASKS → Option Task
  files : ℕ → File
  inodes : ℕ → Inode

namespace State

def setFile (s : State) (f : ℕ) (g : File → File) : State :=
  { s with files := update s.files f (g (s.files f)) }

def setInode (s : State) (i : ℕ) (g : Inode → Inode) : State :=
  { s with inodes := update s.inodes i (g (s.inodes i)) }

def setTask (s : State) (t : Fin NR_TASKS) (T : Task) : State :=
  { s with tasks := update s.tasks t (some T) }

/-- No open file is about the inode. -/
def Unused (s : State) (i : ℕ) : Prop :=
  ∀ f < NR_FILE, (s.files f).fCount ≠ 0 → (s.files f).fInode ≠ i

instance (s : State) (i : ℕ) : Decidable (s.Unused i) :=
  inferInstanceAs (Decidable (∀ f < NR_FILE, _))

end State

def Task.setFilp (T : Task) (fd : ℕ) (d : Option Desc) : Task :=
  { T with filp := update T.filp fd d }

inductive Ret
  | num (n : ℕ)
  | data (l : List UInt8)
  | err (e : Errno)
  deriving DecidableEq

/-- A file count is an `unsigned short`. -/
def incCount (s : State) (f : ℕ) : State :=
  s.setFile f fun x => { x with fCount := (x.fCount + 1) % 65536 }

/-! ## open -/

/-- What the path of an `open` leads to. -/
inductive Lookup
  | noDir
  | isDir (dir : ℕ)
  | missing (dir : ℕ) (new : Option ℕ) (entry : Bool)
  | found (inode : Option ℕ)

def truncate (inode : Inode) : Inode :=
  if inode.isReg || inode.isDir || inode.isLnk then
    { inode with iSize := 0, data := fun _ => 0 }
  else inode

/-- `new_inode` on the device of `dir`. -/
def newInode (c : Cred) (dir : Inode) : Inode :=
  { iMode := 0, iUid := c.euid, iGid := c.egid, iNlinks := 1, iDev := dir.iDev, iPipe := false,
    iSize := 0, data := fun _ => 0 }

def I_REGULAR : BitVec 32 := 0o100000

def openNamei (s : State) (T : Task) (flag mode : BitVec 32) (path : Lookup) :
    State × Except Errno ℕ :=
  let flag := if flag &&& O_TRUNC ≠ 0 ∧ flag &&& O_ACCMODE = 0 then flag ||| O_WRONLY else flag
  let mode := (mode &&& (0o777 &&& ~~~T.umask)) ||| I_REGULAR
  match path with
  | .noDir => (s, .error .ENOENT)
  | .isDir dir =>
    if flag &&& (O_ACCMODE ||| O_CREAT ||| O_TRUNC) = 0 then (s, .ok dir)
    else (s, .error .EISDIR)
  | .missing dir new entry =>
    if flag &&& O_CREAT = 0 then (s, .error .ENOENT)
    else if ¬ permission T.cred (s.inodes dir) MAY_WRITE then (s, .error .EACCES)
    else match new with
      | none => (s, .error .ENOSPC)
      | some i =>
        let s := s.setInode i fun _ =>
          { newInode T.cred (s.inodes dir) with iUid := T.cred.euid, iMode := mode.setWidth 16 }
        if entry then (s, .ok i)
        else (s.setInode i fun x => { x with iNlinks := 0 }, .error .ENOSPC)
  | .found inode =>
    if flag &&& O_EXCL ≠ 0 then (s, .error .EEXIST)
    else match inode with
      | none => (s, .error .EACCES)
      | some i =>
        if ((s.inodes i).isDir ∧ flag &&& O_ACCMODE ≠ 0) ∨
            ¬ permission T.cred (s.inodes i) (accMode flag) then
          (s, .error .EPERM)
        else if flag &&& O_TRUNC ≠ 0 then (s.setInode i truncate, .ok i)
        else (s, .ok i)

/-- The inode that a path yields is in the inode table for a file: one that exists is not a pipe,
and a new one is not in use. -/
def Lookup.Valid (s : State) : Lookup → Prop
  | .noDir => True
  | .isDir dir => (s.inodes dir).iPipe = false
  | .missing _ new _ => ∀ i, new = some i → s.Unused i
  | .found inode => ∀ i, inode = some i → (s.inodes i).iPipe = false

instance (s : State) : (path : Lookup) → Decidable (path.Valid s)
  | .noDir => inferInstanceAs (Decidable True)
  | .isDir dir => inferInstanceAs (Decidable ((s.inodes dir).iPipe = false))
  | .missing _ none _ => isTrue (by intro i h; cases h)
  | .missing _ (some i) _ =>
    decidable_of_iff (s.Unused i) ⟨fun h j e => Option.some.inj e ▸ h, fun h => h i rfl⟩
  | .found none => isTrue (by intro i h; cases h)
  | .found (some i) =>
    decidable_of_iff ((s.inodes i).iPipe = false)
      ⟨fun h j e => Option.some.inj e ▸ h, fun h => h i rfl⟩

def freeFd (T : Task) : Option ℕ := (List.range NR_OPEN).find? fun fd => (T.filp fd).isNone

def freeFile (s : State) : Option ℕ := (List.range NR_FILE).find? fun f => (s.files f).fCount = 0

/-- `sys_open`; `busy` is the answer of `check_char_dev`. -/
def sysOpen (s : State) (t : Fin NR_TASKS) (T : Task) (flag mode : BitVec 32) (path : Lookup)
    (busy : Bool) : State × Ret :=
  let mode := mode &&& (0o777 &&& ~~~T.umask)
  match freeFd T, freeFile s with
  | none, _ => (s, .err .EINVAL)
  | _, none => (s, .err .EINVAL)
  | some fd, some f =>
    match openNamei s T flag mode path with
    | (s, .error e) => (s, .err e)
    | (s, .ok i) =>
      if (s.inodes i).isChr ∧ busy then (s, .err .EAGAIN)
      else
        let opening :=
          { inode := i, accmode := flag &&& O_ACCMODE,
            mayWrite := permission T.cred (s.inodes i) MAY_WRITE }
        let s := s.setFile f fun _ =>
          { fMode := (s.inodes i).iMode, fFlags := flag.setWidth 16, fCount := 1, fInode := i,
            fPos := 0 }
        (s.setTask t (T.setFilp fd (some ⟨f, opening⟩)), .num fd)

/-! ## close, dup, fork, exit -/

/-- `none` is the panic for a file with count 0. -/
def sysClose (s : State) (t : Fin NR_TASKS) (T : Task) (fd : ℕ) : Option (State × Ret) :=
  if NR_OPEN ≤ fd then some (s, .err .EINVAL)
  else match T.filp fd with
    | none => some (s, .err .EINVAL)
    | some d =>
      if (s.files d.file).fCount = 0 then none
      else
        let s := s.setTask t (T.setFilp fd none)
        some (s.setFile d.file fun x => { x with fCount := x.fCount - 1 }, .num 0)

def dupfd (s : State) (t : Fin NR_TASKS) (T : Task) (fd arg : ℕ) : State × Ret :=
  match if fd < NR_OPEN then T.filp fd else none with
  | none => (s, .err .EBADF)
  | some d =>
    if NR_OPEN ≤ arg then (s, .err .EINVAL)
    else match (List.range' arg (NR_OPEN - arg)).find? fun a => (T.filp a).isNone with
      | none => (s, .err .EMFILE)
      | some a => (incCount (s.setTask t (T.setFilp a (some d))) d.file, .num a)

def sysDup (s : State) (t : Fin NR_TASKS) (T : Task) (fd : ℕ) : State × Ret := dupfd s t T fd 0

def sysDup2 (s : State) (t : Fin NR_TASKS) (T : Task) (oldfd newfd : ℕ) : Option (State × Ret) :=
  (sysClose s t T newfd).bind fun r =>
    (r.1.tasks t).map fun T => dupfd r.1 t T oldfd newfd

/-- The `F_SETFL` case of `sys_fcntl`. -/
def setFl (s : State) (T : Task) (fd : ℕ) (arg : BitVec 16) : State × Ret :=
  match if fd < NR_OPEN then T.filp fd else none with
  | none => (s, .err .EBADF)
  | some d =>
    let m : BitVec 16 := (O_APPEND ||| O_NONBLOCK).setWidth 16
    (s.setFile d.file fun x => { x with fFlags := (x.fFlags &&& ~~~m) ||| (arg &&& m) }, .num 0)

/-- The loop of `copy_process` over the files of the parent. -/
def countFiles (T : Task) : List ℕ → State → State
  | [], s => s
  | fd :: fds, s =>
    countFiles T fds (match T.filp fd with
      | none => s
      | some d => incCount s d.file)

/-- `fork` into the free slot `nr`. -/
def fork (s : State) (T : Task) (nr : Fin NR_TASKS) : Option (State × Ret) :=
  match s.tasks nr with
  | some _ => none
  | none => some (countFiles T (List.range NR_OPEN) (s.setTask nr T), .num nr)

/-- The loop of `do_exit` over the descriptors. -/
def closeAll (t : Fin NR_TASKS) : List ℕ → State → Option State
  | [], s => some s
  | fd :: fds, s =>
    match s.tasks t with
    | none => none
    | some T =>
      match T.filp fd with
      | none => closeAll t fds s
      | some _ => (sysClose s t T fd).bind fun r => closeAll t fds r.1

def doExit (s : State) (t : Fin NR_TASKS) : Option (State × Ret) :=
  (closeAll t (List.range NR_OPEN) s).map fun s =>
    ({ s with tasks := update s.tasks t none }, .num 0)

/-! ## pipe -/

def sysPipe (s : State) (t : Fin NR_TASKS) (T : Task) (inode : Option ℕ) : State × Ret :=
  match (List.range NR_FILE).filter fun f => (s.files f).fCount = 0,
      (List.range NR_OPEN).filter fun fd => (T.filp fd).isNone, inode with
  | f₀ :: f₁ :: _, fd₀ :: fd₁ :: _, some i =>
    let s := s.setInode i fun x =>
      { x with iMode := 0, iUid := 0, iGid := 0, iNlinks := 0, iDev := 0, iPipe := true }
    let s := s.setFile f₀ fun x => { x with fMode := 1, fCount := 1, fInode := i, fPos := 0 }
    let s := s.setFile f₁ fun x => { x with fMode := 2, fCount := 1, fInode := i, fPos := 0 }
    let T := T.setFilp fd₀ (some ⟨f₀, { inode := i, accmode := O_RDONLY, mayWrite := false }⟩)
    let T := T.setFilp fd₁ (some ⟨f₁, { inode := i, accmode := O_WRONLY, mayWrite := true }⟩)
    (s.setTask t T, .num 0)
  | _, _, _ => (s, .err .EPERM)

/-! ## read and write -/

/-- What a device or a pipe answers, and the position it leaves. -/
structure Io where
  ret : Ret
  pos : ℕ

/-- The loop of `file_read`; `ok` says for which blocks `bread` succeeds. -/
def fileReadLoop (inode : Inode) (ok : ℕ → Bool) : ℕ → ℕ → ℕ → List UInt8
  | 0, _, _ => []
  | fuel + 1, pos, left =>
    if left = 0 then []
    else if ¬ ok (pos / BLOCK_SIZE) then []
    else
      let chars := min (BLOCK_SIZE - pos % BLOCK_SIZE) left
      (List.range chars).map (fun k => inode.data (pos + k)) ++
        fileReadLoop inode ok fuel (pos + chars) (left - chars)

def fileRead (s : State) (f : ℕ) (count : ℕ) (ok : ℕ → Bool) : State × Ret :=
  let x := s.files f
  let l := fileReadLoop (s.inodes x.fInode) ok count x.fPos count
  (s.setFile f fun x => { x with fPos := x.fPos + l.length },
    if l = [] then .err .ERROR else .data l)

def sysRead (s : State) (T : Task) (fd count : ℕ) (ok : ℕ → Bool) (io : Io) : State × Ret :=
  match if fd < NR_OPEN then T.filp fd else none with
  | none => (s, .err .EINVAL)
  | some d =>
    let file := s.files d.file
    let inode := s.inodes file.fInode
    if count = 0 then (s, .num 0)
    else if inode.iPipe then
      if file.fMode &&& 1 ≠ 0 then (s, io.ret) else (s, .err Errno.EIO)
    else if inode.isChr || inode.isBlk then
      (s.setFile d.file fun x => { x with fPos := io.pos }, io.ret)
    else if inode.isDir || inode.isReg then
      let count := min count (inode.iSize - file.fPos)
      if count = 0 then (s, .num 0) else fileRead s d.file count ok
    else (s, .err .EINVAL)

/-- The bytes `l` stored at `pos`. -/
def storeBytes (data : ℕ → UInt8) (pos : ℕ) (l : List UInt8) : ℕ → UInt8 := fun k =>
  if pos ≤ k then (l[k - pos]?).getD (data k) else data k

/-- The loop of `file_write`; `ok` says for which blocks `create_block` and `bread` succeed. The
result is the inode and the number of bytes left. -/
def fileWriteLoop (ok : ℕ → Bool) : ℕ → Inode → ℕ → List UInt8 → Inode × ℕ
  | 0, inode, _, buf => (inode, buf.length)
  | fuel + 1, inode, pos, buf =>
    if buf = [] then (inode, 0)
    else if ¬ ok (pos / BLOCK_SIZE) then (inode, buf.length)
    else
      let c := min (BLOCK_SIZE - pos % BLOCK_SIZE) buf.length
      let inode := { inode with
        iSize := max inode.iSize (pos + c), data := storeBytes inode.data pos (buf.take c) }
      fileWriteLoop ok fuel inode (pos + c) (buf.drop c)

def fileWrite (s : State) (f : ℕ) (buf : List UInt8) (ok : ℕ → Bool) : State × Ret :=
  let x := s.files f
  let append := x.fFlags &&& O_APPEND.setWidth 16 ≠ 0
  let pos := if append then (s.inodes x.fInode).iSize else x.fPos
  let (inode, left) := fileWriteLoop ok buf.length (s.inodes x.fInode) pos buf
  let i := buf.length - left
  let s := s.setInode x.fInode fun _ => inode
  let s := if append then s else s.setFile f fun x => { x with fPos := pos + i }
  (s, if i = 0 then .err .EPERM else .num i)

def sysWrite (s : State) (T : Task) (fd : ℕ) (buf : List UInt8) (ok : ℕ → Bool) (io : Io) :
    State × Ret :=
  match if fd < NR_OPEN then T.filp fd else none with
  | none => (s, .err .EINVAL)
  | some d =>
    let file := s.files d.file
    let inode := s.inodes file.fInode
    if buf = [] then (s, .num 0)
    else if inode.iPipe then
      if file.fMode &&& 2 ≠ 0 then (s, io.ret) else (s, .err Errno.EIO)
    else if inode.isChr || inode.isBlk then
      (s.setFile d.file fun x => { x with fPos := io.pos }, io.ret)
    else if inode.isReg then fileWrite s d.file buf ok
    else (s, .err .EINVAL)

/-- `sys_lseek` to a position it accepts. -/
def sysLseek (s : State) (T : Task) (fd pos : ℕ) : State × Ret :=
  match if fd < NR_OPEN then T.filp fd else none with
  | none => (s, .err .EBADF)
  | some d => (s.setFile d.file fun x => { x with fPos := pos }, .num pos)

/-! ## Calls -/

/-- A system call of a task, or a change of its rights or of the attributes of a file. -/
inductive Call
  | open (flag mode : BitVec 32) (path : Lookup) (busy : Bool)
  | close (fd : ℕ)
  | dup (fd : ℕ)
  | dup2 (oldfd newfd : ℕ)
  | setFl (fd : ℕ) (arg : BitVec 16)
  | fork (nr : Fin NR_TASKS)
  | exit
  | pipe (inode : Option ℕ)
  | read (fd count : ℕ) (ok : ℕ → Bool) (io : Io)
  | write (fd : ℕ) (buf : List UInt8) (ok : ℕ → Bool) (io : Io)
  | lseek (fd pos : ℕ)
  | setCred (cred : Cred) (umask : BitVec 32)
  | setAttr (i : ℕ) (mode : BitVec 16) (uid gid nlinks : ℕ)

def run (s : State) (t : Fin NR_TASKS) (T : Task) : Call → Option (State × Ret)
  | .open flag mode path busy =>
    if path.Valid s then some (sysOpen s t T flag mode path busy) else none
  | .close fd => sysClose s t T fd
  | .dup fd => some (sysDup s t T fd)
  | .dup2 oldfd newfd => sysDup2 s t T oldfd newfd
  | .setFl fd arg => some (setFl s T fd arg)
  | .fork nr => fork s T nr
  | .exit => doExit s t
  | .pipe inode =>
    if ∀ i ∈ inode, s.Unused i then some (sysPipe s t T inode) else none
  | .read fd count ok io => some (sysRead s T fd count ok io)
  | .write fd buf ok io => some (sysWrite s T fd buf ok io)
  | .lseek fd pos => some (sysLseek s T fd pos)
  | .setCred cred umask => some (s.setTask t { T with cred := cred, umask := umask }, .num 0)
  | .setAttr i mode uid gid nlinks =>
    some (s.setInode i fun x =>
      { x with iMode := mode, iUid := uid, iGid := gid, iNlinks := nlinks }, .num 0)

/-- The call of task `t`, with what it returns. -/
def call (s : State) (a : Fin NR_TASKS × Call) : Option (State × Ret) :=
  (s.tasks a.1).bind fun T => run s a.1 T a.2

def step (a : Fin NR_TASKS × Call) (s : State) : Option State := (call s a).map Prod.fst

end Linux012.Files
