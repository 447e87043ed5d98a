import Mathlib.Data.List.FinRange
import Mathlib.Logic.Function.Basic

/-! # The file table

The calls of `fs/open.c`, `fs/fcntl.c` and `fs/pipe.c` that make and close descriptors, with
those of `fork`, `execve` and `exit` that copy and close them. Each call runs to its end. What a
path leads to, what a device answers and whether there is memory come with the call.
-/

namespace Linux012.FileTable

open Function

def NR_TASKS : ℕ := 64
def NR_OPEN : ℕ := 20
def NR_FILE : ℕ := 64

def EAGAIN : ℤ := 11
def EBADF : ℤ := 9
def EINVAL : ℤ := 22
def EMFILE : ℤ := 24

def O_CREAT : BitVec 32 := 0o100
def O_TRUNC : BitVec 32 := 0o1000
def O_APPEND : BitVec 32 := 0o2000
def O_NONBLOCK : BitVec 32 := 0o4000

def S_IFMT : BitVec 16 := 0o170000
def S_IFCHR : BitVec 16 := 0o020000

def F_DUPFD : ℕ := 0
def F_GETFD : ℕ := 1
def F_SETFD : ℕ := 2
def F_GETFL : ℕ := 3
def F_SETFL : ℕ := 4

/-- `fInode` is the index of an entry of the inode table. -/
structure File where
  fMode : BitVec 16
  fFlags : BitVec 16
  fCount : ℕ
  fInode : ℕ
  fPos : ℕ

/-- A slot of `task` is free, or its task is alive or has exited. -/
inductive Life | free | live | zombie
  deriving DecidableEq

structure Task where
  life : Life
  filp : Fin NR_OPEN → Option (Fin NR_FILE)
  closeOnExec : BitVec 32
  pwd : Option ℕ
  root : Option ℕ
  executable : Option ℕ
  library : Option ℕ

structure State where
  task : Fin NR_TASKS → Task
  file : Fin NR_FILE → File
  iCount : ℕ → ℕ

namespace State

def setTask (s : State) (t : Fin NR_TASKS) (g : Task → Task) : State :=
  { s with task := update s.task t (g (s.task t)) }

def setFile (s : State) (f : Fin NR_FILE) (g : File → File) : State :=
  { s with file := update s.file f (g (s.file f)) }

def setFilp (s : State) (t : Fin NR_TASKS) (fd : Fin NR_OPEN) (o : Option (Fin NR_FILE)) : State :=
  s.setTask t fun T => { T with filp := update T.filp fd o }

def setCount (s : State) (f : Fin NR_FILE) (c : ℕ) : State :=
  s.setFile f fun x => { x with fCount := c }

/-- `f_count` is an `unsigned short`. -/
def incCount (s : State) (f : Fin NR_FILE) : State :=
  s.setCount f (((s.file f).fCount + 1) % 65536)

/-- One more reference to an inode. -/
def grab (s : State) : Option ℕ → State
  | none => s
  | some i => { s with iCount := update s.iCount i (s.iCount i + 1) }

/-- `none` is the panic for an inode that is not in use. -/
def iput (s : State) : Option ℕ → Option State
  | none => some s
  | some i =>
    if s.iCount i = 0 then none else some { s with iCount := update s.iCount i (s.iCount i - 1) }

/-- `close_on_exec &= ~(1 << fd)` -/
def keepOnExec (s : State) (t : Fin NR_TASKS) (fd : Fin NR_OPEN) : State :=
  s.setTask t fun T => { T with closeOnExec := T.closeOnExec &&& ~~~((1 : BitVec 32) <<< fd.val) }

end State

/-- The state after a call and what it returns; `none` is a panic. -/
abbrev Result := Option (State × ℤ)

/-! ## open and close -/

structure Opened where
  inode : ℕ
  iMode : BitVec 16

def emptyFd (s : State) (t : Fin NR_TASKS) : Option (Fin NR_OPEN) :=
  (List.finRange NR_OPEN).find? fun fd => (s.task t).filp fd = none

def emptyFile (s : State) : Option (Fin NR_FILE) :=
  (List.finRange NR_FILE).find? fun f => (s.file f).fCount = 0

/-- `namei` is what `open_namei` answers, with a reference to the inode it has found, and `busy`
the answer of `check_char_dev`. -/
def sysOpen (t : Fin NR_TASKS) (flag : BitVec 32) (namei : Except ℤ Opened) (busy : Bool)
    (s : State) : Result :=
  match emptyFd s t with
  | none => some (s, -EINVAL)
  | some fd =>
    let s := s.keepOnExec t fd
    match emptyFile s with
    | none => some (s, -EINVAL)
    | some f =>
      let s := (s.setFilp t fd (some f)).incCount f
      match namei with
      | .error e => some ((s.setFilp t fd none).setCount f 0, e)
      | .ok x =>
        let s := s.grab (some x.inode)
        if x.iMode &&& S_IFMT = S_IFCHR ∧ busy then
          (s.iput (some x.inode)).map fun s => ((s.setFilp t fd none).setCount f 0, -EAGAIN)
        else
          some (s.setFile f fun _ =>
            { fMode := x.iMode, fFlags := flag.setWidth 16, fCount := 1, fInode := x.inode,
              fPos := 0 }, fd.val)

def sysCreat (t : Fin NR_TASKS) (namei : Except ℤ Opened) (busy : Bool) (s : State) : Result :=
  sysOpen t (O_CREAT ||| O_TRUNC) namei busy s

def sysClose (t : Fin NR_TASKS) (fd : ℕ) (s : State) : Result :=
  if h : fd < NR_OPEN then
    let fd : Fin NR_OPEN := ⟨fd, h⟩
    let s := s.keepOnExec t fd
    match (s.task t).filp fd with
    | none => some (s, -EINVAL)
    | some f =>
      let s := s.setFilp t fd none
      -- Close: file count is 0
      if (s.file f).fCount = 0 then none
      else
        let s := s.setCount f ((s.file f).fCount - 1)
        if (s.file f).fCount ≠ 0 then some (s, 0)
        else (s.iput (some (s.file f).fInode)).map fun s => (s, 0)
  else some (s, -EINVAL)

/-! ## dup and fcntl -/

/-- The file of a descriptor. -/
def filpAt (s : State) (t : Fin NR_TASKS) (fd : ℕ) : Option (Fin NR_FILE) :=
  if h : fd < NR_OPEN then (s.task t).filp ⟨fd, h⟩ else none

def dupfd (t : Fin NR_TASKS) (fd arg : ℕ) (s : State) : State × ℤ :=
  match filpAt s t fd with
  | none => (s, -EBADF)
  | some f =>
    if NR_OPEN ≤ arg then (s, -EINVAL)
    else
      match (List.finRange NR_OPEN).find? fun a => arg ≤ a.val ∧ (s.task t).filp a = none with
      | none => (s, -EMFILE)
      | some a => (((s.keepOnExec t a).setFilp t a (some f)).incCount f, a.val)

def sysDup (t : Fin NR_TASKS) (fd : ℕ) (s : State) : State × ℤ := dupfd t fd 0 s

def sysDup2 (t : Fin NR_TASKS) (oldfd newfd : ℕ) (s : State) : Result :=
  (sysClose t newfd s).map fun r => dupfd t oldfd newfd r.1

def sysFcntl (t : Fin NR_TASKS) (fd cmd : ℕ) (arg : BitVec 32) (s : State) : State × ℤ :=
  if h : fd < NR_OPEN then
    match (s.task t).filp ⟨fd, h⟩ with
    | none => (s, -EBADF)
    | some f =>
      if cmd = F_DUPFD then dupfd t fd arg.toNat s
      else if cmd = F_GETFD then (s, (((s.task t).closeOnExec >>> fd) &&& 1).toNat)
      else if cmd = F_SETFD then
        if arg &&& 1 ≠ 0 then
          (s.setTask t fun T => { T with closeOnExec := T.closeOnExec ||| ((1 : BitVec 32) <<< fd) }, 0)
        else (s.keepOnExec t ⟨fd, h⟩, 0)
      else if cmd = F_GETFL then (s, (s.file f).fFlags.toNat)
      else if cmd = F_SETFL then
        let m : BitVec 16 := (O_APPEND ||| O_NONBLOCK).setWidth 16
        (s.setFile f fun x =>
          { x with fFlags := (x.fFlags &&& ~~~m) ||| (arg.setWidth 16 &&& m) }, 0)
      else (s, -1)
  else (s, -EBADF)

/-! ## pipe -/

/-- The first `j` free entries of the file table; each is taken. -/
def takeFiles : ℕ → List (Fin NR_FILE) → State → State × List (Fin NR_FILE)
  | 0, _, s => (s, [])
  | _ + 1, [], s => (s, [])
  | j + 1, i :: is, s =>
    if (s.file i).fCount = 0 then
      let r := takeFiles j is (s.incCount i)
      (r.1, i :: r.2)
    else takeFiles (j + 1) is s

/-- A free descriptor for each of the files. -/
def takeFds (t : Fin NR_TASKS) :
    List (Fin NR_FILE) → List (Fin NR_OPEN) → State → State × List (Fin NR_OPEN)
  | [], _, s => (s, [])
  | _ :: _, [], s => (s, [])
  | f :: fs, i :: is, s =>
    if (s.task t).filp i = none then
      let r := takeFds t fs is (s.setFilp t i (some f))
      (r.1, i :: r.2)
    else takeFds t (f :: fs) is s

/-- `get_pipe_inode` finds an inode that is not in use, and a page for it, or nothing. -/
def getPipeInode (s : State) (found : Option ℕ) : Option ℕ := found.filter fun i => s.iCount i = 0

def sysPipe (t : Fin NR_TASKS) (found : Option ℕ) (s : State) : State × ℤ :=
  match takeFiles 2 (List.finRange NR_FILE) s with
  | (s, f₀ :: f₁ :: _) =>
    match takeFds t [f₀, f₁] (List.finRange NR_OPEN) s with
    | (s, fd₀ :: fd₁ :: _) =>
      match getPipeInode s found with
      | none =>
        let s := (s.setFilp t fd₀ none).setFilp t fd₁ none
        ((s.setCount f₀ 0).setCount f₁ 0, -1)
      | some i =>
        let s := { s with iCount := update s.iCount i 2 }
        let s := s.setFile f₀ fun x => { x with fInode := i, fPos := 0, fMode := 1 }
        (s.setFile f₁ fun x => { x with fInode := i, fPos := 0, fMode := 2 }, 0)
    | (s, [fd₀]) => (((s.setFilp t fd₀ none).setCount f₀ 0).setCount f₁ 0, -1)
    | (s, []) => ((s.setCount f₀ 0).setCount f₁ 0, -1)
  | (s, [f₀]) => (s.setCount f₀ 0, -1)
  | (s, []) => (s, -1)

/-! ## fork, execve and exit -/

def findEmptyProcess (s : State) : Option (Fin NR_TASKS) :=
  (List.finRange NR_TASKS).find? fun i => i.val ≠ 0 ∧ (s.task i).life = .free

/-- The loop of `copy_process` over the files of the new task. -/
def countFiles (nr : Fin NR_TASKS) : List (Fin NR_OPEN) → State → State
  | [], s => s
  | i :: is, s =>
    countFiles nr is (match (s.task nr).filp i with
      | none => s
      | some f => s.incCount f)

/-- `page` and `copied` tell whether `get_free_page` and `copy_mem` succeed. -/
def copyProcess (nr t : Fin NR_TASKS) (page copied : Bool) (pid : ℤ) (s : State) : State × ℤ :=
  if ¬ page then (s, -EAGAIN)
  else
    let s := s.setTask nr fun _ => s.task t
    if ¬ copied then (s.setTask nr fun T => { T with life := .free }, -EAGAIN)
    else
      let s := countFiles nr (List.finRange NR_OPEN) s
      let s := ((s.grab (s.task t).pwd).grab (s.task t).root).grab (s.task t).executable
      (s.grab (s.task t).library, pid)

def sysFork (t : Fin NR_TASKS) (page copied : Bool) (pid : ℤ) (s : State) : State × ℤ :=
  match findEmptyProcess s with
  | none => (s, -EAGAIN)
  | some nr => copyProcess nr t page copied pid s

/-- Close the descriptors of the list that meet a test. -/
def closeIf (test : Task → Fin NR_OPEN → Bool) (t : Fin NR_TASKS) :
    List (Fin NR_OPEN) → State → Option State
  | [], s => some s
  | i :: is, s =>
    if test (s.task t) i then (sysClose t i s).bind fun r => closeIf test t is r.1
    else closeIf test t is s

/-- `image` is the inode of the new program, to which `namei` has taken a reference, when there is
no error before the old one is given up. -/
def doExecve (t : Fin NR_TASKS) (image : Except ℤ ℕ) (s : State) : Result :=
  match image with
  | .error e => some (s, e)
  | .ok inode =>
    let s := s.grab (some inode)
    (s.iput (s.task t).executable).bind fun s =>
      let s := s.setTask t fun T => { T with executable := some inode }
      (closeIf (fun T i => (T.closeOnExec >>> i.val) &&& 1 ≠ 0) t (List.finRange NR_OPEN) s).map
        fun s => (s.setTask t fun T => { T with closeOnExec := 0 }, 0)

def doExit (t : Fin NR_TASKS) (s : State) : Result :=
  (closeIf (fun T i => (T.filp i).isSome) t (List.finRange NR_OPEN) s).bind fun s =>
  (s.iput (s.task t).pwd).bind fun s =>
  let s := s.setTask t fun T => { T with pwd := none }
  (s.iput (s.task t).root).bind fun s =>
  let s := s.setTask t fun T => { T with root := none }
  (s.iput (s.task t).executable).bind fun s =>
  let s := s.setTask t fun T => { T with executable := none }
  (s.iput (s.task t).library).map fun s =>
  (s.setTask t fun T => { T with library := none, life := .zombie }, 0)

/-- The father has waited for a task that has exited. -/
def release (nr : Fin NR_TASKS) (s : State) : State × ℤ :=
  if (s.task nr).life = .zombie then (s.setTask nr fun T => { T with life := .free }, 0) else (s, 0)

/-! ## Calls -/

inductive Call
  | open (flag : BitVec 32) (namei : Except ℤ Opened) (busy : Bool)
  | creat (namei : Except ℤ Opened) (busy : Bool)
  | close (fd : ℕ)
  | dup (fd : ℕ)
  | dup2 (oldfd newfd : ℕ)
  | fcntl (fd cmd : ℕ) (arg : BitVec 32)
  | pipe (found : Option ℕ)
  | fork (page copied : Bool) (pid : ℤ)
  | execve (image : Except ℤ ℕ)
  | exit
  | release (nr : Fin NR_TASKS)

def Call.exec (t : Fin NR_TASKS) (s : State) : Call → Result
  | .open flag namei busy => sysOpen t flag namei busy s
  | .creat namei busy => sysCreat t namei busy s
  | .close fd => sysClose t fd s
  | .dup fd => some (sysDup t fd s)
  | .dup2 oldfd newfd => sysDup2 t oldfd newfd s
  | .fcntl fd cmd arg => some (sysFcntl t fd cmd arg s)
  | .pipe found => some (sysPipe t found s)
  | .fork page copied pid => some (sysFork t page copied pid s)
  | .execve image => doExecve t image s
  | .exit => doExit t s
  | .release nr => some (FileTable.release nr s)

/-- A call of a task that is alive. -/
def step (a : Fin NR_TASKS × Call) (s : State) : Option State :=
  if (s.task a.1).life = .live then (a.2.exec a.1 s).map Prod.fst else none

def firstTask (root : ℕ) : Task where
  life := .live
  filp _ := none
  closeOnExec := 0
  pwd := some root
  root := some root
  executable := none
  library := none

def freeTask : Task where
  life := .free
  filp _ := none
  closeOnExec := 0
  pwd := none
  root := none
  executable := none
  library := none

/-- After the root file system has been mounted; `other` are the references to inodes that no
task and no open file has. -/
def initial (root : ℕ) (other : ℕ → ℕ) : State where
  task t := if t.val = 0 then firstTask root else freeTask
  file _ := { fMode := 0, fFlags := 0, fCount := 0, fInode := 0, fPos := 0 }
  iCount i := (if i = root then 2 else 0) + other i

end Linux012.FileTable
