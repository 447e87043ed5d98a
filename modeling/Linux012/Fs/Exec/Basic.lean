import Mathlib.Data.UInt
import Mathlib.Tactic
import Linux012.Lib.Terminated
import Linux012.Fs.Files.Basic
import Linux012.Lib.Index

/-! # Executing a program

`do_execve` of `fs/exec.c` with `copy_strings`, `change_ldt` and `create_tables`. What the paths lead
to, what the inodes and their first blocks hold and which pages can be had come with the call. A string
lies in the user or in the kernel segment, and reading it through the other one, like an index
outside `page[]`, leads astray.
-/

namespace Linux012.Exec

open Function Files Terminated
open scoped Index

def PAGE_SIZE : ℕ := 4096
def MAX_ARG_PAGES : ℕ := 32
def TASK_SIZE : ℕ := 0x4000000
def LIBRARY_SIZE : ℕ := 0x400000
def BLOCK_SIZE : UInt32 := 1024

def ZMAGIC : UInt32 := 0o413

def S_ISUID : BitVec 16 := 0o4000
def S_ISGID : BitVec 16 := 0o2000

inductive Errno
  | ENOENT | EACCES | ENOEXEC | ENOMEM
  deriving DecidableEq

inductive Stop
  | panic
  | astray
  deriving DecidableEq

/-- What the fs register selects -/
inductive Seg
  | user
  | kernel
  deriving DecidableEq

/-- A string without its terminator -/
abbrev Str := Word (0 : UInt8)

/-- A pointer to a string -/
structure Ptr where
  seg : Seg
  str : Str

/-- A vector of pointers, which ends in NULL -/
structure Vec where
  seg : Seg
  ptrs : List Ptr

/-- The strings are where the vector is. -/
def Vec.of (seg : Seg) (l : List Str) : Vec := ⟨seg, l.map (Ptr.mk seg)⟩

/-- What `do_execve` looks at in an inode; `block` is the buffer of its first block and the bytes. -/
structure Inode where
  mode : BitVec 16
  uid : ℕ
  gid : ℕ
  size : UInt32
  block : Option (ℕ × (ℕ → UInt8))

/-- The inodes, what a path leads to and the free page that is found for each entry of `page[]`. -/
structure World where
  inode : ℕ → Inode
  lookup : Str → Option ℕ
  grant : Fin MAX_ARG_PAGES → Option ℕ
  grant_inj : ∀ i j a, grant i = some a → grant j = some a → i = j

structure Sigaction where
  handler : UInt32
  mask : UInt32
  flags : UInt32

def SIG_IGN : UInt32 := 1

/-- `struct task_struct` with the registers that the system call returns to and the memory. -/
structure Task where
  cred : Cred
  suid : ℕ
  sgid : ℕ
  executable : Option ℕ
  signal : UInt32
  sigaction : Fin 32 → Sigaction
  closeOnExec : UInt32
  filp : Fin NR_OPEN → Option ℕ
  endCode : UInt32
  endData : UInt32
  brk : UInt32
  startStack : ℕ
  cs : UInt32
  eip : UInt32
  esp : ℕ
  mem : ℕ → UInt8

/-- The reference counts of inodes, buffers and pages, the bytes of the pages, `page[]` and the
current task. -/
structure State where
  fs : Seg
  iCount : ℕ → ℕ
  bCount : ℕ → ℕ
  memMap : ℕ → ℕ
  data : ℕ → ℕ → UInt8
  page : Fin MAX_ARG_PAGES → Option ℕ
  task : Task

namespace State

def setFs (s : State) (fs : Seg) : State := { s with fs }

def iget (s : State) (i : ℕ) : State := { s with iCount := update s.iCount i (s.iCount i + 1) }

def iput (s : State) (i : ℕ) : State := { s with iCount := update s.iCount i (s.iCount i - 1) }

def bget (s : State) (b : ℕ) : State := { s with bCount := update s.bCount b (s.bCount b + 1) }

def brelse (s : State) (b : ℕ) : State := { s with bCount := update s.bCount b (s.bCount b - 1) }

def freePage (s : State) (a : ℕ) : State := { s with memMap := update s.memMap a (s.memMap a - 1) }

/-- A byte of the argument area -/
def area (s : State) (x : ℕ) : UInt8 :=
  if h : x / PAGE_SIZE < MAX_ARG_PAGES then
    match s.page ⟨x / PAGE_SIZE, h⟩ with
    | some pag => s.data pag (x % PAGE_SIZE)
    | none => 0
  else 0

end State

/-! ## The strings -/

/-- The pointer at an index, `none` for NULL. -/
def getFsLong (fs : Seg) (argv : Vec) (i : ℕ) : Except Stop (Option Ptr) :=
  if fs = argv.seg then .ok argv.ptrs[i]? else .error .astray

def getFsByte (fs : Seg) (tmp : Ptr) (i : ℕ) : Except Stop UInt8 :=
  if fs = tmp.seg then .ok (tmp.str.code.getD i 0) else .error .astray

/-- The loop that looks for the end of the string -/
def strLen (fs : Seg) (tmp : Ptr) : Except Stop ℕ :=
  if fs = tmp.seg then .ok tmp.str.code.length else .error .astray

def count (argv : Vec) : ℕ := argv.ptrs.length

/-- The local variables of `copy_strings` that go from one string to the next -/
structure Cursor where
  p : UInt32
  offset : ℕ
  pag : ℕ

/-- `page[p/PAGE_SIZE]`, or a new page; `none` when there is no free page. -/
def pageFor (w : World) (i : ℕ) (s : State) : Except Stop (Option ℕ × State) :=
  if h : i < MAX_ARG_PAGES then
    match s.page ⟨i, h⟩ with
    | some pag => .ok (some pag, s)
    | none =>
      match w.grant ⟨i, h⟩ with
      | none => .ok (none, s)
      | some pag => .ok (some pag, { s with
          page := update s.page ⟨i, h⟩ (some pag)
          memMap := update s.memMap pag (s.memMap pag + 1)
          data := update s.data pag fun _ => 0 })
  else .error .astray

/-- The cursor goes down by one byte. -/
def nextByte (w : World) (fromKmem : Fin 3) (oldFs : Seg) (c : Cursor) (s : State) :
    Except Stop (Option Cursor × State) :=
  let p := c.p - 1
  if c.offset = 0 then
    let s := if fromKmem = 2 then s.setFs oldFs else s
    (pageFor w (p.toNat / PAGE_SIZE) s).map fun
      | (none, s) => (none, s)
      | (some pag, s) => (some ⟨p, p.toNat % PAGE_SIZE, pag⟩, if fromKmem = 2 then s.setFs .kernel else s)
  else .ok (some ⟨p, c.offset - 1, c.pag⟩, s)

def State.store (s : State) (pag offset : ℕ) (v : UInt8) : State :=
  { s with data := update s.data pag (update (s.data pag) offset v) }

/-- The loop over the bytes of a string; `len` are left. -/
def copyBytes (w : World) (fromKmem : Fin 3) (oldFs : Seg) (tmp : Ptr) :
    ℕ → Cursor → State → Except Stop (Option Cursor × State)
  | 0, c, s => .ok (some c, s)
  | len + 1, c, s => do
    match ← nextByte w fromKmem oldFs c s with
    | (none, s) => .ok (none, s)
    | (some c, s) =>
      let v ← getFsByte s.fs tmp len
      copyBytes w fromKmem oldFs tmp len c (s.store c.pag c.offset v)

/-- The loop over the strings; `argc` are left. -/
def copyArgs (w : World) (fromKmem : Fin 3) (oldFs : Seg) (argv : Vec) :
    ℕ → Cursor → State → Except Stop (Option Cursor × State)
  | 0, c, s => .ok (some c, s)
  | argc + 1, c, s => do
    let s := if fromKmem = 1 then s.setFs .kernel else s
    match ← getFsLong s.fs argv argc with
    | none => .error .panic
    | some tmp =>
      let s := if fromKmem = 1 then s.setFs oldFs else s
      let len ← strLen s.fs tmp
      if c.p - UInt32.ofNat len < 0 then .ok (none, s.setFs oldFs)
      else
        match ← copyBytes w fromKmem oldFs tmp len c s with
        | (none, s) => .ok (none, s)
        | (some c, s) => copyArgs w fromKmem oldFs argv argc c s

def copyStrings (w : World) (argc : ℤ) (argv : Vec) (p : UInt32) (fromKmem : Fin 3) (s : State) :
    Except Stop (UInt32 × State) :=
  if p = 0 then .ok (0, s)
  else
    let oldFs := s.fs
    let s := if fromKmem = 2 then s.setFs .kernel else s
    (copyArgs w fromKmem oldFs argv argc.toNat ⟨p, 0, 0⟩ s).map fun
      | (none, s) => (0, s)
      | (some c, s) => (c.p, if fromKmem = 2 then s.setFs oldFs else s)

/-! ## The new stack -/

def putFsLong (mem : ℕ → UInt8) (v : UInt32) (addr : ℕ) : ℕ → UInt8 := fun a =>
  if addr ≤ a ∧ a < addr + 4 then UInt8.ofNat (v.toNat / 256 ^ (a - addr)) else mem a

def getLong (mem : ℕ → UInt8) (addr : ℕ) : UInt32 :=
  UInt32.ofNat ((mem addr).toNat + 256 * (mem (addr + 1)).toNat + 65536 * (mem (addr + 2)).toNat +
    16777216 * (mem (addr + 3)).toNat)

/-- One of the loops of `create_tables`; `n` strings are left. -/
def fillTable : ℕ → ℕ → ℕ → (ℕ → UInt8) → Except Stop (ℕ × ℕ × (ℕ → UInt8))
  | 0, argv, p, mem => .ok (argv, p, mem)
  | n + 1, argv, p, mem =>
    let mem := putFsLong mem (UInt32.ofNat p) argv
    match skip 0 mem (TASK_SIZE - p) p with
    | none => .error .astray
    | some p => fillTable n (argv + 4) p mem

def createTables (p argc envc : ℕ) (mem : ℕ → UInt8) : Except Stop (ℕ × (ℕ → UInt8)) := do
  let envp := p / 4 * 4 - 4 * (envc + 1)
  let argv := envp - 4 * (argc + 1)
  let mem := putFsLong mem (UInt32.ofNat envp) (argv - 4)
  let mem := putFsLong mem (UInt32.ofNat argv) (argv - 8)
  let mem := putFsLong mem (UInt32.ofNat argc) (argv - 12)
  let (argvEnd, p, mem) ← fillTable argc argv p mem
  let mem := putFsLong mem 0 argvEnd
  let (envpEnd, _, mem) ← fillTable envc envp p mem
  let mem := putFsLong mem 0 envpEnd
  .ok (argv - 12, mem)

/-- Where `change_ldt` puts the argument area. -/
def areaBase : ℕ := TASK_SIZE - LIBRARY_SIZE - MAX_ARG_PAGES * PAGE_SIZE

/-- The memory that `change_ldt` leaves; the rest is loaded on demand and shown as zeros. -/
def changeLdt (s : State) : ℕ → UInt8 := fun a =>
  if areaBase ≤ a ∧ a < TASK_SIZE - LIBRARY_SIZE then s.area (a - areaBase) else 0

/-! ## The file -/

/-- `struct exec` -/
structure Header where
  magic : UInt32
  text : UInt32
  data : UInt32
  bss : UInt32
  syms : UInt32
  entry : UInt32
  trsize : UInt32
  drsize : UInt32

def Header.read (bytes : ℕ → UInt8) : Header :=
  ⟨getLong bytes 0, getLong bytes 4, getLong bytes 8, getLong bytes 12, getLong bytes 16,
    getLong bytes 20, getLong bytes 24, getLong bytes 28⟩

/-- `N_TXTOFF` -/
def Header.txtOff (ex : Header) : UInt32 := if ex.magic = ZMAGIC then 1024 - 32 + 32 else 32

/-- Whether the header is one that can be executed -/
def Header.ok (ex : Header) (size : UInt32) : Bool :=
  !(ex.magic ≠ ZMAGIC || ex.trsize ≠ 0 || ex.drsize ≠ 0 || ex.text + ex.data + ex.bss > 0x3000000 ||
    size < ex.text + ex.data + ex.syms + ex.txtOff) && ex.txtOff = BLOCK_SIZE

/-- What the new program runs as -/
structure Ids where
  uid : ℕ
  gid : ℕ

/-- The checks at `restart_interp` -/
def checkInode (cred : Cred) (inode : Inode) : Except Errno Ids :=
  if inode.mode &&& S_IFMT ≠ S_IFREG then .error .EACCES
  else
    let i := if cred.euid = inode.uid then inode.mode >>> 6
      else if cred.inGroupP inode.gid then inode.mode >>> 3 else inode.mode
    if i &&& 1 = 0 ∧ ¬ (inode.mode &&& 0o111 ≠ 0 ∧ cred.suser) then .error .ENOEXEC
    else .ok ⟨if inode.mode &&& S_ISUID ≠ 0 then inode.uid else cred.euid,
      if inode.mode &&& S_ISGID ≠ 0 then inode.gid else cred.egid⟩

/-! ## Scripts -/

def isBlank (c : UInt8) : Bool := c = 32 || c = 9

/-- `'\n'` -/
def newline : UInt8 := 10

/-- `'/'` -/
def slash : UInt8 := 47

/-- The loop that looks for the last component of the interpreter's path -/
def scanName : List UInt8 → List UInt8 → List UInt8
  | [], iName => iName
  | c :: cp, iName => scanName cp (if c = slash then cp else iName)

/-- What the first line names. -/
structure Script where
  interp : Str
  iName : Str
  iArg : Option Str

/-- A list that is part of a string is one. -/
def Str.sub (l : List UInt8) (s : Str) (h : l.Sublist s.body) : Str := ⟨l, fun hm => s.mark_notMem (h.subset hm)⟩

theorem scanName_suffix (cp : List UInt8) : ∀ l iName, cp.IsSuffix l → iName.IsSuffix l →
    (scanName cp iName).IsSuffix l := by
  induction cp with
  | nil => exact fun _ _ _ h => h
  | cons c cp ih =>
    intro l iName hcp hname
    have hcp' : cp.IsSuffix l := (List.suffix_cons c cp).trans hcp
    refine ih l _ hcp' ?_
    split_ifs
    · exact hcp'
    · exact hname

/-- The first 127 bytes behind `#!`, up to a zero -/
def buffer (bytes : ℕ → UInt8) : List UInt8 := ((List.range 127).map fun i => bytes (i + 2)).takeWhile (· ≠ 0)

theorem buffer_notMem (bytes : ℕ → UInt8) : (0 : UInt8) ∉ buffer bytes := fun h => by
  simpa using List.all_eq_true.mp List.all_takeWhile _ h

/-- The text of the line behind the blanks; `none` when there is no newline or no text. -/
def scriptText (bytes : ℕ → UInt8) : Option Str :=
  let buf := buffer bytes
  if newline ∈ buf then
    let cp := (buf.takeWhile (· ≠ newline)).dropWhile isBlank
    if cp = [] then none
    else some (Str.sub cp ⟨buf, buffer_notMem bytes⟩
      ((List.dropWhile_sublist _).trans (List.takeWhile_sublist _)))
  else none

/-- The interpreter, its name and the rest of the line -/
def parseScript (bytes : ℕ → UInt8) : Option Script :=
  (scriptText bytes).map fun text =>
    let path := Str.sub (text.body.takeWhile (! isBlank ·)) text (List.takeWhile_sublist _)
    { interp := path
      iName := Str.sub (scanName path.body path.body) path
        (scanName_suffix _ _ _ List.suffix_rfl List.suffix_rfl).sublist
      iArg :=
        let cp := text.body.dropWhile (! isBlank ·)
        if cp = [] then none
        else some (Str.sub cp.tail text ((List.tail_sublist _).trans (List.dropWhile_sublist _))) }

/-- The block begins with `#!`. -/
def isScript (bytes : ℕ → UInt8) : Bool := bytes 0 = 35 && bytes 1 = 33

/-! ## The call -/

abbrev Result := Except Errno Unit × State

def freePages (s : State) : List (Fin MAX_ARG_PAGES) → State
  | [] => s
  | i :: l => freePages (match s.page i with | some a => s.freePage a | none => s) l

def execError1 (e : Errno) (s : State) : Except Stop Result :=
  .ok (.error e, freePages s (List.finRange MAX_ARG_PAGES))

def execError2 (inode : ℕ) (e : Errno) (s : State) : Except Stop Result := execError1 e (s.iput inode)

/-- The arguments of the system call, which lie in the user segment -/
structure Call where
  filename : Str
  argv : List Str
  envp : List Str

/-- `current->executable` is put. -/
def State.putExecutable (s : State) : State :=
  match s.task.executable with
  | some i => s.iput i
  | none => s

/-- `do_execve` from the point of no return -/
def commit (inode : ℕ) (ids : Ids) (ex : Header) (argc : ℤ) (envc : ℕ) (p : UInt32) (s : State) :
    Except Stop Result := do
  let s := s.putExecutable
  let (sp, mem) ← createTables (p.toNat + areaBase) argc.toNat envc (changeLdt s)
  let t := s.task
  .ok (.ok (), { s with fs := .user, task := { t with
    cred := { t.cred with euid := ids.uid, egid := ids.gid }
    suid := ids.uid
    sgid := ids.gid
    executable := some inode
    signal := 0
    sigaction := fun i => ⟨if (t.sigaction i).handler = SIG_IGN then SIG_IGN else 0, 0, 0⟩
    filp := fun i => if (t.closeOnExec >>> UInt32.ofNat i) &&& 1 = 1 then none else t.filp i
    closeOnExec := 0
    endCode := ex.text
    endData := ex.data + ex.text
    brk := ex.bss + (ex.data + ex.text)
    startStack := sp / 4096 * 4096
    eip := ex.entry
    esp := sp
    mem := mem } })

/-- `do_execve` from where the header has been read into `ex` -/
def execImage (w : World) (call : Call) (shBang : Bool) (inode : ℕ) (ids : Ids) (ex : Header)
    (argc : ℤ) (p : UInt32) (s : State) : Except Stop Result :=
  let envp := Vec.of .user call.envp
  let envc := count envp
  if !ex.ok (w.inode inode).size then execError2 inode .ENOEXEC s
  else if shBang then commit inode ids ex argc envc p s
  else do
    let (p, s) ← copyStrings w envc envp p 0 s
    let (p, s) ← copyStrings w argc (.of .user call.argv) p 0 s
    if p = 0 then execError2 inode .ENOMEM s else commit inode ids ex argc envc p s

/-- The argument of the interpreter, if there is one -/
def spliceArg (w : World) (iArg : Option Str) (argc : ℤ) (p : UInt32) (s : State) :
    Except Stop (ℤ × UInt32 × State) :=
  match iArg with
  | some iArg => (copyStrings w 1 (.of .kernel [iArg]) p 2 s).map fun (p, s) => (argc + 1, p, s)
  | none => .ok (argc, p, s)

/-- The interpreter is spliced in: the number of arguments, and where the strings begin. -/
def spliceScript (w : World) (call : Call) (sc : Script) (argc : ℤ) (p : UInt32) (s : State) :
    Except Stop (ℤ × UInt32 × State) := do
  let envp := Vec.of .user call.envp
  let (p, s) ← copyStrings w (count envp) envp p 0 s
  let argc := argc - 1
  let (p, s) ← copyStrings w argc (.of .user call.argv.tail) p 0 s
  let (p, s) ← copyStrings w 1 ⟨.kernel, [⟨.user, call.filename⟩]⟩ p 1 s
  let argc := argc + 1
  let (argc, p, s) ← spliceArg w sc.iArg argc p s
  let (p, s) ← copyStrings w 1 (.of .kernel [sc.iName]) p 2 s
  .ok (argc + 1, p, s)

/-- `namei`, which reads the path through fs -/
def namei (w : World) (path : Ptr) (s : State) : Except Stop (Option ℕ × State) :=
  if s.fs = path.seg then
    match w.lookup path.str with
    | none => .ok (none, s)
    | some inode => .ok (some inode, s.iget inode)
  else .error .astray

/-- The branch for `#!` up to where it goes back to `restart_interp` with the interpreter's inode -/
def execScript (w : World) (call : Call) (bytes : ℕ → UInt8) (argc : ℤ) (p : UInt32) (s : State)
    (restart : ℕ → ℤ → UInt32 → State → Except Stop Result) : Except Stop Result :=
  match parseScript bytes with
  | none => execError1 .ENOEXEC s
  | some sc => do
    let (argc, p, s) ← spliceScript w call sc argc p s
    if p = 0 then execError1 .ENOMEM s
    else
      let oldFs := s.fs
      match ← namei w ⟨.kernel, sc.interp⟩ (s.setFs .kernel) with
      | (none, s) => execError1 .ENOENT (s.setFs oldFs)
      | (some inode, s) => restart inode argc p (s.setFs oldFs)

/-- `restart_interp`; `restart` is what it goes back to. -/
def restartInterp (w : World) (call : Call) (shBang : Bool)
    (restart : ℕ → ℤ → UInt32 → State → Except Stop Result) (inode : ℕ) (argc : ℤ) (p : UInt32)
    (s : State) : Except Stop Result :=
  match checkInode s.task.cred (w.inode inode) with
  | .error e => execError2 inode e s
  | .ok ids =>
    match (w.inode inode).block with
    | none => execError2 inode .EACCES s
    | some (b, bytes) =>
      let s := s.bget b
      if isScript bytes && !shBang then
        execScript w call bytes argc p ((s.brelse b).iput inode) restart
      else execImage w call shBang inode ids (.read bytes) argc p (s.brelse b)

/-- Where the strings are copied down from. -/
def argTop : ℕ := PAGE_SIZE * MAX_ARG_PAGES - 4

/-- `do_execve`; `system_call` has made fs select the user segment. It goes back to `restart_interp`
once at most, as `sh_bang` is set then. -/
def doExecve (w : World) (call : Call) (s : State) : Except Stop Result :=
  if 0xffff &&& s.task.cs ≠ 0xf then .error .panic
  else do
    let s := { s with fs := .user, page := fun _ => none }
    match ← namei w ⟨.user, call.filename⟩ s with
    | (none, s) => .ok (.error .ENOENT, s)
    | (some inode, s) =>
      restartInterp w call false (restartInterp w call true fun _ _ _ _ => .error .panic) inode
        (count (.of .user call.argv)) (UInt32.ofNat argTop) s

end Linux012.Exec
