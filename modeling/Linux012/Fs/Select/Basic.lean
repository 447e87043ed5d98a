import Linux012.Kernel.Sched.Basic

/-! # Waiting for several files

`do_select` of `fs/select.c` with the pipes of `fs/pipe.c`. A task that selects goes on every wait
queue that `check_in`, `check_out` and `check_ex` name, and off all of them in `free_wait`.
Interrupts are disabled from the checks to the sleep. The idle task, which does not sleep, is not
among the tasks.
-/

namespace Linux012.Select

open Function Coop

export Sched (Word Task TaskState)

abbrev PAGE_SIZE : ℕ := 4096
def NR_OPEN : ℕ := 20
def SIGPIPE : ℕ := 13
def EBADF : ℤ := 9
def ERESTARTSYS : ℤ := 512

/-- The wait queues: `i_wait` and `i_wait2` of a pipe, and `proc_list` of the two queues of a
terminal. -/
inductive Queue
  | iWait (p : ℕ)
  | iWait2 (p : ℕ)
  | secondary (tty : ℕ)
  | writeQ (tty : ℕ)
  deriving DecidableEq

def PIPE_READ_WAIT : ℕ → Queue := .iWait

def PIPE_WRITE_WAIT : ℕ → Queue := .iWait2

def Queue.ofTty : Queue → Bool
  | .secondary _ => true
  | .writeQ _ => true
  | _ => false

structure Pipe where
  head : ℕ
  tail : ℕ
  iCount : ℕ
  deriving DecidableEq

namespace Pipe

/-- `PIPE_SIZE` -/
def size (p : Pipe) : ℕ := (((p.head : ℤ) - p.tail) % PAGE_SIZE).toNat

def isEmpty (p : Pipe) : Bool := p.head = p.tail

def isFull (p : Pipe) : Bool := p.size = PAGE_SIZE - 1

/-- An index is an `unsigned short`. -/
def advance (i chars : ℕ) : ℕ := (i + chars) % 65536 % PAGE_SIZE

end Pipe

/-- What a descriptor refers to; `chr` is a character device that is not a terminal. -/
inductive File
  | pipe (p : ℕ)
  | tty (k : ℕ)
  | chr
  | fifo
  | other
  deriving DecidableEq

variable {n : ℕ}

structure Sys (n : ℕ) where
  task : Fin n → Task
  jiffies : ℕ
  pipe : ℕ → Pipe
  /-- `*wait_address` -/
  wait : Queue → Option (Fin n)
  /-- A terminal has nothing to read, or no room for writing. -/
  empty : ℕ → Bool
  full : ℕ → Bool

namespace Sys

def setState (s : Sys n) (t : Fin n) (state : TaskState) : Sys n :=
  { s with task := update s.task t { s.task t with state := state } }

def schedule (s : Sys n) : Sys n := { s with task := fun t => Sched.Sys.check s.jiffies (s.task t) }

def setWait (s : Sys n) (q : Queue) (t : Option (Fin n)) : Sys n :=
  { s with wait := update s.wait q t }

/-- Make a task run, if there is one. -/
def rouse (s : Sys n) : Option (Fin n) → Sys n
  | none => s
  | some t => s.setState t .running

def wakeUp (s : Sys n) (q : Queue) : Sys n := s.rouse (s.wait q)

def updPipe (s : Sys n) (p : ℕ) (g : Pipe → Pipe) : Sys n :=
  { s with pipe := update s.pipe p (g (s.pipe p)) }

/-- A signal that is not blocked. -/
def hasSignal (s : Sys n) (t : Fin n) : Bool := (s.task t).signal &&& ~~~(s.task t).blocked ≠ 0

end Sys

/-- An entry of the `select_table`. -/
structure Entry (n : ℕ) where
  oldTask : Option (Fin n)
  waitAddress : Queue
  deriving DecidableEq

/-- The sets of a call of `do_select` and the files of the task. -/
structure Args where
  inp : BitVec 32
  outp : BitVec 32
  exp : BitVec 32
  filp : ℕ → Option File

/-- What a call returns; `do_select` also gives three sets. -/
inductive Value
  | null
  | chars (r : ℤ)
  | select (r : ℤ) (inp outp exp : BitVec 32)
  deriving DecidableEq

/-- Where a task is. The loops of the pipe calls hold `count` and `read` or `written`, and
`free_wait` the entries to come and what `do_select` returns, if it does not repeat. -/
inductive Frame (n : ℕ)
  | code
  | doSelect (a : Args)
  | atRepeat (a : Args)
  | selected (a : Args) (table : List (Entry n))
  | freeWait (a : Args) (result : Option Value) (table : List (Entry n))
  | readPipe (p count read : ℕ)
  | putBytes (p count read : ℕ)
  | writePipe (p count written : ℕ)
  | getBytes (p count written : ℕ)
  | sleepOn (q : Queue) (state : TaskState)
  | asleep (q : Queue) (tmp : Option (Fin n))

/-- What a task does next: a call, the use of a terminal, and closing an end of a pipe. A page of
its buffer may have to be brought into memory. -/
inductive Choice
  | select (a : Args) (timeout : ℕ)
  | read (p count : ℕ)
  | write (p count : ℕ)
  | ttySleep (q : Queue)
  | iput (p : ℕ)
  | pause
  | go
  | fault

/-- Interrupt handlers send signals, and a terminal gets input or sends its output. Other events
that a task sleeps for happen. -/
inductive Interrupt (n : ℕ)
  | tick
  | signal (t : Fin n) (signr : ℕ)
  | rouse (t : Fin n)
  | tty (k : ℕ) (empty full : Bool)
  | wakeUp (q : Queue)

abbrev Piece (n : ℕ) := Sys n × Next (Frame n) Value Empty

/-! ## `do_select` -/

/-- What `check_in`, `check_out` and `check_ex` find: the file is ready, or the task waits on a
queue, or neither. -/
inductive Check
  | ready
  | addWait (q : Queue)
  | neither

def checkIn (s : Sys n) : Option File → Check
  | some (.tty k) => if ¬ s.empty k then .ready else .addWait (.secondary k)
  | some (.pipe p) => if ¬ (s.pipe p).isEmpty then .ready else .addWait (.iWait p)
  | _ => .neither

def checkOut (s : Sys n) : Option File → Check
  | some (.tty k) => if ¬ s.full k then .ready else .addWait (.writeQ k)
  | some (.pipe p) => if ¬ (s.pipe p).isFull then .ready else .addWait (.iWait p)
  | _ => .neither

def checkEx (s : Sys n) : Option File → Check
  | some (.pipe p) => if (s.pipe p).iCount < 2 then .ready else .addWait (.iWait p)
  | _ => .neither

/-- The local variables of `do_select`. -/
structure Scan (n : ℕ) where
  sys : Sys n
  table : List (Entry n)
  count : ℕ
  inp : BitVec 32
  outp : BitVec 32
  exp : BitVec 32

def Scan.addWait (t : Fin n) (q : Queue) (r : Scan n) : Scan n :=
  if ∃ e ∈ r.table, e.waitAddress = q then r
  else
    { r with
      table := r.table ++ [⟨r.sys.wait q, q⟩]
      sys := r.sys.setWait q (some t) }

/-- A `check_XX` function is called for a file; `hit` puts the file into the set of ready ones. -/
def Scan.check (t : Fin n) (wanted : Bool) (c : Check) (hit : Scan n → Scan n) (r : Scan n) : Scan n :=
  if wanted then
    match c with
    | .ready => { hit r with count := r.count + 1 }
    | .addWait q => r.addWait t q
    | .neither => r
  else r

/-- One round of the loop over the descriptors. -/
def Scan.visit (t : Fin n) (a : Args) (r : Scan n) (i : ℕ) : Scan n :=
  let mask : BitVec 32 := 1 <<< i
  let r := r.check t (a.inp.getLsbD i) (checkIn r.sys (a.filp i)) fun r => { r with inp := r.inp ||| mask }
  let r := r.check t (a.outp.getLsbD i) (checkOut r.sys (a.filp i)) fun r =>
    { r with outp := r.outp ||| mask }
  r.check t (a.exp.getLsbD i) (checkEx r.sys (a.filp i)) fun r => { r with exp := r.exp ||| mask }

def scan (t : Fin n) (a : Args) (s : Sys n) : Scan n :=
  (List.range NR_OPEN).foldl (Scan.visit t a) ⟨s, [], 0, 0, 0, 0⟩

/-- The first loop of `do_select`. -/
def badFile (a : Args) : Bool :=
  (List.range NR_OPEN).any fun i =>
    (a.inp ||| a.outp ||| a.exp).getLsbD i ∧ (a.filp i = none ∨ a.filp i = some .other)

def doSelect (s : Sys n) (a : Args) : Piece n :=
  if badFile a then (s, .ret (.select (-EBADF) 0 0 0)) else (s, .goto (.atRepeat a))

/-- From `repeat` on. -/
def atRepeat (s : Sys n) (t : Fin n) (a : Args) : Piece n :=
  let r := scan t a s
  if ¬ r.sys.hasSignal t ∧ (r.table ≠ [] ∨ (r.sys.task t).timeout ≠ 0) ∧ r.count = 0 then
    ((r.sys.setState t .interruptible).schedule, .sleep (.selected a r.table))
  else (r.sys, .goto (.freeWait a (some (.select r.count r.inp r.outp r.exp)) r.table))

/-- Wait until the head of the queue is the task itself, then put `old` in its place. -/
def leave (s : Sys n) (t : Fin n) (q : Queue) (old : Option (Fin n)) (self : Frame n)
    (go : Next (Frame n) Value Empty) : Piece n :=
  match s.wait q with
  | some u =>
    if u ≠ t then
      (((s.setState u .running).setState t .uninterruptible).schedule, .sleep self)
    else ((s.setWait q old).rouse old, go)
  | none => ((s.setWait q old).rouse old, go)

def freeWait (s : Sys n) (t : Fin n) (a : Args) (result : Option Value) : List (Entry n) → Piece n
  | [] =>
    match result with
    | none => (s, .goto (.atRepeat a))
    | some v => (s, .ret v)
  | e :: table =>
    leave s t e.waitAddress e.oldTask (.freeWait a result (e :: table))
      (.goto (.freeWait a result table))

/-! ## Pipes -/

/-- `__sleep_on` up to the call of `schedule`. -/
def sleepOn (s : Sys n) (t : Fin n) (q : Queue) (state : TaskState) : Piece n :=
  (((s.setWait q (some t)).setState t state).schedule, .sleep (.asleep q (s.wait q)))

def readPipe (s : Sys n) (t : Fin n) (p count read : ℕ) : Piece n :=
  if count = 0 then (s.wakeUp (PIPE_WRITE_WAIT p), .ret (.chars read))
  else
    let size := (s.pipe p).size
    if size = 0 then
      let s := s.wakeUp (PIPE_WRITE_WAIT p)
      if (s.pipe p).iCount ≠ 2 then (s, .ret (.chars read))
      else if s.hasSignal t then (s, .ret (.chars (if read = 0 then -ERESTARTSYS else read)))
      else (s, .call (.readPipe p count read) (.sleepOn (PIPE_READ_WAIT p) .interruptible))
    else
      let chars := min (min (PAGE_SIZE - (s.pipe p).tail) count) size
      (s.updPipe p fun x => { x with tail := Pipe.advance x.tail chars },
        .goto (.putBytes p (count - chars) (read + chars)))

def writePipe (s : Sys n) (t : Fin n) (p count written : ℕ) : Piece n :=
  if count = 0 then (s.wakeUp (PIPE_READ_WAIT p), .ret (.chars written))
  else
    let size := PAGE_SIZE - 1 - (s.pipe p).size
    if size = 0 then
      let s := s.wakeUp (PIPE_READ_WAIT p)
      if (s.pipe p).iCount ≠ 2 then
        let x := s.task t
        ({ s with
            task := update s.task t { x with signal := x.signal ||| Sched.sigmask SIGPIPE } },
          .ret (.chars (if written = 0 then -1 else written)))
      else (s, .call (.writePipe p count written) (.sleepOn (PIPE_WRITE_WAIT p) .uninterruptible))
    else
      let chars := min (min (PAGE_SIZE - (s.pipe p).head) count) size
      (s.updPipe p fun x => { x with head := Pipe.advance x.head chars },
        .goto (.getBytes p (count - chars) (written + chars)))

/-- Bytes are copied from or to a page that may not be in memory. -/
def copied (s : Sys n) (t : Fin n) (self next : Frame n) : Choice → Piece n
  | .fault => ((s.setState t .uninterruptible).schedule, .sleep self)
  | _ => (s, .goto next)

/-- `iput` of a pipe. -/
def iput (s : Sys n) (p : ℕ) : Sys n :=
  ((s.wakeUp (.iWait p)).wakeUp (.iWait2 p)).updPipe p fun x => { x with iCount := x.iCount - 1 }

def execCode (s : Sys n) (t : Fin n) : Choice → Option (Piece n)
  | .select a timeout =>
    some ({ s with task := update s.task t { s.task t with timeout := timeout } },
      .call .code (.doSelect a))
  | .read p count => if count < 2 ^ 31 then some (s, .call .code (.readPipe p count 0)) else none
  | .write p count => if count < 2 ^ 31 then some (s, .call .code (.writePipe p count 0)) else none
  | .ttySleep q => if q.ofTty then some (s, .call .code (.sleepOn q .interruptible)) else none
  | .iput p => some (iput s p, .goto .code)
  | .pause => some ((s.setState t .interruptible).schedule, .sleep .code)
  | .go => some (s.schedule, .sleep .code)
  | .fault => none

/-- One uninterrupted piece of the code of a task, which runs. -/
def exec (t : Fin n) (ch : Choice) (s : Sys n) (f : Frame n) : Option (Piece n) :=
  if (s.task t).state ≠ .running then none
  else
    match f with
    | .code => execCode s t ch
    | .doSelect a => some (doSelect s a)
    | .atRepeat a => some (atRepeat s t a)
    | .selected a table => some (s, .goto (.freeWait a none table))
    | .freeWait a result table => some (freeWait s t a result table)
    | .readPipe p count read => some (readPipe s t p count read)
    | .putBytes p count read =>
      some (copied s t (.putBytes p count read) (.readPipe p count read) ch)
    | .writePipe p count written => some (writePipe s t p count written)
    | .getBytes p count written =>
      some (copied s t (.getBytes p count written) (.writePipe p count written) ch)
    | .sleepOn q state => some (sleepOn s t q state)
    | .asleep q tmp => some (leave s t q tmp (.asleep q tmp) (.ret .null))

/-- How a frame goes on with the value returned to it. -/
def resume : Frame n → Value → Option (Frame n)
  | .code, _ => some .code
  | .readPipe p count read, .null => some (.readPipe p count read)
  | .writePipe p count written, .null => some (.writePipe p count written)
  | _, _ => none

def interrupt (s : Sys n) : Interrupt n → Option (Sys n)
  | .tick => some { s with jiffies := s.jiffies + 1 }
  | .signal t signr =>
    let x := s.task t
    some { s with task := update s.task t { x with signal := x.signal ||| Sched.sigmask signr } }
  | .rouse t => some (s.setState t .running)
  | .tty k empty full =>
    some { s with empty := update s.empty k empty, full := update s.full k full }
  | .wakeUp q => if q.ofTty then some (s.wakeUp q) else none

def program (n : ℕ) : Program n (Sys n) (Frame n) Value Choice (Interrupt n) Empty where
  exec t ch f s := exec t ch s f
  resume := resume
  user
    | .code => true
    | _ => false
  intr i s := interrupt s i

/-- Nobody waits for the pipes and the terminals. -/
def initial (task : Fin n → Task) (pipe : ℕ → Pipe) (empty full : ℕ → Bool) :
    State n (Sys n) (Frame n) Empty where
  shared :=
    { task := task, jiffies := 0, pipe := pipe, wait := fun _ => none, empty := empty, full := full }
  stack _ := [.code]
  cpu := none
  panicked := none

end Linux012.Select
