import Linux012.Lib.Coop
import Linux012.Lib.Paths

/-! # Sleeping and waking up

`__sleep_on` and `wake_up` of `kernel/sched.c` on one wait queue. The head of the queue is the
only pointer that is not a local variable of a sleeper. Interrupts come between any two
statements; which of the running tasks `schedule` chooses is left open.
-/

namespace Linux012.Sched

open Function Coop

abbrev Word := BitVec 32

inductive TaskState | running | interruptible | uninterruptible | zombie | stopped
  deriving DecidableEq

def SIGKILL : ℕ := 9
def SIGALRM : ℕ := 14
def SIGSTOP : ℕ := 19

def sigmask (signr : ℕ) : Word := 1 <<< (signr - 1)

def BLOCKABLE : Word := ~~~(sigmask SIGKILL ||| sigmask SIGSTOP)

structure Task where
  state : TaskState
  signal : Word
  blocked : Word
  timeout : ℕ
  alarm : ℕ
  deriving DecidableEq

variable {n : ℕ}

structure Sys (n : ℕ) where
  task : Fin n → Task
  jiffies : ℕ
  /-- `*p` -/
  head : Option (Fin n)
  /-- `Warning: *P = NULL` has been printed. -/
  warned : Bool

namespace Sys

def setState (s : Sys n) (t : Fin n) (state : TaskState) : Sys n :=
  { s with task := update s.task t { s.task t with state := state } }

/-- What `schedule` does to a task before it looks for the next one to run. -/
def check (jiffies : ℕ) (p : Task) : Task :=
  let p :=
    if p.timeout ≠ 0 ∧ p.timeout < jiffies then
      { p with timeout := 0, state := if p.state = .interruptible then .running else p.state }
    else p
  let p :=
    if p.alarm ≠ 0 ∧ p.alarm < jiffies then
      { p with signal := p.signal ||| sigmask SIGALRM, alarm := 0 }
    else p
  if p.signal &&& ~~~(BLOCKABLE &&& p.blocked) ≠ 0 ∧ p.state = .interruptible then
    { p with state := .running }
  else p

/-- The loop over all tasks but the first one. -/
def schedule (s : Sys n) : Sys n :=
  { s with task := fun t => if t.val = 0 then s.task t else check s.jiffies (s.task t) }

def wakeUp (s : Sys n) : Sys n :=
  match s.head with
  | none => s
  | some t => s.setState t .running

end Sys

/-- The places between two statements of `__sleep_on`; `tmp` is its local variable. -/
inductive Frame (n : ℕ)
  | code
  | paused
  | sleepOn (state : TaskState)
  | saved (state : TaskState) (tmp : Option (Fin n))
  | queued (state : TaskState) (tmp : Option (Fin n))
  | again (tmp : Option (Fin n))
  | asleep (tmp : Option (Fin n))
  | awake (tmp : Option (Fin n))
  | bypassed (tmp : Option (Fin n))
  | unlinked (tmp : Option (Fin n))
  deriving DecidableEq

/-- What code outside `__sleep_on` does next. -/
inductive Choice
  | sleepOn
  | interruptibleSleepOn
  | wakeUp
  /-- It sleeps somewhere else. -/
  | pause (state : TaskState)
  /-- The clock finds it in user mode. -/
  | preempted

inductive Interrupt (n : ℕ)
  | wakeUp
  | signal (t : Fin n) (signr : ℕ)
  | tick
  /-- A task is woken up from somewhere else. -/
  | rouse (t : Fin n)

inductive Panic
  | idleSleeps

abbrev Piece (n : ℕ) := Sys n × Next (Frame n) Empty Panic

def execCode (s : Sys n) (t : Fin n) : Choice → Piece n
  | .sleepOn => (s, .goto (.sleepOn .uninterruptible))
  | .interruptibleSleepOn => (s, .goto (.sleepOn .interruptible))
  | .wakeUp => (s.wakeUp, .goto .code)
  | .pause state => ((s.setState t state).schedule, .sleep .paused)
  | .preempted => (s.schedule, .sleep .code)

/-- `schedule` switches only to a task that is running, or to the first one, whose state it does
not look at. -/
def Sys.Eligible (s : Sys n) (t : Fin n) : Prop := t.val = 0 ∨ (s.task t).state = .running

instance (s : Sys n) (t : Fin n) : Decidable (s.Eligible t) := inferInstanceAs (Decidable (_ ∨ _))

def back (s : Sys n) (t : Fin n) (f : Frame n) : Option (Piece n) :=
  if s.Eligible t then some (s, .goto f) else none

/-- From one statement of `__sleep_on` to the next. -/
def exec (t : Fin n) (ch : Choice) (s : Sys n) : Frame n → Option (Piece n)
  | .code => if s.Eligible t then some (execCode s t ch) else none
  | .paused => back s t .code
  | .sleepOn state =>
    some (if t.val = 0 then (s, .panic .idleSleeps) else (s, .goto (.saved state s.head)))
  | .saved state tmp => some ({ s with head := some t }, .goto (.queued state tmp))
  | .queued state tmp => some (s.setState t state, .goto (.again tmp))
  | .again tmp => some (s.schedule, .sleep (.asleep tmp))
  | .asleep tmp => back s t (.awake tmp)
  | .awake tmp => some <|
    match s.head with
    | some u =>
      if u ≠ t then (s.setState u .running, .goto (.bypassed tmp))
      else ({ s with head := tmp }, .goto (if tmp = none then .code else .unlinked tmp))
    | none =>
      ({ s with head := tmp, warned := true }, .goto (if tmp = none then .code else .unlinked tmp))
  | .bypassed tmp => some (s.setState t .uninterruptible, .goto (.again tmp))
  | .unlinked tmp => some <|
    match tmp with
    | some u => (s.setState u .running, .goto .code)
    | none => (s, .goto .code)

def interrupt (s : Sys n) : Interrupt n → Sys n
  | .wakeUp => s.wakeUp
  | .signal t signr =>
    { s with task := update s.task t { s.task t with signal := (s.task t).signal ||| sigmask signr } }
  | .tick => { s with jiffies := s.jiffies + 1 }
  | .rouse t => s.setState t .running

def program (n : ℕ) : Program n (Sys n) (Frame n) Empty Choice (Interrupt n) Panic where
  exec t ch f s := exec t ch s f
  resume _ v := nomatch v
  user _ := false
  intr i s := some (interrupt s i)

/-- Nobody sleeps on the queue. -/
def initial (task : Fin n → Task) : State n (Sys n) (Frame n) Panic where
  shared := { task := task, jiffies := 0, head := none, warned := false }
  stack _ := [.code]
  cpu := none
  panicked := none

end Linux012.Sched
