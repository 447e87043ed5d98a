import Mathlib.Data.Fintype.Basic
import Mathlib.Logic.Function.Basic
import Linux012.Lib.Runs

/-! # Signals

The calls of `kernel/signal.c`, `do_signal` with the lines of `sys_call.s` that choose the
signal, and `sys_waitpid` of `exit.c`, which changes `blocked` while it sleeps. A process is
known by its slot in `task`.
-/

namespace Linux012.Signals

open Function

abbrev Word := BitVec 32

def NR_TASKS : ℕ := 64

abbrev Slot := Fin NR_TASKS

def SIGQUIT : ℕ := 3
def SIGILL : ℕ := 4
def SIGTRAP : ℕ := 5
def SIGIOT : ℕ := 6
def SIGFPE : ℕ := 8
def SIGKILL : ℕ := 9
def SIGSEGV : ℕ := 11
def SIGCHLD : ℕ := 17
def SIGCONT : ℕ := 18
def SIGSTOP : ℕ := 19
def SIGTSTP : ℕ := 20
def SIGTTIN : ℕ := 21
def SIGTTOU : ℕ := 22

def SA_NOCLDSTOP : Word := 1
def SA_INTERRUPT : Word := 0x20000000
def SA_NOMASK : Word := 0x40000000
def SA_ONESHOT : Word := 0x80000000

def WNOHANG : Word := 1
def WUNTRACED : Word := 2

def EINTR : Word := 4
def ECHILD : Word := 10
def EINVAL : Word := 22
def ERESTARTSYS : Word := 512
def ERESTARTNOINTR : Word := 513

/-- `1 << (signr-1)` -/
def sigmask (signr : ℕ) : Word := 1 <<< (signr - 1)

def BLOCKABLE : Word := ~~~(sigmask SIGKILL ||| sigmask SIGSTOP)

structure Sigaction where
  saHandler : Word
  saMask : Word
  saFlags : Word
  saRestorer : Word
  deriving DecidableEq

inductive TaskState | running | interruptible | stopped | zombie
  deriving DecidableEq

/-- The registers that a process gets back when it leaves the kernel. -/
structure Regs where
  eax : Word
  ebx : Word
  ecx : Word
  edx : Word
  origEax : Word
  eip : Word
  eflags : Word
  esp : Word
  deriving DecidableEq

/-- The call that a process sleeps in, with its variables. -/
inductive Wait
  | none
  | sigsuspend
  | waitpid (pid options oldblocked : Word)
  deriving DecidableEq

structure Proc where
  state : TaskState
  signal : Word
  sigaction : ℕ → Sigaction
  blocked : Word
  exitCode : Word
  pgrp : Word
  pPptr : Slot
  regs : Regs
  wait : Wait
  /-- The words that `do_signal` put at `esp`. -/
  frame : List Word

structure Sys where
  task : Slot → Option Proc

namespace Proc

/-- The return from the system call `nr`. -/
def ret (nr v : Word) (p : Proc) : Proc :=
  { p with wait := .none, regs := { p.regs with eax := v, origEax := nr } }

def sysSsetmask (newmask : Word) (p : Proc) : Proc :=
  { p with blocked := newmask &&& ~~~(sigmask SIGKILL) &&& ~~~(sigmask SIGSTOP) }.ret 69 p.blocked

def sysSigsuspend (restart oldMask set : Word) (p : Proc) : Proc :=
  if restart ≠ 0 then
    -- we're restarting
    { p with blocked := oldMask }.ret 72 (-EINTR)
  else
    { p with
      regs := { p.regs with ebx := 1, ecx := p.blocked }
      blocked := set, state := .interruptible, wait := .sigsuspend }

/-- The numbers that `sys_signal` and `sys_sigaction` refuse. -/
def BadSignum (signum : Word) : Prop :=
  signum.toInt < 1 ∨ 32 < signum.toInt ∨ signum.toNat = SIGKILL ∨ signum.toNat = SIGSTOP

instance (signum : Word) : Decidable (BadSignum signum) := inferInstanceAs (Decidable (_ ∨ _))

def sysSignal (signum handler restorer : Word) (p : Proc) : Proc :=
  if BadSignum signum then p.ret 48 (-EINVAL)
  else
    let tmp := { saHandler := handler, saMask := 0, saFlags := SA_ONESHOT ||| SA_NOMASK
                 saRestorer := restorer }
    { p with sigaction := update p.sigaction (signum.toNat - 1) tmp }.ret 48
      (p.sigaction (signum.toNat - 1)).saHandler

/-- `action` is what the call reads from user space. -/
def sysSigaction (signum : Word) (action : Sigaction) (p : Proc) : Proc :=
  if BadSignum signum then p.ret 67 (-EINVAL)
  else
    let sa :=
      if action.saFlags &&& SA_NOMASK ≠ 0 then { action with saMask := 0 }
      else { action with saMask := action.saMask ||| sigmask signum.toNat }
    { p with sigaction := update p.sigaction (signum.toNat - 1) sa }.ret 67 0

/-- The signal that is delivered next. -/
def pending (p : Proc) : Option ℕ :=
  ((List.range 32).find? (p.signal &&& ~~~p.blocked).getLsbD).map (· + 1)

/-- The head of `do_signal`: an interrupted call fails, or it is made again. -/
def restart (signr : ℕ) (sa : Sigaction) (r : Regs) : Regs :=
  if r.origEax ≠ -1 ∧ (r.eax = -ERESTARTSYS ∨ r.eax = -ERESTARTNOINTR) then
    if r.eax = -ERESTARTSYS ∧
        (sa.saFlags &&& SA_INTERRUPT ≠ 0 ∨ signr < SIGCONT ∨ SIGTTOU < signr) then
      { r with eax := -EINTR }
    else { r with eax := r.origEax, eip := r.eip - 2 }
  else r

/-- The end of `do_signal`: the process is to run the handler. -/
def invoke (signr : ℕ) (p : Proc) : Proc :=
  let sa := p.sigaction (signr - 1)
  let nomask := sa.saFlags &&& SA_NOMASK ≠ 0
  { p with
    sigaction :=
      if sa.saFlags &&& SA_ONESHOT ≠ 0 then
        update p.sigaction (signr - 1) { sa with saHandler := 0 }
      else p.sigaction
    regs := { p.regs with
      eip := sa.saHandler, esp := p.regs.esp - (if nomask then 4 * 7 else 4 * 8) }
    frame :=
      [sa.saRestorer, BitVec.ofNat 32 signr] ++ (if nomask then [] else [p.blocked]) ++
        [p.regs.eax, p.regs.ecx, p.regs.edx, p.regs.eflags, p.regs.eip]
    blocked := p.blocked ||| sa.saMask }

end Proc

/-- What `do_signal` comes to. -/
inductive Outcome
  | handler (p : Proc)
  | ignored (p : Proc)
  | stopped (p : Proc)
  | exit (code : Word)

def doSignal (signr : ℕ) (p : Proc) : Outcome :=
  let sa := p.sigaction (signr - 1)
  let p := { p with regs := Proc.restart signr sa p.regs }
  if sa.saHandler = 1 then .ignored p
  else if sa.saHandler = 0 then
    if signr = SIGCONT ∨ signr = SIGCHLD then .ignored p
    else if signr = SIGSTOP ∨ signr = SIGTSTP ∨ signr = SIGTTIN ∨ signr = SIGTTOU then
      .stopped { p with state := .stopped, exitCode := BitVec.ofNat 32 signr }
    -- `core_dump` is not implemented
    else .exit (BitVec.ofNat 32 signr)
  else .handler (p.invoke signr)

/-- `task[1]`, which inherits orphans. -/
def initTask : Slot := ⟨1, by decide⟩

namespace Sys

variable (s : Sys)

def set (t : Slot) (p : Option Proc) : Sys := { s with task := update s.task t p }

/-- Change a process that is there. -/
def modify (t : Slot) (f : Proc → Proc) : Sys := s.set t ((s.task t).map f)

def raise (t : Slot) (signr : ℕ) : Sys :=
  s.modify t fun p => { p with signal := p.signal ||| sigmask signr }

/-- `init` becomes the parent of the children of `t`. -/
def adopt (t : Slot) : Sys :=
  { s with
    task := fun c => (s.task c).map fun q => if q.pPptr = t then { q with pPptr := initTask } else q }

/-- `do_exit`, without the files, the memory and the process groups. -/
def doExit (t : Slot) (p : Proc) (code : Word) : Sys :=
  let s := s.set t (some { p with state := .zombie, exitCode := code })
  let s := s.raise p.pPptr SIGCHLD
  if ∃ c, (s.task c).any fun q => q.pPptr = t ∧ q.state = .zombie then
    (s.adopt t).raise initTask SIGCHLD
  else s.adopt t

/-- `ret_from_sys_call` takes a signal and calls `do_signal`; `task[0]` cannot have signals. -/
def deliver (t : Slot) (p : Proc) : Option Sys :=
  if t.val = 0 then none else p.pending.map fun signr =>
    match doSignal signr { p with signal := p.signal &&& ~~~sigmask signr } with
    | .handler p => s.set t (some p)
    | .ignored p => s.set t (some p)
    | .stopped p =>
      let s := s.set t (some p)
      if (s.task p.pPptr).all fun q => (q.sigaction (SIGCHLD - 1)).saFlags &&& SA_NOCLDSTOP = 0 then
        s.raise p.pPptr SIGCHLD
      else s
    | .exit code => s.doExit t p code

/-- The child `u` gets a copy of the process `t`. -/
def fork (t u : Slot) (p : Proc) : Option Sys :=
  if (s.task u).isNone then
    some <| (s.set u (some
      { p with
        signal := 0, pPptr := t
        regs := { p.regs with eax := 0, origEax := 2 } })).set t
      (some (p.ret 2 (BitVec.ofNat 32 u)))
  else none

/-- The children that `sys_waitpid` looks for. -/
def IsWanted (t : Slot) (p : Proc) (pid : Word) (c : Slot) (q : Proc) : Prop :=
  q.pPptr = t ∧
    if 0 < pid.toInt then BitVec.ofNat 32 c = pid
    else if pid = 0 then q.pgrp = p.pgrp
    else pid = -1 ∨ q.pgrp = -pid

/-- A child that `sys_waitpid` reports. -/
def IsReported (options : Word) (q : Proc) : Prop :=
  q.state = .stopped ∧ options &&& WUNTRACED ≠ 0 ∧ q.exitCode ≠ 0 ∨ q.state = .zombie

instance (t : Slot) (p : Proc) (pid : Word) (c : Slot) (q : Proc) :
    Decidable (IsWanted t p pid c q) := inferInstanceAs (Decidable (_ ∧ _))

instance (options : Word) (q : Proc) : Decidable (IsReported options q) :=
  inferInstanceAs (Decidable (_ ∨ _))

/-- `sys_waitpid` from `repeat` on. `found` is the first child in the list of children that is
reported. -/
def sysWaitpid (t : Slot) (p : Proc) (pid options : Word) : Option Slot → Option Sys
  | some c =>
    match s.task c with
    | none => none
    | some q =>
      if c ≠ t ∧ IsWanted t p pid c q ∧ IsReported options q then
        let s := s.set t (some (p.ret 7 (BitVec.ofNat 32 c)))
        match q.state with
        | .stopped => some (s.set c (some { q with exitCode := 0 }))
        | _ => some (s.set c none)
      else none
  | none =>
    if ∃ c, (s.task c).any fun q => IsWanted t p pid c q ∧ IsReported options q then none
    else if ∃ c, (s.task c).any fun q => IsWanted t p pid c q ∧ q.state ≠ .stopped then
      if options &&& WNOHANG ≠ 0 then some (s.set t (some (p.ret 7 0)))
      else some <| s.set t <| some
        { p with
          state := .interruptible, wait := .waitpid pid options p.blocked
          blocked := p.blocked &&& ~~~sigmask SIGCHLD }
    else some (s.set t (some (p.ret 7 (-ECHILD))))

/-- A process that has been woken up goes on in its call. -/
def resume (t : Slot) (p : Proc) (found : Option Slot) : Option Sys :=
  match p.wait with
  | .none => none
  | .sigsuspend => some (s.set t (some (p.ret 72 (-ERESTARTNOINTR))))
  | .waitpid pid options oldblocked =>
    let p := { p with blocked := oldblocked, wait := .none }
    if p.signal &&& ~~~(p.blocked ||| sigmask SIGCHLD) ≠ 0 then
      some (s.set t (some (p.ret 7 (-ERESTARTSYS))))
    else s.sysWaitpid t p pid options found

end Sys

/-- The calls of a process, and what goes on around it. -/
inductive Act
  | ssetmask (newmask : Word)
  | sigsuspend (restart oldMask set : Word)
  | signal (signum handler restorer : Word)
  | sigaction (signum : Word) (action : Sigaction)
  | fork (u : Slot)
  | waitpid (pid options : Word) (found : Option Slot)
  | resume (found : Option Slot)
  /-- The process leaves the kernel, with the next signal to be taken. -/
  | deliver
  | exit (code : Word)
  /-- The process runs in user mode until an interrupt. -/
  | user (regs : Regs)
  /-- Somebody sends a signal. -/
  | post (signr : ℕ)
  /-- `schedule` finds a signal that is not blocked. -/
  | wake
  /-- A signal that is sent lets a stopped process go on. -/
  | cont

namespace Sys

/-- A process acts that is running and not in a call. -/
def act (s : Sys) (t : Slot) (p : Proc) : Act → Option Sys
  | .ssetmask newmask => some (s.set t (some (p.sysSsetmask newmask)))
  | .sigsuspend restart oldMask set =>
    some (s.set t (some (p.sysSigsuspend restart oldMask set)))
  | .signal signum handler restorer =>
    some (s.set t (some (p.sysSignal signum handler restorer)))
  | .sigaction signum action => some (s.set t (some (p.sysSigaction signum action)))
  | .fork u => s.fork t u p
  | .waitpid pid options found => s.sysWaitpid t p pid options found
  | .deliver => s.deliver t p
  | .exit code => some (s.doExit t p code)
  | .user regs => some (s.set t (some { p with regs := { regs with origEax := -1 } }))
  | _ => none

end Sys

def step (a : Slot × Act) (s : Sys) : Option Sys :=
  (s.task a.1).bind fun p =>
    match a.2 with
    | .post signr => some (s.raise a.1 signr)
    | .wake =>
      if p.state = .interruptible ∧ p.signal &&& ~~~(BLOCKABLE &&& p.blocked) ≠ 0 then
        some (s.set a.1 (some { p with state := .running }))
      else none
    | .cont =>
      if p.state = .stopped then some (s.set a.1 (some { p with state := .running })) else none
    | .resume found => if p.state = .running then s.resume a.1 p found else none
    | act => if p.state = .running ∧ p.wait = .none then s.act a.1 p act else none

/-- The only process is the first one, which blocks nothing. -/
def boot : Sys where
  task t := if t.val = 0 then some
    { state := .running, signal := 0, sigaction := fun _ => ⟨0, 0, 0, 0⟩, blocked := 0
      exitCode := 0, pgrp := 0, pPptr := t, regs := ⟨0, 0, 0, 0, -1, 0, 0, 0⟩, wait := .none
      frame := [] }
    else none

end Linux012.Signals
