import Mathlib.Data.List.FinRange
import Linux012.Kernel.Signal.Basic

/-! # Sending signals

`send_sig`, `kill_pg`, `kill_proc` and `sys_kill` of `kernel/exit.c`. The scans go from the last
slot of `task` down to slot 1.
-/

namespace Linux012.Exit

open Function
open Signals (Word Slot TaskState NR_TASKS sigmask SIGKILL SIGCONT SIGSTOP SIGTSTP SIGTTIN SIGTTOU)

def EPERM : ℤ := 1
def ESRCH : ℤ := 3
def EINVAL : ℤ := 22

/-- The fields of a task that `kernel/exit.c` reads and writes, beside its links; `saHandler` is
the handler in each entry of `sigaction`. -/
structure Task where
  state : TaskState
  pid : Word
  pgrp : Word
  euid : BitVec 16
  exitCode : Word
  signal : Word
  blocked : Word
  saHandler : ℕ → Word
  utime : Word
  stime : Word
  cutime : Word
  cstime : Word

/-- `sent` lists the slots that a signal has been sent to (not in the source). -/
structure State where
  task : Slot → Option Task
  sent : List Slot

/-- What `send_sig` does for `SIGKILL` and `SIGCONT`. -/
def resume (sig : ℕ) (p : Task) : Task :=
  if sig = SIGKILL ∨ sig = SIGCONT then
    { p with
      state := if p.state = .stopped then .running else p.state
      exitCode := 0
      signal := p.signal &&& ~~~(sigmask SIGSTOP ||| sigmask SIGTSTP ||| sigmask SIGTTIN |||
        sigmask SIGTTOU) }
  else p

/-- The rest of `send_sig`; a signal that is ignored is not posted. -/
def deliver (sig : ℕ) (p : Task) : Task :=
  if p.saHandler (sig - 1) = 1 then p
  else
    { p with
      signal := (if SIGSTOP ≤ sig ∧ sig ≤ SIGTTOU then p.signal &&& ~~~(sigmask SIGCONT) else p.signal) |||
        sigmask sig }

/-- `send_sig` to a task that may be signalled. -/
def post (sig : ℕ) (p : Task) : Task := deliver sig (resume sig p)

/-- `current` may signal the task. -/
def mayKill (current p : Task) (priv : Bool) : Bool := priv || current.euid = p.euid || current.euid = 0

def sendSig (current : Task) (sig : ℕ) (i : Slot) (priv : Bool) (s : State) : State × ℤ :=
  match s.task i with
  | none => (s, -EINVAL)
  | some p =>
    if mayKill current p priv then
      ({ task := update s.task i (some (post sig p)), sent := i :: s.sent }, 0)
    else (s, -EPERM)

/-- From `LAST_TASK` to the task after `FIRST_TASK`. -/
def tasksDown : List Slot := (List.finRange NR_TASKS).tail.reverse

/-- The loop of `kill_pg` over the slots that are left; `none` is the use of an empty slot. -/
def killPgLoop (current : Task) (pgrp : Word) (sig : ℕ) (priv : Bool) :
    List Slot → ℕ → ℤ → State → Option (State × ℤ)
  | [], found, retval, s => some (s, if found ≠ 0 then 0 else retval)
  | i :: is, found, retval, s =>
    match s.task i with
    | none => none
    | some p =>
      if p.pgrp = pgrp then
        match sendSig current sig i priv s with
        | (s, err) =>
          if err ≠ 0 then killPgLoop current pgrp sig priv is found err s
          else killPgLoop current pgrp sig priv is (found + 1) retval s
      else killPgLoop current pgrp sig priv is found retval s

def killPg (current : Task) (pgrp : Word) (sig : ℕ) (priv : Bool) (s : State) : Option (State × ℤ) :=
  if sig < 1 ∨ 32 < sig ∨ pgrp.toInt ≤ 0 then some (s, -EINVAL)
  else killPgLoop current pgrp sig priv tasksDown 0 (-ESRCH) s

/-- The loop of `kill_proc` -/
def killProcLoop (current : Task) (pid : Word) (sig : ℕ) (priv : Bool) :
    List Slot → State → Option (State × ℤ)
  | [], s => some (s, -ESRCH)
  | i :: is, s =>
    match s.task i with
    | none => none
    | some p =>
      if p.pid = pid then some (sendSig current sig i priv s)
      else killProcLoop current pid sig priv is s

def killProc (current : Task) (pid : Word) (sig : ℕ) (priv : Bool) (s : State) :
    Option (State × ℤ) :=
  if sig < 1 ∨ 32 < sig then some (s, -EINVAL)
  else killProcLoop current pid sig priv tasksDown s

/-- The loop of `sys_kill` for all tasks; `send_sig` looks for an empty slot itself. -/
def killAll (current : Task) (sig : ℕ) : List Slot → ℤ → State → State × ℤ
  | [], retval, s => (s, retval)
  | i :: is, retval, s =>
    match sendSig current sig i false s with
    | (s, err) => killAll current sig is (if err ≠ 0 then err else retval) s

def sysKill (current : Task) (pid : Word) (sig : ℕ) (s : State) : Option (State × ℤ) :=
  if pid = 0 then killPg current current.pid sig false s
  else if pid = -1 then some (killAll current sig tasksDown 0 s)
  else if pid.toInt < 0 then killPg current (-pid) sig false s
  else killProc current pid sig false s

end Linux012.Exit
