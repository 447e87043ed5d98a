import Linux012.Kernel.Exit.Basic
import Linux012.Kernel.Ptree.Basic
import Linux012.Lib.Index

/-! # Waiting for children

`sys_waitpid` on the process tree, with `do_exit`, `release`, `send_sig` and the stop in
`do_signal`. A task is known by the address of its structure. `sys_waitpid` lets others run in `schedule`,
and where the page fault of `put_fs_long` does.
-/

namespace Linux012.Waitpid

open Function Links Runs
open Ptree (Ptr Tasks NR_TASKS)
open Signals (Word SIGCONT SIGCHLD SIGSTOP SIGTSTP SIGTTIN SIGTTOU WNOHANG WUNTRACED ECHILD ERESTARTSYS
  sigmask)
open Exit (Task mayKill post)
open scoped Index

def SIGHUP : ℕ := 1

/-- What a task leaves to its parent. -/
structure Death where
  pid : Word
  code : Word
  utime : Word
  stime : Word
  deriving DecidableEq

/-- Where `sys_waitpid` lets others run: in `schedule`, or in `put_fs_long` for a child that is dead or
that has stopped. -/
inductive Wait
  | none
  | asleep (pid options oldblocked : Word)
  | reaping (p : Ptr) (d : Death)
  | reporting (p : Ptr) (nr : ℕ) (status : Word)
  deriving DecidableEq

/-- What the loop over the children ends with: a child, or `flag`. -/
inductive Found
  | stopped (p : Ptr)
  | zombie (p : Ptr)
  | flag (flag : Bool)
  deriving DecidableEq

/-- A call has returned a child that is dead or has stopped. A pass of the loop has ended with `found` and has
returned `ret`, or nothing yet; the caller had a child that it was about, and a dead one. -/
inductive Event
  | reaped (parent child : ℕ) (d : Death)
  | reported (parent child nr : ℕ) (status : Word)
  | looked (found : Found) (ret : Option Word) (child zombie : Bool)
  deriving DecidableEq

/-- `ret` is what the last `sys_waitpid` of a task has returned. Not in the source: `serial` numbers the
tasks, `stops` counts the stops of a task, `dead` says what a task with a number has left, `log` is
what `sys_waitpid` has done. -/
structure Sys where
  links : Tasks
  info : Ptr → Task
  wait : Ptr → Wait
  ret : Ptr → Word
  born : ℕ
  serial : Ptr → ℕ
  stops : Ptr → ℕ
  dead : ℕ → Option Death
  log : List Event

def isZombie (p : Task) : Bool := p.state = .zombie

/-- The selection by `pid` -/
def wanted (current p : Task) (pid : Word) : Bool :=
  if 0 < pid.toInt then p.pid = pid
  else if pid = 0 then p.pgrp = current.pgrp
  else if pid ≠ -1 then p.pgrp = -pid
  else true

/-- The loop of `sys_waitpid` -/
def loop (info : Ptr → Task) (current : Task) (pid options : Word) : List Ptr → Bool → Found
  | [], flag => .flag flag
  | p :: ps, flag =>
    if wanted current (info p) pid then
      match (info p).state with
      | .stopped =>
        if options &&& WUNTRACED = 0 ∨ (info p).exitCode = 0 then loop info current pid options ps flag
        else .stopped p
      | .zombie => .zombie p
      | _ => loop info current pid options ps true
    else loop info current pid options ps flag

namespace Sys

def setInfo (s : Sys) (p : Ptr) (q : Task) : Sys := { s with info := update s.info p q }

def setWait (s : Sys) (t : Ptr) (w : Wait) : Sys := { s with wait := update s.wait t w }

/-- `sys_waitpid` returns. -/
def leave (s : Sys) (t : Ptr) (v : Word) : Sys := { s.setWait t .none with ret := update s.ret t v }

/-- `p` is a child of `t` that a call with `pid` is about. -/
def Wanted (s : Sys) (t : Ptr) (pid : Word) (p : Ptr) : Prop :=
  s.links.pPptr p = some t ∧ wanted (s.info t) (s.info p) pid = true

def Has (s : Sys) (t : Ptr) (pid : Word) (P : Task → Bool) : Prop :=
  ∃ i, ∃ p ∈ s.links.task i, s.Wanted t pid p ∧ P (s.info p) = true

instance (s : Sys) (t : Ptr) (pid : Word) (p : Ptr) : Decidable (s.Wanted t pid p) :=
  inferInstanceAs (Decidable (_ ∧ _))

instance (s : Sys) (t : Ptr) (pid : Word) (P : Task → Bool) : Decidable (s.Has t pid P) :=
  inferInstanceAs (Decidable (∃ _, _))

def look (s : Sys) (t : Ptr) (pid options : Word) : Found :=
  loop s.info (s.info t) pid options (walk s.links.pOsptr NR_TASKS (s.links.pCptr t)) false

/-- What `sys_waitpid` does with the end of the loop, up to where it lets others run or returns -/
def leads (s : Sys) (t : Ptr) (pid options : Word) : Found → Sys
  | .stopped p =>
    s.setWait t (.reporting p (s.stops p) (((s.info p).exitCode <<< 8) ||| (0x7f : Word)))
  | .zombie p =>
    let current := s.info t
    let q := s.info p
    let s := s.setInfo t
      { current with cutime := current.cutime + q.utime, cstime := current.cstime + q.stime }
    s.setWait t (.reaping p ⟨q.pid, q.exitCode, q.utime, q.stime⟩)
  | .flag true =>
    if options &&& WNOHANG ≠ 0 then s.leave t 0
    else
      let current := s.info t
      let s := s.setInfo t
        { current with state := .interruptible, blocked := current.blocked &&& ~~~(sigmask SIGCHLD) }
      s.setWait t (.asleep pid options current.blocked)
  | .flag false => s.leave t (-ECHILD)

/-- What the last `sys_waitpid` has returned, if it has -/
def returned (s : Sys) (t : Ptr) : Option Word := if s.wait t = .none then some (s.ret t) else none

/-- `sys_waitpid` from `repeat` on -/
def pass (s : Sys) (t : Ptr) (pid options : Word) : Sys :=
  let found := s.look t pid options
  let s' := s.leads t pid options found
  { s' with log :=
      .looked found (s'.returned t) (s.Has t pid fun _ => true) (s.Has t pid isZombie) :: s'.log }

/-- `sys_waitpid` after `schedule` -/
def resume (s : Sys) (t : Ptr) : Option Sys :=
  match s.wait t with
  | .asleep pid options oldblocked =>
    let current := { s.info t with blocked := oldblocked }
    let s := s.setInfo t current
    if current.signal &&& ~~~(oldblocked ||| sigmask SIGCHLD) ≠ 0 then some (s.leave t (-ERESTARTSYS))
    else some (s.pass t pid options)
  | _ => none

/-- `sys_waitpid` after `put_fs_long` -/
def finish (s : Sys) (t : Ptr) : Option Sys :=
  match s.wait t with
  | .reaping p d => (s.links.release t p).map fun links =>
    { s.leave t d.pid with links := links, log := .reaped (s.serial t) (s.serial p) d :: s.log }
  | .reporting p nr status =>
    some { (s.setInfo p { s.info p with exitCode := 0 }).leave t (s.info p).pid with
      log := .reported (s.serial t) (s.serial p) nr status :: s.log }
  | _ => none

/-- A task that `kill_pg` signals -/
def InGroup (s : Sys) (pgrp : Word) (p : Ptr) : Prop :=
  (∃ i ≠ 0, s.links.task i = some p) ∧ 0 < pgrp.toInt ∧ (s.info p).pgrp = pgrp

instance (s : Sys) (pgrp : Word) (p : Ptr) : Decidable (s.InGroup pgrp p) :=
  inferInstanceAs (Decidable ((∃ _, _ ∧ _) ∧ _))

/-- `kill_pg` with privilege -/
def killPg (s : Sys) (pgrp : Word) (sig : ℕ) : Sys :=
  { s with info := fun p => if s.InGroup pgrp p then post sig (s.info p) else s.info p }

/-- A group that is orphaned and has stopped jobs -/
def hangUp (s : Sys) (pgrp : Word) : Sys := (s.killPg pgrp SIGHUP).killPg pgrp SIGCONT

def childDied (s : Sys) (p : Ptr) : Sys :=
  s.setInfo p { s.info p with signal := (s.info p).signal ||| sigmask SIGCHLD }

/-- `do_exit` up to where it tells others. -/
def die (s : Sys) (t : Ptr) (code : Word) : Sys :=
  let q := s.info t
  { s.setInfo t { q with state := .zombie, exitCode := code } with
    dead := update s.dead (s.serial t) (some ⟨q.pid, code, q.utime, q.stime⟩) }

/-- The signals of `do_exit` -/
def notify (s : Sys) (t : Ptr) (orphaned : List Word) (terminal : Option Word) : Sys :=
  let s := orphaned.foldl hangUp s
  let s := (s.links.pPptr t).elim s s.childDied
  let s :=
    if (walk s.links.pOsptr NR_TASKS (s.links.pCptr t)).any fun p => isZombie (s.info p) then
      (s.links.task 1).elim s s.childDied
    else s
  terminal.elim s fun pgrp => s.killPg pgrp SIGHUP

/-- The process groups that become orphaned while they have stopped jobs, and the one of the terminal that the
task leads, come with the call. -/
def doExit (s : Sys) (t : Ptr) (code : Word) (orphaned : List Word) (terminal : Option Word) : Option Sys :=
  let s := (s.die t code).notify t orphaned terminal
  (s.links.doExit t).map fun links => { s with links := links }

/-- `copy_process` -/
def fork (s : Sys) (t p : Ptr) (pid : Word) (nr : Fin NR_TASKS) (fail : Bool) : Sys :=
  let q := { s.info t with
    state := .running, pid := pid, signal := 0, utime := 0, stime := 0, cutime := 0, cstime := 0 }
  { s.setInfo p q with
    links := s.links.copyProcess t p nr fail
    wait := update s.wait p .none
    born := s.born + 1
    serial := update s.serial p s.born
    stops := update s.stops p 0 }

def halt (s : Sys) (t : Ptr) (signr : ℕ) : Sys :=
  { s.setInfo t { s.info t with state := .stopped, exitCode := BitVec.ofNat 32 signr } with
    stops := update s.stops t (s.stops t + 1) }

/-- A signal with the default action stops the task; `quiet` is the `SA_NOCLDSTOP` of its parent. -/
def stop (s : Sys) (t : Ptr) (signr : ℕ) (quiet : Bool) : Sys :=
  let s := s.halt t signr
  if quiet then s else (s.links.pPptr t).elim s s.childDied

/-- A task that runs and is in no `sys_waitpid` -/
def Calls (s : Sys) (t : Ptr) : Prop :=
  s.links.Calls t ∧ (s.info t).state = .running ∧ s.wait t = .none

instance (s : Sys) (t : Ptr) : Decidable (s.Calls t) := inferInstanceAs (Decidable (_ ∧ _))

end Sys

/-- `send` is a `send_sig` of the task `t`: what `sys_kill` and `kill_pg` do to one task after another.
`touch` stands for what the rest of the kernel does to a task, with its times unless it is dead. -/
inductive Act
  | fork (t p : Ptr) (pid : Word) (fail : Bool)
  | exit (t : Ptr) (code : Word) (orphaned : List Word) (terminal : Option Word)
  | stop (t : Ptr) (signr : ℕ) (quiet : Bool)
  | send (t p : Ptr) (sig : ℕ) (priv : Bool)
  | wake (p : Ptr)
  | touch (p : Ptr) (pgrp signal blocked utime stime : Word) (euid : BitVec 16) (saHandler : ℕ → Word)
  | waitpid (t : Ptr) (pid options : Word)
  | resume (t : Ptr)
  | finish (t : Ptr)

def step : Act → Sys → Option Sys
  | .fork t p pid fail, s =>
    if s.Calls t ∧ ¬ s.links.Live p then
      match s.links.findEmpty with
      | none => some s
      | some nr => some (s.fork t p pid nr fail)
    else none
  | .exit t code orphaned terminal, s =>
    if s.Calls t ∧ s.links.task 1 ≠ some t then s.doExit t code orphaned terminal else none
  | .stop t signr quiet, s =>
    if s.Calls t ∧ (signr = SIGSTOP ∨ signr = SIGTSTP ∨ signr = SIGTTIN ∨ signr = SIGTTOU) then
      some (s.stop t signr quiet)
    else none
  | .send t p sig priv, s =>
    if s.links.Live p ∧ 1 ≤ sig ∧ sig ≤ 32 then
      some (if mayKill (s.info t) (s.info p) priv then s.setInfo p (post sig (s.info p)) else s)
    else none
  | .wake p, s =>
    if s.links.Live p ∧ (s.info p).state = .interruptible then
      some (s.setInfo p { s.info p with state := .running })
    else none
  | .touch p pgrp signal blocked utime stime euid saHandler, s =>
    let q := { s.info p with
      pgrp := pgrp, signal := signal, blocked := blocked, euid := euid, saHandler := saHandler }
    if s.links.Live p then
      some (s.setInfo p (if q.state = .zombie then q else { q with utime := utime, stime := stime }))
    else none
  | .waitpid t pid options, s => if s.Calls t then some (s.pass t pid options) else none
  | .resume t, s =>
    if s.links.Calls t ∧ (s.info t).state = .running then s.resume t else none
  | .finish t, s => if s.links.Calls t then s.finish t else none

/-- Only `task[0]` and its child `task[1]` -/
structure Boot (s : Sys) (p₀ p₁ : Ptr) : Prop where
  tree : Ptree.Boot s.links p₀ p₁
  info : ∀ p, s.links.Live p →
    (s.info p).state = .running ∧ (s.info p).cutime = 0 ∧ (s.info p).cstime = 0
  wait : ∀ p, s.links.Live p → s.wait p = .none
  serial : ∀ p, s.links.Live p → s.serial p < s.born
  inj : ∀ p q, s.links.Live p → s.links.Live q → s.serial p = s.serial q → p = q
  log : s.log = []

end Linux012.Waitpid
