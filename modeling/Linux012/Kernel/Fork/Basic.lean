import Mathlib.Data.Fintype.Pigeonhole
import Mathlib.Data.Fintype.Prod
import Mathlib.Tactic
import Linux012.Lib.Runs

/-! # Forks

`sys_fork` chooses a process number and a slot of `task` with `find_empty_process`, and uses
both in `copy_process`, which may sleep while it allocates memory. A task is known by the
address of its structure. Which pages are free and whether memory can be copied is left open.
-/

namespace Linux012.Forks

open Function Runs

abbrev NR_TASKS : ℕ := 64

abbrev Ptr := ℕ

/-- What a task has returned from its last successful fork, with the number of the child, or
where it is in `copy_process`: before its `get_free_page`, or in `copy_mem` for the child `p`. -/
inductive Frame
  | user (last : Option (ℕ × ℕ))
  | alloc (nr : Fin NR_TASKS)
  | copying (nr : Fin NR_TASKS) (p : Ptr)

/-- `fresh` marks the tasks entered into the table since the last call of `find_empty_process`
(not in the source). -/
structure Sys where
  task : Fin NR_TASKS → Option Ptr
  lastPid : ℕ
  pid : Ptr → ℕ
  pgrp : Ptr → ℕ
  fresh : Ptr → Bool
  frame : Ptr → Frame
  cpu : Option Ptr

namespace Sys

def Live (s : Sys) (p : Ptr) : Prop := ∃ i, s.task i = some p

instance (s : Sys) (p : Ptr) : Decidable (s.Live p) := inferInstanceAs (Decidable (∃ _, _))

/-- `++last_pid` on a `long` that is not negative, where a negative result becomes 1. -/
def nextPid (v : ℕ) : ℕ := if v + 1 < 2 ^ 31 then v + 1 else 1

/-- The task in a slot has the number or is in its process group. -/
def usedBy (s : Sys) (v : ℕ) (i : Fin NR_TASKS) : Bool :=
  match s.task i with
  | none => false
  | some p => s.pid p = v || s.pgrp p = v

/-- The first loop of `find_empty_process`. -/
def findPid (s : Sys) : ℕ → ℕ → Option ℕ
  | 0, _ => none
  | k + 1, v =>
    let v := nextPid v
    if (List.finRange NR_TASKS).any (s.usedBy v) then findPid s k v else some v

/-- The second loop of `find_empty_process`. -/
def findSlot (s : Sys) : Option (Fin NR_TASKS) :=
  (List.finRange NR_TASKS).find? fun i => i ≠ 0 && s.task i = none

/-- The task is being made by another one, so it does not run. -/
def made (s : Sys) (q : Ptr) : Bool :=
  (List.finRange NR_TASKS).any fun i =>
    match s.task i with
    | none => false
    | some t =>
      match s.frame t with
      | .copying _ p => p = q
      | _ => false

/-- `sys_fork` up to the allocation in `copy_process`. -/
def fork (s : Sys) (t : Ptr) : Option Sys :=
  (s.findPid (2 * NR_TASKS + 1) s.lastPid).map fun v =>
    let s := { s with lastPid := v, fresh := fun _ => false, cpu := some t }
    match s.findSlot with
    | none => { s with frame := update s.frame t (.user none) }
    | some nr => { s with frame := update s.frame t (.alloc nr) }

/-- `copy_process` has got the page `p` and enters the child into the table. -/
def enter (s : Sys) (t : Ptr) (nr : Fin NR_TASKS) (p : Ptr) : Sys :=
  { s with
    task := update s.task nr (some p)
    pid := update s.pid p s.lastPid
    pgrp := update s.pgrp p (s.pgrp t)
    fresh := update s.fresh p true
    frame := update (update s.frame p (.user none)) t (.copying nr p)
    cpu := some t }

end Sys

/-- What becomes of a call: it sleeps in an allocation, gets the page `p` or none, or `copy_mem`
fails or ends. -/
inductive Choice
  | fork
  | sleep
  | page (p : Ptr)
  | noPage
  | noMem
  | done

/-- A task runs, is preempted in user mode, or another task waits for a child or sets a group. -/
inductive Act
  | run (t : Ptr) (c : Choice)
  | tick
  | release (i : Fin NR_TASKS)
  | setpgrp (q : Ptr) (g : ℕ)

/-- A running task goes on to where it sleeps next, or to the next point where that is open. -/
def runTask (t : Ptr) (c : Choice) (s : Sys) : Option Sys :=
  match s.frame t, c with
  | .user _, .fork => if s.Live t ∧ s.made t = false then s.fork t else none
  | .alloc _, .sleep => some { s with cpu := none }
  | .alloc nr, .page p => if s.Live p then none else some (s.enter t nr p)
  | .alloc _, .noPage => some { s with frame := update s.frame t (.user none), cpu := some t }
  | .copying _ _, .sleep => some { s with cpu := none }
  | .copying nr _, .noMem =>
    some { s with
      task := update s.task nr none
      frame := update s.frame t (.user none)
      cpu := some t }
  | .copying _ p, .done =>
    some { s with frame := update s.frame t (.user (some (s.lastPid, s.pid p))), cpu := some t }
  | _, _ => none

def tick (s : Sys) : Option Sys :=
  match s.cpu with
  | none => none
  | some t =>
    match s.frame t with
    | .user _ => some { s with cpu := none }
    | _ => none

/-- A zombie is released by its parent. -/
def releaseTask (i : Fin NR_TASKS) (s : Sys) : Option Sys :=
  match s.task i with
  | none => none
  | some q =>
    match s.frame q with
    | .user _ =>
      if s.cpu = none ∧ i ≠ 0 ∧ s.made q = false then
        some { s with task := update s.task i none }
      else none
    | _ => none

def step (a : Act) (s : Sys) : Option Sys :=
  match a with
  | .run t c => if s.cpu = none ∨ s.cpu = some t then runTask t c s else none
  | .tick => tick s
  | .release i => releaseTask i s
  | .setpgrp q g => if s.cpu = none then some { s with pgrp := update s.pgrp q g } else none

/-- Only `task[0]`; what is said of pages without a task is left over. -/
def boot (p₀ : Ptr) (pid pgrp : Ptr → ℕ) : Sys where
  task := fun i => if i = 0 then some p₀ else none
  lastPid := 0
  pid := update pid p₀ 0
  pgrp := update pgrp p₀ 0
  fresh := fun _ => true
  frame := fun _ => .user none
  cpu := none

end Linux012.Forks
