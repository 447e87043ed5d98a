import Mathlib.Data.List.FinRange
import Linux012.Lib.Links
import Linux012.Lib.Runs
import Linux012.Lib.Index

/-! # The process tree

The four links of a `task_struct` as `fork`, `exit` and `waitpid` write them. A task is known by
the address of its structure; `task` is the table of live tasks.
-/

namespace Linux012.Ptree

open Function Links Runs
open scoped Index

abbrev NR_TASKS : ℕ := 64

abbrev Ptr := ℕ

/-- What is said of a page that holds no task is left over from earlier ones. -/
structure Tasks where
  task : Fin NR_TASKS → Option Ptr
  zombie : Ptr → Bool
  pPptr : Ptr → Option Ptr
  pCptr : Ptr → Option Ptr
  pYsptr : Ptr → Option Ptr
  pOsptr : Ptr → Option Ptr

namespace Tasks

def Live (s : Tasks) (p : Ptr) : Prop := ∃ i, s.task i = some p

instance (s : Tasks) (p : Ptr) : Decidable (s.Live p) := inferInstanceAs (Decidable (∃ _, _))

/-- The last loop of `find_empty_process`. -/
def findEmpty (s : Tasks) : Option (Fin NR_TASKS) :=
  (List.finRange NR_TASKS).find? fun i => i ≠ 0 && s.task i = none

/-- `copy_process` after it has got the free page `p`; `fail` says that `copy_mem` fails. -/
def copyProcess (s : Tasks) (current p : Ptr) (nr : Fin NR_TASKS) (fail : Bool) : Tasks :=
  let s := { s with
    task := update s.task nr (some p)
    zombie := update s.zombie p false
    pPptr := update s.pPptr p (s.pPptr current)
    pCptr := update s.pCptr p (s.pCptr current)
    pYsptr := update s.pYsptr p (s.pYsptr current)
    pOsptr := update s.pOsptr p (s.pOsptr current) }
  if fail then { s with task := update s.task nr none }
  else
    let s := { s with
      pPptr := update s.pPptr p (some current)
      pCptr := update s.pCptr p none
      pYsptr := update s.pYsptr p none
      pOsptr := update s.pOsptr p (s.pCptr current) }
    { s with
      pYsptr := setAt s.pYsptr (s.pOsptr p) (some p)
      pCptr := update s.pCptr current (some p) }

/-- The loop of `do_exit` over the children, up to the oldest. -/
def adopt (init : Ptr) : ℕ → Ptr → Tasks → Option (Tasks × Ptr)
  | 0, _, _ => none
  | k + 1, p, s =>
    let s := { s with pPptr := update s.pPptr p (some init) }
    match s.pOsptr p with
    | some q => adopt init k q s
    | none => some (s, p)

/-- `do_exit`; it fails where it goes through a null pointer. -/
def doExit (s : Tasks) (current : Ptr) : Option Tasks :=
  let s := { s with zombie := update s.zombie current true }
  match s.pCptr current with
  | none => some s
  | some c => do
    let init ← s.task 1
    let (s, p) ← adopt init NR_TASKS c s
    let s := { s with pOsptr := update s.pOsptr p (s.pCptr init) }
    let y ← s.pCptr init
    let s := { s with pYsptr := update s.pYsptr y (some p) }
    let s := { s with pCptr := update s.pCptr init (s.pCptr current) }
    some { s with pCptr := update s.pCptr current none }

/-- `release`; it fails where it panics or goes through a null pointer. -/
def release (s : Tasks) (current p : Ptr) : Option Tasks := if p = current then some s else do
  let i ← (List.finRange NR_TASKS).find? fun i => i ≠ 0 && s.task i = some p
  let s := { s with task := update s.task i none }
  let s := { s with pYsptr := setAt s.pYsptr (s.pOsptr p) (s.pYsptr p) }
  match s.pYsptr p with
  | some y => some { s with pOsptr := update s.pOsptr y (s.pOsptr p) }
  | none => do
    let q ← s.pPptr p
    some { s with pCptr := update s.pCptr q (s.pOsptr p) }

/-- The loop of `sys_waitpid`, up to a zombie among the children that it is about. -/
def findZombie (s : Tasks) (sel : Ptr → Bool) (current : Ptr) : Option Ptr :=
  (walk s.pOsptr NR_TASKS (s.pCptr current)).find? fun p => sel p && s.zombie p

/-- One pass of `sys_waitpid`; without a zombie it returns or sleeps. -/
def waitpid (s : Tasks) (sel : Ptr → Bool) (current : Ptr) : Option Tasks :=
  match s.findZombie sel current with
  | some p => s.release current p
  | none => some s

/-! ## The audit -/

def badTaskPtr (s : Tasks) : Option Ptr → Bool
  | none => false
  | some p => ¬ s.Live p

/-- `audit_ptree` prints nothing about a task. -/
def auditTask (s : Tasks) (t : Ptr) : Bool :=
  !s.badTaskPtr (s.pPptr t) && !s.badTaskPtr (s.pCptr t) &&
  !s.badTaskPtr (s.pYsptr t) && !s.badTaskPtr (s.pOsptr t) &&
  s.pPptr t ≠ some t && s.pCptr t ≠ some t && s.pYsptr t ≠ some t && s.pOsptr t ≠ some t &&
  (match s.pOsptr t with
    | none => true
    | some o => s.pPptr t = s.pPptr o && s.pYsptr o = some t) &&
  (match s.pYsptr t with
    | none => true
    | some y => s.pPptr t = s.pPptr y && s.pOsptr y = some t) &&
  match s.pCptr t with
    | none => true
    | some c => s.pPptr c = some t && s.pYsptr c = none

/-- `audit_ptree` prints no warning. -/
def auditPtree (s : Tasks) : Bool :=
  (List.finRange NR_TASKS).all fun i =>
    i = 0 || match s.task i with
      | none => true
      | some t => s.auditTask t

end Tasks

/-! ## Runs -/

inductive Act
  | fork (t p : Ptr) (fail : Bool)
  | exit (t : Ptr)
  | waitpid (t : Ptr) (sel : Ptr → Bool)

/-- A task that makes calls: `task[0]` only pauses once `task[1]` is there. -/
def Tasks.Calls (s : Tasks) (t : Ptr) : Prop :=
  (∃ i ≠ 0, s.task i = some t) ∧ s.zombie t = false

instance (s : Tasks) (t : Ptr) : Decidable (s.Calls t) :=
  inferInstanceAs (Decidable ((∃ _, _ ∧ _) ∧ _))

/-- The call that an action stands for: a fork gets a page that holds no task, and `task[1]`
does not exit. -/
def Tasks.Allowed (s : Tasks) : Act → Prop
  | .fork t p _ => s.Calls t ∧ ¬ s.Live p
  | .exit t => s.Calls t ∧ s.task 1 ≠ some t
  | .waitpid t _ => s.Calls t

instance (s : Tasks) : ∀ a, Decidable (s.Allowed a)
  | .fork .. => inferInstanceAs (Decidable (_ ∧ ¬ _))
  | .exit .. => inferInstanceAs (Decidable (_ ∧ _ ≠ _))
  | .waitpid .. => inferInstanceAs (Decidable (Tasks.Calls _ _))

def run (a : Act) (s : Tasks) : Option Tasks :=
  match a with
  | .fork t p fail =>
    match s.findEmpty with
    | none => some s
    | some nr => some (s.copyProcess t p nr fail)
  | .exit t => s.doExit t
  | .waitpid t sel => s.waitpid sel t

def step (a : Act) (s : Tasks) : Option Tasks := if s.Allowed a then run a s else none

/-- Only `task[0]` and its child `task[1]`. -/
structure Boot (s : Tasks) (p₀ p₁ : Ptr) : Prop where
  ne : p₀ ≠ p₁
  task : ∀ i p, s.task i = some p ↔ (i = 0 ∧ p = p₀) ∨ (i = 1 ∧ p = p₁)
  zombie : s.zombie p₀ = false ∧ s.zombie p₁ = false
  pPptr : s.pPptr p₀ = some p₀ ∧ s.pPptr p₁ = some p₀
  pCptr : s.pCptr p₀ = some p₁ ∧ s.pCptr p₁ = none
  pYsptr : s.pYsptr p₀ = none ∧ s.pYsptr p₁ = none
  pOsptr : s.pOsptr p₀ = none ∧ s.pOsptr p₁ = none

end Linux012.Ptree
