import Mathlib.Data.Int.Notation
import Mathlib.Data.List.Basic
import Mathlib.Logic.Function.Basic
import Linux012.Lib.Runs

/-! # Process groups and sessions

`sys_setpgid` lets a task join a group of its session, or begin one, and `sys_setsid` begins a session. A group
lies in one session as long as no task begins a session while others are in the group that it began; `sys_setsid`
asks only whether the task leads a session.
-/

namespace Linux012.JobControl

open Function Runs

def NR_TASKS : ℕ := 64

def EPERM : ℤ := 1
def ESRCH : ℤ := 3
def EINVAL : ℤ := 22

structure Task where
  pid : ℤ
  pgrp : ℤ
  session : ℤ
  leader : Bool
  pptr : ℕ

/-- The table of tasks. `null` are the words that are read as `pgrp` and `session` through the null pointer of an
empty slot: two entries of the page directory, the first of them empty unless task 8 has memory at 48 MB. -/
structure Sys where
  task : ℕ → Option Task
  null : ℤ × ℤ

variable {s s' : Sys} {cur i j n nr : ℕ} {p q : Task} {pid pgid : ℤ}

namespace Sys

def set (s : Sys) (i : ℕ) (p : Option Task) : Sys := { s with task := update s.task i p }

/-- The group of a slot, as `session_of_pgrp` reads it -/
def pgrpAt (s : Sys) (i : ℕ) : ℤ := (s.task i).elim s.null.1 Task.pgrp

def sessionAt (s : Sys) (i : ℕ) : ℤ := (s.task i).elim s.null.2 Task.session

/-- The slots from `LAST_TASK` down to the one behind `FIRST_TASK` -/
def sessionOfPgrp (s : Sys) (pgrp : ℤ) : ℤ :=
  (((List.range' 1 (NR_TASKS - 1)).reverse.find? fun i => s.pgrpAt i = pgrp).map s.sessionAt).getD (-1)

/-- The task itself or a child of it -/
def isTarget (s : Sys) (cur : ℕ) (pid : ℤ) (i : ℕ) : Bool :=
  (s.task i).any fun p => p.pid = pid ∧ (p.pptr = cur ∨ i = cur)

def sysSetpgid (s : Sys) (cur : ℕ) (c : Task) (pid pgid : ℤ) : Sys × ℤ :=
  let pid := if pid = 0 then c.pid else pid
  let pgid := if pgid = 0 then c.pid else pgid
  if pgid < 0 then (s, -EINVAL)
  else
    match (List.range NR_TASKS).find? (s.isTarget cur pid) with
    | none => (s, -ESRCH)
    | some i =>
      match s.task i with
      | none => (s, -ESRCH)
      | some p =>
        if p.leader then (s, -EPERM)
        else if p.session ≠ c.session ∨ pgid ≠ pid ∧ s.sessionOfPgrp pgid ≠ c.session then (s, -EPERM)
        else (s.set i (some { p with pgrp := pgid }), 0)

def sysSetsid (s : Sys) (cur : ℕ) (c : Task) (suser : Bool) : Sys × ℤ :=
  if c.leader ∧ ¬ suser then (s, -EPERM)
  else (s.set cur (some { c with leader := true, session := c.pid, pgrp := c.pid }), c.pid)

/-- `copy_process` with the number that `find_empty_process` has found -/
def fork (s : Sys) (nr cur : ℕ) (c : Task) (pid : ℤ) : Sys :=
  s.set nr (some { c with pid := pid, leader := false, pptr := cur })

/-- The children of a task that exits become those of task 1. -/
def reparent (s : Sys) (n : ℕ) : Sys :=
  { s with task := fun i => (s.task i).map fun p => if p.pptr = n then { p with pptr := 1 } else p }

/-- The number is that of no task and of no group. -/
def Unused (s : Sys) (pid : ℤ) : Prop :=
  ∀ i < NR_TASKS, ∀ p ∈ s.task i, p.pid ≠ pid ∧ p.pgrp ≠ pid

instance (s : Sys) (pid : ℤ) : Decidable (s.Unused pid) :=
  inferInstanceAs (Decidable (∀ i < NR_TASKS, ∀ p ∈ s.task i, p.pid ≠ pid ∧ p.pgrp ≠ pid))

end Sys

inductive Event
  | fork (cur nr : ℕ) (pid : ℤ)
  | setpgid (cur : ℕ) (pid pgid : ℤ)
  | setsid (cur : ℕ) (suser : Bool)
  | exit (n : ℕ)
  | release (n : ℕ)

/-- Task 0 only forks. -/
def step : Event → Sys → Option Sys
  | .fork cur nr pid, s =>
    (s.task cur).bind fun c =>
      if 1 ≤ nr ∧ nr < NR_TASKS ∧ s.task nr = none ∧ 1 ≤ pid ∧ s.Unused pid then some (s.fork nr cur c pid)
      else none
  | .setpgid cur pid pgid, s => if cur = 0 then none else (s.task cur).map fun c => (s.sysSetpgid cur c pid pgid).1
  | .setsid cur suser, s => if cur = 0 then none else (s.task cur).map fun c => (s.sysSetsid cur c suser).1
  | .exit n, s => if n ≤ 1 then none else some (s.reparent n)
  | .release n, s => if n ≤ 1 then none else some (s.set n none)

/-- Before the first fork there is task 0 only. -/
def boot (word : ℤ) : Sys where
  task i := if i = 0 then some ⟨0, 0, 0, false, 0⟩ else none
  null := (0, word)

/-- The tasks of a group are of one session. -/
def OneSession (s : Sys) : Prop :=
  ∀ i j p q, s.task i = some p → s.task j = some q → p.pgrp = q.pgrp → p.session = q.session

/-- A task that begins a session leaves no one behind in the group that it began. -/
def Alone (s : Sys) : Event → Prop
  | .setsid cur suser => ∀ c, s.task cur = some c → (c.leader → suser) →
      ∀ i p, i ≠ cur → s.task i = some p → p.pgrp = c.pid → p.session = c.pid
  | _ => True

structure Kept (s : Sys) : Prop where
  null : s.null.1 = 0
  lt {i : ℕ} {p : Task} : s.task i = some p → i < NR_TASKS
  pos {i : ℕ} {p : Task} : s.task i = some p → i ≠ 0 → 1 ≤ p.pid
  nonneg {i : ℕ} {p : Task} : s.task i = some p → 0 ≤ p.session
  inj {i j : ℕ} {p q : Task} : s.task i = some p → s.task j = some q → p.pid = q.pid → i = j
  /-- The group with the number of a task is in its session. -/
  led {i j : ℕ} {p q : Task} : s.task i = some p → s.task j = some q → q.pgrp = p.pid → q.session = p.session
  grouped : OneSession s

theorem boot_kept (word : ℤ) : Kept (boot word) := by
  have hzero {i : ℕ} {p : Task} (h : (boot word).task i = some p) : i = 0 ∧ p = ⟨0, 0, 0, false, 0⟩ := by
    change (if i = 0 then _ else none) = _ at h
    split_ifs at h with hi
    exact ⟨hi, (Option.some.inj h).symm⟩
  refine ⟨rfl, fun h => ?_, fun h hne => absurd (hzero h).1 hne, fun h => ?_, fun h h' _ => ?_, fun h h' _ => ?_,
    fun i j p q h h' _ => ?_⟩
  · obtain ⟨rfl, -⟩ := hzero h
    decide
  · obtain ⟨-, rfl⟩ := hzero h
    decide
  · rw [(hzero h).1, (hzero h').1]
  · rw [(hzero h).2, (hzero h').2]
  · rw [(hzero h).2, (hzero h').2]

theorem task_set {x : Option Task} (h : (s.set i x).task j = some q) :
    j = i ∧ x = some q ∨ j ≠ i ∧ s.task j = some q := by
  unfold Sys.set at h
  rcases eq_or_ne j i with rfl | hne
  · exact .inl ⟨rfl, (update_self j x s.task).symm.trans h⟩
  · exact .inr ⟨hne, (update_of_ne hne x s.task).symm.trans h⟩

/-- What holds of any two tasks holds of them still when one of them is changed, if it holds of that one and any
other. -/
theorem pairs_set {R : ℕ → Task → ℕ → Task → Prop}
    (h : ∀ j q k q', s.task j = some q → s.task k = some q' → R j q k q') (hself : R i p i p)
    (hnew : ∀ j q, j ≠ i → s.task j = some q → R i p j q ∧ R j q i p) {j k : ℕ} {q q' : Task}
    (hj : (s.set i (some p)).task j = some q) (hk : (s.set i (some p)).task k = some q') : R j q k q' := by
  rcases task_set hj with ⟨rfl, hp⟩ | ⟨hne, hj'⟩ <;> rcases task_set hk with ⟨rfl, hp'⟩ | ⟨hne', hk'⟩
  · obtain rfl := Option.some.inj hp
    obtain rfl := Option.some.inj hp'
    exact hself
  · obtain rfl := Option.some.inj hp
    exact (hnew k q' hne' hk').1
  · obtain rfl := Option.some.inj hp'
    exact (hnew j q hne hj').2
  · exact h j q k q' hj' hk'

/-- What a changed task has to agree with in the others -/
structure Agrees (p q : Task) : Prop where
  pid : q.pid ≠ p.pid
  led : q.pgrp = p.pid → q.session = p.session
  joined : p.pgrp = q.pid → p.session = q.session
  grouped : q.pgrp = p.pgrp → q.session = p.session

theorem Kept.set_some (h : Kept s) (hlt : i < NR_TASKS) (hpos : i ≠ 0 → 1 ≤ p.pid) (hnonneg : 0 ≤ p.session)
    (hagree : ∀ j q, j ≠ i → s.task j = some q → Agrees p q) : Kept (s.set i (some p)) where
  null := h.null
  lt hj := by
    rcases task_set hj with ⟨rfl, -⟩ | ⟨-, hj⟩
    · exact hlt
    · exact h.lt hj
  pos hj := by
    rcases task_set hj with ⟨rfl, hp⟩ | ⟨-, hj⟩
    · obtain rfl := Option.some.inj hp
      exact hpos
    · exact h.pos hj
  nonneg hj := by
    rcases task_set hj with ⟨rfl, hp⟩ | ⟨-, hj⟩
    · obtain rfl := Option.some.inj hp
      exact hnonneg
    · exact h.nonneg hj
  inj := pairs_set (R := fun j q k q' => q.pid = q'.pid → j = k) (fun _ _ _ _ => h.inj) (fun _ => rfl)
    fun j q hne hj =>
      ⟨fun he => absurd he.symm (hagree j q hne hj).pid, fun he => absurd he (hagree j q hne hj).pid⟩
  led := pairs_set (R := fun _ q _ q' => q'.pgrp = q.pid → q'.session = q.session) (fun _ _ _ _ => h.led)
    (fun _ => rfl) fun j q hne hj => ⟨(hagree j q hne hj).led, (hagree j q hne hj).joined⟩
  grouped _ _ _ _ := pairs_set (R := fun _ q _ q' => q.pgrp = q'.pgrp → q.session = q'.session)
    (fun _ _ _ _ => h.grouped _ _ _ _) (fun _ => rfl) fun j q hne hj =>
      ⟨fun he => ((hagree j q hne hj).grouped he.symm).symm, (hagree j q hne hj).grouped⟩

/-- Each task that is left has the numbers of one that was there. -/
theorem Kept.of_tasks (h : Kept s) (hnull : s'.null = s.null)
    (ht : ∀ i p, s'.task i = some p → ∃ q, s.task i = some q ∧ q.pid = p.pid ∧ q.pgrp = p.pgrp ∧
      q.session = p.session) : Kept s' where
  null := hnull ▸ h.null
  lt hi := by
    obtain ⟨q, hq, -⟩ := ht _ _ hi
    exact h.lt hq
  pos hi := by
    obtain ⟨q, hq, hpid, -⟩ := ht _ _ hi
    exact hpid ▸ h.pos hq
  nonneg hi := by
    obtain ⟨q, hq, -, -, hs⟩ := ht _ _ hi
    exact hs ▸ h.nonneg hq
  inj hi hj := by
    obtain ⟨q, hq, hpid, -⟩ := ht _ _ hi
    obtain ⟨q', hq', hpid', -⟩ := ht _ _ hj
    rw [← hpid, ← hpid']
    exact h.inj hq hq'
  led hi hj := by
    obtain ⟨q, hq, hpid, -, hs⟩ := ht _ _ hi
    obtain ⟨q', hq', -, hg', hs'⟩ := ht _ _ hj
    rw [← hpid, ← hg', ← hs, ← hs']
    exact h.led hq hq'
  grouped i j p p' hi hj := by
    obtain ⟨q, hq, -, hg, hs⟩ := ht _ _ hi
    obtain ⟨q', hq', -, hg', hs'⟩ := ht _ _ hj
    rw [← hg, ← hg', ← hs, ← hs']
    exact h.grouped _ _ _ _ hq hq'

/-- Through a null pointer no group is found. -/
theorem exists_of_sessionOfPgrp (hnull : s.null.1 ≠ pgid) {c : ℤ} (hc : 0 ≤ c) (h : s.sessionOfPgrp pgid = c) :
    ∃ i p, s.task i = some p ∧ p.pgrp = pgid ∧ p.session = c := by
  unfold Sys.sessionOfPgrp at h
  cases hfind : (List.range' 1 (NR_TASKS - 1)).reverse.find? fun i => s.pgrpAt i = pgid with
  | none =>
    rw [hfind] at h
    change -1 = c at h
    omega
  | some i =>
    rw [hfind] at h
    change s.sessionAt i = c at h
    have hg := List.find?_some hfind
    rw [decide_eq_true_eq] at hg
    unfold Sys.pgrpAt at hg
    unfold Sys.sessionAt at h
    cases hi : s.task i with
    | none =>
      rw [hi] at hg
      exact absurd hg hnull
    | some p =>
      rw [hi] at hg h
      exact ⟨i, p, hi, hg, h⟩

theorem fork_kept (h : Kept s) (hc : s.task cur = some p) (hnr : nr < NR_TASKS) (hpid : 1 ≤ pid)
    (hunused : s.Unused pid) : Kept (s.fork nr cur p pid) := by
  have hnonneg : 0 ≤ p.session := h.nonneg hc
  refine h.set_some hnr (fun _ => hpid) hnonneg fun j q _ hj => ?_
  obtain ⟨hne, hne'⟩ := hunused j (h.lt hj) q hj
  exact ⟨hne, fun he => absurd he hne', fun he => h.led (q := p) hj hc he,
    fun he => h.grouped j cur q p hj hc he⟩

theorem setpgid_kept (h : Kept s) (hc : s.task cur = some p) (hcur : cur ≠ 0) (pid pgid : ℤ) :
    Kept (s.sysSetpgid cur p pid pgid).1 := by
  have hpid := h.pos hc hcur
  unfold Sys.sysSetpgid
  generalize hg : (if pgid = 0 then p.pid else pgid) = g
  generalize (if pid = 0 then p.pid else pid) = pid'
  have hne0 : g ≠ 0 := by
    rw [← hg]
    split_ifs <;> omega
  simp only
  split_ifs with hneg
  · exact h
  split
  · exact h
  · next i hfind =>
    split
    · exact h
    · next t ht =>
      split_ifs with hlead hdenied
      · exact h
      · exact h
      · rw [not_or, not_not] at hdenied
        obtain ⟨hsession, hgroup⟩ := hdenied
        have htarget := List.find?_some hfind
        simp only [Sys.isTarget, ht, Option.any_some, decide_eq_true_eq] at htarget
        -- the group that is joined is the task's own, or one of its session
        have hjoined : t.pid = g ∨ ∃ j q, s.task j = some q ∧ q.pgrp = g ∧ q.session = t.session := by
          by_cases hown : t.pid = g
          · exact .inl hown
          · right
            rw [not_and, not_not] at hgroup
            have hfound := hgroup fun he => hown (htarget.1.trans he.symm)
            obtain ⟨j, q, hj, hq, hs⟩ := exists_of_sessionOfPgrp (h.null ▸ hne0.symm) (h.nonneg hc) hfound
            exact ⟨j, q, hj, hq, hs.trans hsession.symm⟩
        have hnonneg : 0 ≤ t.session := h.nonneg ht
        have hpos : i ≠ 0 → 1 ≤ t.pid := h.pos ht
        refine h.set_some (h.lt ht) hpos hnonneg fun j q hne hj => ?_
        have hother : q.pid ≠ t.pid := fun he => hne (h.inj hj ht he)
        refine ⟨hother, fun he => h.led (p := t) ht hj he, fun he => ?_, fun he => ?_⟩
        · rcases hjoined with hown | ⟨k, m, hk, hm, hs⟩
          · exact absurd (he.symm.trans hown.symm) hother
          · exact hs.symm.trans (h.led hj hk (hm.trans he))
        · rcases hjoined with hown | ⟨k, m, hk, hm, hs⟩
          · exact h.led (p := t) ht hj (he.trans hown.symm)
          · exact (h.grouped _ _ _ _ hj hk (he.trans hm.symm)).trans hs

theorem setsid_kept {suser : Bool} (h : Kept s) (hc : s.task cur = some p) (hcur : cur ≠ 0)
    (hok : Alone s (.setsid cur suser)) : Kept (s.sysSetsid cur p suser).1 := by
  have hpid := h.pos hc hcur
  unfold Sys.sysSetsid
  split_ifs with hlead
  · exact h
  · have halone := hok p hc fun hl => by_contra fun hs => hlead ⟨hl, hs⟩
    refine h.set_some (h.lt hc) (fun _ => hpid) (by change 0 ≤ p.pid; omega) fun j q hne hj => ?_
    have hother : q.pid ≠ p.pid := fun he => hne (h.inj hj hc he)
    exact ⟨hother, halone j q hne hj, fun he => absurd he.symm hother, halone j q hne hj⟩

theorem step_kept {e : Event} (h : Kept s) (hok : Alone s e) (hstep : step e s = some s') : Kept s' := by
  cases e with
  | fork cur nr pid =>
    obtain ⟨c, hc, hstep⟩ := Option.bind_eq_some_iff.mp hstep
    split_ifs at hstep with hfound
    obtain ⟨-, hnr, -, hpid, hunused⟩ := hfound
    obtain rfl := Option.some.inj hstep
    exact fork_kept h hc hnr hpid hunused
  | setpgid cur pid pgid =>
    simp only [step] at hstep
    split_ifs at hstep with hcur
    obtain ⟨c, hc, rfl⟩ := Option.map_eq_some_iff.mp hstep
    exact setpgid_kept h hc hcur pid pgid
  | setsid cur suser =>
    simp only [step] at hstep
    split_ifs at hstep with hcur
    obtain ⟨c, hc, rfl⟩ := Option.map_eq_some_iff.mp hstep
    exact setsid_kept h hc hcur hok
  | exit n =>
    simp only [step] at hstep
    split_ifs at hstep
    obtain rfl := Option.some.inj hstep
    refine h.of_tasks rfl fun i p hi => ?_
    obtain ⟨q, hq, rfl⟩ := Option.map_eq_some_iff.mp hi
    refine ⟨q, hq, ?_⟩
    split_ifs <;> exact ⟨rfl, rfl, rfl⟩
  | release n =>
    simp only [step] at hstep
    split_ifs at hstep
    obtain rfl := Option.some.inj hstep
    refine h.of_tasks rfl fun i p hi => ?_
    rcases task_set hi with ⟨-, hnone⟩ | ⟨-, hi⟩
    · cases hnone
    · exact ⟨p, hi, rfl, rfl, rfl⟩

/-- A session that is begun while others are in the group splits the group. -/
theorem alone_of_step {e : Event} (hstep : step e s = some s') (h : OneSession s') : Alone s e := by
  cases e with
  | setsid cur suser =>
    intro c hc hlead i p hne hi hg
    simp only [step, hc] at hstep
    split_ifs at hstep with hcur
    obtain rfl := Option.some.inj hstep
    have hnot : ¬ (c.leader ∧ ¬ suser) := fun hl => hl.2 (hlead hl.1)
    change OneSession (s.sysSetsid cur c suser).1 at h
    unfold Sys.sysSetsid at h
    rw [if_neg hnot] at h
    exact h i cur p _ ((update_of_ne hne ..).trans hi) (update_self ..) hg
  | fork cur nr pid => trivial
  | setpgid cur pid pgid => trivial
  | exit n => trivial
  | release n => trivial

/-- From the start of the kernel each group is of one session exactly as long as no task begins a session while
others are in the group with its number. -/
theorem groups_of_one_session_iff (word : ℤ) (es : List Event) :
    Throughout step OneSession es (boot word) ↔ Each step Alone es (boot word) :=
  throughout_iff_each (I := Kept) (fun _ h => h.grouped) (fun _ _ _ h hok hstep => step_kept h hok hstep)
    (fun _ _ _ _ hstep h => alone_of_step hstep h) (boot_kept word)

-- Task 1 begins a group, forks and begins a session: its child stays behind in the group.
example : ((step (.fork 0 1 1) (boot 0)).bind fun s => (step (.setpgid 1 0 0) s).bind fun s =>
    (step (.fork 1 2 2) s).bind fun s => (step (.setsid 1 false) s).map fun s =>
      [1, 2].map fun i => (s.task i).map fun p => (p.pgrp, p.session)) =
    some [some (1, 1), some (1, 0)] := by
  decide +kernel

end Linux012.JobControl
