import Linux012.Kernel.Exit.Basic

/-! # Orphaned process groups

A group is orphaned when no task of it has a parent outside of it in the session. When `do_exit` orphans a group
that has stopped jobs it hangs the group up and lets it go on.
-/

namespace Linux012.Orphans

open Function
open Signals (Word Slot sigmask SIGCHLD SIGCONT SIGSTOP SIGTSTP SIGTTIN SIGTTOU)
open Exit (tasksDown)

def SIGHUP : ℕ := 1

theorem init_lt : 1 < Signals.NR_TASKS := by decide

/-- `task[1]` -/
def INIT : Slot := ⟨1, init_lt⟩

structure Job extends Exit.Task where
  session : Word
  pPptr : Slot

structure Jobs where
  task : Slot → Option Job

def Job.die (p : Job) (code : Word) : Job := { p with state := .zombie, exitCode := code }

/-- `task[1]` inherits a child. -/
def Job.reparent (p : Job) : Job := { p with pPptr := INIT }

def post (sig : ℕ) (p : Job) : Job := { p with toTask := Exit.post sig p.toTask }

namespace Jobs

variable (s : Jobs)

def set (i : Slot) (p : Option Job) : Jobs := ⟨update s.task i p⟩

/-- `kill_pg` with `priv`; for an empty slot `send_sig` does nothing. -/
def killPg (pgrp : Word) (sig : ℕ) : Jobs :=
  if pgrp.toInt ≤ 0 then s
  else ⟨fun i => (s.task i).map fun p => if i ∈ tasksDown ∧ p.pgrp = pgrp then post sig p else p⟩

/-- The task keeps the group from being orphaned. -/
def connects (pgrp : Word) (i : Slot) : Bool :=
  (s.task i).any fun p => p.pgrp = pgrp ∧ p.state ≠ .zombie ∧
    (s.task p.pPptr).any fun q => q.pid ≠ 1 ∧ q.pgrp ≠ pgrp ∧ q.session = p.session

def isOrphanedPgrp (pgrp : Word) : Bool := tasksDown.all fun i => !s.connects pgrp i

/-- The word that is read as the state through a null pointer is not that of a stopped task. -/
def hasStoppedJobs (pgrp : Word) : Bool :=
  tasksDown.any fun i => (s.task i).any fun p => p.pgrp = pgrp ∧ p.state = .stopped

/-- `do_exit` looks whether the end of the link between a task and its parent orphans the task's group. -/
def check (p parent : Job) : Jobs :=
  if parent.pgrp ≠ p.pgrp ∧ parent.session = p.session ∧ s.isOrphanedPgrp p.pgrp ∧
      s.hasStoppedJobs p.pgrp then
    (s.killPg p.pgrp SIGHUP).killPg p.pgrp SIGCONT
  else s

def childDied (i : Slot) : Jobs :=
  s.set i ((s.task i).map fun p => { p with signal := p.signal ||| sigmask SIGCHLD })

/-- The loop of `do_exit` over the children, for one child -/
def adopt (current : Job) (i : Slot) : Jobs :=
  match s.task i with
  | none => s
  | some p =>
    let s := s.set i (some p.reparent)
    let s := if p.state = .zombie then s.childDied INIT else s
    s.check p current

/-- `do_exit` from where the task becomes a zombie to the end of the loop over its children, which `p_cptr` and
`p_osptr` lead to -/
def doExit (c : Slot) (code : Word) (kids : List Slot) : Jobs :=
  match s.task c with
  | none => s
  | some current =>
    let s := s.set c (some (current.die code))
    let s := (s.task current.pPptr).elim s (s.check current)
    let s := s.childDied current.pPptr
    kids.foldl (fun s i => s.adopt current i) s

end Jobs

/-- The signal has been posted, unless it is ignored. -/
def Got (sig : ℕ) (p : Exit.Task) : Prop := p.saHandler (sig - 1) = 1 ∨ p.signal.getLsbD (sig - 1) = true

structure HungUp (p : Exit.Task) : Prop where
  state : p.state ≠ .stopped
  hup : Got SIGHUP p
  cont : Got SIGCONT p

/-- Each task of the group has been hung up. -/
def Jobs.GroupHungUp (s : Jobs) (g : Word) : Prop :=
  ∀ i ∈ tasksDown, ∀ p, s.task i = some p → p.pgrp = g → HungUp p.toTask

/-- The job in the slot has stopped. -/
def Jobs.Stopped (s : Jobs) (g : Word) (k : Slot) : Prop :=
  ∃ p, s.task k = some p ∧ p.pgrp = g ∧ p.state = .stopped

/-- The group is orphaned and has been hung up, or is not orphaned and its job is still stopped. -/
def Jobs.Safe (s : Jobs) (g : Word) (k : Slot) : Prop :=
  s.isOrphanedPgrp g = true ∧ s.GroupHungUp g ∨ s.isOrphanedPgrp g = false ∧ s.Stopped g k

variable {s s' : Jobs} {g : Word} {i j k c : Slot} {p q parent current : Job} {t : Exit.Task} {sig sig' : ℕ}

/-! ## Signals -/

theorem got_post (h : sig = SIGHUP ∨ sig = SIGCONT) (t : Exit.Task) : Got sig (Exit.post sig t) := by
  have hbit : (sigmask sig).getLsbD (sig - 1) = true := by
    rcases h with rfl | rfl <;> decide
  unfold Got Exit.post Exit.deliver
  split_ifs with hignored
  · exact .inl hignored
  · exact .inr (by rw [BitVec.getLsbD_or, hbit, Bool.or_true])
  · exact .inr (by rw [BitVec.getLsbD_or, hbit, Bool.or_true])

theorem Got.resume (h : Got sig t) (hsig : sig = SIGHUP ∨ sig = SIGCONT) : Got sig (Exit.resume sig' t) := by
  have hbit : (~~~(sigmask SIGSTOP ||| sigmask SIGTSTP ||| sigmask SIGTTIN ||| sigmask SIGTTOU) : Word).getLsbD
      (sig - 1) = true := by
    rcases hsig with rfl | rfl <;> decide
  unfold Exit.resume
  split
  · exact h.imp id fun hs => by rw [BitVec.getLsbD_and, hs, hbit]; rfl
  · exact h

theorem Got.post (h : Got sig t) (hsig : sig = SIGHUP ∨ sig = SIGCONT)
    (hsig' : sig' = SIGHUP ∨ sig' = SIGCONT) : Got sig (Exit.post sig' t) := by
  have hr : Got sig (Exit.resume sig' t) := h.resume hsig
  have hnot : ¬ (SIGSTOP ≤ sig' ∧ sig' ≤ SIGTTOU) := by
    rcases hsig' with rfl | rfl <;> decide
  unfold Exit.post Exit.deliver
  split_ifs
  · exact hr
  · refine hr.imp id fun hs => ?_
    rw [BitVec.getLsbD_or, hs, Bool.true_or]

theorem state_deliver (sig : ℕ) (t : Exit.Task) : (Exit.deliver sig t).state = t.state := by
  unfold Exit.deliver
  split_ifs <;> rfl

theorem state_resume (sig : ℕ) (t : Exit.Task) :
    (Exit.resume sig t).state = if (sig = Signals.SIGKILL ∨ sig = SIGCONT) ∧ t.state = .stopped then .running
      else t.state := by
  unfold Exit.resume
  split_ifs <;> first | rfl | grind

theorem state_hup (t : Exit.Task) : (Exit.post SIGHUP t).state = t.state := by
  rw [Exit.post, state_deliver, state_resume]
  exact if_neg fun h => absurd h.1 (by decide)

theorem state_cont (t : Exit.Task) :
    (Exit.post SIGCONT t).state = if t.state = .stopped then .running else t.state := by
  rw [Exit.post, state_deliver, state_resume]
  simp

theorem hungUp_post (t : Exit.Task) : HungUp (Exit.post SIGCONT (Exit.post SIGHUP t)) where
  state := by
    rw [state_cont]
    split_ifs with h
    · decide
    · exact h
  hup := (got_post (.inl rfl) t).post (.inl rfl) (.inr rfl)
  cont := got_post (.inr rfl) _

theorem HungUp.post (h : HungUp t) (hsig : sig = SIGHUP ∨ sig = SIGCONT) : HungUp (Exit.post sig t) where
  state := by
    rcases hsig with rfl | rfl
    · exact (state_hup t).symm ▸ h.state
    · rw [state_cont, if_neg h.state]
      exact h.state
  hup := h.hup.post (.inl rfl) hsig
  cont := h.cont.post (.inr rfl) hsig

/-- A task after signals -/
structure Signalled (p q : Job) : Prop where
  pid : q.pid = p.pid
  pgrp : q.pgrp = p.pgrp
  session : q.session = p.session
  pPptr : q.pPptr = p.pPptr
  zombie : q.state = .zombie ↔ p.state = .zombie
  hungUp : HungUp p.toTask → HungUp q.toTask

theorem Signalled.refl (p : Job) : Signalled p p := ⟨rfl, rfl, rfl, rfl, Iff.rfl, id⟩

theorem Signalled.trans {r : Job} (h : Signalled p q) (h' : Signalled q r) : Signalled p r where
  pid := h'.pid.trans h.pid
  pgrp := h'.pgrp.trans h.pgrp
  session := h'.session.trans h.session
  pPptr := h'.pPptr.trans h.pPptr
  zombie := h'.zombie.trans h.zombie
  hungUp := h'.hungUp ∘ h.hungUp

theorem post_fields (sig : ℕ) (t : Exit.Task) :
    (Exit.post sig t).pid = t.pid ∧ (Exit.post sig t).pgrp = t.pgrp := by
  unfold Exit.post Exit.deliver Exit.resume
  split_ifs <;> exact ⟨rfl, rfl⟩

theorem signalled_post (p : Job) (hsig : sig = SIGHUP ∨ sig = SIGCONT) : Signalled p (post sig p) where
  pid := (post_fields sig p.toTask).1
  pgrp := (post_fields sig p.toTask).2
  session := rfl
  pPptr := rfl
  zombie := by
    change (Exit.post sig p.toTask).state = .zombie ↔ _
    rcases hsig with rfl | rfl
    · rw [state_hup]
    · rw [state_cont]
      split_ifs with h
      · simp [h]
      · exact Iff.rfl
  hungUp h := h.post hsig

theorem signalled_childDied (p : Job) : Signalled p { p with signal := p.signal ||| sigmask SIGCHLD } where
  pid := rfl
  pgrp := rfl
  session := rfl
  pPptr := rfl
  zombie := Iff.rfl
  hungUp h := by
    have hgot {sig : ℕ} (hs : Got sig p.toTask) :
        Got sig { p.toTask with signal := p.signal ||| sigmask SIGCHLD } :=
      hs.imp id fun hs => by rw [BitVec.getLsbD_or, hs, Bool.true_or]
    exact ⟨h.state, hgot h.hup, hgot h.cont⟩

/-! ## What keeps a group -/

/-- The tasks after signals -/
def Later (s s' : Jobs) : Prop :=
  ∃ f : Slot → Job → Job, (∀ i p, Signalled p (f i p)) ∧ ∀ i, s'.task i = (s.task i).map (f i)

namespace Later

theorem refl (s : Jobs) : Later s s := ⟨fun _ p => p, fun _ => .refl, fun _ => Option.map_id'.symm⟩

theorem trans {s'' : Jobs} (h : Later s s') (h' : Later s' s'') : Later s s'' := by
  obtain ⟨f, hf, hs⟩ := h
  obtain ⟨f', hf', hs'⟩ := h'
  refine ⟨fun i p => f' i (f i p), fun i p => (hf i p).trans (hf' i _), fun i => ?_⟩
  rw [hs', hs, Option.map_map]
  rfl

theorem connects_eq (h : Later s s') (g : Word) (i : Slot) : s'.connects g i = s.connects g i := by
  obtain ⟨f, hf, hs⟩ := h
  unfold Jobs.connects
  rw [hs]
  cases hi : s.task i with
  | none => rfl
  | some p =>
    simp only [Option.map_some, Option.any_some, ne_eq, hs, (hf i p).pPptr, (hf i p).pgrp, (hf i p).zombie,
      (hf i p).session]
    cases s.task p.pPptr with
    | none => rfl
    | some q => simp only [Option.map_some, Option.any_some, (hf _ q).pid, (hf _ q).pgrp, (hf _ q).session]

theorem isOrphanedPgrp_eq (h : Later s s') (g : Word) : s'.isOrphanedPgrp g = s.isOrphanedPgrp g := by
  unfold Jobs.isOrphanedPgrp
  simp only [h.connects_eq]

theorem groupHungUp (h : Later s s') (hs : s.GroupHungUp g) : s'.GroupHungUp g := by
  obtain ⟨f, hf, hs'⟩ := h
  intro i hi q hq hg
  rw [hs'] at hq
  obtain ⟨p, hp, rfl⟩ := Option.map_eq_some_iff.mp hq
  exact (hf i p).hungUp (hs i hi p hp ((hf i p).pgrp.symm.trans hg))

end Later

@[simp] theorem task_set_self (s : Jobs) (i : Slot) (x : Option Job) : (s.set i x).task i = x := update_self ..

theorem task_set_of_ne {x : Option Job} (h : j ≠ i) : (s.set i x).task j = s.task j := update_of_ne h ..

theorem later_killPg (s : Jobs) (g : Word) (hsig : sig = SIGHUP ∨ sig = SIGCONT) : Later s (s.killPg g sig) := by
  unfold Jobs.killPg
  split_ifs
  · exact .refl s
  · refine ⟨fun i p => if i ∈ tasksDown ∧ p.pgrp = g then post sig p else p, fun i p => ?_, fun _ => rfl⟩
    change Signalled p (if _ then _ else p)
    split_ifs
    · exact signalled_post p hsig
    · exact .refl p

theorem later_check (s : Jobs) (p parent : Job) : Later s (s.check p parent) := by
  unfold Jobs.check
  split_ifs
  · exact (later_killPg s _ (.inl rfl)).trans (later_killPg _ _ (.inr rfl))
  · exact .refl s

theorem later_childDied (s : Jobs) (i : Slot) : Later s (s.childDied i) := by
  refine ⟨fun j p => if j = i then { p with signal := p.signal ||| sigmask SIGCHLD } else p, fun j p => ?_,
    fun j => ?_⟩
  · change Signalled p (if _ then _ else p)
    split_ifs
    · exact signalled_childDied p
    · exact .refl p
  · unfold Jobs.childDied
    rcases eq_or_ne j i with rfl | hne
    · simp
    · simp [task_set_of_ne hne, hne]

theorem isOrphanedPgrp_false : s.isOrphanedPgrp g = false ↔ ∃ i ∈ tasksDown, s.connects g i = true := by
  simp [Jobs.isOrphanedPgrp]

theorem isOrphanedPgrp_true : s.isOrphanedPgrp g = true ↔ ∀ i ∈ tasksDown, s.connects g i = false := by
  simp [Jobs.isOrphanedPgrp]

theorem Jobs.Stopped.hasStoppedJobs (h : s.Stopped g k) (hk : k ∈ tasksDown) : s.hasStoppedJobs g = true := by
  obtain ⟨p, hp, hpg, hps⟩ := h
  refine List.any_eq_true.mpr ⟨k, hk, ?_⟩
  rw [hp]
  exact decide_eq_true ⟨hpg, hps⟩

/-- The tasks of other groups are as they were. -/
theorem task_killPg_of_ne {g' : Word} (hp : s.task i = some p) (hne : p.pgrp ≠ g') :
    (s.killPg g' sig).task i = some p := by
  unfold Jobs.killPg
  split_ifs
  · exact hp
  · simp [hp, hne]

theorem task_hangUp (hg : 0 < g.toInt) (hi : i ∈ tasksDown) (hp : s.task i = some p) (hpg : p.pgrp = g) :
    ((s.killPg g SIGHUP).killPg g SIGCONT).task i = some (post SIGCONT (post SIGHUP p)) := by
  have hpost : (post SIGHUP p).pgrp = g := (post_fields SIGHUP p.toTask).2.trans hpg
  unfold Jobs.killPg
  rw [if_neg (not_le.mpr hg), if_neg (not_le.mpr hg)]
  simp [hp, hi, hpg, hpost]

theorem groupHungUp_hangUp (hg : 0 < g.toInt) : ((s.killPg g SIGHUP).killPg g SIGCONT).GroupHungUp g := by
  intro i hi q hq hqg
  cases hp : s.task i with
  | none =>
    unfold Jobs.killPg at hq
    rw [if_neg (not_le.mpr hg), if_neg (not_le.mpr hg)] at hq
    simp [hp] at hq
  | some p =>
    by_cases hpg : p.pgrp = g
    · rw [task_hangUp hg hi hp hpg] at hq
      obtain rfl := Option.some.inj hq
      exact hungUp_post p.toTask
    · rw [task_killPg_of_ne (task_killPg_of_ne hp hpg) hpg] at hq
      obtain rfl := Option.some.inj hq
      exact absurd hqg hpg

/-! ## One end of a link after another -/

theorem Jobs.Safe.check (h : s.Safe g k) (p parent : Job) : (s.check p parent).Safe g k := by
  have hlater := later_check s p parent
  rcases h with ⟨hor, h⟩ | ⟨hor, q, hq, rfl, hqs⟩
  · exact .inl ⟨(hlater.isOrphanedPgrp_eq g).trans hor, hlater.groupHungUp h⟩
  · refine .inr ⟨(hlater.isOrphanedPgrp_eq _).trans hor, q, ?_, rfl, hqs⟩
    unfold Jobs.check
    split_ifs with hcond
    · have hne : q.pgrp ≠ p.pgrp := by
        intro he
        rw [he] at hor
        exact Bool.false_ne_true (hor.symm.trans hcond.2.2.1)
      exact task_killPg_of_ne (task_killPg_of_ne hq hne) hne
    · exact hq

theorem Jobs.Stopped.childDied (h : s.Stopped g k) (i : Slot) : (s.childDied i).Stopped g k := by
  obtain ⟨q, hq, hqg, hqs⟩ := h
  unfold Jobs.childDied
  rcases eq_or_ne k i with rfl | hne
  · exact ⟨_, (task_set_self ..).trans (congrArg _ hq), hqg, hqs⟩
  · exact ⟨q, (task_set_of_ne hne).trans hq, hqg, hqs⟩

theorem Jobs.Safe.childDied (h : s.Safe g k) (i : Slot) : (s.childDied i).Safe g k := by
  have hlater := later_childDied s i
  rcases h with ⟨hor, h⟩ | ⟨hor, hst⟩
  · exact .inl ⟨(hlater.isOrphanedPgrp_eq g).trans hor, hlater.groupHungUp h⟩
  · exact .inr ⟨(hlater.isOrphanedPgrp_eq g).trans hor, hst.childDied i⟩

/-- No task gets a parent that keeps the group. -/
structure Loses (s s' : Jobs) (g : Word) (k : Slot) : Prop where
  connects : ∀ j, s'.connects g j = true → s.connects g j = true
  groupHungUp : s.GroupHungUp g → s'.GroupHungUp g
  stopped : s.Stopped g k → s'.Stopped g k

theorem Loses.isOrphanedPgrp (h : Loses s s' g k) (hor : s.isOrphanedPgrp g = true) :
    s'.isOrphanedPgrp g = true := by
  refine isOrphanedPgrp_true.mpr fun j hj => Bool.eq_false_iff.mpr fun hc => ?_
  exact Bool.false_ne_true ((isOrphanedPgrp_true.mp hor j hj).symm.trans (h.connects j hc))

theorem Loses.later {s'' : Jobs} (h : Loses s s' g k) (hl : Later s' s'')
    (hst : s'.Stopped g k → s''.Stopped g k) : Loses s s'' g k where
  connects j hj := h.connects j (hl.connects_eq g j ▸ hj)
  groupHungUp := hl.groupHungUp ∘ h.groupHungUp
  stopped := hst ∘ h.stopped

theorem Jobs.Safe.keep (h : s.Safe g k) (hl : Loses s s' g k)
    (hkeep : ∀ j, s.connects g j = true → s'.connects g j = true) : s'.Safe g k := by
  rcases h with ⟨hor, h⟩ | ⟨hor, hst⟩
  · exact .inl ⟨hl.isOrphanedPgrp hor, hl.groupHungUp h⟩
  · obtain ⟨j, hj, hjc⟩ := isOrphanedPgrp_false.mp hor
    exact .inr ⟨isOrphanedPgrp_false.mpr ⟨j, hj, hkeep j hjc⟩, hl.stopped hst⟩

/-- The group loses at most the link that `check` is about. -/
theorem Jobs.Safe.cut (h : s.Safe g k) (hg : 0 < g.toInt) (hk : k ∈ tasksDown) (hl : Loses s s' g k)
    (hcut : ∀ j, s.connects g j = true → s'.connects g j = true ∨
      p.pgrp = g ∧ parent.pgrp ≠ p.pgrp ∧ parent.session = p.session) : (s'.check p parent).Safe g k := by
  have hlater := later_check s' p parent
  rcases h with ⟨hor, h⟩ | ⟨hor, hst⟩
  · refine .inl ⟨(hlater.isOrphanedPgrp_eq g).trans (hl.isOrphanedPgrp hor), ?_⟩
    exact hlater.groupHungUp (hl.groupHungUp h)
  · obtain ⟨j, hj, hjc⟩ := isOrphanedPgrp_false.mp hor
    by_cases hor' : s'.isOrphanedPgrp g = false
    · exact Jobs.Safe.check (.inr ⟨hor', hl.stopped hst⟩) p parent
    · rw [Bool.not_eq_false] at hor'
      rcases hcut j hjc with hjc' | ⟨rfl, hne, hsession⟩
      · exact absurd hjc' (Bool.eq_false_iff.mp (isOrphanedPgrp_true.mp hor' j hj))
      · refine .inl ⟨(hlater.isOrphanedPgrp_eq _).trans hor', ?_⟩
        unfold Jobs.check
        rw [if_pos ⟨hne, hsession, hor', (hl.stopped hst).hasStoppedJobs hk⟩]
        exact groupHungUp_hangUp hg

/-- A changed task keeps what links the others to it. -/
theorem connects_set (hp : s.task i = some p) (hpid : q.pid = p.pid) (hpgrp : q.pgrp = p.pgrp)
    (hsession : q.session = p.session) (hne : j ≠ i) : (s.set i (some q)).connects g j = s.connects g j := by
  unfold Jobs.connects
  rw [task_set_of_ne hne]
  congr 1
  funext r
  rcases eq_or_ne r.pPptr i with heq | hne'
  · rw [heq, task_set_self, hp]
    simp only [Option.any_some, hpid, hpgrp, hsession]
  · rw [task_set_of_ne hne']

theorem groupHungUp_set (hp : s.task i = some p) (hpgrp : q.pgrp = p.pgrp)
    (hq : HungUp p.toTask → HungUp q.toTask) (h : s.GroupHungUp g) : (s.set i (some q)).GroupHungUp g := by
  intro j hj r hr hrg
  rcases eq_or_ne j i with rfl | hne
  · rw [task_set_self] at hr
    obtain rfl := Option.some.inj hr
    exact hq (h j hj p hp (hpgrp.symm.trans hrg))
  · exact h j hj r ((task_set_of_ne hne).symm.trans hr) hrg

theorem stopped_set (hp : s.task i = some p) (hpgrp : q.pgrp = p.pgrp)
    (hq : p.state = .stopped → q.state = .stopped) (h : s.Stopped g k) : (s.set i (some q)).Stopped g k := by
  obtain ⟨r, hr, hrg, hrs⟩ := h
  rcases eq_or_ne k i with rfl | hne
  · obtain rfl := Option.some.inj (hp.symm.trans hr)
    exact ⟨q, task_set_self .., hpgrp.trans hrg, hq hrs⟩
  · exact ⟨r, (task_set_of_ne hne).trans hr, hrg, hrs⟩

theorem connects_iff : s.connects g i = true ↔ ∃ p, s.task i = some p ∧ p.pgrp = g ∧ p.state ≠ .zombie ∧
    ∃ q, s.task p.pPptr = some q ∧ q.pid ≠ 1 ∧ q.pgrp ≠ g ∧ q.session = p.session := by
  simp [Jobs.connects, Option.any_eq_true]

/-- In the loop of `do_exit`: what is left of the list are children, and the task is still in its group. -/
structure Exiting (s : Jobs) (c : Slot) (current : Job) (kids : List Slot) : Prop where
  current : ∃ q, s.task c = some q ∧ q.pgrp = current.pgrp ∧ q.session = current.session
  init : ∃ q, s.task INIT = some q ∧ q.pid = 1
  kids : ∀ i ∈ kids, i ≠ c ∧ ∀ p, s.task i = some p → p.pPptr = c

theorem Exiting.later {kids : List Slot} (h : Exiting s c current kids) (hl : Later s s') :
    Exiting s' c current kids := by
  obtain ⟨f, hf, hs⟩ := hl
  obtain ⟨q, hq, hg, hsession⟩ := h.current
  obtain ⟨r, hr, hpid⟩ := h.init
  refine ⟨⟨f c q, by rw [hs, hq, Option.map_some], (hf c q).pgrp.trans hg, (hf c q).session.trans hsession⟩,
    ⟨f INIT r, by rw [hs, hr, Option.map_some], (hf INIT r).pid.trans hpid⟩,
    fun i hi => ⟨(h.kids i hi).1, fun p hp => ?_⟩⟩
  rw [hs] at hp
  obtain ⟨p', hp', rfl⟩ := Option.map_eq_some_iff.mp hp
  exact (hf i p').pPptr.trans ((h.kids i hi).2 p' hp')

/-- A child gets the parent `task[1]`, which may get a signal, before `check`. -/
theorem adopt_some (g : Word) (k : Slot) (current : Job) (hp : s.task i = some p) : ∃ s₂,
    s.adopt current i = s₂.check p current ∧ Later (s.set i (some p.reparent)) s₂ ∧
      ((s.set i (some p.reparent)).Stopped g k → s₂.Stopped g k) := by
  unfold Jobs.adopt
  rw [hp]
  refine ⟨_, rfl, ?_⟩
  by_cases hz : p.state = .zombie
  · rw [if_pos hz]
    exact ⟨later_childDied _ INIT, fun h => h.childDied INIT⟩
  · rw [if_neg hz]
    exact ⟨.refl _, id⟩

/-- The child of `task[1]` keeps no group from being orphaned. -/
theorem loses_reparent (hp : s.task i = some p) (hinit : ∃ q, s.task INIT = some q ∧ q.pid = 1) :
    Loses s (s.set i (some p.reparent)) g k where
  connects j hj := by
    rcases eq_or_ne j i with rfl | hne
    · obtain ⟨p', hp', -, -, q, hq, hpid, -⟩ := connects_iff.mp hj
      obtain rfl := Option.some.inj ((task_set_self ..).symm.trans hp')
      obtain ⟨r, hr, hr1⟩ := hinit
      rcases eq_or_ne INIT j with he | hne
      · rw [← he] at hp hq
        obtain rfl := Option.some.inj (hr.symm.trans hp)
        obtain rfl := Option.some.inj ((task_set_self ..).symm.trans hq)
        exact absurd hr1 hpid
      · obtain rfl := Option.some.inj (hr.symm.trans ((task_set_of_ne hne).symm.trans hq))
        exact absurd hr1 hpid
    · have hkeep := connects_set (g := g) (q := p.reparent) hp rfl rfl rfl hne
      exact hkeep.symm.trans hj
  groupHungUp h := groupHungUp_set hp rfl id h
  stopped h := stopped_set hp rfl id h

theorem adopt_safe {kids : List Slot} (hs : s.Safe g k) (hg : 0 < g.toInt) (hk : k ∈ tasksDown)
    (h : Exiting s c current (i :: kids)) (hi : i ∉ kids) :
    (s.adopt current i).Safe g k ∧ Exiting (s.adopt current i) c current kids := by
  obtain ⟨⟨hic, hparent⟩, hkids⟩ := List.forall_mem_cons.mp h.kids
  obtain ⟨q, hq, hqg, hqs⟩ := h.current
  cases hp : s.task i with
  | none =>
    unfold Jobs.adopt
    rw [hp]
    exact ⟨hs, h.current, h.init, hkids⟩
  | some p =>
    obtain ⟨s₂, hrun, hl, hstop⟩ := adopt_some g k current hp
    have hex : Exiting (s.set i (some p.reparent)) c current kids := by
      refine ⟨⟨q, (task_set_of_ne hic.symm).trans hq, hqg, hqs⟩, ?_, fun j hj => ?_⟩
      · obtain ⟨r, hr, hpid⟩ := h.init
        rcases eq_or_ne INIT i with rfl | hne
        · obtain rfl := Option.some.inj (hr.symm.trans hp)
          exact ⟨_, task_set_self .., hpid⟩
        · exact ⟨r, (task_set_of_ne hne).trans hr, hpid⟩
      · refine ⟨(hkids j hj).1, fun r hr => ?_⟩
        have hji : j ≠ i := fun he => hi (he ▸ hj)
        exact (hkids j hj).2 r ((task_set_of_ne hji).symm.trans hr)
    rw [hrun]
    refine ⟨hs.cut hg hk ((loses_reparent hp h.init).later hl hstop) fun j hjc => ?_,
      (hex.later hl).later (later_check s₂ p current)⟩
    rw [hl.connects_eq]
    rcases eq_or_ne j i with rfl | hne
    · obtain ⟨p', hp', hpg, -, q', hq', -, hqg', hqs'⟩ := connects_iff.mp hjc
      obtain rfl := Option.some.inj (hp.symm.trans hp')
      rw [hparent p hp] at hq'
      obtain rfl := Option.some.inj (hq.symm.trans hq')
      exact .inr ⟨hpg, fun he => hqg' (hqg.trans (he.trans hpg)), hqs.symm.trans hqs'⟩
    · have hkeep := connects_set (g := g) (q := p.reparent) hp rfl rfl rfl hne
      exact .inl (hkeep.trans hjc)

theorem adopts_safe {kids : List Slot} (hs : s.Safe g k) (hg : 0 < g.toInt) (hk : k ∈ tasksDown)
    (h : Exiting s c current kids) (hnodup : kids.Nodup) :
    (kids.foldl (fun s i => s.adopt current i) s).Safe g k := by
  induction kids generalizing s with
  | nil => exact hs
  | cons i kids ih =>
    obtain ⟨hi, hnodup⟩ := List.nodup_cons.mp hnodup
    obtain ⟨hs', h'⟩ := adopt_safe hs hg hk h hi
    exact ih hs' h' hnodup

/-- A zombie keeps no group from being orphaned. -/
theorem loses_die (hc : s.task c = some current) (hstate : current.state = .running) (code : Word) :
    Loses s (s.set c (some (current.die code))) g k where
  connects j hj := by
    rcases eq_or_ne j c with rfl | hne
    · obtain ⟨p', hp', -, hpz, -⟩ := connects_iff.mp hj
      obtain rfl := Option.some.inj ((task_set_self ..).symm.trans hp')
      exact absurd rfl hpz
    · have hkeep := connects_set (g := g) (q := current.die code) hc rfl rfl rfl hne
      exact hkeep.symm.trans hj
  groupHungUp h := groupHungUp_set hc rfl
    (fun h => ⟨(by decide : Signals.TaskState.zombie ≠ .stopped), h.hup, h.cont⟩) h
  stopped h := stopped_set hc rfl (fun h => absurd (hstate.symm.trans h) (by decide)) h

/-- `do_exit` up to its loop -/
theorem die_safe (kids : List Slot) (code : Word) (hs : s.Safe g k) (hg : 0 < g.toInt) (hk : k ∈ tasksDown)
    (hc : s.task c = some current) (hstate : current.state = .running) (hself : current.pPptr ≠ c) :
    ∃ s₁, s.doExit c code kids = kids.foldl (fun s i => s.adopt current i) s₁ ∧ s₁.Safe g k ∧
      Later (s.set c (some (current.die code))) s₁ := by
  have hl : Loses s (s.set c (some (current.die code))) g k := loses_die hc hstate code
  have hother (j : Slot) (hne : j ≠ c) (h : s.connects g j = true) :
      (s.set c (some (current.die code))).connects g j = true :=
    (connects_set (q := current.die code) hc rfl rfl rfl hne).trans h
  unfold Jobs.doExit
  rw [hc]
  refine ⟨_, rfl, ?_⟩
  simp only [task_set_of_ne hself]
  cases hparent : s.task current.pPptr with
  | none =>
    refine ⟨(hs.keep hl fun j hjc => hother j ?_ hjc).childDied _, later_childDied ..⟩
    rintro rfl
    obtain ⟨p', hp', -, -, q', hq', -⟩ := connects_iff.mp hjc
    obtain rfl := Option.some.inj (hc.symm.trans hp')
    cases hparent.symm.trans hq'
  | some parent =>
    refine ⟨Jobs.Safe.childDied (hs.cut hg hk hl fun j hjc => ?_) _, (later_check ..).trans (later_childDied ..)⟩
    rcases eq_or_ne j c with rfl | hne
    · obtain ⟨p', hp', hpg, -, q', hq', -, hqg', hqs'⟩ := connects_iff.mp hjc
      obtain rfl := Option.some.inj (hc.symm.trans hp')
      obtain rfl := Option.some.inj (hparent.symm.trans hq')
      exact .inr ⟨hpg, fun he => hqg' (he.trans hpg), hqs'⟩
    · exact .inl (hother j hne hjc)

/-- When a task exits and the group `g`, where a job has stopped, is orphaned, each task of the group gets `SIGHUP`
and `SIGCONT`, and none stays stopped. If it is not orphaned the job stays stopped. -/
theorem orphans_hung_up {kids : List Slot} (hg : 0 < g.toInt) (hc : s.task c = some current)
    (hstate : current.state = .running) (hself : current.pPptr ≠ c) (hcinit : c ≠ INIT)
    (hinit : ∃ q, s.task INIT = some q ∧ q.pid = 1) (hnodup : kids.Nodup)
    (hkids : ∀ i ∈ kids, ∃ p, s.task i = some p ∧ p.pPptr = c) (code : Word)
    (hbefore : s.isOrphanedPgrp g = false) (hk : k ∈ tasksDown) (hstopped : s.Stopped g k) :
    if (s.doExit c code kids).isOrphanedPgrp g then (s.doExit c code kids).GroupHungUp g
    else (s.doExit c code kids).Stopped g k := by
  obtain ⟨s₁, hrun, hsafe₁, hl⟩ := die_safe kids code (.inr ⟨hbefore, hstopped⟩) hg hk hc hstate hself
  have hex : Exiting (s.set c (some (current.die code))) c current kids := by
    obtain ⟨r, hr, hpid⟩ := hinit
    refine ⟨⟨_, task_set_self .., rfl, rfl⟩, ⟨r, (task_set_of_ne hcinit.symm).trans hr, hpid⟩, fun i hi => ?_⟩
    obtain ⟨p, hp, hpc⟩ := hkids i hi
    have hic : i ≠ c := by
      rintro rfl
      obtain rfl := Option.some.inj (hc.symm.trans hp)
      exact hself hpc
    refine ⟨hic, fun r hr => ?_⟩
    obtain rfl := Option.some.inj (hp.symm.trans ((task_set_of_ne hic).symm.trans hr))
    exact hpc
  have hsafe := adopts_safe hsafe₁ hg hk (hex.later hl) hnodup
  rw [hrun]
  rcases hsafe with ⟨hor, h⟩ | ⟨hor, h⟩
  · rw [if_pos hor]
    exact h
  · rw [if_neg (Bool.eq_false_iff.mp hor)]
    exact h

theorem first_lt : 0 < Signals.NR_TASKS := by decide

theorem shell_lt : 2 < Signals.NR_TASKS := by decide

theorem job_lt : 3 < Signals.NR_TASKS := by decide

def SHELL : Slot := ⟨2, shell_lt⟩

def JOB : Slot := ⟨3, job_lt⟩

/-- A shell, and its job, which has stopped -/
def shellAndJob : Jobs where
  task i :=
    let task (state : Signals.TaskState) (pid pgrp : Word) : Exit.Task :=
      ⟨state, pid, pgrp, 0, 0, 0, 0, fun _ => 0, 0, 0, 0, 0⟩
    match i.val with
    | 1 => some ⟨task .interruptible 1 1, 1, ⟨0, first_lt⟩⟩
    | 2 => some ⟨task .running 2 2, 2, INIT⟩
    | 3 => some ⟨task .stopped 3 3, 2, SHELL⟩
    | _ => none

def exited : Jobs := shellAndJob.doExit SHELL 0 [JOB]

theorem orphans_hung_up_job : exited.GroupHungUp 3 ∧ (exited.task JOB).any (·.signal = 0x20001) := by
  have hkids (i : Slot) (hi : i ∈ [JOB]) : ∃ p, shellAndJob.task i = some p ∧ p.pPptr = SHELL := by
    obtain rfl := List.mem_singleton.mp hi
    exact ⟨_, rfl, rfl⟩
  have h := orphans_hung_up (g := 3) (k := JOB) (by decide) rfl rfl (by decide) (by decide)
    ⟨_, rfl, rfl⟩ (List.nodup_singleton _) hkids 0 (by decide +kernel) (by decide) ⟨_, rfl, rfl, rfl⟩
  rw [if_pos (by decide +kernel)] at h
  exact ⟨h, by decide +kernel⟩

end Linux012.Orphans
