import Linux012.Kernel.Signal.Basic

/-! # Signals that cannot be blocked

`blocked` is written by four calls and by `do_signal`, and two of them take the new bits from
user space without a filter. A process blocks neither `SIGKILL` nor `SIGSTOP` as long as these
bits are not among them.
-/

namespace Linux012.Signals

open Runs Function

variable {s s' : Sys} {t u c : Slot} {p q : Proc} {f : Proc → Proc} {signr : ℕ} {mask : Word}

/-- Neither `SIGKILL` nor `SIGSTOP` is in the mask. -/
def Unblocked (mask : Word) : Prop :=
  mask.getLsbD (SIGKILL - 1) = false ∧ mask.getLsbD (SIGSTOP - 1) = false

instance : Decidable (Unblocked mask) := inferInstanceAs (Decidable (_ ∧ _))

/-- What a process blocks, and what it will block again after `sys_waitpid`. -/
structure Clean (p : Proc) : Prop where
  blocked : Unblocked p.blocked
  saved : ∀ pid options oldblocked, p.wait = .waitpid pid options oldblocked → Unblocked oldblocked

/-- No process blocks `SIGKILL` or `SIGSTOP`. -/
def Killable (s : Sys) : Prop := ∀ t p, s.task t = some p → Unblocked p.blocked

def AllClean (s : Sys) : Prop := ∀ t p, s.task t = some p → Clean p

/-- A handler of the signal does not block `SIGKILL` or `SIGSTOP`. -/
def Handles (p : Proc) (signr : ℕ) : Prop :=
  (p.sigaction (signr - 1)).saHandler ≠ 0 → (p.sigaction (signr - 1)).saHandler ≠ 1 →
    Unblocked (p.sigaction (signr - 1)).saMask

/-- `sys_sigsuspend` takes over, and `do_signal` adds, no bit of `SIGKILL` or `SIGSTOP`. -/
def Filtered (s : Sys) : Slot × Act → Prop
  | (_, .sigsuspend restart oldMask set) => Unblocked (if restart ≠ 0 then oldMask else set)
  | (t, .deliver) => ∀ p signr, s.task t = some p → p.pending = some signr → Handles p signr
  | _ => True

/-! ## Masks -/

namespace Unblocked

theorem and (h : Unblocked mask) (m : Word) : Unblocked (mask &&& m) := by
  simp [Unblocked, h.1, h.2]

theorem or_iff {m : Word} : Unblocked (mask ||| m) ↔ Unblocked mask ∧ Unblocked m := by
  simp only [Unblocked, BitVec.getLsbD_or, Bool.or_eq_false_iff]
  tauto

/-- The filter of `sys_ssetmask`. -/
theorem filter (mask : Word) :
    Unblocked (mask &&& ~~~(sigmask SIGKILL) &&& ~~~(sigmask SIGSTOP)) := by
  have hkill : (~~~(sigmask SIGKILL)).getLsbD (SIGKILL - 1) = false := by decide
  have hstop : (~~~(sigmask SIGSTOP)).getLsbD (SIGSTOP - 1) = false := by decide
  constructor
  · rw [BitVec.getLsbD_and, BitVec.getLsbD_and, hkill, Bool.and_false, Bool.false_and]
  · rw [BitVec.getLsbD_and, hstop, Bool.and_false]

end Unblocked

/-! ## Processes -/

namespace Clean

/-- Nothing that matters here changes. -/
theorem congr (h : Clean p) (hb : q.blocked = p.blocked) (hw : q.wait = p.wait) : Clean q := by
  constructor
  · rw [hb]
    exact h.blocked
  · rw [hw]
    exact h.saved

/-- A process that waits in no call. -/
theorem of_blocked (h : Unblocked p.blocked)
    (hw : ∀ pid options oldblocked, p.wait ≠ .waitpid pid options oldblocked) : Clean p :=
  ⟨h, fun pid options old he => absurd he (hw pid options old)⟩

theorem ret (h : Unblocked p.blocked) (nr v : Word) : Clean (p.ret nr v) :=
  of_blocked h (by simp [Proc.ret])

end Clean

theorem sysSsetmask_clean (newmask : Word) : Clean (p.sysSsetmask newmask) := by
  unfold Proc.sysSsetmask
  apply Clean.ret
  exact .filter newmask

/-- `sys_sigsuspend` installs the mask that it is given. -/
theorem sysSigsuspend_clean {restart oldMask set : Word} :
    Clean (p.sysSigsuspend restart oldMask set) ↔
      Unblocked (if restart ≠ 0 then oldMask else set) := by
  unfold Proc.sysSigsuspend
  split_ifs
  · constructor
    · exact Clean.blocked
    · intro h
      apply Clean.ret
      exact h
  · constructor
    · exact Clean.blocked
    · intro h
      apply Clean.of_blocked
      · exact h
      · simp

theorem sysSignal_clean (h : Clean p) (signum handler restorer : Word) :
    Clean (p.sysSignal signum handler restorer) := by
  unfold Proc.sysSignal
  split_ifs <;> (apply Clean.ret; exact h.blocked)

theorem sysSigaction_clean (h : Clean p) (signum : Word) (action : Sigaction) :
    Clean (p.sysSigaction signum action) := by
  unfold Proc.sysSigaction
  split_ifs <;> (apply Clean.ret; exact h.blocked)

/-! ## Systems -/

namespace AllClean

theorem set (h : AllClean s) (hp : Clean p) : AllClean (s.set t (some p)) := by
  intro u q hq
  by_cases hu : u = t
  · subst hu
    simp only [Sys.set, update_self, Option.some.injEq] at hq
    exact hq ▸ hp
  · simp only [Sys.set, update_of_ne hu] at hq
    exact h u q hq

theorem unset (h : AllClean s) : AllClean (s.set t none) := by
  intro u q hq
  by_cases hu : u = t
  · subst hu
    simp only [Sys.set, update_self] at hq
    cases hq
  · simp only [Sys.set, update_of_ne hu] at hq
    exact h u q hq

theorem raise (h : AllClean s) : AllClean (s.raise t signr) := by
  unfold Sys.raise Sys.modify
  cases ht : s.task t with
  | none => exact h.unset
  | some p => exact h.set ((h t p ht).congr rfl rfl)

theorem adopt (h : AllClean s) : AllClean (s.adopt t) := by
  intro u q hq
  obtain ⟨p, hp, rfl⟩ := Option.map_eq_some_iff.mp hq
  split_ifs
  · exact (h u p hp).congr rfl rfl
  · exact h u p hp

theorem doExit (h : AllClean s) (hp : Clean p) (code : Word) : AllClean (s.doExit t p code) := by
  have hz : AllClean ((s.set t (some { p with state := .zombie, exitCode := code })).raise p.pPptr
      SIGCHLD) := by
    apply raise
    apply h.set
    exact hp.congr rfl rfl
  unfold Sys.doExit
  dsimp only
  split_ifs
  · exact hz.adopt.raise
  · exact hz.adopt

theorem fork (h : AllClean s) (hp : Clean p) (hs : s.fork t u p = some s') : AllClean s' := by
  unfold Sys.fork at hs
  split_ifs at hs
  obtain rfl := Option.some.inj hs
  apply set
  · apply h.set
    exact hp.congr rfl rfl
  · exact .ret hp.blocked _ _

theorem sysWaitpid (h : AllClean s) (hp : Clean p) {pid options : Word} {found : Option Slot}
    (hs : s.sysWaitpid t p pid options found = some s') : AllClean s' := by
  cases found with
  | some c =>
    simp only [Sys.sysWaitpid] at hs
    cases hq : s.task c with
    | none => simp [hq] at hs
    | some q =>
    simp only [hq] at hs
    split_ifs at hs
    have hret := h.set (t := t) (Clean.ret hp.blocked 7 (BitVec.ofNat 32 c))
    split at hs <;> obtain rfl := Option.some.inj hs
    · apply hret.set
      exact (h c q hq).congr rfl rfl
    · exact hret.unset
  | none =>
    simp only [Sys.sysWaitpid] at hs
    split_ifs at hs
    · obtain rfl := Option.some.inj hs
      exact h.set (.ret hp.blocked _ _)
    · -- the mask that will be restored is the present one
      obtain rfl := Option.some.inj hs
      apply h.set
      constructor
      · exact hp.blocked.and _
      · rintro pid options oldblocked ⟨⟩
        exact hp.blocked
    · obtain rfl := Option.some.inj hs
      exact h.set (.ret hp.blocked _ _)

theorem resume (h : AllClean s) (hp : Clean p) {found : Option Slot}
    (hs : s.resume t p found = some s') : AllClean s' := by
  unfold Sys.resume at hs
  split at hs
  · cases hs
  · obtain rfl := Option.some.inj hs
    exact h.set (.ret hp.blocked _ _)
  · rename_i pid options oldblocked hw
    have hold := hp.saved _ _ _ hw
    dsimp only at hs
    split_ifs at hs
    · obtain rfl := Option.some.inj hs
      apply h.set
      apply Clean.ret
      exact hold
    · apply h.sysWaitpid _ hs
      apply Clean.of_blocked
      · exact hold
      · simp

end AllClean

/-! ## Delivery -/

/-- Everything `do_signal` can come to. -/
inductive Signalled (signr : ℕ) (p : Proc) : Outcome → Prop
  | ignored {q : Proc} : q.blocked = p.blocked → q.wait = p.wait → Handles p signr →
      Signalled signr p (.ignored q)
  | stopped {q : Proc} : q.blocked = p.blocked → q.wait = p.wait → Handles p signr →
      Signalled signr p (.stopped q)
  | exit {code : Word} : Handles p signr → Signalled signr p (.exit code)
  | handler {q : Proc} : q.blocked = p.blocked ||| (p.sigaction (signr - 1)).saMask →
      q.wait = p.wait → (p.sigaction (signr - 1)).saHandler ≠ 0 →
      (p.sigaction (signr - 1)).saHandler ≠ 1 → Signalled signr p (.handler q)

theorem doSignal_spec (signr : ℕ) (p : Proc) : Signalled signr p (doSignal signr p) := by
  unfold doSignal
  dsimp only
  split_ifs with h1 h0
  · exact .ignored rfl rfl fun _ hne => absurd h1 hne
  · exact .ignored rfl rfl fun hne => absurd h0 hne
  · exact .stopped rfl rfl fun hne => absurd h0 hne
  · exact .exit fun hne => absurd h0 hne
  · exact .handler rfl rfl h0 h1

/-- `do_signal` keeps the mask clean exactly when the handler that it starts, if any, has a clean
one. -/
theorem AllClean.deliver (h : AllClean s) (ht : s.task t = some p) (hw : p.wait = .none)
    (hs : s.deliver t p = some s') :
    ∃ signr, p.pending = some signr ∧ (Handles p signr → AllClean s') ∧
      (Killable s' → Handles p signr) := by
  unfold Sys.deliver at hs
  split_ifs at hs
  obtain ⟨signr, hpend, rfl⟩ := Option.map_eq_some_iff.mp hs
  refine ⟨signr, hpend, ?_⟩
  have hp := h t p ht
  have hspec := doSignal_spec signr { p with signal := p.signal &&& ~~~sigmask signr }
  generalize doSignal signr { p with signal := p.signal &&& ~~~sigmask signr } = o at hspec
  cases hspec with
  | ignored hb hq hh => exact ⟨fun _ => h.set (hp.congr hb hq), fun _ => hh⟩
  | exit hh => exact ⟨fun _ => h.doExit hp _, fun _ => hh⟩
  | stopped hb hq hh =>
    refine ⟨fun _ => ?_, fun _ => hh⟩
    dsimp only
    split_ifs
    · exact (h.set (hp.congr hb hq)).raise
    · exact h.set (hp.congr hb hq)
  | @handler q hb hq h0 h1 =>
    constructor
    · intro hh
      apply h.set
      apply Clean.of_blocked
      · rw [hb, Unblocked.or_iff]
        exact ⟨hp.blocked, hh h0 h1⟩
      · intro pid options oldblocked he
        cases hw.symm.trans (hq.symm.trans he)
    · intro hk _ _
      have hu := hk t q (update_self ..)
      rw [hb, Unblocked.or_iff] at hu
      exact hu.2

/-! ## Runs -/

theorem AllClean.killable (h : AllClean s) : Killable s := fun t p ht => (h t p ht).blocked

theorem allClean_boot : AllClean boot := by
  intro t p ht
  simp only [boot] at ht
  split_ifs at ht
  obtain rfl := Option.some.inj ht
  apply Clean.of_blocked
  · exact (by decide : Unblocked 0)
  · simp

/-- What a process does keeps all masks clean exactly when it takes over no bit of `SIGKILL` or
`SIGSTOP`. -/
theorem AllClean.act {a : Act} (h : AllClean s) (ht : s.task t = some p) (hw : p.wait = .none)
    (hs : s.act t p a = some s') :
    (Filtered s (t, a) → AllClean s') ∧ (Killable s' → Filtered s (t, a)) := by
  have hp := h t p ht
  have always : AllClean s' → Filtered s (t, a) →
      (Filtered s (t, a) → AllClean s') ∧ (Killable s' → Filtered s (t, a)) :=
    fun h' hf => ⟨fun _ => h', fun _ => hf⟩
  cases a with
  | ssetmask newmask =>
    obtain rfl := Option.some.inj hs
    exact always (h.set (sysSsetmask_clean newmask)) trivial
  | sigsuspend restart oldMask set =>
    obtain rfl := Option.some.inj hs
    constructor
    · exact fun hf => h.set (sysSigsuspend_clean.mpr hf)
    · intro hk
      have hu := hk t _ (update_self ..)
      unfold Proc.sysSigsuspend at hu
      change Unblocked (if restart ≠ 0 then oldMask else set)
      split_ifs at hu ⊢ <;> exact hu
  | signal signum handler restorer =>
    obtain rfl := Option.some.inj hs
    exact always (h.set (sysSignal_clean hp ..)) trivial
  | sigaction signum action =>
    obtain rfl := Option.some.inj hs
    exact always (h.set (sysSigaction_clean hp ..)) trivial
  | fork u => exact always (h.fork hp hs) trivial
  | waitpid pid options found => exact always (h.sysWaitpid hp hs) trivial
  | deliver =>
    obtain ⟨signr, hpend, hkeep, hbad⟩ := h.deliver ht hw hs
    constructor
    · exact fun hf => hkeep (hf p signr ht hpend)
    · intro hk q n hq hn
      obtain rfl := Option.some.inj (ht.symm.trans hq)
      obtain rfl := Option.some.inj (hpend.symm.trans hn)
      exact hbad hk
  | exit code =>
    obtain rfl := Option.some.inj hs
    exact always (h.doExit hp code) trivial
  | user regs =>
    obtain rfl := Option.some.inj hs
    refine always (h.set ?_) trivial
    exact hp.congr rfl rfl
  | resume | post | wake | cont => cases hs

theorem AllClean.step {a : Slot × Act} (h : AllClean s) (hs : step a s = some s') :
    (Filtered s a → AllClean s') ∧ (Killable s' → Filtered s a) := by
  obtain ⟨t, a⟩ := a
  obtain ⟨p, ht, hs⟩ := Option.bind_eq_some_iff.mp hs
  have hp := h t p ht
  have always : AllClean s' → Filtered s (t, a) →
      (Filtered s (t, a) → AllClean s') ∧ (Killable s' → Filtered s (t, a)) :=
    fun h' hf => ⟨fun _ => h', fun _ => hf⟩
  cases a with
  | post signr =>
    obtain rfl := Option.some.inj hs
    exact always h.raise trivial
  | wake =>
    simp only at hs
    split_ifs at hs
    obtain rfl := Option.some.inj hs
    refine always (h.set ?_) trivial
    exact hp.congr rfl rfl
  | cont =>
    simp only at hs
    split_ifs at hs
    obtain rfl := Option.some.inj hs
    refine always (h.set ?_) trivial
    exact hp.congr rfl rfl
  | resume found =>
    simp only at hs
    split_ifs at hs
    exact always (h.resume hp hs) trivial
  | _ =>
    simp only at hs
    split_ifs at hs with hrun
    exact h.act ht hrun.2 hs

/-- In every sequence of steps from the first process on, no process ever blocks `SIGKILL` or
`SIGSTOP`, exactly when `sys_sigsuspend` is never given a mask with one of them and no handler that
is started has one in its mask. -/
theorem unblockable_signals (as : List (Slot × Act)) :
    Throughout step Killable as boot ↔ Each step Filtered as boot :=
  throughout_iff_each (I := AllClean) (fun _ => AllClean.killable)
    (fun _ _ _ h hf hs => (h.step hs).1 hf) (fun _ _ _ h hs => (h.step hs).2) allClean_boot

/-- The first process forks, and its child suspends itself with `SIGKILL` in the new mask. -/
def suspended : Sys :=
  (runList step [(⟨0, by decide⟩, .fork initTask),
    (initTask, .sigsuspend 0 0 (sigmask SIGKILL))] boot).get (by decide +kernel)

def suspendedProc : Proc := (suspended.task initTask).get (by decide +kernel)

theorem sigsuspend_blocks_kill : ∃ s, Run step Always boot s ∧ ¬ Killable s := by
  refine ⟨suspended, .of_runList_get _, fun h => ?_⟩
  have hblocked : suspendedProc.blocked.getLsbD (SIGKILL - 1) = true := by decide +kernel
  rw [(h initTask suspendedProc (Option.some_get _).symm).1] at hblocked
  cases hblocked

end Linux012.Signals
