import Mathlib.Data.Fintype.Card
import Linux012.Kernel.Sched.Basic
import Linux012.Lib.Index

/-! # The stack of sleepers

The tasks that wait on the queue form a stack through their local variables, with the head of
the queue on top. A task joins it on top, leaves it only from the top, and makes the task below
run before it returns.
-/

namespace Linux012.Sched

open Function Coop Runs Links
open scoped Index

variable {n : ℕ} {s s' : State n (Sys n) (Frame n) Panic} {l l' : List (Fin n)} {t u : Fin n}
  {f f' : Frame n} {head : Option (Fin n)}

namespace Frame

/-- The local variable of `__sleep_on`. -/
def tmp : Frame n → Option (Fin n)
  | .code | .paused | .sleepOn _ => none
  | .saved _ tmp | .queued _ tmp | .again tmp | .asleep tmp | .awake tmp | .bypassed tmp
  | .unlinked tmp => tmp

/-- The task has made itself the head of the queue and not yet taken itself off. -/
def waiting : Frame n → Bool
  | .queued .. | .again _ | .asleep _ | .awake _ | .bypassed _ => true
  | _ => false

/-- In `__sleep_on`. -/
def inside : Frame n → Bool
  | .code | .paused => false
  | _ => true

/-- Other tasks may run. -/
def resting : Frame n → Bool
  | .code | .paused | .asleep _ => true
  | _ => false

/-- What a task knows of the head of the queue while no other task runs. -/
def Agrees (head : Option (Fin n)) : Frame n → Prop
  | .saved _ tmp | .unlinked tmp => head = tmp
  | _ => True

theorem Agrees.of_resting (h : f.resting = true) : f.Agrees head := by
  cases f <;> trivial

end Frame

/-- The innermost frame of a task. -/
def place (s : State n (Sys n) (Frame n) Panic) (t : Fin n) : Frame n := (s.stack t).headD .code

/-- The tasks reached from the head of the queue through the local variables. -/
def sleepers (s : State n (Sys n) (Frame n) Panic) : List (Fin n) :=
  walk (fun t => (place s t).tmp) n s.shared.head

/-- The waiting tasks are those of the list, each with a pointer to the next one. -/
structure Queue (place : Fin n → Frame n) (head : Option (Fin n)) (l : List (Fin n)) : Prop where
  path : Path (fun t => (place t).tmp) head l
  nodup : l.Nodup
  mem : ∀ t, t ∈ l ↔ (place t).waiting = true

namespace Queue

variable {place : Fin n → Frame n}

theorem move (h : Queue place head l) (hw : f.waiting = (place t).waiting)
    (ht : f.waiting = true → f.tmp = (place t).tmp) : Queue (update place t f) head l := by
  refine ⟨h.path.congr fun u hu => ?_, h.nodup, fun u => ?_⟩
  · rcases eq_or_ne u t with rfl | hut
    · have hf : f.waiting = true := hw.trans ((h.mem u).mp hu)
      simpa using ht hf
    · simp [hut]
  · rcases eq_or_ne u t with rfl | hut
    · simpa [hw] using h.mem u
    · simpa [hut] using h.mem u

theorem push (h : Queue place head l) (ht : (place t).waiting = false) (hf : f.waiting = true)
    (htmp : f.tmp = head) : Queue (update place t f) (some t) (t :: l) := by
  have htl : t ∉ l := fun hm => by simp [(h.mem t).mp hm] at ht
  refine ⟨⟨rfl, ?_⟩, List.nodup_cons.mpr ⟨htl, h.nodup⟩, fun u => ?_⟩
  · simp only [update_self, htmp]
    refine h.path.congr fun u hu => ?_
    rw [update_of_ne (ne_of_mem_of_not_mem hu htl)]
  · rcases eq_or_ne u t with rfl | hut
    · simp [hf]
    · simpa [hut] using h.mem u

theorem pop (h : Queue place (some t) l) (hf : f.waiting = false) :
    ∃ l', l = t :: l' ∧ Queue (update place t f) (place t).tmp l' := by
  cases l with
  | nil => exact absurd h.path (by simp)
  | cons x l' =>
    obtain ⟨rfl, hp⟩ : x = t ∧ _ := ⟨(Option.some.inj h.path.1).symm, h.path.2⟩
    obtain ⟨hx, hn⟩ := List.nodup_cons.mp h.nodup
    refine ⟨l', rfl, hp.congr fun u hu => ?_, hn, fun u => ?_⟩
    · rw [update_of_ne (ne_of_mem_of_not_mem hu hx)]
    · rcases eq_or_ne u x with rfl | hux
      · simp [hx, hf]
      · simpa [hux] using h.mem u

theorem sleepers_eq (h : Queue (Sched.place s) s.shared.head l) : sleepers s = l := by
  refine h.path.walk_eq ?_
  simpa using h.nodup.length_le_card

end Queue

/-! ## One statement -/

@[simp] theorem Sys.setState_head (s : Sys n) (t : Fin n) (st : TaskState) :
    (s.setState t st).head = s.head := rfl

@[simp] theorem Sys.setState_warned (s : Sys n) (t : Fin n) (st : TaskState) :
    (s.setState t st).warned = s.warned := rfl

@[simp] theorem Sys.setState_state_self (s : Sys n) (t : Fin n) (st : TaskState) :
    ((s.setState t st).task t).state = st := by simp [setState]

@[simp] theorem Sys.schedule_head (s : Sys n) : s.schedule.head = s.head := rfl

@[simp] theorem Sys.schedule_warned (s : Sys n) : s.schedule.warned = s.warned := rfl

@[simp] theorem Sys.wakeUp_head (s : Sys n) : s.wakeUp.head = s.head := by
  unfold wakeUp; split <;> rfl

@[simp] theorem Sys.wakeUp_warned (s : Sys n) : s.wakeUp.warned = s.warned := by
  unfold wakeUp; split <;> rfl

theorem back_cases {σ : Sys n} {r : Piece n} (h : back σ t f = some r) : r = (σ, .goto f) := by
  unfold back at h
  split at h
  · exact (Option.some.inj h).symm
  · cases h

/-- What a piece of code of task `t` does to the queue. -/
inductive Moves (t : Fin n) (head : Option (Fin n)) : Frame n → Frame n → Option (Fin n) → Prop
  | stay {f f' : Frame n} : f'.waiting = f.waiting → (f'.waiting = true → f'.tmp = f.tmp) →
      Moves t head f f' head
  | push {f f' : Frame n} : f.waiting = false → f'.waiting = true → f'.tmp = head →
      Moves t head f f' (some t)
  | pop {f f' : Frame n} : head = some t → f.waiting = true → f'.waiting = false →
      Moves t head f f' f.tmp

theorem execCode_cases {σ σ' : Sys n} {ch : Choice} {nx : Next (Frame n) Empty Panic}
    (h : execCode σ t ch = (σ', nx)) :
    ∃ f', (nx = .goto f' ∨ nx = .sleep f' ∧ f'.resting = true) ∧ σ'.head = σ.head ∧
      σ'.warned = σ.warned ∧ f'.waiting = false ∧ f'.Agrees σ.head := by
  cases ch <;> cases h
  · exact ⟨_, .inl rfl, rfl, rfl, rfl, trivial⟩
  · exact ⟨_, .inl rfl, rfl, rfl, rfl, trivial⟩
  · exact ⟨_, .inl rfl, σ.wakeUp_head, σ.wakeUp_warned, rfl, trivial⟩
  · exact ⟨_, .inr ⟨rfl, rfl⟩, rfl, rfl, rfl, trivial⟩
  · exact ⟨_, .inr ⟨rfl, rfl⟩, rfl, rfl, rfl, trivial⟩

/-- Everything a statement can do, when the head of the queue is not null after a sleep. -/
theorem exec_cases {σ σ' : Sys n} {ch : Choice} {nx : Next (Frame n) Empty Panic}
    (h : exec t ch σ f = some (σ', nx)) (hag : f.Agrees σ.head)
    (hne : f.waiting = true → σ.head ≠ none) :
    (∃ q, nx = .panic q) ∨
    ∃ f', (nx = .goto f' ∨ nx = .sleep f' ∧ f'.resting = true) ∧ σ'.warned = σ.warned ∧
      Moves t σ.head f f' σ'.head ∧ f'.Agrees σ'.head ∧
      (f.inside = true → f' = .code →
        σ'.head = f.tmp ∧ ∀ u, f.tmp = some u → (σ'.task u).state = .running) := by
  cases f with
  | code =>
    simp only [exec] at h
    split at h
    · obtain ⟨f', hnx, hh, hwn, hw, ha⟩ := execCode_cases (Option.some.inj h)
      refine .inr ⟨f', hnx, hwn, ?_, hh ▸ ha, nofun⟩
      rw [hh]
      exact .stay hw (by simp [hw])
    · cases h
  | paused =>
    cases back_cases h
    exact .inr ⟨_, .inl rfl, rfl, .stay rfl nofun, trivial, nofun⟩
  | sleepOn st =>
    simp only [exec] at h
    split at h
    · cases h
      exact .inl ⟨_, rfl⟩
    · cases h
      exact .inr ⟨_, .inl rfl, rfl, .stay rfl nofun, rfl, nofun⟩
  | saved st tmp =>
    cases h
    exact .inr ⟨_, .inl rfl, rfl, .push rfl rfl hag.symm, trivial, nofun⟩
  | queued st tmp =>
    cases h
    exact .inr ⟨_, .inl rfl, rfl, .stay rfl fun _ => rfl, trivial, nofun⟩
  | again tmp =>
    cases h
    exact .inr ⟨_, .inr ⟨rfl, rfl⟩, rfl, .stay rfl fun _ => rfl, trivial, nofun⟩
  | asleep tmp =>
    cases back_cases h
    exact .inr ⟨_, .inl rfl, rfl, .stay rfl fun _ => rfl, trivial, nofun⟩
  | awake tmp =>
    simp only [exec, Option.some.injEq] at h
    cases hh : σ.head with
    | none => exact absurd hh (hne rfl)
    | some u =>
      simp only [hh] at h
      by_cases hu : u = t
      · subst hu
        simp only [ne_eq, not_true_eq_false, if_false, Prod.mk.injEq] at h
        obtain ⟨rfl, rfl⟩ := h
        cases tmp with
        | none => exact .inr ⟨_, .inl rfl, rfl, .pop rfl rfl rfl, trivial, fun _ _ => ⟨rfl, nofun⟩⟩
        | some v => exact .inr ⟨_, .inl rfl, rfl, .pop rfl rfl rfl, rfl, nofun⟩
      · simp only [ne_eq, hu, not_false_eq_true, if_true, Prod.mk.injEq] at h
        obtain ⟨rfl, rfl⟩ := h
        refine .inr ⟨_, .inl rfl, rfl, ?_, trivial, nofun⟩
        rw [Sys.setState_head, hh]
        exact .stay rfl fun _ => rfl
  | bypassed tmp =>
    cases h
    exact .inr ⟨_, .inl rfl, rfl, .stay rfl fun _ => rfl, trivial, nofun⟩
  | unlinked tmp =>
    cases tmp with
    | none =>
      cases h
      exact .inr ⟨_, .inl rfl, rfl, .stay rfl nofun, trivial, fun _ _ => ⟨hag, nofun⟩⟩
    | some u =>
      cases h
      refine .inr ⟨_, .inl rfl, rfl, .stay rfl nofun, trivial, fun _ _ => ⟨hag, ?_⟩⟩
      rintro v ⟨⟩
      exact σ.setState_state_self u _

/-! ## Whole runs -/

structure Disciplined (s : State n (Sys n) (Frame n) Panic) (l : List (Fin n)) : Prop where
  single : ∀ t, s.stack t = [place s t]
  queue : Queue (place s) s.shared.head l
  warned : s.shared.warned = false
  busy : ∀ t, (place s t).resting = false → s.cpu = some t
  agrees : ∀ t, (place s t).Agrees s.shared.head

theorem disciplined_initial (task : Fin n → Task) : Disciplined (initial task) [] where
  single _ := rfl
  queue := ⟨rfl, List.nodup_nil, fun t => by simp [place, initial, Frame.waiting]⟩
  warned := rfl
  busy _ h := by cases h
  agrees _ := trivial

/-- The head of the queue is not null while a task waits. -/
theorem Queue.head_ne_none {place : Fin n → Frame n} (h : Queue place head l)
    (ht : (place t).waiting = true) : head ≠ none := by
  rw [h.path.head]
  have hm := (h.mem t).mpr ht
  cases l with
  | nil => cases hm
  | cons x l => simp

theorem Queue.moves {place : Fin n → Frame n} {head' : Option (Fin n)} (h : Queue place head l)
    (hm : Moves t head (place t) f' head') :
    ∃ l', Queue (update place t f') head' l' ∧ (l' = l ∨ l' = t :: l ∨ l = t :: l') := by
  cases hm with
  | stay hw ht => exact ⟨l, h.move hw ht, .inl rfl⟩
  | push hw hf ht => exact ⟨t :: l, h.push hw hf ht, .inr (.inl rfl)⟩
  | pop hh hw hf =>
    subst hh
    obtain ⟨l', rfl, hq⟩ := h.pop hf
    exact ⟨l', hq, .inr (.inr rfl)⟩

/-- The effect of a piece of code: the task goes from one frame to the next. -/
theorem Disciplined.run {c : Choice} (hi : Disciplined s l)
    (h : (program n).step (.run t c) s = some s') :
    (∃ q, s' = { s with panicked := some q }) ∨
    ∃ f', place s' = update (place s) t f' ∧ (∃ l', Disciplined s' l' ∧
        (l' = l ∨ l' = t :: l ∨ l = t :: l')) ∧
      ((place s t).inside = true → f' = .code → s'.shared.head = (place s t).tmp ∧
        ∀ u, (place s t).tmp = some u → (s'.shared.task u).state = .running) := by
  obtain ⟨hc, σ', nx, hx, he⟩ := Program.step_run h (hi.single t)
  obtain ⟨q, rfl⟩ | ⟨f', hnx, hwn, hm, hag, hret⟩ :=
    exec_cases hx (hi.agrees t) hi.queue.head_ne_none
  · exact .inl ⟨q, (Option.some.inj he).symm⟩
  · obtain ⟨cpu', hcpu, rfl⟩ : ∃ cpu', (f'.resting = true ∨ cpu' = some t) ∧
        s' = { s with shared := σ', stack := update s.stack t [f'], cpu := cpu' } := by
      rcases hnx with rfl | ⟨rfl, hr⟩
      · exact ⟨_, .inr rfl, (Option.some.inj he).symm⟩
      · exact ⟨_, .inl hr, (Option.some.inj he).symm⟩
    have hplace : ∀ u, (update s.stack t [f'] u).headD .code = update (place s) t f' u := by
      intro u
      rcases eq_or_ne u t with rfl | hu
      · simp
      · simp [hu, place]
    -- No other task is between two statements of `__sleep_on`.
    have hrest : ∀ u, u ≠ t → (place s u).resting = true := by
      intro u hu
      by_contra hr
      have hcu := hi.busy u (by simpa using hr)
      rcases hc with hc | hc
      · simp [hc] at hcu
      · exact hu (Option.some.inj (hcu.symm.trans hc))
    obtain ⟨l', hq, hl⟩ := hi.queue.moves hm
    refine .inr ⟨f', funext hplace, ⟨l', ⟨fun u => ?_, ?_, hwn.trans hi.warned, fun u hr => ?_,
      fun u => ?_⟩, hl⟩, hret⟩
    · rcases eq_or_ne u t with rfl | hu
      · simp [place]
      · simpa [place, hu] using hi.single u
    · rwa [show place _ = _ from funext hplace]
    · simp only [place, hplace] at hr
      rcases eq_or_ne u t with rfl | hu
      · rcases hcpu with hf | hcpu
        · simp [hf] at hr
        · exact hcpu
      · simp [hu, hrest u hu] at hr
    · simp only [place, hplace]
      rcases eq_or_ne u t with rfl | hu
      · simpa using hag
      · simpa [hu] using Frame.Agrees.of_resting (hrest u hu)

theorem interrupt_head (σ : Sys n) (i : Interrupt n) : (interrupt σ i).head = σ.head := by
  cases i <;> simp [interrupt]

theorem interrupt_warned (σ : Sys n) (i : Interrupt n) : (interrupt σ i).warned = σ.warned := by
  cases i <;> simp [interrupt]

theorem Disciplined.interrupted (hi : Disciplined s l) (i : Interrupt n) :
    Disciplined { s with shared := interrupt s.shared i } l where
  single := hi.single
  queue := by
    change Queue (place s) (interrupt s.shared i).head l
    rw [interrupt_head]
    exact hi.queue
  warned := (interrupt_warned _ i).trans hi.warned
  busy := hi.busy
  agrees t := by
    change (place s t).Agrees (interrupt s.shared i).head
    rw [interrupt_head]
    exact hi.agrees t

theorem Disciplined.step {a : Act n Choice (Interrupt n)} (hi : Disciplined s l)
    (h : (program n).step a s = some s') :
    ∃ l', Disciplined s' l' ∧
      (l' = l ∨ ∃ t c, a = .run t c ∧ (l' = t :: l ∨ l = t :: l')) := by
  cases a with
  | run t c =>
    obtain ⟨q, rfl⟩ | ⟨f', -, ⟨l', hd, hl⟩, -⟩ := hi.run h
    · exact ⟨l, ⟨hi.single, hi.queue, hi.warned, hi.busy, hi.agrees⟩, .inl rfl⟩
    · exact ⟨l', hd, hl.imp_right fun hl => ⟨t, c, rfl, hl⟩⟩
  | tick =>
    obtain ⟨t, f, fs, -, -, hu, -⟩ := Program.step_tick h
    cases hu
  | intr i =>
    obtain ⟨-, ⟨_, _, _, _, _, _, ha, -⟩ | ⟨ha, -⟩ | ⟨j, σ', ha, hx, rfl⟩⟩ := Program.step_cases h
    · cases ha
    · cases ha
    · cases ha
      cases hx
      exact ⟨l, hi.interrupted i, .inl rfl⟩

/-- Only a piece of its own code takes a task out of `__sleep_on`. -/
theorem Disciplined.returned {a : Act n Choice (Interrupt n)} (hi : Disciplined s l)
    (h : (program n).step a s = some s') (hin : (place s t).inside = true)
    (hcode : place s' t = .code) :
    s'.shared.head = (place s t).tmp ∧ (sleepers s').head? = (place s t).tmp ∧
      ∀ u, (place s t).tmp = some u → (s'.shared.task u).state = .running := by
  have hne : place s t ≠ .code := by
    intro hc
    simp [hc, Frame.inside] at hin
  cases a with
  | run u c =>
    obtain ⟨q, rfl⟩ | ⟨f', hpl, ⟨l', hi', -⟩, hret⟩ := hi.run h
    · exact absurd hcode hne
    · rw [hpl] at hcode
      rcases eq_or_ne t u with rfl | htu
      · rw [update_self] at hcode
        obtain ⟨hh, hrun⟩ := hret hin hcode
        refine ⟨hh, ?_, hrun⟩
        rw [hi'.queue.sleepers_eq, ← hi'.queue.path.head, hh]
      · rw [update_of_ne htu] at hcode
        exact absurd hcode hne
  | tick =>
    obtain ⟨_, _, _, -, -, -, rfl⟩ := Program.step_tick h
    exact absurd hcode hne
  | intr i =>
    obtain ⟨-, ⟨_, _, _, _, _, _, ha, -⟩ | ⟨ha, -⟩ | ⟨_, _, _, _, rfl⟩⟩ := Program.step_cases h
    · cases ha
    · cases ha
    · exact absurd hcode hne

theorem disciplined_run {task : Fin n → Task}
    (h : Run (program n).step Always (initial task) s) : Disciplined s (sleepers s) := by
  have hl : ∃ l, Disciplined s l := by
    refine h.invariant (I := fun s => ∃ l, Disciplined s l) ⟨[], disciplined_initial task⟩ ?_
    rintro s a s' ⟨l, hi⟩ - hs
    obtain ⟨l', hi', -⟩ := hi.step hs
    exact ⟨l', hi'⟩
  obtain ⟨l, hi⟩ := hl
  rwa [hi.queue.sleepers_eq]

/-- In every state that tasks reach with one wait queue, the waiting tasks are the stack that
starts at its head, and the head is not null when one of them runs again. A step leaves the
stack as it is, or the task that runs goes on top of it, or it leaves from the top. When it
returns, the task it found on the queue is the head again and is running. -/
theorem sleepers_stack (task : Fin n → Task) (h : Run (program n).step Always (initial task) s) :
    (Path (fun t => (place s t).tmp) s.shared.head (sleepers s) ∧ (sleepers s).Nodup ∧
      ∀ t, t ∈ sleepers s ↔ (place s t).waiting = true) ∧
    (s.shared.warned = false ∧ ∀ t, (place s t).waiting = true → s.shared.head ≠ none) ∧
    ∀ a s', (program n).step a s = some s' →
      (sleepers s' = sleepers s ∨ ∃ t c, a = .run t c ∧
        (sleepers s' = t :: sleepers s ∨ sleepers s = t :: sleepers s')) ∧
      ∀ t, (place s t).inside = true → place s' t = .code →
        s'.shared.head = (place s t).tmp ∧ (sleepers s').head? = (place s t).tmp ∧
        ∀ u, (place s t).tmp = some u → (s'.shared.task u).state = .running := by
  have hi := disciplined_run h
  refine ⟨⟨hi.queue.path, hi.queue.nodup, hi.queue.mem⟩,
    ⟨hi.warned, fun t ht => hi.queue.head_ne_none ht⟩, fun a s' hs => ⟨?_, fun t hin hcode => ?_⟩⟩
  · obtain ⟨l', hi', hl⟩ := hi.step hs
    rwa [hi'.queue.sleepers_eq]
  · exact hi.returned hs hin hcode

/-- Two tasks sleep, a signal wakes up the older one first. -/
def twoSleepers : List (Act 3 Choice (Interrupt 3)) :=
  [.run 1 .interruptibleSleepOn, .run 1 .wakeUp, .run 1 .wakeUp, .run 1 .wakeUp, .run 1 .wakeUp,
    .run 2 .sleepOn, .run 2 .wakeUp, .run 2 .wakeUp, .run 2 .wakeUp, .run 2 .wakeUp,
    .intr (.signal 1 SIGALRM), .run 0 .preempted, .run 1 .wakeUp, .run 1 .wakeUp, .run 1 .wakeUp,
    .run 1 .wakeUp, .run 2 .wakeUp, .run 2 .wakeUp]

def readyTask : Task where
  state := .running
  signal := 0
  blocked := 0
  timeout := 0
  alarm := 0

/-- The newer sleeper has taken itself off the queue and has not yet returned. -/
def unlinkedSleeper : State 3 (Sys 3) (Frame 3) Panic :=
  (runList (program 3).step twoSleepers (initial fun _ => readyTask)).get (by decide +kernel)

/-- The newer of two sleepers returns and leaves the older one running at the head. -/
theorem sleepers_stack_two :
    place unlinkedSleeper 2 = .unlinked (some 1) ∧ sleepers unlinkedSleeper = [1] ∧
    ∀ s', (program 3).step (.run 2 .wakeUp) unlinkedSleeper = some s' → place s' 2 = .code →
      s'.shared.head = some 1 ∧ (s'.shared.task 1).state = .running := by
  have hp : place unlinkedSleeper 2 = .unlinked (some 1) := by decide +kernel
  refine ⟨hp, by decide +kernel, fun s' hs hcode => ?_⟩
  obtain ⟨-, -, hstep⟩ :=
    sleepers_stack (fun _ => readyTask) (s := unlinkedSleeper) (.of_runList_get _)
  obtain ⟨hh, -, hrun⟩ := (hstep _ s' hs).2 2 (by rw [hp]; rfl) hcode
  rw [hp] at hh hrun
  exact ⟨hh, hrun 1 rfl⟩

end Linux012.Sched
