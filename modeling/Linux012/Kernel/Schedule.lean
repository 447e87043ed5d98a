import Mathlib.Data.Fintype.Pi
import Mathlib.Tactic
import Linux012.Kernel.Sched.Basic
import Linux012.Lib.Runs
import Linux012.Lib.Index

/-! # Time slices

What `schedule` chooses, and what `copy_process`, `sys_nice` and `do_timer` do to the counters that it
chooses by. A task that sleeps gets half of its counter and its priority again each time that the
others have used up theirs. The counters are signed words, and nothing bounds the priority.
-/

namespace Linux012.Schedule

open Function Runs Sched
open scoped Index

abbrev NR_TASKS : ℕ := 64

abbrev Slot := Fin NR_TASKS

/-- A `long` after overflow. -/
def wrap (x : ℤ) : ℤ := x.bmod (2 ^ 32)

structure Task where
  state : TaskState
  counter : ℤ
  priority : ℤ
  deriving DecidableEq

/-- `choosing` is the number of rounds that `schedule` has made when it has not chosen yet. -/
structure Tasks where
  task : Slot → Option Task
  current : Slot
  choosing : Option ℕ

/-- The tasks that `schedule` looks at, from the last one down. -/
def others : List Slot := (List.finRange NR_TASKS).tail.reverse

namespace Tasks

def modify (s : Tasks) (i : Slot) (f : Task → Task) : Tasks :=
  { s with task := update s.task i ((s.task i).map f) }

def better (s : Tasks) (best : ℤ × Slot) (i : Slot) : ℤ × Slot :=
  match s.task i with
  | some p => if p.state = .running ∧ best.1 < p.counter then (p.counter, i) else best
  | none => best

/-- `c` and `next` after a round. -/
def scan (s : Tasks) : ℤ × Slot := others.foldl s.better (-1, 0)

def recharge (s : Tasks) : Tasks :=
  { s with task := fun i =>
      if i = 0 then s.task i
      else (s.task i).map fun p => { p with counter := wrap (p.counter / 2 + p.priority) } }

def round (s : Tasks) (k : ℕ) : Tasks :=
  if s.scan.1 ≠ 0 then { s with current := s.scan.2, choosing := none }
  else { s.recharge with choosing := some (k + 1) }

/-- The child of `copy_process`. -/
def child (p : Task) : Task := { p with state := .uninterruptible, counter := p.priority }

def sysNice (increment : ℤ) (p : Task) : Task :=
  if 0 < wrap (p.priority - increment) then { p with priority := wrap (p.priority - increment) } else p

/-- What `do_timer` does to the current task. -/
def tick (p : Task) : Task :=
  if 0 < wrap (p.counter - 1) then { p with counter := wrap (p.counter - 1) } else { p with counter := 0 }

def enter (s : Tasks) : Tasks := { s with choosing := some 0 }

end Tasks

/-- `truncate` gives up the time slice. `check` is the first loop of `schedule` at a task whose timeout is
over or that has a signal. -/
inductive Act
  | fork (nr : Slot)
  | setState (i : Slot) (state : TaskState)
  | release (i : Slot)
  | nice (increment : ℤ)
  | tick (user : Bool)
  | truncate
  | schedule
  | check (i : Slot)
  | round

/-- `schedule` is not interrupted. -/
def step : Act → Tasks → Option Tasks
  | .fork nr, s =>
    if s.choosing = none ∧ nr ≠ 0 ∧ s.task nr = none then
      some { s with task := update s.task nr ((s.task s.current).map Tasks.child) }
    else none
  | .setState i state, s =>
    if s.choosing = none then some (s.modify i fun p => { p with state := state }) else none
  | .release i, s =>
    if s.choosing = none ∧ i ≠ s.current then some { s with task := update s.task i none } else none
  | .nice increment, s =>
    if s.choosing = none then some (s.modify s.current (Tasks.sysNice increment)) else none
  | .tick user, s =>
    if s.choosing = none then
      let s' := s.modify s.current Tasks.tick
      some (if user ∧ ∀ p ∈ s'.task s.current, p.counter = 0 then s'.enter else s')
    else none
  | .truncate, s =>
    if s.choosing = none then some (s.modify s.current fun p => { p with counter := 0 }).enter else none
  | .schedule, s => if s.choosing = none then some s.enter else none
  | .check i, s =>
    if s.choosing = some 0 ∧ i ≠ 0 then
      some (s.modify i fun p => { p with state := if p.state = .interruptible then .running else p.state })
    else none
  | .round, s => s.choosing.map s.round

/-- The first task alone. -/
def boot : Tasks where
  task := update (fun _ => none) 0 (some ⟨.running, 15, 15⟩)
  current := 0
  choosing := none

def All (P : Task → Prop) (s : Tasks) : Prop := ∀ i, ∀ p ∈ s.task i, P p

def Runnable (s : Tasks) (i : Slot) (p : Task) : Prop := i ≠ 0 ∧ p ∈ s.task i ∧ p.state = .running

/-- `next` has the longest time slice left, or there is nothing to run. -/
def Chosen (s : Tasks) (next : Slot) : Prop :=
  (next = 0 ∧ ∀ i p, ¬ Runnable s i p) ∨
    ∃ p, Runnable s next p ∧ ∀ i q, Runnable s i q → q.counter ≤ p.counter

/-- A step leaves positive priorities and no negative counter. `schedule` makes no third round, and what
it chooses is right. -/
def Right (s : Tasks) (a : Act) : Prop :=
  ∀ s', step a s = some s' →
    All (fun p => 0 < p.priority ∧ 0 ≤ p.counter) s' ∧ (∀ k, s'.choosing = some k → k < 2) ∧
      (s.choosing.isSome → s'.choosing = none → Chosen s s'.current)

/-- Something can run, and has no time left. -/
def Spent (s : Tasks) : Prop :=
  (∃ i p, Runnable s i p) ∧ ∀ i p, Runnable s i p → p.counter = 0

/-- No counter that is computed afresh overflows. -/
def Fits (s : Tasks) : Act → Prop
  | .round => s.choosing.isSome → Spent s → ∀ i ≠ 0, ∀ p ∈ s.task i, p.counter / 2 + p.priority < 2 ^ 31
  | _ => True

variable {s s' : Tasks} {p : Task} {i : Slot} {x : ℤ} {a : Act} {P Q : Task → Prop}

/-! ## Words -/

theorem wrap_lt (x : ℤ) : wrap x < 2 ^ 31 := by
  unfold wrap
  have h := Int.bmod_lt (x := x) (m := 2 ^ 32) (by decide)
  norm_num at h ⊢
  omega

theorem wrap_eq (h : 0 ≤ x) (hx : x < 2 ^ 31) : wrap x = x := by
  unfold wrap
  rw [Int.bmod_def]
  norm_num at hx ⊢
  omega

/-- A sum of two words that overflows is negative. -/
theorem wrap_neg (h : 2 ^ 31 ≤ x) (hx : x < 2 ^ 32) : wrap x < 0 := by
  unfold wrap
  rw [Int.bmod_def]
  norm_num at h hx ⊢
  omega

/-! ## A round -/

theorem mem_others : i ∈ others ↔ i ≠ 0 := by
  revert i
  decide

theorem foldl_better (l : List Slot) (best : ℤ × Slot) :
    (l.foldl s.better best = best ∨
      ∃ i ∈ l, ∃ p ∈ s.task i, p.state = .running ∧ l.foldl s.better best = (p.counter, i)) ∧
    best.1 ≤ (l.foldl s.better best).1 ∧
    ∀ i ∈ l, ∀ p ∈ s.task i, p.state = .running → p.counter ≤ (l.foldl s.better best).1 := by
  induction l generalizing best with
  | nil => exact ⟨.inl rfl, le_rfl, fun i hi => nomatch hi⟩
  | cons i l ih =>
    obtain ⟨hbest, hle, hmax⟩ := ih (s.better best i)
    rw [List.foldl_cons]
    have hstep : (s.better best i = best ∨
        ∃ p ∈ s.task i, p.state = .running ∧ s.better best i = (p.counter, i)) ∧
        best.1 ≤ (s.better best i).1 ∧
        ∀ p ∈ s.task i, p.state = .running → p.counter ≤ (s.better best i).1 := by
      unfold Tasks.better
      cases hp : s.task i with
      | none => exact ⟨.inl rfl, le_rfl, fun p hp => nomatch hp⟩
      | some p =>
        dsimp only
        split_ifs with h
        · refine ⟨.inr ⟨p, rfl, h.1, rfl⟩, h.2.le, ?_⟩
          rintro q ⟨⟩ -
          exact le_rfl
        · refine ⟨.inl rfl, le_rfl, ?_⟩
          rintro q ⟨⟩ hq
          exact not_lt.mp fun hlt => h ⟨hq, hlt⟩
    obtain ⟨hb, hb1, hbmax⟩ := hstep
    refine ⟨?_, hb1.trans hle, ?_⟩
    · rcases hbest with h | ⟨j, hj, p, hp, hrun, h⟩
      · rw [h]
        rcases hb with hb | ⟨p, hp, hrun, hb⟩
        · exact .inl hb
        · exact .inr ⟨i, List.mem_cons_self, p, hp, hrun, hb⟩
      · exact .inr ⟨j, List.mem_cons_of_mem _ hj, p, hp, hrun, h⟩
    · intro j hj p hp hrun
      rcases List.mem_cons.mp hj with rfl | hj
      · exact (hbmax p hp hrun).trans hle
      · exact hmax j hj p hp hrun

/-- What a round finds when no counter is negative. -/
theorem scan_cases (hs : All (fun p => 0 ≤ p.counter) s) :
    (s.scan = (-1, 0) ∧ ∀ i p, ¬ Runnable s i p) ∨
      ∃ p, Runnable s s.scan.2 p ∧ s.scan.1 = p.counter ∧ ∀ i q, Runnable s i q → q.counter ≤ p.counter := by
  obtain ⟨hbest, -, hmax⟩ := foldl_better (s := s) others (-1, 0)
  rcases hbest with h | ⟨i, hi, p, hp, hrun, h⟩
  · left
    refine ⟨h, ?_⟩
    rintro i p ⟨hi, hp, hrun⟩
    have hle := hmax i (mem_others.mpr hi) p hp hrun
    rw [h] at hle
    have h0 := hs i p hp
    dsimp only at hle h0
    omega
  · right
    unfold Tasks.scan
    rw [h] at hmax ⊢
    refine ⟨p, ⟨mem_others.mp hi, hp, hrun⟩, rfl, ?_⟩
    rintro j q ⟨hj, hq, hqrun⟩
    exact hmax j (mem_others.mpr hj) q hq hqrun

theorem chosen_scan (hs : All (fun p => 0 ≤ p.counter) s) : Chosen s s.scan.2 := by
  rcases scan_cases hs with ⟨h, hno⟩ | ⟨p, hp, -, hmax⟩
  · left
    rw [h]
    exact ⟨rfl, hno⟩
  · exact .inr ⟨p, hp, hmax⟩

theorem scan_eq_zero_iff (hs : All (fun p => 0 ≤ p.counter) s) : s.scan.1 = 0 ↔ Spent s := by
  rcases scan_cases hs with ⟨h, hno⟩ | ⟨p, hp, hc, hmax⟩
  · rw [h]
    constructor
    · intro h0
      simp at h0
    · rintro ⟨⟨i, p, hp⟩, -⟩
      exact absurd hp (hno i p)
  · rw [hc]
    constructor
    · intro h0
      refine ⟨⟨_, p, hp⟩, fun i q hq => le_antisymm (h0 ▸ hmax i q hq) (hs i q hq.2.1)⟩
    · rintro ⟨-, h0⟩
      exact h0 _ p hp

/-! ## What the steps keep -/

/-- Words with a positive priority and no negative counter. -/
def Ranged (p : Task) : Prop := 0 < p.priority ∧ p.priority < 2 ^ 31 ∧ 0 ≤ p.counter ∧ p.counter < 2 ^ 31

/-- After the first round of `schedule` every other task has time. -/
structure Good (s : Tasks) : Prop where
  ranged : All Ranged s
  fresh : ∀ k, s.choosing = some k → k = 0 ∨ k = 1 ∧ ∀ i ≠ 0, ∀ p ∈ s.task i, 0 < p.counter

theorem All.imp (h : All P s) (hPQ : ∀ p, P p → Q p) : All Q s := fun i p hp => hPQ p (h i p hp)

theorem All.update {v : Option Task} {c : Slot} {k : Option ℕ} (h : All P s) (hv : ∀ p ∈ v, P p) :
    All P ⟨update s.task i v, c, k⟩ := by
  intro j p hp
  dsimp only at hp
  rcases eq_or_ne j i with rfl | hj
  · rw [update_self] at hp
    exact hv p hp
  · rw [update_of_ne hj] at hp
    exact h j p hp

theorem All.modify {f : Task → Task} (h : All P s) (hf : ∀ p ∈ s.task i, P p → P (f p)) :
    All P (s.modify i f) := by
  apply h.update
  rintro q hq
  obtain ⟨p, hp, rfl⟩ := Option.map_eq_some_iff.mp hq
  exact hf p hp (h i p hp)

/-- What `sys_nice` may break: all else that a step does to one task. -/
structure Stable (P : Task → Prop) : Prop where
  state : ∀ p state, P p → P { p with state := state }
  child : ∀ p, P p → P (Tasks.child p)
  relinquish : ∀ p, P p → P { p with counter := 0 }
  tick : ∀ p, P p → P (Tasks.tick p)

theorem Good.nonneg (h : Good s) : All (fun p => 0 ≤ p.counter) s := h.ranged.imp fun _ hp => hp.2.2.1

theorem Ranged.sysNice (h : Ranged p) : Ranged (Tasks.sysNice x p) := by
  unfold Tasks.sysNice
  split_ifs with hx
  · exact ⟨hx, wrap_lt _, h.2.2⟩
  · exact h

theorem Ranged.relinquish (h : Ranged p) : Ranged { p with counter := 0 } :=
  ⟨h.1, h.2.1, le_rfl, by norm_num⟩

theorem Ranged.tick (h : Ranged p) : Ranged (Tasks.tick p) := by
  unfold Tasks.tick
  split_ifs with hx
  · exact ⟨h.1, h.2.1, hx.le, wrap_lt _⟩
  · exact h.relinquish

theorem stable_ranged : Stable Ranged where
  state _ _ h := h
  child _ h := ⟨h.1, h.2.1, h.1.le, h.2.1⟩
  relinquish _ h := h.relinquish
  tick _ h := h.tick

theorem All.step (h : All P s) (hP : Stable P) (ha : a ≠ .round)
    (hnice : ∀ inc, a = .nice inc → ∀ p ∈ s.task s.current, P p → P (Tasks.sysNice inc p))
    (hs : step a s = some s') : All P s' := by
  cases a with
  | fork nr =>
    dsimp only [Schedule.step] at hs
    split_ifs at hs
    cases hs
    apply h.update
    rintro q hq
    obtain ⟨p, hp, rfl⟩ := Option.map_eq_some_iff.mp hq
    exact hP.child p (h _ p hp)
  | setState i state =>
    dsimp only [Schedule.step] at hs
    split_ifs at hs
    cases hs
    exact h.modify fun p _ => hP.state p _
  | release i =>
    dsimp only [Schedule.step] at hs
    split_ifs at hs
    cases hs
    exact h.update fun p hp => nomatch hp
  | nice increment =>
    dsimp only [Schedule.step] at hs
    split_ifs at hs
    cases hs
    exact h.modify (hnice increment rfl)
  | tick user =>
    dsimp only [Schedule.step] at hs
    split_ifs at hs <;> cases hs <;> exact h.modify fun p _ => hP.tick p
  | truncate =>
    dsimp only [Schedule.step] at hs
    split_ifs at hs
    cases hs
    exact h.modify fun p _ => hP.relinquish p
  | schedule =>
    dsimp only [Schedule.step] at hs
    split_ifs at hs
    cases hs
    exact h
  | check i =>
    dsimp only [Schedule.step] at hs
    split_ifs at hs
    cases hs
    exact h.modify fun p _ => hP.state p _
  | round => exact absurd rfl ha

/-- A step that is not a round of `schedule` is in its first loop or outside. -/
theorem choosing_of_ne_round (ha : a ≠ .round) (hs : step a s = some s') :
    s'.choosing = some 0 ∨ s.choosing = none ∧ s'.choosing = none := by
  cases a with
  | round => exact absurd rfl ha
  | tick user =>
    dsimp only [step] at hs
    split_ifs at hs with hc
    · cases hs
      exact .inl rfl
    · cases hs
      exact .inr ⟨hc, hc⟩
  | check i =>
    dsimp only [step] at hs
    split_ifs at hs with hc
    cases hs
    exact .inl hc.1
  | fork nr =>
    dsimp only [step] at hs
    split_ifs at hs with hc
    cases hs
    exact .inr ⟨hc.1, hc.1⟩
  | release i =>
    dsimp only [step] at hs
    split_ifs at hs with hc
    cases hs
    exact .inr ⟨hc.1, hc.1⟩
  | setState i state =>
    dsimp only [step] at hs
    split_ifs at hs with hc
    cases hs
    exact .inr ⟨hc, hc⟩
  | nice increment =>
    dsimp only [step] at hs
    split_ifs at hs with hc
    cases hs
    exact .inr ⟨hc, hc⟩
  | truncate =>
    dsimp only [step] at hs
    split_ifs at hs
    cases hs
    exact .inl rfl
  | schedule =>
    dsimp only [step] at hs
    split_ifs at hs
    cases hs
    exact .inl rfl

theorem round_of_not_spent (h : Good s) (hs : ¬ Spent s) (k : ℕ) :
    s.round k = { s with current := s.scan.2, choosing := none } :=
  if_pos (mt (scan_eq_zero_iff h.nonneg).mp hs)

theorem round_of_spent (h : Good s) (hs : Spent s) (k : ℕ) :
    s.round k = { s.recharge with choosing := some (k + 1) } :=
  if_neg (not_not.mpr ((scan_eq_zero_iff h.nonneg).mpr hs))

/-- Nothing is spent after the first round. -/
theorem Good.eq_zero_of_spent {k : ℕ} (h : Good s) (hs : Spent s) (hk : s.choosing = some k) : k = 0 := by
  rcases h.fresh k hk with h0 | ⟨-, hpos⟩
  · exact h0
  · obtain ⟨⟨i, p, hi, hp, hrun⟩, hz⟩ := hs
    have h0 := hz i p ⟨hi, hp, hrun⟩
    have h1 := hpos i hi p hp
    omega

theorem mem_recharge_task {q : Task} (hi : i ≠ 0) : q ∈ s.recharge.task i ↔
    ∃ p ∈ s.task i, q = { p with counter := wrap (p.counter / 2 + p.priority) } := by
  unfold Tasks.recharge
  dsimp only
  rw [if_neg hi, Option.mem_def, Option.map_eq_some_iff]
  exact exists_congr fun p => and_congr_right fun _ => eq_comm

theorem Good.recharge (h : Good s)
    (hf : ∀ i ≠ 0, ∀ p ∈ s.task i, p.counter / 2 + p.priority < 2 ^ 31) :
    Good { s.recharge with choosing := some 1 } := by
  have hnew (i : Slot) (hi : i ≠ 0) (q : Task) (hq : q ∈ s.recharge.task i) : Ranged q ∧ 0 < q.counter := by
    obtain ⟨p, hp, rfl⟩ := (mem_recharge_task hi).mp hq
    obtain ⟨hpos, hlt, hc, -⟩ := h.ranged i p hp
    have hsum := hf i hi p hp
    have hw : wrap (p.counter / 2 + p.priority) = p.counter / 2 + p.priority := wrap_eq (by omega) hsum
    rw [hw]
    exact ⟨⟨hpos, hlt, by dsimp only; omega, hsum⟩, by dsimp only; omega⟩
  refine ⟨fun i q hq => ?_, fun k hk => ?_⟩
  · rcases eq_or_ne i 0 with rfl | hi
    · exact h.ranged 0 q hq
    · exact (hnew i hi q hq).1
  · cases hk
    exact .inr ⟨rfl, fun i hi q hq => (hnew i hi q hq).2⟩

theorem Good.step (h : Good s) (hf : Fits s a) (hs : step a s = some s') : Good s' := by
  by_cases ha : a = .round
  · subst ha
    obtain ⟨k, hk, rfl⟩ := Option.map_eq_some_iff.mp hs
    by_cases hsp : Spent s
    · rw [round_of_spent h hsp]
      obtain rfl := h.eq_zero_of_spent hsp hk
      exact h.recharge (hf (Option.isSome_of_mem hk) hsp)
    · rw [round_of_not_spent h hsp]
      exact ⟨h.ranged, fun k hk => nomatch hk⟩
  · refine ⟨h.ranged.step stable_ranged ha (fun _ _ _ _ hp => hp.sysNice) hs, fun k hk => .inl ?_⟩
    rcases choosing_of_ne_round ha hs with hc | ⟨-, hc⟩
    · exact (Option.some_inj.mp (hc.symm.trans hk)).symm
    · exact nomatch hc.symm.trans hk

theorem Good.lt_two {k : ℕ} (h : Good s) (hk : s.choosing = some k) : k < 2 := by
  rcases h.fresh k hk with rfl | ⟨rfl, -⟩ <;> omega

theorem Good.right (h : Good s) (hf : Fits s a) : Right s a := by
  intro s' hs
  have h' : Good s' := h.step hf hs
  refine ⟨h'.ranged.imp fun p hp => ⟨hp.1, hp.2.2.1⟩, fun k hk => h'.lt_two hk, fun hsome hnone => ?_⟩
  by_cases ha : a = .round
  · subst ha
    obtain ⟨k, hk, rfl⟩ := Option.map_eq_some_iff.mp hs
    by_cases hsp : Spent s
    · rw [round_of_spent h hsp] at hnone
      exact nomatch hnone
    · rw [round_of_not_spent h hsp]
      exact chosen_scan h.nonneg
  · rcases choosing_of_ne_round ha hs with hc | ⟨hc, -⟩
    · exact nomatch hc.symm.trans hnone
    · rw [hc] at hsome
      exact absurd hsome (by simp)

/-- A recharge that overflows leaves a negative counter. -/
theorem Good.fits (h : Good s) (hr : Right s a) : Fits s a := by
  cases a with
  | round =>
    intro hsome hsp i hi p hp
    obtain ⟨k, hk⟩ := Option.isSome_iff_exists.mp hsome
    obtain ⟨hall, -⟩ := hr (s.round k) (by rw [Schedule.step, hk]; rfl)
    rw [round_of_spent h hsp] at hall
    have h0 := (hall i _ ((mem_recharge_task hi).mpr ⟨p, hp, rfl⟩)).2
    obtain ⟨-, hlt, -, hc⟩ := h.ranged i p hp
    by_contra hge
    have hneg := wrap_neg (not_lt.mp hge) (by omega)
    dsimp only at h0
    omega
  | _ => trivial

theorem all_boot (hP : P ⟨.running, 15, 15⟩) : All P boot := by
  intro i p hp
  change p ∈ update (fun _ => none) 0 (some _) i at hp
  rcases eq_or_ne i 0 with rfl | hi
  · rw [update_self] at hp
    cases hp
    exact hP
  · rw [update_of_ne hi] at hp
    exact nomatch hp

theorem good_boot : Good boot :=
  ⟨all_boot ⟨by norm_num, by norm_num, by norm_num, by norm_num⟩, fun k hk => nomatch hk⟩

/-- No task gets a priority beyond half of what a word holds. -/
def Modest (s : Tasks) : Act → Prop
  | .nice increment => ∀ p ∈ s.task s.current, wrap (p.priority - increment) ≤ 2 ^ 30
  | _ => True

theorem stable_low : Stable fun p => p.priority ≤ 2 ^ 30 where
  state _ _ h := h
  child _ h := h
  relinquish _ h := h
  tick p h := by
    unfold Tasks.tick
    split_ifs <;> exact h

/-- Half a counter and such a priority make a word. -/
theorem Good.fits_of_low (h : Good s) (hl : All (fun p => p.priority ≤ 2 ^ 30) s) (a : Act) : Fits s a := by
  cases a with
  | round =>
    intro _ _ i _ p hp
    obtain ⟨-, -, -, hlt⟩ := h.ranged i p hp
    have hle := hl i p hp
    dsimp only at hle
    omega
  | _ => trivial

theorem All.low_step (hl : All (fun p => p.priority ≤ 2 ^ 30) s) (hm : Modest s a)
    (hs : Schedule.step a s = some s') : All (fun p => p.priority ≤ 2 ^ 30) s' := by
  by_cases ha : a = .round
  · subst ha
    obtain ⟨k, -, rfl⟩ := Option.map_eq_some_iff.mp hs
    unfold Tasks.round
    split_ifs
    · exact hl
    · intro i q hq
      rcases eq_or_ne i 0 with rfl | hi
      · exact hl 0 q hq
      · obtain ⟨p, hp, rfl⟩ := (mem_recharge_task hi).mp hq
        exact hl i p hp
  · apply hl.step stable_low ha ?_ hs
    rintro inc rfl p hp hle
    have hinc := hm p hp
    unfold Tasks.sysNice
    split_ifs
    · exact hinc
    · exact hle

theorem each_right_of_modest (acts : List Act) (h : Each step Modest acts boot) : Each step Right acts boot := by
  have hboot : Good boot ∧ All (fun p => p.priority ≤ 2 ^ 30) boot := ⟨good_boot, all_boot (by norm_num)⟩
  apply Runs.Each.imp (I := fun s => Good s ∧ All (fun p => p.priority ≤ 2 ^ 30) s) ?_ ?_ hboot h
  · rintro s a s' ⟨hg, hl⟩ hm hs
    exact ⟨hg.step (hg.fits_of_low hl a) hs, hl.low_step hm hs⟩
  · rintro s a ⟨hg, hl⟩ -
    exact hg.right (hg.fits_of_low hl a)

end Linux012.Schedule
