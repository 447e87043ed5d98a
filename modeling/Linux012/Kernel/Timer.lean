import Mathlib.Data.List.Perm.Basic
import Mathlib.Tactic
import Linux012.Lib.Runs

/-! # Kernel timers

`add_timer` and the part of `do_timer` that calls the functions. A request holds the ticks that pass
after the one before it. `add_timer` subtracts from its own request what it passes, and nothing from
the request that it stops at.
-/

namespace Linux012.Timer

open Runs

def TIME_REQUESTS : ℕ := 64

/-- `due` is the tick that has been asked for (not in the source). -/
structure Request where
  jiffies : ℤ
  fn : ℕ
  due : ℕ
  deriving DecidableEq

/-- A function has been called at a tick. -/
structure Call where
  fn : ℕ
  due : ℕ
  time : ℕ
  deriving DecidableEq

/-- The list from `next_timer` on, with the ticks so far, what has been added and what has been called
(not in the source). -/
structure Timers where
  now : ℕ
  list : List Request
  added : List (ℕ × ℕ)
  called : List Call
  deriving DecidableEq

/-- The loop of `add_timer`, which moves the contents of the new request down the list. -/
def sift (p : Request) : List Request → List Request
  | [] => [p]
  | q :: l => if q.jiffies < p.jiffies then q :: sift { p with jiffies := p.jiffies - q.jiffies } l else p :: q :: l

namespace Timers

/-- Panics when no request is free. -/
def addTimer (s : Timers) (jiffies : ℤ) : Option ℕ → Option Timers
  | none => some s
  | some fn =>
    if jiffies ≤ 0 then
      some { s with added := (fn, s.now) :: s.added, called := ⟨fn, s.now, s.now⟩ :: s.called }
    else if s.list.length = TIME_REQUESTS then none
    else some { s with
      list := sift ⟨jiffies, fn, s.now + jiffies.toNat⟩ s.list
      added := (fn, s.now + jiffies.toNat) :: s.added }

/-- The condition of the loop of `do_timer` does not hold. -/
def idle (s : Timers) : Bool := s.list.head?.all fun t => 0 < t.jiffies

def ticked (s : Timers) : Timers where
  now := s.now + 1
  list := s.list.modifyHead fun t => { t with jiffies := t.jiffies - 1 }
  added := s.added
  called := s.called

/-- The first request is given back, and its function called. -/
def expired (s : Timers) : Timers where
  now := s.now
  list := s.list.tail
  added := s.added
  called := (s.list.head?.map fun t => ⟨t.fn, t.due, s.now⟩).toList ++ s.called

/-- What `do_timer` does next when nothing is added. -/
def next (s : Timers) : Timers := if s.idle then s.ticked else s.expired

end Timers

/-- Timer functions add timers, too: between a call and the next one, or the next tick. -/
inductive Act
  | add (jiffies : ℤ) (fn : Option ℕ)
  | tick
  | expire

def step : Act → Timers → Option Timers
  | .add jiffies fn, s => s.addTimer jiffies fn
  | .tick, s => if s.idle then some s.ticked else none
  | .expire, s => if s.idle then none else some s.expired

def boot : Timers := ⟨0, [], [], []⟩

/-- Every function that was added has been called once or waits, none was called at a wrong tick, and
none waits too long. -/
structure Exact (s : Timers) : Prop where
  once : (s.called.map (fun c => (c.fn, c.due)) ++ s.list.map fun t => (t.fn, t.due)).Perm s.added
  onTime : ∀ c ∈ s.called, c.time = c.due
  waiting : ∀ t ∈ s.list, s.now ≤ t.due

/-- All is exact however many ticks follow. -/
def StaysExact (s : Timers) : Prop := ∀ k, Exact (Timers.next^[k] s)

/-- A new timer is due after all that wait. -/
def Last (s : Timers) : Act → Prop
  | .add jiffies (some _) => 0 < jiffies → ∀ t ∈ s.list, (t.due : ℤ) < s.now + jiffies
  | _ => True

variable {s s' : Timers} {p q : Request} {l : List Request} {t : ℤ}

/-! ## Differences -/

/-- From tick `t` on the requests come at the ticks that have been asked for. -/
def Timed : ℤ → List Request → Prop
  | _, [] => True
  | t, q :: l => t + q.jiffies = q.due ∧ Timed (t + q.jiffies) l

/-- A request comes after the tick that has been asked for. -/
def Late : ℤ → List Request → Prop
  | _, [] => False
  | t, q :: l => q.due < t + q.jiffies ∨ Late (t + q.jiffies) l

def Forward (l : List Request) : Prop := ∀ q ∈ l, 0 ≤ q.jiffies

theorem sift_perm (p : Request) (l : List Request) (f : Request → ℕ × ℕ)
    (hf : ∀ q j, f { q with jiffies := j } = f q) : ((sift p l).map f).Perm (f p :: l.map f) := by
  induction l generalizing p with
  | nil => exact .refl _
  | cons q l ih =>
    unfold sift
    split
    · rw [List.map_cons, List.map_cons]
      have h := ih { p with jiffies := p.jiffies - q.jiffies }
      rw [hf] at h
      exact (h.cons (f q)).trans (.swap _ _ _)
    · exact .refl _

theorem sift_forward (hp : 0 < p.jiffies) (hl : Forward l) : Forward (sift p l) := by
  induction l generalizing p with
  | nil => exact fun q hq => List.mem_singleton.mp hq ▸ hp.le
  | cons q l ih =>
    obtain ⟨hq, hl⟩ := List.forall_mem_cons.mp hl
    unfold sift
    split
    · exact List.forall_mem_cons.mpr ⟨hq, ih (by dsimp only; omega) hl⟩
    · exact List.forall_mem_cons.mpr ⟨hp.le, List.forall_mem_cons.mpr ⟨hq, hl⟩⟩

/-- A request that is due last goes to the end. -/
theorem sift_timed (ht : Timed t l) (hp : t + p.jiffies = p.due) (hlast : ∀ q ∈ l, q.due < p.due) :
    Timed t (sift p l) := by
  induction l generalizing t p with
  | nil => exact ⟨hp, trivial⟩
  | cons q l ih =>
    obtain ⟨hq, ht⟩ := ht
    obtain ⟨hlt, hlast⟩ := List.forall_mem_cons.mp hlast
    unfold sift
    rw [if_pos (by omega)]
    exact ⟨hq, ih ht (by dsimp only; omega) hlast⟩

/-- The request that it stops at comes late. -/
theorem sift_late (ht : Timed t l) (hp : t + p.jiffies = p.due) (hpos : 0 < p.jiffies)
    (hex : ∃ q ∈ l, p.due ≤ q.due) : Late t (sift p l) := by
  induction l generalizing t p with
  | nil =>
    obtain ⟨q, hq, -⟩ := hex
    cases hq
  | cons q l ih =>
    obtain ⟨hq, ht⟩ := ht
    unfold sift
    split
    · refine .inr (ih ht (by dsimp only; omega) (by dsimp only; omega) ?_)
      obtain ⟨r, hr, hle⟩ := hex
      rcases List.mem_cons.mp hr with rfl | hr
      · omega
      · exact ⟨r, hr, hle⟩
    · exact .inr (.inl (by omega))

theorem Timed.le (h : Timed t l) (hl : Forward l) : ∀ q ∈ l, t ≤ q.due := by
  induction l generalizing t with
  | nil => exact nofun
  | cons q l ih =>
    obtain ⟨hq, h⟩ := h
    obtain ⟨hpos, hl⟩ := List.forall_mem_cons.mp hl
    refine List.forall_mem_cons.mpr ⟨by omega, fun r hr => ?_⟩
    have := ih h hl r hr
    omega

/-! ## Steps -/

structure Inv (s : Timers) : Prop where
  once : (s.called.map (fun c => (c.fn, c.due)) ++ s.list.map fun t => (t.fn, t.due)).Perm s.added
  onTime : ∀ c ∈ s.called, c.time = c.due
  timed : Timed s.now s.list
  forward : Forward s.list

theorem Inv.exact (h : Inv s) : Exact s :=
  ⟨h.once, h.onTime, fun t ht => by exact_mod_cast h.timed.le h.forward t ht⟩

theorem Inv.ticked (h : Inv s) (hs : s.idle = true) : Inv s.ticked := by
  obtain ⟨now, list, added, called⟩ := s
  cases list with
  | nil => exact ⟨h.once, h.onTime, trivial, nofun⟩
  | cons q l =>
    obtain ⟨hq, ht⟩ := h.timed
    obtain ⟨-, hl⟩ := List.forall_mem_cons.mp h.forward
    have hpos : 0 < q.jiffies := by simpa [Timers.idle] using hs
    dsimp only at hq ht
    refine ⟨h.once, h.onTime, ⟨?_, ?_⟩, List.forall_mem_cons.mpr ⟨?_, hl⟩⟩
    · show ((now + 1 : ℕ) : ℤ) + (q.jiffies - 1) = q.due
      omega
    · show Timed (((now + 1 : ℕ) : ℤ) + (q.jiffies - 1)) l
      rwa [show ((now + 1 : ℕ) : ℤ) + (q.jiffies - 1) = now + q.jiffies by omega]
    · show 0 ≤ q.jiffies - 1
      omega

theorem Inv.expired (h : Inv s) (hs : s.idle = false) : Inv s.expired := by
  obtain ⟨now, list, added, called⟩ := s
  cases list with
  | nil => cases hs
  | cons q l =>
    obtain ⟨hq, ht⟩ := h.timed
    obtain ⟨hpos, hl⟩ := List.forall_mem_cons.mp h.forward
    have hle : q.jiffies ≤ 0 := by simpa [Timers.idle] using hs
    have hzero : q.jiffies = 0 := le_antisymm hle hpos
    dsimp only at hq ht
    rw [hzero, add_zero] at hq ht
    refine ⟨?_, List.forall_mem_cons.mpr ⟨?_, h.onTime⟩, ht, hl⟩
    · exact List.perm_middle.symm.trans h.once
    · exact_mod_cast hq

theorem Inv.next (h : Inv s) : Inv s.next := by
  unfold Timers.next
  split
  · exact h.ticked ‹_›
  · exact h.expired (Bool.eq_false_of_not_eq_true ‹_›)

theorem Inv.staysExact (h : Inv s) : StaysExact s := by
  intro k
  induction k generalizing s with
  | zero => exact h.exact
  | succ k ih => exact ih h.next

/-- A request that comes late is called at a wrong tick in the end. -/
theorem not_staysExact_of_late (h : Late s.now s.list) (hl : Forward s.list) : ¬ StaysExact s := by
  obtain ⟨m, hm⟩ : ∃ m, (s.list.map fun t => t.jiffies.toNat + 1).sum = m := ⟨_, rfl⟩
  induction m using Nat.strong_induction_on generalizing s with
  | h m ih =>
    intro hex
    have hnext : StaysExact s.next := fun k => hex (k + 1)
    obtain ⟨now, list, added, called⟩ := s
    cases list with
    | nil => exact h
    | cons q l =>
      obtain ⟨hpos, hl⟩ := List.forall_mem_cons.mp hl
      have h : (q.due : ℤ) < now + q.jiffies ∨ Late (now + q.jiffies) l := h
      have hm : q.jiffies.toNat + 1 + (l.map fun t => t.jiffies.toNat + 1).sum = m := hm
      by_cases hq : 0 < q.jiffies
      · -- the first request comes one tick closer
        rw [Timers.next, if_pos (by simpa [Timers.idle] using hq)] at hnext
        refine ih _ ?_ ?_ ?_ rfl hnext
        · show (q.jiffies - 1).toNat + 1 + (l.map fun t => t.jiffies.toNat + 1).sum < m
          omega
        · rcases h with h | h
          · refine .inl ?_
            show (q.due : ℤ) < ((now + 1 : ℕ) : ℤ) + (q.jiffies - 1)
            omega
          · refine .inr ?_
            show Late (((now + 1 : ℕ) : ℤ) + (q.jiffies - 1)) l
            rwa [show ((now + 1 : ℕ) : ℤ) + (q.jiffies - 1) = now + q.jiffies by omega]
        · refine List.forall_mem_cons.mpr ⟨?_, hl⟩
          show 0 ≤ q.jiffies - 1
          omega
      · have hzero : q.jiffies = 0 := le_antisymm (not_lt.mp hq) hpos
        rw [hzero, add_zero] at h
        rw [Timers.next, if_neg (by simpa [Timers.idle] using hq)] at hnext
        rcases h with h | h
        · have htime : now = q.due := (hnext 0).onTime ⟨q.fn, q.due, now⟩ List.mem_cons_self
          omega
        · refine ih _ ?_ (s := (Timers.mk now (q :: l) added called).expired) h hl rfl hnext
          show (l.map fun t => t.jiffies.toNat + 1).sum < m
          omega

/-- What `add_timer` does with a function. -/
theorem addTimer_cases {jiffies : ℤ} {fn : ℕ} (hs : s.addTimer jiffies (some fn) = some s') :
    jiffies ≤ 0 ∧
      s' = { s with added := (fn, s.now) :: s.added, called := ⟨fn, s.now, s.now⟩ :: s.called } ∨
    0 < jiffies ∧ s' = { s with
      list := sift ⟨jiffies, fn, s.now + jiffies.toNat⟩ s.list
      added := (fn, s.now + jiffies.toNat) :: s.added } := by
  unfold Timers.addTimer at hs
  split_ifs at hs with hj
  · exact .inl ⟨hj, (Option.some.inj hs).symm⟩
  · exact .inr ⟨not_le.mp hj, (Option.some.inj hs).symm⟩

theorem Inv.step {a : Act} (h : Inv s) (hlast : Last s a) (hs : step a s = some s') : Inv s' := by
  cases a with
  | tick =>
    dsimp only [Timer.step] at hs
    split_ifs at hs with hi
    cases hs
    exact h.ticked hi
  | expire =>
    dsimp only [Timer.step] at hs
    split_ifs at hs with hi
    cases hs
    exact h.expired (by simpa using hi)
  | add jiffies fn =>
    cases fn with
    | none =>
      cases hs
      exact h
    | some fn =>
      rcases addTimer_cases hs with ⟨-, rfl⟩ | ⟨hj, rfl⟩
      · exact ⟨h.once.cons (fn, s.now), List.forall_mem_cons.mpr ⟨rfl, h.onTime⟩, h.timed, h.forward⟩
      · refine ⟨?_, h.onTime, ?_, sift_forward hj h.forward⟩
        · have hsift := sift_perm ⟨jiffies, fn, s.now + jiffies.toNat⟩ s.list (fun t => (t.fn, t.due))
            fun _ _ => rfl
          exact (hsift.append_left _).trans (List.perm_middle.trans (h.once.cons _))
        · refine sift_timed h.timed ?_ fun q hq => ?_
          · dsimp only
            omega
          · have := hlast hj q hq
            dsimp only
            omega

theorem inv_boot : Inv boot := ⟨.refl _, nofun, trivial, nofun⟩

/-- In a run, and however many ticks follow on it, every function is called once and at its tick,
exactly when every timer that is added is due after all that wait. -/
theorem timers_exact_iff (acts : List Act) :
    Throughout step StaysExact acts boot ↔ Each step Last acts boot := by
  apply throughout_iff_each (I := Inv)
  · exact fun s h => h.staysExact
  · exact fun s a s' h hlast hs => h.step hlast hs
  · intro s a s' h hs hex
    cases a with
    | tick => trivial
    | expire => trivial
    | add jiffies fn =>
      cases fn with
      | none => trivial
      | some fn =>
        intro hj
        by_contra hlast
        push Not at hlast
        obtain ⟨q, hq, hle⟩ := hlast
        rcases addTimer_cases hs with ⟨hj', -⟩ | ⟨-, rfl⟩
        · omega
        · refine not_staysExact_of_late (sift_late h.timed ?_ hj ⟨q, hq, ?_⟩)
            (sift_forward hj h.forward) hex
          · dsimp only
            omega
          · dsimp only
            omega
  · exact inv_boot

/-- A timer of ten ticks, then one of five. -/
def tenFive : Timers := (runList step [.add 10 (some 1), .add 5 (some 2)] boot).get (by decide)

/-- The first function is called at tick 15. -/
theorem tenFive_late :
    (Timers.next^[17] tenFive).called = [⟨1, 10, 15⟩, ⟨2, 5, 5⟩] ∧
    ¬ Throughout step StaysExact [.add 10 (some 1), .add 5 (some 2)] boot := by
  have hcalled : (Timers.next^[17] tenFive).called = [⟨1, 10, 15⟩, ⟨2, 5, 5⟩] := by decide
  refine ⟨hcalled, fun h => ?_⟩
  have hex : StaysExact tenFive := (h.2 _ rfl).2 _ rfl
  have htime := (hex 17).onTime ⟨1, 10, 15⟩ (by rw [hcalled]; exact List.mem_cons_self)
  exact absurd htime (by decide)

end Linux012.Timer
