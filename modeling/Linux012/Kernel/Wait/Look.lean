import Mathlib.Data.BitVec
import Linux012.Kernel.Ptree.Calls
import Linux012.Kernel.Wait.Basic

/-! # The loop of waitpid

A child that has stopped and whose stop has been reported does not count for `sys_waitpid`: a call
that is about no other child fails as if there was none.
-/

namespace Linux012.Waitpid

open Links Runs
open Ptree (Ptr NR_TASKS Tree)
open Signals (Word SIGKILL SIGCONT WNOHANG WUNTRACED ECHILD)
open Exit (Task mayKill)

variable {s : Sys} {p₀ p₁ p t : Ptr} {pid options : Word} {x : Task} {flag : Bool}

/-! ## The contract -/

/-- The dead children that have been returned -/
def Event.child? : Event → Option ℕ
  | .reaped _ child _ => some child
  | _ => none

def reaped (log : List Event) : List ℕ := log.filterMap Event.child?

/-- The stops that have been reported -/
def Event.stop? : Event → Option (ℕ × ℕ)
  | .reported _ child nr _ => some (child, nr)
  | _ => none

def reported (log : List Event) : List (ℕ × ℕ) := log.filterMap Event.stop?

/-- What the task with the number `n` has been given for a child -/
def Event.time (f : Death → Word) (n : ℕ) : Event → Word
  | .reaped parent _ d => if parent = n then f d else 0
  | _ => 0

def total (f : Death → Word) (n : ℕ) (log : List Event) : Word := (log.map (Event.time f n)).sum

/-- `-ECHILD` is for callers without a child that the call is about; with a dead one a child is returned. -/
def LookedRight (found : Found) (ret : Option Word) (child zombie : Bool) : Prop :=
  (ret = some (-ECHILD) ↔ child = false) ∧ (zombie = true → ∀ flag, found ≠ .flag flag)

/-- A dead child is returned once, with what it left, and has no slot after that. Its times are added once.
A stop is reported once. -/
structure Contract (s : Sys) : Prop where
  code : ∀ parent child d, .reaped parent child d ∈ s.log → s.dead child = some d
  once : (reaped s.log).Nodup
  freed : ∀ p, s.links.Live p → s.serial p ∉ reaped s.log
  times : ∀ p, s.links.Live p → (∀ q d, s.wait p ≠ .reaping q d) →
    (s.info p).cutime = total Death.utime (s.serial p) s.log ∧
      (s.info p).cstime = total Death.stime (s.serial p) s.log
  stops : (reported s.log).Nodup
  looked : ∀ found ret child zombie,
    .looked found ret child zombie ∈ s.log → LookedRight found ret child zombie

/-- The task is dead and has left another code than 0. -/
def Owes (x : Task) : Prop := x.state = .zombie ∧ x.exitCode ≠ 0

/-- The task has stopped, and the call has nothing to report of it. -/
def Quiet (options : Word) (x : Task) : Prop :=
  x.state = .stopped ∧ (options &&& WUNTRACED = 0 ∨ x.exitCode = 0)

/-- Where there is a child that the call is about, one of these has not stopped, or has a stop to be
reported. -/
def Counts (s : Sys) (t : Ptr) (pid options : Word) : Prop :=
  (∃ p, s.links.Live p ∧ s.Wanted t pid p) →
    ∃ p, s.links.Live p ∧ s.Wanted t pid p ∧ ¬ Quiet options (s.info p)

/-- No signal clears the code of a dead task, and no report of a stop that its code; what a call of
`sys_waitpid` is about counts. -/
def Fits (s : Sys) : Act → Prop
  | .send t p sig priv => mayKill (s.info t) (s.info p) priv = true →
      sig = SIGKILL ∨ sig = SIGCONT → ¬ Owes (s.info p)
  | .exit t code orphaned _ => ∀ pgrp ∈ orphaned,
      (code ≠ 0 → (s.info t).pgrp ≠ pgrp) ∧ ∀ p, s.InGroup pgrp p → ¬ Owes (s.info p)
  | .finish t => ∀ p nr status, s.wait t = .reporting p nr status → ¬ Owes (s.info p)
  | .waitpid t pid options => Counts s t pid options
  | .resume t => ∀ pid options oldblocked, s.wait t = .asleep pid options oldblocked → Counts s t pid options
  | _ => True

/-! ## The loop -/

section

variable {info : Ptr → Task} {r : Found}

/-- The child that the loop ends with is one that the call is about. Without one, all that it is about run,
sleep, or have stopped with nothing to report. -/
def Ends (info : Ptr → Task) (x : Task) (pid options : Word) (ps : List Ptr) (flag : Bool) : Found → Prop
  | .stopped p => p ∈ ps ∧ wanted x (info p) pid = true ∧ (info p).state = .stopped ∧ ¬ Quiet options (info p)
  | .zombie p => p ∈ ps ∧ wanted x (info p) pid = true ∧ (info p).state = .zombie
  | .flag b => (∀ p ∈ ps, wanted x (info p) pid = true → (info p).state ≠ .zombie ∧
      ((info p).state = .stopped → Quiet options (info p))) ∧
      (b = true ↔ flag = true ∨ ∃ p ∈ ps, wanted x (info p) pid = true ∧ (info p).state ≠ .stopped)

/-- Another child is passed over. -/
theorem Ends.skip (h : Ends info x pid options ps flag r)
    (hp : wanted x (info p) pid = true → Quiet options (info p)) :
    Ends info x pid options (p :: ps) flag r := by
  cases r with
  | stopped q => exact ⟨List.mem_cons_of_mem p h.1, h.2⟩
  | zombie q => exact ⟨List.mem_cons_of_mem p h.1, h.2⟩
  | flag b =>
    refine ⟨?_, h.2.trans ?_⟩
    · rintro q hq hw
      rcases List.mem_cons.mp hq with rfl | hq
      · exact ⟨by simp [(hp hw).1], fun _ => hp hw⟩
      · exact h.1 q hq hw
    · constructor
      · rintro (hf | ⟨q, hq, hw⟩)
        · exact .inl hf
        · exact .inr ⟨q, List.mem_cons_of_mem p hq, hw⟩
      · rintro (hf | ⟨q, hq, hw, hst⟩)
        · exact .inl hf
        · rcases List.mem_cons.mp hq with rfl | hq
          · exact absurd (hp hw).1 hst
          · exact .inr ⟨q, hq, hw, hst⟩

/-- Another child is waited for. -/
theorem Ends.alive (h : Ends info x pid options ps true r) (hw : wanted x (info p) pid = true)
    (hz : (info p).state ≠ .zombie) (hs : (info p).state ≠ .stopped) :
    Ends info x pid options (p :: ps) flag r := by
  cases r with
  | stopped q => exact ⟨List.mem_cons_of_mem p h.1, h.2⟩
  | zombie q => exact ⟨List.mem_cons_of_mem p h.1, h.2⟩
  | flag b =>
    refine ⟨?_, iff_of_true (h.2.mpr (.inl rfl)) (.inr ⟨p, List.mem_cons_self, hw, hs⟩)⟩
    rintro q hq hwq
    rcases List.mem_cons.mp hq with rfl | hq
    · exact ⟨hz, fun h => absurd h hs⟩
    · exact h.1 q hq hwq

theorem loop_ends (info : Ptr → Task) (x : Task) (pid options : Word) (ps : List Ptr) (flag : Bool) :
    Ends info x pid options ps flag (loop info x pid options ps flag) := by
  induction ps generalizing flag with
  | nil =>
    refine ⟨fun p hp => absurd hp List.not_mem_nil, ?_⟩
    simp
  | cons p ps ih =>
    unfold loop
    by_cases hw : wanted x (info p) pid = true
    · rw [if_pos hw]
      split
      · rename_i hst
        split
        · rename_i hquiet
          exact (ih flag).skip fun _ => ⟨hst, hquiet⟩
        · rename_i hquiet
          exact ⟨List.mem_cons_self, hw, hst, fun h => hquiet h.2⟩
      · rename_i hst
        exact ⟨List.mem_cons_self, hw, hst⟩
      · rename_i hs hz
        exact (ih true).alive hw hz hs
    · rw [if_neg hw]
      exact (ih flag).skip fun h => absurd h hw

end

/-! ## The children of a task -/

section

variable {kids : Ptr → List Ptr} {depth : Ptr → ℕ}

theorem mem_kids (h : Tree s.links p₀ p₁ kids depth) (ht : s.links.Live t) (ht₀ : t ≠ p₀) :
    p ∈ kids t ↔ s.links.Live p ∧ s.links.pPptr p = some t := by
  constructor
  · intro hp
    obtain ⟨hl, -, hpp⟩ := h.child t ht p hp
    exact ⟨hl, hpp⟩
  · rintro ⟨hl, hpp⟩
    have hp₀ : p ≠ p₀ := by
      rintro rfl
      exact ht₀ (Option.some.inj (h.root.1.symm.trans hpp)).symm
    obtain ⟨z, -, hpz, hpk⟩ := h.parent p hl hp₀
    obtain rfl : t = z := Option.some.inj (hpp.symm.trans hpz)
    exact hpk

theorem walk_kids (h : Tree s.links p₀ p₁ kids depth) (ht : s.links.Live t) :
    walk s.links.pOsptr NR_TASKS (s.links.pCptr t) = kids t := by
  have hch := h.chain t ht
  exact hch.path.walk_eq (Tree.length_le hch.nodup fun x hx => (h.child t ht x hx).1)

/-- The loop goes through the children. -/
theorem look_ends (h : Tree s.links p₀ p₁ kids depth) (ht : s.links.Live t) (pid options : Word) :
    Ends s.info (s.info t) pid options (kids t) false (s.look t pid options) := by
  rw [← walk_kids h ht]
  exact loop_ends ..

theorem has_iff (h : Tree s.links p₀ p₁ kids depth) (ht : s.links.Live t) (ht₀ : t ≠ p₀) {P : Task → Bool} :
    s.Has t pid P ↔ ∃ p ∈ kids t, wanted (s.info t) (s.info p) pid = true ∧ P (s.info p) = true := by
  constructor
  · rintro ⟨i, p, hp, ⟨hpp, hw⟩, hP⟩
    exact ⟨p, (mem_kids h ht ht₀).mpr ⟨⟨i, hp⟩, hpp⟩, hw, hP⟩
  · rintro ⟨p, hp, hw, hP⟩
    obtain ⟨⟨i, hi⟩, hpp⟩ := (mem_kids h ht ht₀).mp hp
    exact ⟨i, p, hi, ⟨hpp, hw⟩, hP⟩

theorem returned_leads {found : Found} :
    (s.leads t pid options found).returned t = some (-ECHILD) ↔ found = .flag false := by
  unfold Sys.leads Sys.returned
  split
  · simp [Sys.setWait]
  · simp [Sys.setWait]
  · split
    · simp [Sys.leave, Sys.setWait, ECHILD]
    · simp [Sys.setWait]
  · simp [Sys.leave, Sys.setWait]

/-- What counts decides whether the call fails as if there was no child. -/
theorem looked_right (h : Tree s.links p₀ p₁ kids depth) (ht : s.links.Live t) (ht₀ : t ≠ p₀) :
    LookedRight (s.look t pid options) ((s.leads t pid options (s.look t pid options)).returned t)
        (s.Has t pid fun _ => true) (s.Has t pid isZombie) ↔
      Counts s t pid options := by
  have hwanted : ∀ p, s.links.Live p ∧ s.Wanted t pid p ↔
      p ∈ kids t ∧ wanted (s.info t) (s.info p) pid = true := by
    intro p
    rw [mem_kids h ht ht₀, Sys.Wanted, and_assoc]
  have hcounts : Counts s t pid options ↔
      ((∃ p ∈ kids t, wanted (s.info t) (s.info p) pid = true) →
        ∃ p ∈ kids t, wanted (s.info t) (s.info p) pid = true ∧ ¬ Quiet options (s.info p)) := by
    unfold Counts
    simp only [← and_assoc, hwanted]
  have hzombie : ∀ flag, s.look t pid options = .flag flag → ¬ s.Has t pid isZombie := by
    intro flag hlook hz
    have hends := look_ends h ht pid options
    rw [hlook] at hends
    obtain ⟨p, hp, hw, hP⟩ := (has_iff h ht ht₀).mp hz
    exact (hends.1 p hp hw).1 (of_decide_eq_true hP)
  have hsecond : decide (s.Has t pid isZombie) = true → ∀ flag, s.look t pid options ≠ .flag flag :=
    fun hz flag hlook => hzombie flag hlook (of_decide_eq_true hz)
  unfold LookedRight
  rw [and_iff_left hsecond, returned_leads, decide_eq_false_iff_not, has_iff h ht ht₀, hcounts]
  have hends := look_ends h ht pid options
  cases hlook : s.look t pid options with
  | stopped p =>
    rw [hlook] at hends
    obtain ⟨hp, hw, -, hquiet⟩ := hends
    refine iff_of_true (iff_of_false (by simp) (not_not.mpr ⟨p, hp, hw, rfl⟩)) fun _ => ⟨p, hp, hw, hquiet⟩
  | zombie p =>
    rw [hlook] at hends
    obtain ⟨hp, hw, hz⟩ := hends
    refine iff_of_true (iff_of_false (by simp) (not_not.mpr ⟨p, hp, hw, rfl⟩)) fun _ => ⟨p, hp, hw, ?_⟩
    rintro ⟨hst, -⟩
    rw [hz] at hst
    cases hst
  | flag b =>
    rw [hlook] at hends
    obtain ⟨hall, hb⟩ := hends
    simp only [Bool.false_eq_true, false_or] at hb
    have hloud : (∃ p ∈ kids t, wanted (s.info t) (s.info p) pid = true ∧ ¬ Quiet options (s.info p)) ↔
        b = true := by
      rw [hb]
      constructor
      · rintro ⟨p, hp, hw, hq⟩
        exact ⟨p, hp, hw, fun hst => hq ((hall p hp hw).2 hst)⟩
      · rintro ⟨p, hp, hw, hst⟩
        exact ⟨p, hp, hw, fun hq => hst hq.1⟩
    rw [hloud]
    cases b with
    | false => simp
    | true =>
      obtain ⟨p, hp, hw, -⟩ := hb.mp rfl
      exact iff_of_true (iff_of_false (by simp) (not_not.mpr ⟨p, hp, hw, rfl⟩)) fun _ => rfl

end

end Linux012.Waitpid
