import Linux012.Kernel.Exit.Kill
import Linux012.Kernel.Wait.Basic

/-! # sys_kill next to sys_waitpid

What `sys_kill` does to the tasks is what a run of `send` does.
-/

namespace Linux012.Exit

open Signals (Word Slot)

variable {s s' : State} {current : Task} {pid pgrp : Word} {sig : ℕ} {r : ℤ}

/-- What has been signalled is a list of slots with tasks that may be. -/
def Posted (current : Task) (sig : ℕ) (s s' : State) : Prop :=
  ∃ is : List Slot, (∀ i ∈ is, hit current (fun _ => true) false s i = true) ∧ s' = sendAll sig is s

theorem Posted.refl (current : Task) (sig : ℕ) (s : State) : Posted current sig s s := ⟨[], by simp, rfl⟩

theorem posted_filter (is : List Slot) {sel : Task → Bool} :
    Posted current sig s (sendAll sig (is.filter (hit current sel false s)) s) := by
  refine ⟨_, fun i hi => ?_, rfl⟩
  obtain ⟨p, hp, -, hm⟩ := hit_iff.mp (List.mem_filter.mp hi).2
  exact hit_iff.mpr ⟨p, hp, rfl, hm⟩

theorem killPg_posted (h : killPg current pgrp sig false s = some (s', r)) : Posted current sig s s' := by
  unfold killPg at h
  split at h
  · cases h
    exact .refl ..
  · by_cases hfull : Full s
    · obtain ⟨r', hloop, -⟩ := killPg_full current pgrp sig hfull
      rw [hloop] at h
      cases h
      exact posted_filter _
    · rw [killPg_empty current pgrp sig hfull] at h
      cases h

theorem killProc_posted (h : killProc current pid sig false s = some (s', r)) : Posted current sig s s' := by
  unfold killProc at h
  split at h
  · cases h
    exact .refl ..
  · rw [killProcLoop_eq] at h
    split at h
    · cases h
      exact .refl ..
    · rename_i i hfind
      obtain ⟨p, hp⟩ : ∃ p, s.task i = some p := by
        cases hi : s.task i with
        | none => simp [hi] at h
        | some p => exact ⟨p, rfl⟩
      rw [if_neg (by simp [hp])] at h
      by_cases hm : mayKill current p false = true
      · rw [sendSig_hit hp hm] at h
        cases h
        refine ⟨[i], fun j hj => ?_, rfl⟩
        rw [List.mem_singleton.mp hj]
        exact hit_iff.mpr ⟨p, hp, rfl, hm⟩
      · rw [sendSig_refused hp hm] at h
        cases h
        exact .refl ..

theorem sysKill_posted (h : sysKill current pid sig s = some (s', r)) : Posted current sig s s' := by
  unfold sysKill at h
  split at h
  · exact killPg_posted h
  · split at h
    · rw [killAll_eq] at h
      cases h
      exact posted_filter _
    · split at h
      · exact killPg_posted h
      · exact killProc_posted h

end Linux012.Exit

namespace Linux012.Waitpid

open Function Runs
open Ptree (Ptr)
open Signals (Word Slot)
open Exit (Task mayKill post)

variable {s s' : Sys} {t p : Ptr} {pid : Word} {sig : ℕ}

/-- The tasks in the slots -/
def Sys.tasks (s : Sys) : Slot → Option Task := fun i => (s.links.task i).map s.info

/-- `t` sends the signal. -/
def Sends (t : Ptr) (sig : ℕ) (_ : Sys) (a : Act) : Prop := ∃ p, a = .send t p sig false

/-- A signal to the task in a slot -/
theorem tasks_setInfo (hinj : ∀ i j p, s.links.task i = some p → s.links.task j = some p → i = j) {i : Slot}
    (hi : s.links.task i = some p) (x : Task) : (s.setInfo p x).tasks = update s.tasks i (some x) := by
  funext j
  rcases eq_or_ne j i with rfl | hji
  · rw [update_self]
    show (s.links.task j).map (update s.info p x) = some x
    rw [hi, Option.map_some, update_self]
  · rw [update_of_ne hji]
    show (s.links.task j).map (update s.info p x) = (s.links.task j).map s.info
    cases hj : s.links.task j with
    | none => rfl
    | some q =>
      have hqp : q ≠ p := by
        rintro rfl
        exact hji (hinj j i q hj hi)
      rw [Option.map_some, update_of_ne hqp, Option.map_some]

theorem sendAll_run (hsig : 1 ≤ sig ∧ sig ≤ 32) {is : List Slot} {e : Exit.State} {current : Task}
    (hinj : ∀ i j p, s.links.task i = some p → s.links.task j = some p → i = j)
    (hcur : current.euid = (s.info t).euid) (he : e.task = s.tasks)
    (hit : ∀ i ∈ is, Exit.hit current (fun _ => true) false e i = true) :
    ∃ s', Run step (Sends t sig) s s' ∧ s' = { s with info := s'.info } ∧
      (Exit.sendAll sig is e).task = s'.tasks := by
  induction is generalizing s e with
  | nil => exact ⟨s, .refl, rfl, he⟩
  | cons i is ih =>
    obtain ⟨x, hx, -, hm⟩ := Exit.hit_iff.mp (hit i List.mem_cons_self)
    rw [he] at hx
    obtain ⟨p, hp, rfl⟩ := Option.map_eq_some_iff.mp hx
    have hmay : mayKill (s.info t) (s.info p) false = true := by
      unfold mayKill at hm ⊢
      rwa [← hcur]
    have hstep : step (.send t p sig false) s = some (s.setInfo p (post sig (s.info p))) := by
      rw [step, if_pos ⟨⟨i, hp⟩, hsig⟩, if_pos hmay]
    have hcur' : current.euid = ((s.setInfo p (post sig (s.info p))).info t).euid := by
      rcases eq_or_ne t p with rfl | htp
      · show current.euid = (update s.info t (post sig (s.info t)) t).euid
        rw [update_self, Exit.post_euid, hcur]
      · show current.euid = (update s.info p (post sig (s.info p)) t).euid
        rw [update_of_ne htp, hcur]
    have he' : (e.send sig i).task = (s.setInfo p (post sig (s.info p))).tasks := by
      rw [tasks_setInfo hinj hp]
      show update e.task i ((e.task i).map (post sig)) = _
      rw [he, hx, Option.map_some]
    have hit' : ∀ j ∈ is, Exit.hit current (fun _ => true) false (e.send sig i) j = true := by
      intro j hj
      rw [Exit.hit_send fun _ => rfl]
      exact hit j (List.mem_cons_of_mem i hj)
    obtain ⟨s', hrun, heq, htask⟩ := ih (s := s.setInfo p (post sig (s.info p))) hinj hcur' he' hit'
    exact ⟨s', (Run.refl.tail (a := .send t p sig false) ⟨p, rfl⟩ hstep).trans hrun, heq, htask⟩

/-- `sys_kill` sends one signal after another, and nothing else changes. -/
theorem sysKill_run {e : Exit.State} {r : ℤ} {sent : List Slot}
    (hinj : ∀ i j p, s.links.task i = some p → s.links.task j = some p → i = j) (hsig : 1 ≤ sig ∧ sig ≤ 32)
    (h : Exit.sysKill (s.info t) pid sig ⟨s.tasks, sent⟩ = some (e, r)) :
    ∃ s', Run step (Sends t sig) s s' ∧ s' = { s with info := s'.info } ∧ e.task = s'.tasks := by
  obtain ⟨is, hit, rfl⟩ := Exit.sysKill_posted h
  exact sendAll_run hsig hinj rfl rfl hit

end Linux012.Waitpid
