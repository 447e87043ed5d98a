import Mathlib.Tactic
import Linux012.Kernel.Exit.Basic

/-! # Whom sys_kill signals

The scans for one process and for a process group use the slots of `task` without looking whether
they are empty, the caller's group is taken for that of its own number, and one refusal makes a
signal to all a failure.
-/

namespace Linux012.Exit

open Function
open Signals (Word Slot NR_TASKS)

variable {s s' : State} {current p : Task} {pid pgrp : Word} {sig found : ℕ} {priv : Bool} {i j : Slot}
  {is : List Slot} {r retval : ℤ} {sel : Task → Bool}

/-- Only the state, the code and the signals of a task change. -/
theorem post_eq (sig : ℕ) (p : Task) : ∃ state exitCode signal,
    post sig p = { p with state := state, exitCode := exitCode, signal := signal } := by
  unfold post deliver resume
  split_ifs
  all_goals exact ⟨_, _, _, rfl⟩

@[simp] theorem post_pid : (post sig p).pid = p.pid := by
  obtain ⟨_, _, _, h⟩ := post_eq sig p
  rw [h]

@[simp] theorem post_pgrp : (post sig p).pgrp = p.pgrp := by
  obtain ⟨_, _, _, h⟩ := post_eq sig p
  rw [h]

@[simp] theorem post_euid : (post sig p).euid = p.euid := by
  obtain ⟨_, _, _, h⟩ := post_eq sig p
  rw [h]

/-! ## Sending to a list of slots -/

def State.send (s : State) (sig : ℕ) (i : Slot) : State :=
  { task := update s.task i ((s.task i).map (post sig)), sent := i :: s.sent }

theorem send_eq_none : (s.send sig i).task j = none ↔ s.task j = none := by
  unfold State.send
  rcases eq_or_ne j i with rfl | hji
  · simp
  · exact iff_of_eq (congrArg (· = none) (update_of_ne hji ..))

def sendAll (sig : ℕ) (is : List Slot) (s : State) : State := is.foldl (fun s i => s.send sig i) s

@[simp] theorem sendAll_nil : sendAll sig [] s = s := rfl

@[simp] theorem sendAll_cons : sendAll sig (i :: is) s = sendAll sig is (s.send sig i) := rfl

theorem sendAll_sent : (sendAll sig is s).sent = is.reverse ++ s.sent := by
  induction is generalizing s with
  | nil => rfl
  | cons i is ih => rw [sendAll_cons, ih, List.reverse_cons, List.append_assoc]; rfl

theorem sendAll_task (hnd : is.Nodup) (j : Slot) :
    (sendAll sig is s).task j = if j ∈ is then (s.task j).map (post sig) else s.task j := by
  induction is generalizing s with
  | nil => simp
  | cons i is ih =>
    obtain ⟨hi, hnd⟩ := List.nodup_cons.mp hnd
    rw [sendAll_cons, ih hnd]
    by_cases hji : j = i
    · subst hji
      rw [if_neg hi, if_pos List.mem_cons_self]
      exact update_self ..
    · have htask : (s.send sig i).task j = s.task j := update_of_ne hji ..
      rw [htask]
      exact if_congr (by simp [hji]) rfl rfl

/-- The slot holds a task that is meant and that may be signalled. -/
def hit (current : Task) (sel : Task → Bool) (priv : Bool) (s : State) (i : Slot) : Bool :=
  (s.task i).any fun p => sel p && mayKill current p priv

theorem hit_iff : hit current sel priv s i = true ↔
    ∃ p, s.task i = some p ∧ sel p = true ∧ mayKill current p priv = true := by
  cases h : s.task i <;> simp [hit, h]

/-- What is sent changes neither the numbers of a task nor its user. -/
theorem hit_send (hsel : ∀ p, sel (post sig p) = sel p) :
    hit current sel priv (s.send sig i) = hit current sel priv s := by
  funext j
  unfold hit State.send
  rcases eq_or_ne j i with rfl | hji
  · simp only [update_self]
    cases s.task j <;> simp [hsel, mayKill]
  · simp only [update_of_ne hji]

theorem sendSig_hit (hp : s.task i = some p) (hm : mayKill current p priv = true) :
    sendSig current sig i priv s = (s.send sig i, 0) := by
  simp [sendSig, hp, hm, State.send]

theorem sendSig_refused (hp : s.task i = some p) (hm : ¬ mayKill current p priv = true) :
    sendSig current sig i priv s = (s, -EPERM) := by
  simp [sendSig, hp, hm]

theorem sendSig_empty (hp : s.task i = none) : sendSig current sig i priv s = (s, -EINVAL) := by
  simp [sendSig, hp]

/-! ## The loops -/

theorem killPgLoop_empty (h : ∃ i ∈ is, s.task i = none) :
    killPgLoop current pgrp sig priv is found retval s = none := by
  induction is generalizing s found retval with
  | nil => simp at h
  | cons i is ih =>
    unfold killPgLoop
    cases hp : s.task i with
    | none => rfl
    | some p =>
      have hrest : ∃ j ∈ is, s.task j = none := by
        obtain ⟨j, hj, hnone⟩ := h
        rcases List.mem_cons.mp hj with rfl | hj
        · rw [hp] at hnone
          cases hnone
        · exact ⟨j, hj, hnone⟩
      have hsend : ∃ j ∈ is, (s.send sig i).task j = none := by
        obtain ⟨j, hj, hnone⟩ := hrest
        exact ⟨j, hj, send_eq_none.mpr hnone⟩
      by_cases hm : mayKill current p priv = true
      · simp only [sendSig_hit hp hm, ih hsend, ih hrest, ite_self]
      · simp only [sendSig_refused hp hm, ih hrest, ite_self]

/-- Where no slot is empty, the permitted tasks of the group are signalled. -/
theorem killPgLoop_full (found : ℕ) (hfull : ∀ i ∈ is, s.task i ≠ none)
    (hr : retval = -ESRCH ∨ retval = -EPERM) :
    ∃ r, killPgLoop current pgrp sig priv is found retval s =
        some (sendAll sig (is.filter (hit current (fun p => p.pgrp = pgrp) priv s)) s, r) ∧
      (r = 0 ↔ found ≠ 0 ∨ is.filter (hit current (fun p => p.pgrp = pgrp) priv s) ≠ []) ∧
      (r ≠ 0 → r = -ESRCH ∨ r = -EPERM) := by
  induction is generalizing s found retval with
  | nil =>
    refine ⟨_, rfl, ?_, ?_⟩
    · split
      · rename_i h
        simp [h]
      · rename_i h
        rcases hr with rfl | rfl <;> simp [h, ESRCH, EPERM]
    · split
      · exact absurd rfl
      · exact fun _ => hr
  | cons i is ih =>
    obtain ⟨p, hp⟩ := Option.ne_none_iff_exists'.mp (hfull i List.mem_cons_self)
    have hrest : ∀ j ∈ is, s.task j ≠ none := fun j hj => hfull j (List.mem_cons_of_mem i hj)
    unfold killPgLoop
    simp only [hp]
    by_cases hg : p.pgrp = pgrp
    · by_cases hm : mayKill current p priv = true
      · have hhit : hit current (fun p => p.pgrp = pgrp) priv s i = true :=
          hit_iff.mpr ⟨p, hp, by simpa using hg, hm⟩
        have hsend : ∀ j ∈ is, (s.send sig i).task j ≠ none :=
          fun j hj => mt send_eq_none.mp (hrest j hj)
        obtain ⟨r, hloop, hzero, herr⟩ := ih (found + 1) hsend hr
        rw [hit_send (by simp)] at hloop hzero
        rw [if_pos hg, sendSig_hit hp hm, List.filter_cons_of_pos hhit]
        refine ⟨r, hloop, ?_, herr⟩
        rw [hzero]
        simp
      · have hhit : ¬ hit current (fun p => p.pgrp = pgrp) priv s i = true := by
          rw [hit_iff]
          rintro ⟨q, hq, -, hmq⟩
          rw [hp, Option.some_inj] at hq
          exact hm (hq ▸ hmq)
        obtain ⟨r, hloop, hzero, herr⟩ := ih found hrest (.inr rfl)
        rw [if_pos hg, sendSig_refused hp hm, List.filter_cons_of_neg hhit]
        exact ⟨r, hloop, hzero, herr⟩
    · have hhit : ¬ hit current (fun p => p.pgrp = pgrp) priv s i = true := by
        rw [hit_iff]
        rintro ⟨q, hq, hgq, -⟩
        rw [hp, Option.some_inj] at hq
        exact hg (by simpa [hq] using hgq)
      obtain ⟨r, hloop, hzero, herr⟩ := ih found hrest hr
      rw [if_neg hg, List.filter_cons_of_neg hhit]
      exact ⟨r, hloop, hzero, herr⟩

/-- The scan ends at the first slot that is empty or holds the process. -/
theorem killProcLoop_eq : killProcLoop current pid sig priv is s =
    match is.find? fun i => (s.task i).all fun p => p.pid = pid with
    | none => some (s, -ESRCH)
    | some i => if s.task i = none then none else some (sendSig current sig i priv s) := by
  induction is with
  | nil => rfl
  | cons i is ih =>
    unfold killProcLoop
    cases hp : s.task i with
    | none => simp [hp]
    | some p =>
      by_cases hpid : p.pid = pid
      · simp [hp, hpid]
      · simp [hp, hpid, ih]

/-- The last error counts. -/
theorem killAll_eq : killAll current sig is retval s =
    (sendAll sig (is.filter (hit current (fun _ => true) false s)) s,
      match is.reverse.find? fun i => !hit current (fun _ => true) false s i with
      | none => retval
      | some i => if s.task i = none then -EINVAL else -EPERM) := by
  induction is generalizing s retval with
  | nil => rfl
  | cons i is ih =>
    unfold killAll
    rw [List.reverse_cons, List.find?_append]
    cases hp : s.task i with
    | none =>
      have hhit : ¬ hit current (fun _ => true) false s i = true := by simp [hit, hp]
      rw [sendSig_empty hp, List.filter_cons_of_neg hhit]
      simp only [ih]
      cases is.reverse.find? fun i => !hit current (fun _ => true) false s i with
      | none => simp [hhit, hp, EINVAL]
      | some j => simp
    | some p =>
      by_cases hm : mayKill current p false = true
      · have hhit : hit current (fun _ => true) false s i = true := hit_iff.mpr ⟨p, hp, rfl, hm⟩
        have hsend : hit current (fun _ => true) false (s.send sig i) =
            hit current (fun _ => true) false s := hit_send fun _ => rfl
        rw [sendSig_hit hp hm, List.filter_cons_of_pos hhit, sendAll_cons]
        simp only [ih, hsend, send_eq_none]
        cases is.reverse.find? fun i => !hit current (fun _ => true) false s i with
        | none => simp [hhit]
        | some j => simp
      · have hhit : ¬ hit current (fun _ => true) false s i = true := by simp [hit, hp, hm]
        rw [sendSig_refused hp hm, List.filter_cons_of_neg hhit]
        simp only [ih]
        cases is.reverse.find? fun i => !hit current (fun _ => true) false s i with
        | none => simp [hhit, hp, EPERM]
        | some j => simp

/-! ## The slots -/

theorem mem_tasksDown : i ∈ tasksDown ↔ i.val ≠ 0 := by
  revert i
  decide +kernel

theorem tasksDown_nodup : tasksDown.Nodup := by decide +kernel

theorem tasksDown_sorted : tasksDown.Pairwise (· > ·) := by decide +kernel

/-- The first hit of a scan is the last slot with the property. -/
theorem find?_tasksDown {P : Slot → Bool} (h : tasksDown.find? P = some i) :
    i.val ≠ 0 ∧ P i = true ∧ ∀ j > i, P j = false := by
  obtain ⟨hi, as, bs, hl, has⟩ := List.find?_eq_some_iff_append.mp h
  have hmem : i ∈ tasksDown := hl ▸ List.mem_append_right as List.mem_cons_self
  refine ⟨mem_tasksDown.mp hmem, hi, fun j hj => ?_⟩
  have hj0 : j ∈ tasksDown := mem_tasksDown.mpr (by rw [gt_iff_lt, Fin.lt_def] at hj; omega)
  have hsorted := tasksDown_sorted
  rw [hl] at hj0 hsorted
  rcases List.mem_append.mp hj0 with ha | hb
  · simpa using has j ha
  · rcases List.mem_cons.mp hb with rfl | hb
    · exact absurd hj (lt_irrefl j)
    · have hlt := (List.pairwise_cons.mp (List.pairwise_append.mp hsorted).2.1).1 j hb
      exact absurd hj (lt_asymm hlt)

theorem one_lt_nr_tasks : 1 < NR_TASKS := by decide

def slotOne : Slot := ⟨1, one_lt_nr_tasks⟩

/-- The scan backwards begins with slot 1. -/
theorem find?_reverse {P : Slot → Bool} (h : P slotOne = true) :
    tasksDown.reverse.find? P = some slotOne := by
  have hcons : tasksDown.reverse = slotOne :: tasksDown.reverse.tail := by decide +kernel
  rw [hcons, List.find?_cons_of_pos h]

/-! ## The contract -/

/-- The task is one of those that the number stands for. -/
def Addressed (current : Task) (pid : Word) (i : Slot) (p : Task) : Prop :=
  if pid = 0 then p.pgrp = current.pgrp
  else if pid = -1 then i.val ≠ 0
  else if pid.toInt < 0 then p.pgrp.toInt = -pid.toInt
  else p.pid = pid

/-- The slot holds one of these, and the caller may signal it. -/
def Target (current : Task) (pid : Word) (s : State) (i : Slot) : Prop :=
  ∃ p, s.task i = some p ∧ mayKill current p false = true ∧ Addressed current pid i p

/-- The signal has been sent once to each target and to no other task. -/
structure Sends (current : Task) (pid : Word) (sig : ℕ) (s s' : State) (r : ℤ) : Prop where
  sent : ∀ i, i ∈ s'.sent ↔ Target current pid s i
  once : s'.sent.Nodup
  task : ∀ i, s'.task i = if i ∈ s'.sent then (s.task i).map (post sig) else s.task i
  zero : r = 0 ↔ ∃ i, Target current pid s i
  error : r ≠ 0 → r = -ESRCH ∨ r = -EPERM

/-- No empty slot is used, and the signal goes where it should. -/
def Contract (current : Task) (pid : Word) (sig : ℕ) (s : State) : Prop :=
  ∃ s' r, sysKill current pid sig s = some (s', r) ∧ Sends current pid sig s s' r

theorem contract_iff {x : State × ℤ} (h : sysKill current pid sig s = some x) :
    Contract current pid sig s ↔ Sends current pid sig s x.1 x.2 := by
  constructor
  · rintro ⟨s', r, hk, hs⟩
    obtain rfl := Option.some.inj (h.symm.trans hk)
    exact hs
  · exact fun hs => ⟨x.1, x.2, h, hs⟩

theorem not_contract (h : sysKill current pid sig s = none) : ¬ Contract current pid sig s := by
  rintro ⟨s', r, hk, -⟩
  rw [h] at hk
  cases hk

/-- What has been sent to a list of slots is right if the list and the result are. -/
theorem sends_iff (current : Task) (pid : Word) (sig : ℕ) (r : ℤ) (hs : s.sent = []) (hnd : is.Nodup) :
    Sends current pid sig s (sendAll sig is s) r ↔
      (∀ i, i ∈ is ↔ Target current pid s i) ∧ (r = 0 ↔ ∃ i, Target current pid s i) ∧
        (r ≠ 0 → r = -ESRCH ∨ r = -EPERM) := by
  have hsent : (sendAll sig is s).sent = is.reverse := by
    rw [sendAll_sent, hs, List.append_nil]
  constructor
  · intro h
    refine ⟨fun i => ?_, h.zero, h.error⟩
    rw [← h.sent i, hsent, List.mem_reverse]
  · rintro ⟨hmem, hzero, herr⟩
    constructor
    · intro i
      rw [hsent, List.mem_reverse, hmem]
    · rw [hsent]
      exact List.nodup_reverse.mpr hnd
    · intro i
      rw [hsent, sendAll_task hnd]
      exact if_congr List.mem_reverse.symm rfl rfl
    · exact hzero
    · exact herr

/-- No slot but perhaps the first is empty. -/
def Full (s : State) : Prop := ∀ i : Slot, i.val ≠ 0 → s.task i ≠ none

def HasPid (pid : Word) (s : State) (i : Slot) : Prop := ∃ p, s.task i = some p ∧ p.pid = pid

def MayKill (current : Task) (s : State) (i : Slot) : Prop :=
  ∃ p, s.task i = some p ∧ mayKill current p false = true

/-- For a group, no slot is empty; the caller's group is that of its own number. For one process, no slot
above the last one with that number is empty, and no other may be signalled. For all tasks,
every slot holds a task that may be signalled, or none does and slot 1 is not empty. -/
def Complete (current : Task) (pid : Word) (s : State) : Prop :=
  if pid = 0 then Full s ∧ current.pgrp = current.pid ∧ 0 < current.pid.toInt
  else if pid = -1 then
    (∀ i : Slot, i.val ≠ 0 → MayKill current s i) ∨
      (∀ i : Slot, i.val ≠ 0 → ¬ MayKill current s i) ∧ s.task slotOne ≠ none
  else if pid.toInt < 0 then Full s ∧ pid ≠ 0x80000000
  else (∀ i : Slot, i.val ≠ 0 → s.task i = none → ∃ j > i, HasPid pid s j) ∧
    ∀ i j, HasPid pid s j → i < j → ¬ Target current pid s i

/-! ## The four forms of the call -/

theorem killPg_eq (hsig : 1 ≤ sig ∧ sig ≤ 32) (hpos : 0 < pgrp.toInt) :
    killPg current pgrp sig priv s = killPgLoop current pgrp sig priv tasksDown 0 (-ESRCH) s :=
  if_neg (by omega)

theorem killPg_full (current : Task) (pgrp : Word) (sig : ℕ) (h : Full s) :
    ∃ r, killPgLoop current pgrp sig false tasksDown 0 (-ESRCH) s =
        some (sendAll sig (tasksDown.filter (hit current (fun p => p.pgrp = pgrp) false s)) s, r) ∧
      (r = 0 ↔ 0 ≠ 0 ∨ tasksDown.filter (hit current (fun p => p.pgrp = pgrp) false s) ≠ []) ∧
      (r ≠ 0 → r = -ESRCH ∨ r = -EPERM) :=
  killPgLoop_full 0 (fun i hi => h i (mem_tasksDown.mp hi)) (.inl rfl)

theorem killPg_empty (current : Task) (pgrp : Word) (sig : ℕ) (h : ¬ Full s) :
    killPgLoop current pgrp sig false tasksDown 0 (-ESRCH) s = none := by
  simp only [Full, not_forall] at h
  obtain ⟨i, hi, hnone⟩ := h
  exact killPgLoop_empty ⟨i, mem_tasksDown.mpr hi, not_not.mp hnone⟩

/-- A group is signalled where no slot is empty. -/
theorem group_contract (hs : s.sent = []) (hsig : 1 ≤ sig ∧ sig ≤ 32)
    (hk : sysKill current pid sig s = killPg current pgrp sig false s) (hpos : 0 < pgrp.toInt)
    (ht : ∀ i, Target current pid s i ↔
      i.val ≠ 0 ∧ hit current (fun p => p.pgrp = pgrp) false s i = true) :
    Contract current pid sig s ↔ Full s := by
  rw [killPg_eq hsig hpos] at hk
  by_cases hfull : Full s
  · obtain ⟨r, hloop, hzero, herr⟩ := killPg_full current pgrp sig hfull
    have hmem : ∀ i, i ∈ tasksDown.filter (hit current (fun p => p.pgrp = pgrp) false s) ↔
        Target current pid s i := by
      intro i
      rw [List.mem_filter, mem_tasksDown, ht]
    rw [contract_iff (hk.trans hloop), sends_iff _ _ _ _ hs (tasksDown_nodup.filter _)]
    refine iff_of_true ⟨hmem, ?_, herr⟩ hfull
    rw [hzero]
    constructor
    · intro h
      obtain ⟨i, hi⟩ := List.exists_mem_of_ne_nil _ (h.resolve_left (absurd rfl))
      exact ⟨i, (hmem i).mp hi⟩
    · rintro ⟨i, hi⟩
      exact .inr (List.ne_nil_of_mem ((hmem i).mpr hi))
  · exact iff_of_false (not_contract (hk.trans (killPg_empty current pgrp sig hfull))) hfull

/-- An error of the call itself is none of the two. -/
theorem invalid_contract (hk : sysKill current pid sig s = some (s, -EINVAL)) :
    ¬ Contract current pid sig s := by
  rw [contract_iff hk]
  intro h
  rcases h.error (by simp [EINVAL]) with he | he <;> simp [EINVAL, ESRCH, EPERM] at he

section

variable (hs : s.sent = []) (hsig : 1 ≤ sig ∧ sig ≤ 32)
  (hfirst : ∀ i : Slot, i.val = 0 → ∃ p, s.task i = some p ∧ p.pid = 0 ∧ p.pgrp = 0)
include hs hsig hfirst

/-- The caller's group -/
theorem contract_zero {cur : Slot} (hcur : s.task cur = some current) :
    Contract current 0 sig s ↔ Full s ∧ current.pgrp = current.pid ∧ 0 < current.pid.toInt := by
  have hk : sysKill current 0 sig s = killPg current current.pid sig false s := if_pos rfl
  by_cases hpos : 0 < current.pid.toInt
  · by_cases heq : current.pgrp = current.pid
    · have ht : ∀ i, Target current 0 s i ↔
          i.val ≠ 0 ∧ hit current (fun p => p.pgrp = current.pid) false s i = true := by
        intro i
        rw [hit_iff]
        constructor
        · rintro ⟨p, hp, hm, ha⟩
          have hg : p.pgrp = current.pid := ha.trans heq
          refine ⟨fun h0 => ?_, p, hp, by simpa using hg, hm⟩
          obtain ⟨q, hq, -, hz⟩ := hfirst i h0
          obtain rfl : q = p := Option.some.inj (hq.symm.trans hp)
          rw [← hg, hz] at hpos
          exact absurd hpos (by decide)
        · rintro ⟨-, p, hp, hg, hm⟩
          exact ⟨p, hp, hm, (of_decide_eq_true hg).trans heq.symm⟩
      rw [group_contract hs hsig hk hpos ht]
      exact (and_iff_left ⟨heq, hpos⟩).symm
    · refine iff_of_false (fun hc => ?_) fun h => heq h.2.1
      -- the caller is in its own group, but is not signalled
      obtain ⟨s', r, hk', hsends⟩ := hc
      have hself : Target current 0 s cur :=
        ⟨current, hcur, by simp [mayKill], show current.pgrp = current.pgrp from rfl⟩
      rw [hk, killPg_eq hsig hpos] at hk'
      by_cases hfull : Full s
      · obtain ⟨r', hloop, -, -⟩ := killPg_full current current.pid sig hfull
        rw [hloop, Option.some_inj, Prod.mk.injEq] at hk'
        have hin := (hsends.sent cur).mpr hself
        rw [← hk'.1, sendAll_sent, hs, List.append_nil, List.mem_reverse, List.mem_filter, hit_iff] at hin
        obtain ⟨-, p, hp, hg, -⟩ := hin
        obtain rfl : current = p := Option.some.inj (hcur.symm.trans hp)
        exact heq (of_decide_eq_true hg)
      · rw [killPg_empty current current.pid sig hfull] at hk'
        cases hk'
  · exact iff_of_false (invalid_contract (hk.trans (if_pos (.inr (.inr (not_lt.mp hpos))))))
      fun h => hpos h.2.2

/-- Another group -/
theorem contract_group (hneg : pid.toInt < 0) (hne : pid ≠ -1) :
    Contract current pid sig s ↔ Full s ∧ pid ≠ 0x80000000 := by
  have hzero : pid ≠ 0 := by
    rintro rfl
    exact absurd hneg (by decide)
  have hk : sysKill current pid sig s = killPg current (-pid) sig false s := by
    unfold sysKill
    rw [if_neg hzero, if_neg hne, if_pos hneg]
  by_cases hmin : pid = 0x80000000
  · subst hmin
    exact iff_of_false (invalid_contract (hk.trans (if_pos (.inr (.inr (by decide))))))
      fun h => h.2 rfl
  have hint : (-pid).toInt = -pid.toInt := BitVec.toInt_neg_of_ne_intMin hmin
  have hpos : 0 < (-pid).toInt := by omega
  have ht : ∀ i, Target current pid s i ↔
      i.val ≠ 0 ∧ hit current (fun p => p.pgrp = -pid) false s i = true := by
    intro i
    have ha : ∀ p, Addressed current pid i p ↔ p.pgrp = -pid := by
      intro p
      unfold Addressed
      rw [if_neg hzero, if_neg hne, if_pos hneg, ← hint, BitVec.toInt_inj]
    rw [hit_iff]
    constructor
    · rintro ⟨p, hp, hm, hg⟩
      rw [ha] at hg
      refine ⟨fun h0 => ?_, p, hp, by simpa using hg, hm⟩
      obtain ⟨q, hq, -, hz⟩ := hfirst i h0
      obtain rfl : q = p := Option.some.inj (hq.symm.trans hp)
      rw [← hg, hz] at hpos
      exact absurd hpos (by decide)
    · rintro ⟨-, p, hp, hg, hm⟩
      exact ⟨p, hp, hm, (ha p).mpr (of_decide_eq_true hg)⟩
  rw [group_contract hs hsig hk hpos ht]
  exact (and_iff_left hmin).symm

omit hsig hfirst in
/-- All tasks -/
theorem contract_all : Contract current (-1) sig s ↔
    (∀ i : Slot, i.val ≠ 0 → MayKill current s i) ∨
      (∀ i : Slot, i.val ≠ 0 → ¬ MayKill current s i) ∧ s.task slotOne ≠ none := by
  have hk : sysKill current (-1) sig s = some (killAll current sig tasksDown 0 s) := rfl
  have hhit : ∀ i, hit current (fun _ => true) false s i = true ↔ MayKill current s i := by
    intro i
    simp [hit_iff, MayKill]
  have hmiss : ∀ i, hit current (fun _ => true) false s i = false ↔ ¬ MayKill current s i :=
    fun i => Bool.eq_false_iff.trans (not_congr (hhit i))
  have ht : ∀ i, Target current (-1) s i ↔ i.val ≠ 0 ∧ MayKill current s i := by
    intro i
    constructor
    · rintro ⟨p, hp, hm, ha⟩
      exact ⟨ha, p, hp, hm⟩
    · rintro ⟨hi, p, hp, hm⟩
      exact ⟨p, hp, hm, hi⟩
  have hmem : ∀ i, i ∈ tasksDown.filter (hit current (fun _ => true) false s) ↔
      Target current (-1) s i := by
    intro i
    rw [List.mem_filter, mem_tasksDown, hhit, ht]
  rw [contract_iff hk, killAll_eq, sends_iff _ _ _ _ hs (tasksDown_nodup.filter _), and_iff_right hmem]
  by_cases hall : ∀ i : Slot, i.val ≠ 0 → MayKill current s i
  · have hfind : (tasksDown.reverse.find? fun i => !hit current (fun _ => true) false s i) = none := by
      rw [List.find?_eq_none]
      intro i hi
      simpa [hhit] using hall i (mem_tasksDown.mp (List.mem_reverse.mp hi))
    rw [hfind]
    refine iff_of_true ⟨iff_of_true rfl ?_, absurd rfl⟩ (.inl hall)
    exact ⟨slotOne, (ht slotOne).mpr ⟨by decide, hall slotOne (by decide)⟩⟩
  · rw [or_iff_right hall]
    simp only [not_forall] at hall
    obtain ⟨j, hj, hjm⟩ := hall
    obtain ⟨i, hfind⟩ : ∃ i,
        (tasksDown.reverse.find? fun i => !hit current (fun _ => true) false s i) = some i := by
      apply Option.isSome_iff_exists.mp
      rw [List.find?_isSome]
      exact ⟨j, List.mem_reverse.mpr (mem_tasksDown.mpr hj), by simpa [hmiss] using hjm⟩
    by_cases hnone : ∀ i : Slot, i.val ≠ 0 → ¬ MayKill current s i
    · have hone : (tasksDown.reverse.find? fun i => !hit current (fun _ => true) false s i) =
          some slotOne := find?_reverse (by simpa [hmiss] using hnone slotOne (by decide))
      have hno : ¬ ∃ i, Target current (-1) s i := by
        rintro ⟨i, hi⟩
        exact hnone i ((ht i).mp hi).1 ((ht i).mp hi).2
      rw [hone, and_iff_right hnone]
      by_cases hempty : s.task slotOne = none
      · refine iff_of_false (fun h => ?_) fun h => h hempty
        rcases h.2 (by simp [hempty, EINVAL]) with he | he <;>
          simp [hempty, EINVAL, ESRCH, EPERM] at he
      · exact iff_of_true ⟨iff_of_false (by simp [hempty, EPERM]) hno, fun _ => .inr (by simp [hempty])⟩
          hempty
    · refine iff_of_false (fun hc => ?_) fun h => hnone h.1
      simp only [not_forall, not_not] at hnone
      obtain ⟨k, hk0, hkm⟩ := hnone
      have hz := hc.1.mpr ⟨k, (ht k).mpr ⟨hk0, hkm⟩⟩
      rw [hfind] at hz
      by_cases hempty : s.task i = none <;> simp [hempty, EINVAL, EPERM] at hz

/-- One process -/
theorem contract_one (hpos : 0 < pid.toInt) : Contract current pid sig s ↔
    (∀ i : Slot, i.val ≠ 0 → s.task i = none → ∃ j > i, HasPid pid s j) ∧
      ∀ i j, HasPid pid s j → i < j → ¬ Target current pid s i := by
  have hzero : pid ≠ 0 := by
    rintro rfl
    exact absurd hpos (by decide)
  have hne : pid ≠ -1 := by
    rintro rfl
    exact absurd hpos (by decide)
  have hk : sysKill current pid sig s = killProcLoop current pid sig false tasksDown s := by
    unfold sysKill killProc
    rw [if_neg hzero, if_neg hne, if_neg (by omega), if_neg (by omega)]
  have ht : ∀ i, Target current pid s i ↔
      ∃ p, s.task i = some p ∧ mayKill current p false = true ∧ p.pid = pid := by
    intro i
    have ha : ∀ p, Addressed current pid i p ↔ p.pid = pid := by
      intro p
      unfold Addressed
      rw [if_neg hzero, if_neg hne, if_neg (by omega)]
    simp only [Target, ha]
  have hslot : ∀ i, HasPid pid s i → i.val ≠ 0 := by
    rintro i ⟨p, hp, rfl⟩ h0
    obtain ⟨q, hq, hz, -⟩ := hfirst i h0
    obtain rfl : q = p := Option.some.inj (hq.symm.trans hp)
    exact hzero hz
  rw [killProcLoop_eq] at hk
  cases hf : tasksDown.find? fun i => (s.task i).all fun p => p.pid = pid with
  | none =>
    rw [hf] at hk
    have hno : ∀ i : Slot, i.val ≠ 0 → ∃ p, s.task i = some p ∧ p.pid ≠ pid := by
      intro i hi
      have hi' := List.find?_eq_none.mp hf i (mem_tasksDown.mpr hi)
      cases hp : s.task i with
      | none => simp [hp] at hi'
      | some p => exact ⟨p, rfl, by simpa [hp] using hi'⟩
    have hnone : ∀ i, ¬ HasPid pid s i := by
      rintro i ⟨p, hp, he⟩
      obtain ⟨q, hq, hqne⟩ := hno i (hslot i ⟨p, hp, he⟩)
      obtain rfl : q = p := Option.some.inj (hq.symm.trans hp)
      exact hqne he
    have hnot : ∀ i, ¬ Target current pid s i := by
      intro i hi
      obtain ⟨p, hp, -, he⟩ := (ht i).mp hi
      exact hnone i ⟨p, hp, he⟩
    rw [contract_iff hk]
    refine iff_of_true ((sends_iff _ _ _ _ hs List.nodup_nil).mpr ⟨?_, ?_, ?_⟩) ⟨?_, ?_⟩
    · simpa using hnot
    · simpa [ESRCH] using hnot
    · exact fun _ => .inl rfl
    · intro i hi he
      obtain ⟨p, hp, -⟩ := hno i hi
      rw [he] at hp
      cases hp
    · exact fun i j hj => absurd hj (hnone j)
  | some i =>
    obtain ⟨hi, hpi, habove⟩ := find?_tasksDown hf
    have hlater : ∀ j > i, ∃ p, s.task j = some p ∧ p.pid ≠ pid := by
      intro j hj
      have hj' := habove j hj
      cases hp : s.task j with
      | none => simp [hp] at hj'
      | some p => exact ⟨p, rfl, by simpa [hp] using hj'⟩
    rw [hf] at hk
    cases hp : s.task i with
    | none =>
      simp only [hp, if_true] at hk
      refine iff_of_false (not_contract hk) fun h => ?_
      obtain ⟨j, hj, p, hpj, he⟩ := h.1 i hi hp
      obtain ⟨q, hq, hqne⟩ := hlater j hj
      obtain rfl : q = p := Option.some.inj (hq.symm.trans hpj)
      exact hqne he
    | some p =>
      have he : p.pid = pid := by simpa [hp] using hpi
      have htop : ∀ j, HasPid pid s j → j ≤ i := by
        rintro j ⟨q, hq, hqe⟩
        by_contra hlt
        obtain ⟨q', hq', hne'⟩ := hlater j (not_le.mp hlt)
        obtain rfl : q' = q := Option.some.inj (hq'.symm.trans hq)
        exact hne' hqe
      have hfirst' : ∀ j : Slot, j.val ≠ 0 → s.task j = none → ∃ k > j, HasPid pid s k := by
        intro j hj hnone
        refine ⟨i, ?_, p, hp, he⟩
        rcases lt_trichotomy i j with hlt | rfl | hgt
        · obtain ⟨q, hq, -⟩ := hlater j hlt
          rw [hnone] at hq
          cases hq
        · rw [hnone] at hp
          cases hp
        · exact hgt
      simp only [hp, reduceCtorEq, if_false] at hk
      rw [and_iff_right hfirst']
      have honly : (∀ j k, HasPid pid s k → j < k → ¬ Target current pid s j) ↔
          ∀ j, Target current pid s j → j = i := by
        constructor
        · intro h j hj
          obtain ⟨q, hq, -, hqe⟩ := (ht j).mp hj
          rcases lt_or_eq_of_le (htop j ⟨q, hq, hqe⟩) with hlt | heq
          · exact absurd hj (h j i ⟨p, hp, he⟩ hlt)
          · exact heq
        · rintro h j k hkp hlt hj
          have := htop k hkp
          rw [h j hj] at hlt
          exact absurd hlt (not_lt.mpr this)
      rw [honly]
      by_cases hm : mayKill current p false = true
      · have hti : Target current pid s i := (ht i).mpr ⟨p, hp, hm, he⟩
        rw [sendSig_hit hp hm] at hk
        rw [contract_iff hk]
        have hsends := sends_iff current pid sig 0 hs (List.nodup_singleton i)
        simp only [sendAll_cons, sendAll_nil, List.mem_singleton] at hsends
        rw [hsends]
        constructor
        · exact fun h j hj => (h.1 j).mpr hj
        · exact fun h => ⟨fun j => ⟨fun hj => hj ▸ hti, h j⟩, iff_of_true trivial ⟨i, hti⟩, absurd rfl⟩
      · have hnti : ¬ Target current pid s i := by
          intro h
          obtain ⟨q, hq, hmq, -⟩ := (ht i).mp h
          obtain rfl : p = q := Option.some.inj (hp.symm.trans hq)
          exact hm hmq
        rw [sendSig_refused hp hm] at hk
        rw [contract_iff hk]
        have hsends := sends_iff current pid sig (-EPERM) hs List.nodup_nil
        simp only [sendAll_nil, List.not_mem_nil, false_iff] at hsends
        rw [hsends]
        constructor
        · exact fun h j hj => absurd hj (h.1 j)
        · intro h
          have hno : ∀ j, ¬ Target current pid s j := fun j hj => hnti (h j hj ▸ hj)
          exact ⟨hno, iff_of_false (by simp [EPERM]) fun ⟨j, hj⟩ => hno j hj, fun _ => .inr trivial⟩

/-- `sys_kill` signals whom it should exactly where the table is complete for the number. -/
theorem sys_kill_targets {cur : Slot} (hcur : s.task cur = some current) (pid : Word) :
    Contract current pid sig s ↔ Complete current pid s := by
  unfold Complete
  by_cases hzero : pid = 0
  · subst hzero
    rw [if_pos rfl]
    exact contract_zero hs hsig hfirst hcur
  by_cases hall : pid = -1
  · subst hall
    rw [if_neg hzero, if_pos rfl]
    exact contract_all hs
  rw [if_neg hzero, if_neg hall]
  by_cases hneg : pid.toInt < 0
  · rw [if_pos hneg]
    exact contract_group hs hsig hfirst hneg hall
  · rw [if_neg hneg]
    have hint : pid.toInt ≠ 0 := fun h => hzero (BitVec.toInt_inj.mp h)
    exact contract_one hs hsig hfirst (by omega)

end

/-- A task of the superuser that handles no signal -/
def rootTask (pid pgrp : Word) : Task :=
  { state := .running
    pid
    pgrp
    euid := 0
    exitCode := 0
    signal := 0
    blocked := 0
    saHandler := fun _ => 0
    utime := 0
    stime := 0
    cutime := 0
    cstime := 0 }

/-- Task 0 and the process 1 in the last slot -/
def twoTasks : State where
  task := fun i => if i.val = 0 then some (rootTask 0 0) else if i.val = 63 then some (rootTask 1 1) else none
  sent := []

/-- A process in the last slot is found before any empty slot. -/
theorem sys_kill_targets_last : Contract (rootTask 1 1) 1 9 twoTasks := by
  have hcur : twoTasks.task ⟨63, by decide⟩ = some (rootTask 1 1) := rfl
  refine (sys_kill_targets (s := twoTasks) rfl (by decide) ?_ hcur 1).mpr ?_
  · intro i hi
    exact ⟨rootTask 0 0, if_pos hi, rfl, rfl⟩
  · show (∀ i : Slot, i.val ≠ 0 → _ → _) ∧ ∀ i j, _ → _ → _
    have htop : ∀ j : Slot, HasPid 1 twoTasks j → j.val = 63 := by
      rintro j ⟨p, hp, he⟩
      by_contra hj
      by_cases h0 : j.val = 0
      · rw [show twoTasks.task j = some (rootTask 0 0) from if_pos h0] at hp
        rw [← Option.some.inj hp] at he
        exact absurd he (by decide)
      · rw [show twoTasks.task j = none from (if_neg h0).trans (if_neg hj)] at hp
        cases hp
    constructor
    · intro i hi hnone
      refine ⟨⟨63, by decide⟩, ?_, rootTask 1 1, rfl, rfl⟩
      have hi63 : i.val ≠ 63 := by
        intro h
        rw [show twoTasks.task i = some (rootTask 1 1) from (if_neg hi).trans (if_pos h)] at hnone
        cases hnone
      have hlt : i.val < 64 := i.isLt
      show i.val < 63
      omega
    · rintro i j hj hlt ⟨p, hp, -, he⟩
      have hi := htop i ⟨p, hp, he⟩
      have hj := htop j hj
      rw [Fin.lt_def] at hlt
      omega

/-- Task 0 and the process 1 in slot 1 -/
def lowTasks : State where
  task := fun i => if i.val = 0 then some (rootTask 0 0) else if i.val = 1 then some (rootTask 1 1) else none
  sent := []

/-- Below an empty slot the process is not reached. -/
theorem sys_kill_uses_empty_slot :
    sysKill (rootTask 1 1) 1 9 lowTasks = none ∧ ¬ Contract (rootTask 1 1) 1 9 lowTasks := by
  have hk : sysKill (rootTask 1 1) 1 9 lowTasks = none := by rfl
  exact ⟨hk, not_contract hk⟩

end Linux012.Exit
