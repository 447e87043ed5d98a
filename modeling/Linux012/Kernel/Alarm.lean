import Mathlib.Data.List.FinRange
import Mathlib.Tactic
import Linux012.Kernel.Sched.Basic
import Linux012.Lib.Runs
import Linux012.Lib.Index

/-! # Alarms

`sys_alarm`, the ticks of the timer interrupt, and the first loop of `schedule`. An alarm is the
number of the tick that it is due at, an unsigned word as `jiffies` is. It is only compared with
`jiffies` in `schedule`, which a process need not enter for many ticks, and neither the sum that it is
computed from nor the difference that `sys_alarm` returns is protected from running over.
-/

namespace Linux012.Alarm

open Function Runs
open Sched (Word TaskState SIGALRM sigmask BLOCKABLE)
open scoped Index

abbrev NR_TASKS : ℕ := 64

abbrev Slot := Fin NR_TASKS

def HZ : ℕ := 100

/-- What a call of `sys_alarm` has asked for, and the tick it was made at (not in the source). -/
structure Request where
  number : ℕ
  seconds : ℕ
  since : ℕ
  deriving DecidableEq

/-- The first tick at which the seconds are over. -/
def Request.due (q : Request) : ℕ := q.since + HZ * q.seconds

structure Task where
  state : TaskState
  timeout : Word
  alarm : Word
  signal : Word
  blocked : Word
  /-- Stands beside `alarm` (not in the source). -/
  request : Option Request
  deriving DecidableEq

/-- What `sys_alarm` returned when it replaced an alarm, and the posting of `SIGALRM`. -/
inductive Event
  | replaced (request : Option Request) (value : Word) (now : ℕ)
  | posted (request : Option Request) (now : ℕ)
  deriving DecidableEq

/-- `now` counts all ticks, `requests` the calls of `sys_alarm` (not in the source). -/
structure Sys where
  task : Slot → Option Task
  current : Slot
  jiffies : Word
  now : ℕ
  requests : ℕ
  events : List Event

/-- The tasks that `schedule` looks at, from the last one down. -/
def others : List Slot := (List.finRange NR_TASKS).tail.reverse

/-- `schedule` posts `SIGALRM` to the task. -/
def expired (jiffies : Word) (p : Task) : Bool := p.alarm ≠ 0 ∧ p.alarm < jiffies

/-- What `schedule` does to a task before it looks for the next one to run. -/
def check (jiffies : Word) (p : Task) : Task :=
  let p :=
    if p.timeout ≠ 0 ∧ p.timeout < jiffies then
      { p with timeout := 0, state := if p.state = .interruptible then .running else p.state }
    else p
  let p :=
    if expired jiffies p then
      { p with signal := p.signal ||| sigmask SIGALRM, alarm := 0, request := none }
    else p
  if p.signal &&& ~~~(BLOCKABLE &&& p.blocked) ≠ 0 ∧ p.state = .interruptible then
    { p with state := .running }
  else p

/-- `old` of `sys_alarm` when it returns. -/
def left (alarm jiffies : Word) : Word := if alarm = 0 then 0 else (alarm - jiffies) / (HZ : Word)

namespace Sys

def visit (s : Sys) (i : Slot) : Sys :=
  match s.task i with
  | none => s
  | some p =>
    { s with
      task := update s.task i (some (check s.jiffies p))
      events := if expired s.jiffies p then .posted p.request s.now :: s.events else s.events }

def schedule (next : Slot) (s : Sys) : Sys := { others.foldl visit s with current := next }

/-- `p` is the current task. -/
def sysAlarm (seconds : Word) (s : Sys) (p : Task) : Sys :=
  { s with
    task := update s.task s.current (some (
      if 0 < seconds.toInt then
        { p with
          alarm := s.jiffies + (HZ : Word) * seconds
          request := some ⟨s.requests, seconds.toNat, s.now⟩ }
      else { p with alarm := 0, request := none }))
    requests := s.requests + 1
    events := .replaced p.request (left p.alarm s.jiffies) s.now :: s.events }

/-- The child of `copy_process`. -/
def child (p : Task) : Task := { p with state := .uninterruptible, signal := 0, alarm := 0, request := none }

end Sys

/-- `schedule` may choose any task. `touch` stands for what the rest of the kernel does to a task; it
leaves the alarm. -/
inductive Act
  | alarm (seconds : Word)
  | tick
  | schedule (next : Slot)
  | fork (nr : Slot)
  | release (i : Slot)
  | touch (i : Slot) (state : TaskState) (timeout signal blocked : Word)

def step : Act → Sys → Option Sys
  | .alarm seconds, s => (s.task s.current).map (s.sysAlarm seconds)
  | .tick, s => some { s with jiffies := s.jiffies + 1, now := s.now + 1 }
  | .schedule next, s => if (s.task next).isSome then some (s.schedule next) else none
  | .fork nr, s =>
    if s.task nr = none then
      some { s with task := update s.task nr ((s.task s.current).map Sys.child) }
    else none
  | .release i, s => if i ≠ s.current then some { s with task := update s.task i none } else none
  | .touch i state timeout signal blocked, s =>
    some { s with task := update s.task i ((s.task i).map fun p =>
      { p with state := state, timeout := timeout, signal := signal, blocked := blocked }) }

/-- The first task alone, before any tick. -/
def boot : Sys where
  task := update (fun _ => none) 0 (some ⟨.running, 0, 0, 0, 0, none⟩)
  current := 0
  jiffies := 0
  now := 0
  requests := 0
  events := []

/-- What is returned is between 0 and the seconds of the request that is replaced, and 0 if there is none or
its time is over. A signal is posted for a request, and not before its time is over. -/
def Event.Right : Event → Prop
  | .replaced none value _ => value = 0
  | .replaced (some q) value now => 0 ≤ value.toInt ∧ value.toInt ≤ q.seconds ∧ (q.due ≤ now → value = 0)
  | .posted none _ => False
  | .posted (some q) now => q.due ≤ now

/-- The request that a signal has been posted for. -/
def Event.served : Event → Option ℕ
  | .replaced _ _ _ => none
  | .posted q _ => q.map Request.number

def served (s : Sys) : List ℕ := s.events.filterMap Event.served

/-- The sum does not run over, or what it runs over to is no alarm at all or the last one that there is,
which `jiffies` does not pass. -/
def Room (jiffies seconds : Word) : Prop :=
  jiffies.toNat + HZ * seconds.toNat < 2 ^ 32 ∨ jiffies + (HZ : Word) * seconds = 0 ∨
    jiffies + (HZ : Word) * seconds = -1

/-- There is no alarm, or its time is not over yet, or `jiffies` has come round to it again. -/
def InTime (s : Sys) (p : Task) : Prop :=
  p.alarm = 0 ∨ (∀ q ∈ p.request, s.now ≤ q.due) ∨ p.alarm - s.jiffies < (HZ : Word)

/-- An alarm is only replaced in time, and only set where there is room. -/
def Fits (s : Sys) : Act → Prop
  | .alarm seconds => (∀ p ∈ s.task s.current, InTime s p) ∧ (0 < seconds.toInt → Room s.jiffies seconds)
  | _ => True

variable {s s' : Sys} {p p' : Task} {q : Request} {i j : Slot} {a : Act} {seconds jiffies : Word} {now : ℕ}

/-! ## Words -/

theorem toNat_HZ : (HZ : Word).toNat = 100 := by decide

theorem alarm_eq (now : ℕ) (seconds : Word) :
    BitVec.ofNat 32 now + (HZ : Word) * seconds = BitVec.ofNat 32 (now + HZ * seconds.toNat) := by
  apply BitVec.eq_of_toNat_eq
  simp [HZ]

/-- In time, the difference is what is left of the seconds. -/
theorem left_le (h : now ≤ q.due) (hs : q.since ≤ now) :
    (left (BitVec.ofNat 32 q.due) (BitVec.ofNat 32 now)).toNat ≤ q.seconds ∧
      (q.due ≤ now → left (BitVec.ofNat 32 q.due) (BitVec.ofNat 32 now) = 0) := by
  unfold left
  split
  · simp
  have hsub : (BitVec.ofNat 32 q.due - BitVec.ofNat 32 now).toNat = (q.due - now) % 2 ^ 32 := by
    rw [BitVec.toNat_sub, BitVec.toNat_ofNat, BitVec.toNat_ofNat]
    omega
  constructor
  · rw [BitVec.toNat_udiv, hsub, toNat_HZ]
    simp only [HZ, Request.due] at h ⊢
    omega
  · intro hle
    apply BitVec.eq_of_toNat_eq
    rw [BitVec.toNat_udiv, hsub, show q.due - now = 0 by omega]
    simp

theorem left_lt (alarm jiffies : Word) : (left alarm jiffies).toNat < 2 ^ 31 := by
  unfold left
  split
  · decide
  · rw [BitVec.toNat_udiv, toNat_HZ]
    have := (alarm - jiffies).isLt
    omega

/-- The difference is below a second. -/
theorem left_eq_zero {alarm : Word} (h : alarm ≠ 0) :
    left alarm jiffies = 0 ↔ alarm - jiffies < (HZ : Word) := by
  unfold left
  rw [if_neg h, BitVec.lt_def, ← BitVec.toNat_inj, BitVec.toNat_udiv, toNat_HZ]
  exact Nat.div_eq_zero_iff_lt (by decide)

/-- What `schedule` finds expired is over, if the sum has not run over. -/
theorem due_le (hroom : Room (BitVec.ofNat 32 q.since) (BitVec.ofNat 32 q.seconds))
    (hsec : q.seconds < 2 ^ 31) (hs : q.since ≤ now) (h0 : BitVec.ofNat 32 q.due ≠ 0)
    (hlt : BitVec.ofNat 32 q.due < BitVec.ofNat 32 now) : q.due ≤ now := by
  have hsum : BitVec.ofNat 32 q.since + (HZ : Word) * BitVec.ofNat 32 q.seconds = BitVec.ofNat 32 q.due := by
    rw [alarm_eq, BitVec.toNat_ofNat, Nat.mod_eq_of_lt (by omega)]
    rfl
  unfold Room at hroom
  rw [hsum] at hroom
  rw [BitVec.lt_def, BitVec.toNat_ofNat, BitVec.toNat_ofNat] at hlt
  rcases hroom with h | h | h
  · rw [BitVec.toNat_ofNat, BitVec.toNat_ofNat, Nat.mod_eq_of_lt (a := q.seconds) (by omega)] at h
    simp only [HZ, Request.due] at h hlt ⊢
    by_contra hearly
    have hnow : now % 2 ^ 32 = q.since % 2 ^ 32 + (now - q.since) := by omega
    have hdue : (q.since + 100 * q.seconds) % 2 ^ 32 = q.since % 2 ^ 32 + 100 * q.seconds := by omega
    omega
  · exact absurd h h0
  · have hmax := congrArg BitVec.toNat h
    simp only [BitVec.toNat_ofNat] at hmax
    have : (-1 : Word).toNat = 2 ^ 32 - 1 := by decide
    omega

/-! ## The invariant -/

/-- The request is outstanding, and there was room for it. -/
structure Sound (s : Sys) (q : Request) : Prop where
  since : q.since ≤ s.now
  seconds : q.seconds < 2 ^ 31
  room : Room (BitVec.ofNat 32 q.since) (BitVec.ofNat 32 q.seconds)
  number : q.number < s.requests
  unserved : q.number ∉ served s

/-- There is neither alarm nor request, or the alarm is that of the request. -/
def Kept (s : Sys) (p : Task) : Prop :=
  (p.request = none ∧ p.alarm = 0) ∨
    ∃ q, p.request = some q ∧ p.alarm = BitVec.ofNat 32 q.due ∧ Sound s q

structure Inv (s : Sys) : Prop where
  jiffies : s.jiffies = BitVec.ofNat 32 s.now
  kept : ∀ i, ∀ p ∈ s.task i, Kept s p
  apart : ∀ i j, ∀ p ∈ s.task i, ∀ p' ∈ s.task j, ∀ q ∈ p.request, ∀ q' ∈ p'.request,
    q.number = q'.number → i = j
  right : ∀ e ∈ s.events, e.Right
  once : (served s).Nodup
  old : ∀ n ∈ served s, n < s.requests

/-- What a task asks for is outstanding. -/
theorem Inv.sound (h : Inv s) (hp : p ∈ s.task i) (hq : q ∈ p.request) : Sound s q := by
  rcases h.kept i p hp with ⟨hnone, -⟩ | ⟨q', hq', -, hsound⟩
  · rw [hnone] at hq
    cases hq
  · obtain rfl : q' = q := Option.some.inj (hq'.symm.trans hq)
    exact hsound

theorem inv_boot : Inv boot := by
  have htask : ∀ i, ∀ p ∈ boot.task i, p.request = none ∧ p.alarm = 0 := by
    intro i p hp
    rcases eq_or_ne i 0 with rfl | hi
    · cases hp
      exact ⟨rfl, rfl⟩
    · simp only [boot, update_of_ne hi, Option.mem_def, reduceCtorEq] at hp
  constructor
  · rfl
  · exact fun i p hp => .inl (htask i p hp)
  · intro i j p hp p' hp' q hq
    rw [(htask i p hp).1] at hq
    cases hq
  · exact fun e he => nomatch he
  · exact List.nodup_nil
  · exact fun n hn => nomatch hn

/-- A task of the next state has no request, or an outstanding one that it had, or the newest of all. -/
theorem Inv.next (h : Inv s) (hj : s'.jiffies = BitVec.ofNat 32 s'.now) (hnow : s.now ≤ s'.now)
    (hreq : s.requests ≤ s'.requests)
    (htask : ∀ i, ∀ p' ∈ s'.task i, (p'.request = none ∧ p'.alarm = 0) ∨
      (∃ p ∈ s.task i, p'.request = p.request ∧ p'.alarm = p.alarm ∧ ∀ q ∈ p.request, q.number ∉ served s') ∨
      i = s.current ∧ ∃ q, p'.request = some q ∧ p'.alarm = BitVec.ofNat 32 q.due ∧ Sound s' q ∧
        q.number = s.requests)
    (hright : ∀ e ∈ s'.events, e.Right) (honce : (served s').Nodup)
    (hold : ∀ n ∈ served s', n < s'.requests) : Inv s' := by
  constructor
  · exact hj
  · intro i p' hp'
    rcases htask i p' hp' with hnone | ⟨p, hp, hr, ha, hopen⟩ | ⟨-, q, hr, ha, hsound, -⟩
    · exact .inl hnone
    · rcases h.kept i p hp with ⟨hnone, hzero⟩ | ⟨q, hq, halarm, hsound⟩
      · exact .inl ⟨hr.trans hnone, ha.trans hzero⟩
      · exact .inr ⟨q, hr.trans hq, ha.trans halarm, hsound.since.trans hnow, hsound.seconds, hsound.room,
          hsound.number.trans_le hreq, hopen q hq⟩
    · exact .inr ⟨q, hr, ha, hsound⟩
  · intro i j p' hp' p'' hp'' q hq q' hq' heq
    rcases htask i p' hp' with ⟨hnone, -⟩ | ⟨p, hp, hr, -⟩ | ⟨hi, q₁, hr, -, -, hn⟩
    · rw [hnone] at hq
      cases hq
    · rcases htask j p'' hp'' with ⟨hnone', -⟩ | ⟨p₂, hp₂, hr', -⟩ | ⟨-, q₂, hr', -, -, hn'⟩
      · rw [hnone'] at hq'
        cases hq'
      · exact h.apart i j p hp p₂ hp₂ q (hr ▸ hq) q' (hr' ▸ hq') heq
      · obtain rfl : q₂ = q' := Option.some.inj (hr'.symm.trans hq')
        have hlt := (h.sound hp (hr ▸ hq)).number
        omega
    · obtain rfl : q₁ = q := Option.some.inj (hr.symm.trans hq)
      rcases htask j p'' hp'' with ⟨hnone', -⟩ | ⟨p₂, hp₂, hr', -⟩ | ⟨hj, -⟩
      · rw [hnone'] at hq'
        cases hq'
      · have hlt := (h.sound hp₂ (hr' ▸ hq')).number
        omega
      · exact hi.trans hj.symm
  · exact hright
  · exact honce
  · exact hold

/-- Nothing is posted, and no request is made. -/
theorem Inv.same (h : Inv s) (hj : s'.jiffies = BitVec.ofNat 32 s'.now) (hnow : s.now ≤ s'.now)
    (hreq : s'.requests = s.requests) (hevents : s'.events = s.events)
    (htask : ∀ i, ∀ p' ∈ s'.task i, (p'.request = none ∧ p'.alarm = 0) ∨
      ∃ p ∈ s.task i, p'.request = p.request ∧ p'.alarm = p.alarm) : Inv s' := by
  have hserved : served s' = served s := congrArg (List.filterMap Event.served) hevents
  apply h.next hj hnow hreq.ge
  · intro i p' hp'
    rcases htask i p' hp' with hnone | ⟨p, hp, hr, ha⟩
    · exact .inl hnone
    · refine .inr (.inl ⟨p, hp, hr, ha, fun q hq => ?_⟩)
      rw [hserved]
      exact (h.sound hp hq).unserved
  · rw [hevents]
    exact h.right
  · rw [hserved]
    exact h.once
  · rw [hserved, hreq]
    exact h.old

/-! ## The steps -/

/-- The difference is right in time, and never else. -/
theorem replaced_right_iff (h : Inv s) (hp : s.task i = some p) :
    (Event.replaced p.request (left p.alarm s.jiffies) s.now).Right ↔ InTime s p := by
  rcases h.kept i p hp with ⟨hr, ha⟩ | ⟨q, hr, ha, hsound⟩
  · rw [hr]
    exact iff_of_true (by rw [ha]; rfl) (.inl ha)
  rw [hr]
  have hint : (left p.alarm s.jiffies).toInt = (left p.alarm s.jiffies).toNat :=
    BitVec.toInt_eq_toNat_of_lt (by have := left_lt p.alarm s.jiffies; omega)
  by_cases hzero : p.alarm = 0
  · have hleft : left p.alarm s.jiffies = 0 := if_pos hzero
    refine iff_of_true ⟨?_, ?_, fun _ => hleft⟩ (.inl hzero)
    · rw [hleft]
      rfl
    · rw [hleft]
      exact Int.natCast_nonneg q.seconds
  by_cases hnow : s.now ≤ q.due
  · obtain ⟨hle, hover⟩ := left_le hnow hsound.since
    rw [← ha, ← h.jiffies] at hle hover
    refine iff_of_true ⟨?_, ?_, hover⟩ (.inr (.inl ?_))
    · rw [hint]
      exact Int.natCast_nonneg _
    · rw [hint]
      exact_mod_cast hle
    · intro q' hq'
      obtain rfl : q = q' := Option.some.inj (hr.symm.trans hq')
      exact hnow
  · constructor
    · rintro ⟨-, -, hover⟩
      exact .inr (.inr ((left_eq_zero hzero).mp (hover (not_le.mp hnow).le)))
    · rintro (h0 | hin | hsub)
      · exact absurd h0 hzero
      · exact absurd (hin q hr) hnow
      · have hleft := (left_eq_zero hzero).mpr hsub
        refine ⟨?_, ?_, fun _ => hleft⟩
        · rw [hleft]
          rfl
        · rw [hleft]
          exact Int.natCast_nonneg q.seconds

theorem Inv.sysAlarm (h : Inv s) (hp : s.task s.current = some p) (hin : InTime s p)
    (hroom : 0 < seconds.toInt → Room s.jiffies seconds) : Inv (s.sysAlarm seconds p) := by
  have hserved : served (s.sysAlarm seconds p) = served s := rfl
  apply h.next
  · exact h.jiffies
  · exact le_rfl
  · exact Nat.le_succ _
  · intro i p' hp'
    rcases eq_or_ne i s.current with rfl | hi
    · rw [show (s.sysAlarm seconds p).task s.current = _ from update_self ..] at hp'
      obtain rfl := Option.some.inj hp'
      by_cases hpos : 0 < seconds.toInt
      · rw [if_pos hpos]
        have hlt : seconds.toNat < 2 ^ 31 := by
          rw [BitVec.toInt_eq_toNat_cond] at hpos
          split at hpos <;> omega
        refine .inr (.inr ⟨rfl, _, rfl, ?_, ⟨le_rfl, hlt, ?_, Nat.lt_succ_self _, ?_⟩, rfl⟩)
        · rw [h.jiffies, alarm_eq]
          rfl
        · rw [← h.jiffies, BitVec.ofNat_toNat, BitVec.setWidth_eq]
          exact hroom hpos
        · rw [hserved]
          exact fun hn => lt_irrefl _ (h.old _ hn)
      · rw [if_neg hpos]
        exact .inl ⟨rfl, rfl⟩
    · rw [show (s.sysAlarm seconds p).task i = s.task i from update_of_ne hi ..] at hp'
      exact .inr (.inl ⟨p', hp', rfl, rfl, fun q hq => (h.sound hp' hq).unserved⟩)
  · intro e he
    rcases List.mem_cons.mp he with rfl | he
    · exact (replaced_right_iff h hp).mpr hin
    · exact h.right e he
  · exact h.once
  · exact fun n hn => (h.old n hn).trans (Nat.lt_succ_self _)

theorem check_alarm (jiffies : Word) (p : Task) : (check jiffies p).request = (if expired jiffies p then none else p.request) ∧
    (check jiffies p).alarm = if expired jiffies p then 0 else p.alarm := by
  have htimeout : ∀ state, expired jiffies { p with timeout := 0, state := state } = expired jiffies p :=
    fun _ => rfl
  constructor
  · simp only [check, apply_ite Task.request, apply_ite (expired jiffies), htimeout, ite_self]
  · simp only [check, apply_ite Task.alarm, apply_ite (expired jiffies), htimeout, ite_self]

/-- What is posted is due, and has not been posted before. -/
theorem Inv.visit (h : Inv s) (i : Slot) : Inv (s.visit i) := by
  unfold Sys.visit
  cases hp : s.task i with
  | none => exact h
  | some p =>
    obtain ⟨hcr, hca⟩ := check_alarm s.jiffies p
    by_cases hexp : expired s.jiffies p = true
    · obtain ⟨hne, hlt⟩ := of_decide_eq_true hexp
      rw [if_pos hexp] at hcr hca
      rcases h.kept i p hp with ⟨-, h0⟩ | ⟨q, hr, ha, hsound⟩
      · exact absurd h0 hne
      simp only [hexp, if_true]
      have hserved : served { s with
          task := update s.task i (some (check s.jiffies p))
          events := .posted p.request s.now :: s.events } = q.number :: served s := by
        simp [served, Event.served, hr]
      apply h.next
      · exact h.jiffies
      · exact le_rfl
      · exact le_rfl
      · intro j p' hp'
        rcases eq_or_ne j i with rfl | hji
        · simp only [update_self, Option.mem_def, Option.some_inj] at hp'
          subst hp'
          exact .inl ⟨hcr, hca⟩
        · simp only [update_of_ne hji] at hp'
          refine .inr (.inl ⟨p', hp', rfl, rfl, fun q' hq' => ?_⟩)
          rw [hserved, List.mem_cons, not_or]
          exact ⟨fun heq => hji (h.apart j i p' hp' p hp q' hq' q hr heq), (h.sound hp' hq').unserved⟩
      · intro e he
        rcases List.mem_cons.mp he with rfl | he
        · rw [hr]
          rw [ha] at hne hlt
          rw [h.jiffies] at hlt
          exact due_le hsound.room hsound.seconds hsound.since hne hlt
        · exact h.right e he
      · rw [hserved]
        exact List.nodup_cons.mpr ⟨hsound.unserved, h.once⟩
      · rw [hserved]
        intro n hn
        rcases List.mem_cons.mp hn with rfl | hn
        · exact hsound.number
        · exact h.old n hn
    · rw [if_neg hexp] at hcr hca
      simp only [hexp]
      apply h.same
      · exact h.jiffies
      · exact le_rfl
      · rfl
      · rfl
      · intro j p' hp'
        rcases eq_or_ne j i with rfl | hji
        · simp only [update_self, Option.mem_def, Option.some_inj] at hp'
          subst hp'
          exact .inr ⟨p, hp, hcr, hca⟩
        · simp only [update_of_ne hji] at hp'
          exact .inr ⟨p', hp', rfl, rfl⟩

theorem Inv.visits (h : Inv s) (is : List Slot) : Inv (is.foldl Sys.visit s) := by
  induction is generalizing s with
  | nil => exact h
  | cons i is ih => exact ih (h.visit i)

theorem inv_step (h : Inv s) (hfits : Fits s a) (hs : step a s = some s') : Inv s' := by
  cases a with
  | alarm seconds =>
    obtain ⟨p, hp, rfl⟩ := Option.map_eq_some_iff.mp hs
    exact h.sysAlarm hp (hfits.1 p hp) hfits.2
  | tick =>
    cases hs
    apply h.same
    · rw [h.jiffies]
      exact (BitVec.ofNat_add ..).symm
    · exact Nat.le_succ _
    · rfl
    · rfl
    · exact fun i p hp => .inr ⟨p, hp, rfl, rfl⟩
  | schedule next =>
    rw [step] at hs
    split at hs
    · cases hs
      apply (h.visits others).same
      · exact (h.visits others).jiffies
      · exact le_rfl
      · rfl
      · rfl
      · exact fun i p hp => .inr ⟨p, hp, rfl, rfl⟩
    · cases hs
  | fork nr =>
    rw [step] at hs
    split at hs
    · cases hs
      refine h.same h.jiffies le_rfl rfl rfl ?_
      intro i p hp
      rcases eq_or_ne i nr with rfl | hi
      · simp only [update_self, Option.mem_def, Option.map_eq_some_iff] at hp
        obtain ⟨p₀, -, rfl⟩ := hp
        exact .inl ⟨rfl, rfl⟩
      · simp only [update_of_ne hi] at hp
        exact .inr ⟨p, hp, rfl, rfl⟩
    · cases hs
  | release j =>
    rw [step] at hs
    split at hs
    · cases hs
      refine h.same h.jiffies le_rfl rfl rfl ?_
      intro i p hp
      rcases eq_or_ne i j with rfl | hi
      · simp only [update_self, Option.mem_def, reduceCtorEq] at hp
      · simp only [update_of_ne hi] at hp
        exact .inr ⟨p, hp, rfl, rfl⟩
    · cases hs
  | touch j state timeout signal blocked =>
    cases hs
    refine h.same h.jiffies le_rfl rfl rfl ?_
    intro i p hp
    rcases eq_or_ne i j with rfl | hi
    · simp only [update_self, Option.mem_def, Option.map_eq_some_iff] at hp
      obtain ⟨p₀, hp₀, rfl⟩ := hp
      exact .inr ⟨p₀, hp₀, rfl, rfl⟩
    · simp only [update_of_ne hi] at hp
      exact .inr ⟨p, hp, rfl, rfl⟩

/-- Every value that `sys_alarm` returns and every signal that is posted is right, and no request is
served twice. -/
def Contract (s : Sys) : Prop := (∀ e ∈ s.events, e.Right) ∧ (served s).Nodup

/-- Alarms that are set where there is room and replaced in time keep the contract. -/
theorem alarm_contract (h : Run step Fits boot s) : Contract s := by
  have hinv : Inv s := h.invariant inv_boot fun _ _ _ hi hfits hs => inv_step hi hfits hs
  exact ⟨hinv.right, hinv.once⟩

instance : Decidable (Room jiffies seconds) := inferInstanceAs (Decidable (_ ∨ _))

instance : Decidable (InTime s p) := inferInstanceAs (Decidable (_ ∨ _ ∨ _))

instance : Decidable (Fits s a) := by
  cases a
  case alarm seconds => exact inferInstanceAs (Decidable (_ ∧ _))
  all_goals exact instDecidableTrue

/-- An alarm of one second is posted after 101 ticks. -/
def oneSecond : List Act :=
  [.fork 1, .schedule 1, .alarm 1] ++ List.replicate 101 .tick ++ [.schedule 1, .alarm 0]

theorem alarm_contract_oneSecond : Contract ((runList step oneSecond boot).get (by decide +kernel)) := by
  apply alarm_contract
  exact Run.of_each (by decide +kernel) (Option.some_get _).symm

/-- The same without the second `schedule` -/
def overdue : List Act :=
  [.fork 1, .schedule 1, .alarm 1] ++ List.replicate 101 .tick ++ [.alarm 0]

/-- An alarm that is one tick overdue is said to have 497 days left. -/
theorem alarm_overdue : ¬ ∀ s, Run step Always boot s → Contract s := by
  intro h
  obtain ⟨hright, -⟩ := h _ (Run.of_runList_get (by decide +kernel : (runList step overdue boot).isSome))
  have hvalue : .replaced (some ⟨0, 1, 0⟩) 42949672 101 ∈
      ((runList step overdue boot).get (by decide +kernel)).events := by decide +kernel
  have hle := (hright _ hvalue).2.1
  revert hle
  decide

end Linux012.Alarm
