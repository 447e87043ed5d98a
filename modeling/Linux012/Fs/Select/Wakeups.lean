import Linux012.Fs.Select.Basic
import Linux012.Lib.Stacks
import Linux012.Lib.Index

/-! # Who is woken up

The tasks on a wait queue form a stack, also when they select and are on several queues. A task
that selects for reading stays on the queue of the pipe until it runs again, so the writer finds
it there: at the head, or below a task that is then made to run.
-/

namespace Linux012.Select

open Function Coop Runs Links
open scoped Index

variable {n : ℕ} {s s' : Sys n} {t u : Fin n} {f f' : Frame n} {q : Queue}
  {table : List (Entry n)} {a : Args} {nx : Next (Frame n) Value Empty}

def lookup (table : List (Entry n)) (q : Queue) : Option (Option (Fin n)) :=
  (table.find? fun e => e.waitAddress = q).map Entry.oldTask

theorem lookup_nil : lookup ([] : List (Entry n)) q = none := rfl

theorem lookup_cons_self (old : Option (Fin n)) : lookup (⟨old, q⟩ :: table) q = some old := by
  simp [lookup]

theorem lookup_cons_ne {e : Entry n} (h : e.waitAddress ≠ q) :
    lookup (e :: table) q = lookup table q := by
  simp [lookup, h]

theorem lookup_eq_none : lookup table q = none ↔ ∀ e ∈ table, e.waitAddress ≠ q := by
  simp [lookup]

theorem lookup_append_of_none {table' : List (Entry n)} (h : lookup table q = none) :
    lookup (table ++ table') q = lookup table' q := by
  induction table with
  | nil => rfl
  | cons e table ih =>
    obtain ⟨he, htable⟩ := List.forall_mem_cons.mp (lookup_eq_none.mp h)
    rw [List.cons_append, lookup_cons_ne he, ih (lookup_eq_none.mpr htable)]

theorem lookup_append_ne {e : Entry n} (h : e.waitAddress ≠ q) :
    lookup (table ++ [e]) q = lookup table q := by
  induction table with
  | nil => exact lookup_cons_ne h
  | cons d table ih =>
    by_cases hd : d.waitAddress = q
    · subst hd
      rw [List.cons_append, lookup_cons_self, lookup_cons_self]
    · rw [List.cons_append, lookup_cons_ne hd, lookup_cons_ne hd, ih]

namespace Frame

/-- The entries of the queues that the task is on. -/
def entries : Frame n → List (Entry n)
  | .selected _ table => table
  | .freeWait _ _ table => table
  | .asleep q tmp => [⟨tmp, q⟩]
  | _ => []

def link (q : Queue) (f : Frame n) : Option (Option (Fin n)) := lookup f.entries q

/-- The call waits for reading from the pipe. -/
def watches (p : ℕ) (a : Args) : Prop :=
  ∃ i < NR_OPEN, a.inp.getLsbD i = true ∧ a.filp i = some (.pipe p)

/-- No queue is entered twice, and `do_select` sleeps on the queues of all pipes that it has to read. -/
structure Proper (f : Frame n) : Prop where
  nodup : (f.entries.map Entry.waitAddress).Nodup
  watched : ∀ a table, f = .selected a table →
    ∀ p, watches p a → ∃ e ∈ table, e.waitAddress = .iWait p

theorem link_of_nil (h : f.entries = []) : f.link q = none := by simp [link, h, lookup_nil]

end Frame

/-- What a piece of code of task `t` does to the queues. -/
structure Effect (t : Fin n) (s s' : Sys n) (f f' : Frame n) : Prop where
  shift : ∀ q, Shift t (s.wait q) (f.link q) (f'.link q) (s'.wait q)
  proper : f'.Proper
  wakes : ∀ q u, f.link q = some (some u) → f'.link q = none → (s'.task u).state = .running

/-- The queues stay as they are. -/
theorem Effect.of_entries (hw : s'.wait = s.wait) (he : f'.entries = f.entries) (hp : f'.Proper) :
    Effect t s s' f f' := by
  have hl : ∀ q, f'.link q = f.link q := fun q => by simp [Frame.link, he]
  refine ⟨fun q => ?_, hp, fun q u hf hf' => ?_⟩
  · rw [hw, hl]
    exact .stay
  · simp [← hl, hf'] at hf

/-! ## The checks of `do_select` -/

namespace Scan

variable {r r' : Scan n} {c : Check} {wanted : Bool} {hit : Scan n → Scan n}

/-- The task is on the queues of the table, and has found there what was on them before. -/
structure Registered (t : Fin n) (s : Sys n) (r : Scan n) : Prop where
  nodup : (r.table.map Entry.waitAddress).Nodup
  shift : ∀ q, Shift t (s.wait q) none (lookup r.table q) (r.sys.wait q)

/-- A part of the loop keeps the entries that there are. -/
structure Grows (t : Fin n) (r r' : Scan n) : Prop where
  registered : ∀ s, Registered t s r → Registered t s r'
  count : r.count ≤ r'.count
  table : ∀ e ∈ r.table, e ∈ r'.table

theorem Grows.refl (r : Scan n) : Grows t r r := ⟨fun _ h => h, le_rfl, fun _ h => h⟩

theorem Grows.trans {r₁ r₂ r₃ : Scan n} (h : Grows t r₁ r₂) (h' : Grows t r₂ r₃) : Grows t r₁ r₃ where
  registered s hs := h'.registered s (h.registered s hs)
  count := h.count.trans h'.count
  table e he := h'.table e (h.table e he)

theorem registered_start (t : Fin n) (s : Sys n) : Registered t s ⟨s, [], 0, 0, 0, 0⟩ :=
  ⟨List.nodup_nil, fun _ => .stay⟩

theorem Registered.addWait (h : Registered t s r) : Registered t s (r.addWait t q) := by
  unfold Scan.addWait
  split_ifs with he
  · exact h
  · have hq : lookup r.table q = none := lookup_eq_none.mpr fun e hm hd => he ⟨e, hm, hd⟩
    constructor
    · rw [List.map_append, List.nodup_append]
      refine ⟨h.nodup, by simp, ?_⟩
      rintro _ hm _ hn rfl
      obtain ⟨e, hem, rfl⟩ := List.mem_map.mp hm
      exact he ⟨e, hem, by simpa using hn⟩
    · intro q'
      have hs := h.shift q'
      by_cases hq' : q' = q
      · subst hq'
        rw [hq] at hs
        rw [lookup_append_of_none hq, lookup_cons_self, hs.head_eq rfl]
        simpa [Sys.setWait] using Shift.push
      · rw [lookup_append_ne (Ne.symm hq')]
        simpa [Sys.setWait, hq'] using hs

theorem grows_addWait : Grows t r (r.addWait t q) where
  registered _ h := h.addWait
  count := by
    unfold Scan.addWait
    split_ifs <;> exact le_rfl
  table e he := by
    unfold Scan.addWait
    split_ifs
    · exact he
    · exact List.mem_append_left _ he

theorem addWait_mem : ∃ e ∈ (r.addWait t q).table, e.waitAddress = q := by
  unfold Scan.addWait
  split_ifs with he
  · exact he
  · exact ⟨⟨r.sys.wait q, q⟩, by simp, rfl⟩

/-- A `hit` only changes a set. -/
theorem grows_check (hs : (hit r).sys = r.sys) (ht : (hit r).table = r.table) :
    Grows t r (r.check t wanted c hit) := by
  unfold Scan.check
  split_ifs
  · cases c with
    | ready =>
      refine ⟨fun s h => ⟨?_, ?_⟩, Nat.le_succ _, fun e he => ?_⟩
      · simpa [ht] using h.nodup
      · simpa [ht, hs] using h.shift
      · simpa [ht] using he
    | addWait q => exact grows_addWait
    | neither => exact .refl r
  · exact .refl r

/-- A file that is wanted and not ready is waited for. -/
theorem check_waits (hw : wanted = true) (hc : c = .ready ∨ c = .addWait q)
    (hcount : (r.check t wanted c hit).count = 0) :
    ∃ e ∈ (r.check t wanted c hit).table, e.waitAddress = q := by
  subst hw
  obtain rfl | rfl := hc
  · simp [Scan.check] at hcount
  · simpa [Scan.check] using addWait_mem

theorem grows_visit (i : ℕ) : Grows t r (r.visit t a i) := by
  unfold Scan.visit
  exact (grows_check rfl rfl).trans ((grows_check rfl rfl).trans (grows_check rfl rfl))

theorem checkIn_pipe (s : Sys n) (p : ℕ) :
    checkIn s (some (.pipe p)) = .ready ∨ checkIn s (some (.pipe p)) = .addWait (.iWait p) := by
  simp only [checkIn]
  split_ifs
  · exact .inr rfl
  · exact .inl rfl

theorem visit_waits {i p : ℕ} (hi : a.inp.getLsbD i = true) (hp : a.filp i = some (.pipe p))
    (hcount : (r.visit t a i).count = 0) :
    ∃ e ∈ (r.visit t a i).table, e.waitAddress = .iWait p := by
  let mask : BitVec 32 := 1 <<< i
  let r₁ := r.check t (a.inp.getLsbD i) (checkIn r.sys (a.filp i)) fun r => { r with inp := r.inp ||| mask }
  have hg : Grows t r₁ (r.visit t a i) := by
    unfold Scan.visit
    exact (grows_check rfl rfl).trans (grows_check rfl rfl)
  have hc : checkIn r.sys (a.filp i) = .ready ∨ checkIn r.sys (a.filp i) = .addWait (.iWait p) := by
    rw [hp]
    exact checkIn_pipe r.sys p
  obtain ⟨e, he, hq⟩ := check_waits hi hc (Nat.eq_zero_of_le_zero (hg.count.trans hcount.le))
  exact ⟨e, hg.table e he, hq⟩

theorem foldl_visit (r : Scan n) (k : ℕ) : Grows t r ((List.range k).foldl (Scan.visit t a) r) ∧
    (((List.range k).foldl (Scan.visit t a) r).count = 0 → ∀ i < k, ∀ p,
      a.inp.getLsbD i = true → a.filp i = some (.pipe p) →
        ∃ e ∈ ((List.range k).foldl (Scan.visit t a) r).table, e.waitAddress = .iWait p) := by
  induction k with
  | zero => exact ⟨.refl r, fun _ i hi => absurd hi (Nat.not_lt_zero i)⟩
  | succ k ih =>
    obtain ⟨hg, hw⟩ := ih
    rw [List.range_succ, List.foldl_append, List.foldl_cons, List.foldl_nil]
    set r' := (List.range k).foldl (Scan.visit t a) r
    have hv : Grows t r' (r'.visit t a k) := grows_visit k
    refine ⟨hg.trans hv, fun hc i hi p hin hp => ?_⟩
    rcases Nat.lt_succ_iff_lt_or_eq.mp hi with hi | rfl
    · obtain ⟨e, he, hq⟩ := hw (Nat.eq_zero_of_le_zero (hv.count.trans hc.le)) i hi p hin hp
      exact ⟨e, hv.table e he, hq⟩
    · exact visit_waits hin hp hc

end Scan

theorem scan_registered (t : Fin n) (a : Args) (s : Sys n) : Scan.Registered t s (scan t a s) :=
  (Scan.foldl_visit _ NR_OPEN).1.registered s (Scan.registered_start t s)

/-- When nothing is ready, the task is on the queues of all pipes that it wants to read. -/
theorem scan_watches {p : ℕ} (hc : (scan t a s).count = 0) (hw : Frame.watches p a) :
    ∃ e ∈ (scan t a s).table, e.waitAddress = .iWait p := by
  obtain ⟨i, hi, hin, hp⟩ := hw
  exact (Scan.foldl_visit _ NR_OPEN).2 hc i hi p hin hp

theorem Effect.of_registered {r : Scan n} (h : Scan.Registered t s r) (hf : f.entries = [])
    (hf' : f'.entries = r.table) (hw : s'.wait = r.sys.wait)
    (hwatch : ∀ a table, f' = .selected a table → ∀ p, Frame.watches p a →
      ∃ e ∈ table, e.waitAddress = .iWait p) : Effect t s s' f f' := by
  refine ⟨fun q => ?_, ⟨hf' ▸ h.nodup, hwatch⟩, fun q u hl => ?_⟩
  · rw [Frame.link_of_nil hf, Frame.link, hf', hw]
    exact h.shift q
  · rw [Frame.link_of_nil hf] at hl
    cases hl

/-! ## Pieces of code -/

namespace Sys

@[simp] theorem wait_setState (st : TaskState) : (s.setState t st).wait = s.wait := rfl

@[simp] theorem wait_schedule : s.schedule.wait = s.wait := rfl

@[simp] theorem wait_rouse (u : Option (Fin n)) : (s.rouse u).wait = s.wait := by
  cases u <;> rfl

@[simp] theorem wait_wakeUp : (s.wakeUp q).wait = s.wait := wait_rouse _

@[simp] theorem wait_updPipe (p : ℕ) (g : Pipe → Pipe) : (s.updPipe p g).wait = s.wait := rfl

@[simp] theorem setState_state (st : TaskState) : ((s.setState t st).task t).state = st := by
  simp [setState]

end Sys

/-- What a piece leaves on top of the stack; a value goes to a frame that is on no queue. -/
def Lands (t : Fin n) (s s' : Sys n) (f : Frame n) : Next (Frame n) Value Empty → Prop
  | .goto f' => Effect t s s' f f'
  | .sleep f' => Effect t s s' f f'
  | .call _ g => Effect t s s' f g
  | .ret _ => ∀ g : Frame n, g.entries = [] → g.Proper → Effect t s s' f g
  | .panic q => q.elim

theorem lands_ret {v : Value} (hf : f.entries = []) (hw : s'.wait = s.wait) :
    Lands t s s' f (.ret v) := fun _ hg hp => .of_entries hw (hg.trans hf.symm) hp

/-- Leaving a queue whose head is not null. -/
theorem leave_lands {old : Option (Fin n)} {go : Next (Frame n) Value Empty}
    (hf : f.entries = ⟨old, q⟩ :: table) (hp : f.Proper) (hne : s.wait q ≠ none)
    (hgo : ∀ s', (∀ g : Frame n, g.entries = table → g.Proper → Effect t s s' f g) →
      Lands t s s' f go) :
    Lands t s (leave s t q old f go).1 f (leave s t q old f go).2 := by
  obtain ⟨u, hu⟩ := Option.ne_none_iff_exists'.mp hne
  simp only [leave, hu]
  split_ifs with hut
  · exact .of_entries rfl rfl hp
  · obtain rfl := not_not.mp hut
    have hnodup : lookup table q = none := by
      have hn := hp.nodup
      rw [hf, List.map_cons, List.nodup_cons] at hn
      exact lookup_eq_none.mpr fun e he hq => hn.1 (List.mem_map.mpr ⟨e, he, hq⟩)
    have hother : ∀ q', q' ≠ q → lookup (⟨old, q⟩ :: table) q' = lookup table q' :=
      fun q' hq => lookup_cons_ne (Ne.symm hq)
    refine hgo _ fun g hg hgp => ⟨fun q' => ?_, hgp, fun q' v hl hl' => ?_⟩
    · simp only [Frame.link, hf, hg, Sys.wait_rouse, Sys.setWait]
      rcases eq_or_ne q' q with rfl | hq
      · rw [hu, lookup_cons_self, hnodup, update_self]
        exact .pop
      · rw [hother q' hq, update_of_ne hq]
        exact .stay
    · simp only [Frame.link, hf, hg] at hl hl'
      rcases eq_or_ne q' q with rfl | hq
      · rw [lookup_cons_self] at hl
        obtain rfl := Option.some.inj hl
        exact Sys.setState_state _
      · rw [hother q' hq, hl'] at hl
        cases hl

theorem atRepeat_lands : Lands t s (atRepeat s t a).1 (.atRepeat a) (atRepeat s t a).2 := by
  unfold atRepeat
  dsimp only
  split_ifs with h
  · refine Effect.of_registered (scan_registered t a s) rfl rfl rfl ?_
    rintro _ _ ⟨⟩ p hw
    exact scan_watches h.2.2 hw
  · exact Effect.of_registered (scan_registered t a s) rfl rfl rfl nofun

theorem freeWait_lands {result : Option Value} (hp : (Frame.freeWait a result table).Proper)
    (hne : ∀ q, ((Frame.freeWait a result table).link q).isSome = true → s.wait q ≠ none) :
    Lands t s (freeWait s t a result table).1 (.freeWait a result table)
      (freeWait s t a result table).2 := by
  cases table with
  | nil =>
    cases result with
    | none => exact .of_entries rfl rfl ⟨List.nodup_nil, nofun⟩
    | some v => exact lands_ret rfl rfl
  | cons e table =>
    refine leave_lands rfl hp (hne _ ?_) fun s' h => h _ rfl ⟨?_, nofun⟩
    · simp [Frame.link, Frame.entries, lookup]
    · exact (List.nodup_cons.mp hp.nodup).2

theorem sleepOn_lands (state : TaskState) :
    Lands t s (sleepOn s t q state).1 (.sleepOn q state) (sleepOn s t q state).2 := by
  refine ⟨fun q' => ?_, ⟨List.nodup_singleton _, nofun⟩, fun q' u hl => ?_⟩
  · rcases eq_or_ne q' q with rfl | hq
    · simpa [Frame.link, Frame.entries, lookup, sleepOn, Sys.setWait] using Shift.push
    · simpa [Frame.link, Frame.entries, lookup, sleepOn, Sys.setWait, hq, Ne.symm hq] using Shift.stay
  · cases hl

theorem proper_of_ne (he : f.entries = []) (hf : ∀ a table, f ≠ .selected a table) : f.Proper :=
  ⟨by simp [he], fun a table h => absurd h (hf a table)⟩

/-- A frame that is on no queue, before and after. -/
theorem effect_free (hw : s'.wait = s.wait) (hf : f.entries = []) (hf' : f'.entries = [])
    (hne : ∀ a table, f' ≠ .selected a table) : Effect t s s' f f' :=
  .of_entries hw (hf'.trans hf.symm) (proper_of_ne hf' hne)

theorem readPipe_lands (p count read : ℕ) : Lands t s (readPipe s t p count read).1
    (.readPipe p count read) (readPipe s t p count read).2 := by
  unfold readPipe
  dsimp only
  split_ifs
  · exact lands_ret rfl Sys.wait_wakeUp
  · exact lands_ret rfl Sys.wait_wakeUp
  · exact lands_ret rfl Sys.wait_wakeUp
  · exact lands_ret rfl Sys.wait_wakeUp
  · exact effect_free Sys.wait_wakeUp rfl rfl nofun
  · exact effect_free rfl rfl rfl nofun

theorem writePipe_lands (p count written : ℕ) : Lands t s (writePipe s t p count written).1
    (.writePipe p count written) (writePipe s t p count written).2 := by
  unfold writePipe
  dsimp only
  split_ifs
  · exact lands_ret rfl Sys.wait_wakeUp
  · exact lands_ret rfl Sys.wait_wakeUp
  · exact lands_ret rfl Sys.wait_wakeUp
  · exact effect_free Sys.wait_wakeUp rfl rfl nofun
  · exact effect_free rfl rfl rfl nofun

theorem copied_lands (self next : Frame n) {ch : Choice} (hs : self.entries = [])
    (hn : next.entries = []) (hs' : ∀ a table, self ≠ .selected a table)
    (hn' : ∀ a table, next ≠ .selected a table) :
    Lands t s (copied s t self next ch).1 self (copied s t self next ch).2 := by
  cases ch with
  | fault => exact effect_free rfl hs hs hs'
  | _ => exact effect_free rfl hs hn hn'

theorem execCode_lands {ch : Choice} (hx : execCode s t ch = some (s', nx)) :
    Lands t s s' .code nx := by
  cases ch with
  | select a timeout => cases hx; exact effect_free rfl rfl rfl nofun
  | read p count =>
    simp only [execCode] at hx
    split_ifs at hx
    cases hx
    exact effect_free rfl rfl rfl nofun
  | write p count =>
    simp only [execCode] at hx
    split_ifs at hx
    cases hx
    exact effect_free rfl rfl rfl nofun
  | ttySleep q =>
    simp only [execCode] at hx
    split_ifs at hx
    cases hx
    exact effect_free rfl rfl rfl nofun
  | iput p =>
    cases hx
    exact effect_free (by simp [iput]) rfl rfl nofun
  | pause => cases hx; exact effect_free rfl rfl rfl nofun
  | go => cases hx; exact effect_free rfl rfl rfl nofun
  | fault => cases hx

theorem Lands.of_eq {r : Piece n} (h : Lands t s r.1 f r.2) (hr : some r = some (s', nx)) :
    Lands t s s' f nx := by
  obtain rfl := Option.some.inj hr
  exact h

/-- One piece of code of a task. -/
theorem exec_lands {ch : Choice} (hx : exec t ch s f = some (s', nx)) (hp : f.Proper)
    (hne : ∀ q, (f.link q).isSome = true → s.wait q ≠ none) : Lands t s s' f nx := by
  unfold exec at hx
  split_ifs at hx
  cases f with
  | code => exact execCode_lands hx
  | doSelect a =>
    simp only [doSelect] at hx
    split_ifs at hx <;> cases hx
    · exact lands_ret rfl rfl
    · exact effect_free rfl rfl rfl nofun
  | atRepeat a => exact atRepeat_lands.of_eq hx
  | selected a table => cases hx; exact .of_entries rfl rfl ⟨hp.nodup, nofun⟩
  | freeWait a result table => exact (freeWait_lands hp hne).of_eq hx
  | readPipe p count read => exact (readPipe_lands p count read).of_eq hx
  | putBytes p count read =>
    exact (copied_lands (.putBytes p count read) (.readPipe p count read) rfl rfl nofun nofun).of_eq hx
  | writePipe p count written => exact (writePipe_lands p count written).of_eq hx
  | getBytes p count written =>
    exact (copied_lands (.getBytes p count written) (.writePipe p count written) rfl rfl nofun
      nofun).of_eq hx
  | sleepOn q state => exact (sleepOn_lands state).of_eq hx
  | asleep q tmp =>
    have hq : s.wait q ≠ none := hne q (by simp [Frame.link, Frame.entries, lookup])
    exact Lands.of_eq (r := leave s t q tmp (.asleep q tmp) (.ret .null))
      (leave_lands rfl hp hq fun s' h => h) hx

/-! ## Whole runs -/

variable {S S' S₀ S₁ : State n (Sys n) (Frame n) Empty} {act : Act n Choice (Interrupt n)} {p : ℕ}

/-- The innermost frame of a task. -/
def place (S : State n (Sys n) (Frame n) Empty) (t : Fin n) : Frame n := (S.stack t).headD .code

/-- The tasks on a queue, from its head. -/
def sleepers (S : State n (Sys n) (Frame n) Empty) (q : Queue) : List (Fin n) :=
  walk (fun t => ((place S t).link q).join) n (S.shared.wait q)

structure Ordered (S : State n (Sys n) (Frame n) Empty) : Prop where
  proper : ∀ t, (place S t).Proper
  stack : ∀ q, ∃ l, Stack (fun t => (place S t).link q) (S.shared.wait q) l

theorem Ordered.sleepers (h : Ordered S) (q : Queue) :
    Stack (fun t => (place S t).link q) (S.shared.wait q) (sleepers S q) := by
  obtain ⟨l, hl⟩ := h.stack q
  have := hl.walk_eq
  rw [Fintype.card_fin] at this
  rwa [Select.sleepers, this]

theorem resume_free {v : Value} (h : resume f v = some f') :
    f'.entries = [] ∧ ∀ a table, f' ≠ .selected a table := by
  cases f <;> cases v <;> simp only [resume, Option.some.injEq, reduceCtorEq] at h
  all_goals
    subst h
    exact ⟨rfl, nofun⟩

/-- Everything a step does to the queues and to the tasks on them. -/
theorem Ordered.step_cases (hi : Ordered S) (hs : (program n).step act S = some S') :
    (∃ t f, (S.shared.task t).state = .running ∧ place S' = update (place S) t f ∧
      Effect t S.shared S'.shared (place S t) f) ∨
    (place S' = place S ∧ S'.shared.wait = S.shared.wait) := by
  obtain ⟨-, ⟨t, c, f, fs, σ', nx, -, -, hst, hx, ⟨q, -⟩ | he⟩ | ⟨-, rfl⟩ |
    ⟨i, σ', -, hx, rfl⟩⟩ := Program.step_cases hs
  · exact q.elim
  · obtain ⟨fs', cpu', he, rfl⟩ := he
    have hpl : place S t = f := by simp [place, hst]
    have hrun : (S.shared.task t).state = .running := by
      by_contra hr
      simp [program, exec, hr] at hx
    have hl : Lands t S.shared σ' f nx := exec_lands hx (hpl ▸ hi.proper t) fun q hq => by
      obtain ⟨u, -, hu, -⟩ := (hi.sleepers q).exists_head (t := t) (hpl ▸ hq)
      simp [hu]
    obtain ⟨g, gs, rfl, hg⟩ : ∃ g gs, fs' = g :: gs ∧ Effect t S.shared σ' f g := by
      cases he with
      | goto => exact ⟨_, _, rfl, hl⟩
      | sleep => exact ⟨_, _, rfl, hl⟩
      | call => exact ⟨_, _, rfl, hl⟩
      | ret hr =>
        obtain ⟨hn, hne⟩ := resume_free hr
        exact ⟨_, _, rfl, hl _ hn (proper_of_ne hn hne)⟩
    refine .inl ⟨t, g, hrun, funext fun u => ?_, hpl ▸ hg⟩
    rcases eq_or_ne u t with rfl | hu
    · simp [place]
    · simp [place, hu]
  · exact .inr ⟨rfl, rfl⟩
  · refine .inr ⟨rfl, ?_⟩
    cases i with
    | wakeUp q =>
      simp only [program, interrupt] at hx
      split_ifs at hx
      obtain rfl := Option.some.inj hx
      exact Sys.wait_wakeUp
    | _ =>
      obtain rfl := Option.some.inj hx
      rfl

def Running (S : State n (Sys n) (Frame n) Empty) (t : Fin n) : Prop :=
  (S.shared.task t).state = .running

/-- A queue stays as it is, a task goes on top, or the task on top leaves and makes the next one
run. -/
theorem Ordered.step (hi : Ordered S) (hs : (program n).step act S = some S') : Ordered S' ∧
    ∀ q, Select.sleepers S' q = Select.sleepers S q ∨
      ∃ t, Select.sleepers S' q = t :: Select.sleepers S q ∨
        Select.sleepers S q = t :: Select.sleepers S' q ∧
          ∀ u ∈ (Select.sleepers S' q).head?, Running S' u := by
  obtain ⟨t, f, -, hpl, he⟩ | ⟨hpl, hw⟩ := hi.step_cases hs
  · have hlink : ∀ q, (fun u => (place S' u).link q) =
        update (fun u => (place S u).link q) t (f.link q) := by
      intro q
      rw [hpl]
      exact funext fun u => apply_update (fun _ => Frame.link q) (place S) t f u
    have hshift : ∀ q, ∃ l, Stack (fun u => (place S' u).link q) (S'.shared.wait q) l ∧
        (l = Select.sleepers S q ∨ l = t :: Select.sleepers S q ∨ Select.sleepers S q = t :: l) := by
      intro q
      rw [hlink]
      exact (hi.sleepers q).shift (he.shift q)
    have hi' : Ordered S' := by
      refine ⟨fun u => ?_, fun q => (hshift q).imp fun _ h => h.1⟩
      rw [hpl]
      rcases eq_or_ne u t with rfl | hu
      · simpa using he.proper
      · simpa [hu] using hi.proper u
    refine ⟨hi', fun q => ?_⟩
    obtain ⟨l, hl, h⟩ := hshift q
    obtain rfl : Select.sleepers S' q = l := (hi'.sleepers q).path.unique hl.path
    rcases h with h | h | h
    · exact .inl h
    · exact .inr ⟨t, .inl h⟩
    · refine .inr ⟨t, .inr ⟨h, fun u hu => ?_⟩⟩
      -- What `t` found on the queue is the head that it leaves.
      have hold := hi.sleepers q
      rw [h] at hold
      have hon : ((place S t).link q).isSome = true := (hold.mem t).mp List.mem_cons_self
      have hoff : f.link q = none := by
        have hn : ¬ (f.link q).isSome = true := by
          have := (hl.mem t).not.mp (List.nodup_cons.mp hold.nodup).1
          rwa [hpl, update_self] at this
        simpa using hn
      obtain ⟨old, hlo⟩ := Option.isSome_iff_exists.mp hon
      have hhead : old = (Select.sleepers S' q).head? := by
        have := hold.path.2.head
        dsimp only at this
        rwa [hlo] at this
      rw [Option.mem_def.mp hu] at hhead
      exact he.wakes q u (hlo.trans (congrArg some hhead)) hoff
  · have hl : ∀ q, Select.sleepers S' q = Select.sleepers S q := fun q => by
      simp only [Select.sleepers, hpl, hw]
    refine ⟨⟨fun u => hpl ▸ hi.proper u, fun q => ?_⟩, fun q => .inl (hl q)⟩
    rw [hpl, hw]
    exact hi.stack q

section Start

variable (task : Fin n → Task) (pipe : ℕ → Pipe) (empty full : ℕ → Bool)

theorem ordered_initial : Ordered (initial task pipe empty full) where
  proper _ := proper_of_ne rfl nofun
  stack _ := ⟨[], .empty⟩

variable {task pipe empty full}

theorem ordered_run (h : Run (program n).step Always (initial task pipe empty full) S) : Ordered S :=
  h.invariant (ordered_initial task pipe empty full) fun _ _ _ hi _ hs => (hi.step hs).1

end Start

/-- Asleep in `do_select`, which has found nothing to read in the pipe. -/
def Selects (S : State n (Sys n) (Frame n) Empty) (t : Fin n) (p : ℕ) : Prop :=
  ∃ a table, place S t = .selected a table ∧ Frame.watches p a

/-- A call of `write_pipe` comes to its end. -/
def WriteReturns (S S' : State n (Sys n) (Frame n) Empty) (w : Fin n) (p : ℕ) : Prop :=
  ∃ count written fs, S.stack w = .writePipe p count written :: fs ∧ S'.stack w = fs

/-- A task that is not made to run stays where it is. -/
theorem Ordered.place_eq (hi : Ordered S) (ht : ¬ Running S t)
    (hs : (program n).step act S = some S') : place S' t = place S t := by
  obtain ⟨u, f, hu, hpl, -⟩ | ⟨hpl, -⟩ := hi.step_cases hs
  · rw [hpl, update_of_ne (by rintro rfl; exact ht hu)]
  · rw [hpl]

theorem Ordered.place_run (hi : Ordered S₁) (hr : Run (program n).step (fun S _ => ¬ Running S t) S₁ S) :
    Ordered S ∧ place S t = place S₁ t := by
  refine hr.invariant (I := fun S => Ordered S ∧ place S t = place S₁ t) ⟨hi, rfl⟩ ?_
  rintro S a S' ⟨hi, hp⟩ hn hs
  exact ⟨(hi.step hs).1, (hi.place_eq hn hs).trans hp⟩

/-- `write_pipe` wakes up the head of the queue of the readers before it returns. -/
theorem writePipe_ret {v : Value} {count written : ℕ}
    (h : (writePipe s t p count written).2 = .ret v) (hu : s.wait (.iWait p) = some u) :
    (((writePipe s t p count written).1).task u).state = .running := by
  have hw : ((s.wakeUp (PIPE_READ_WAIT p)).task u).state = .running := by
    simp [Sys.wakeUp, PIPE_READ_WAIT, hu, Sys.rouse]
  unfold writePipe at h ⊢
  dsimp only at h ⊢
  split_ifs at h ⊢
  · exact hw
  all_goals
    rcases eq_or_ne u t with rfl | hut
    · simpa using hw
    · simpa [hut] using hw

theorem writePipe_wait (count written : ℕ) :
    (writePipe s t p count written).1.wait = s.wait := by
  unfold writePipe
  dsimp only
  split_ifs
  · exact Sys.wait_wakeUp
  · exact Sys.wait_wakeUp
  · exact Sys.wait_wakeUp
  · exact Sys.wait_wakeUp
  · rfl

theorem WriteReturns.wakes {w : Fin n} (hw : WriteReturns S S' w p)
    (hs : (program n).step act S = some S') (hu : S.shared.wait (.iWait p) = some u) :
    Running S w ∧ Running S' u ∧ S'.shared.wait = S.shared.wait := by
  obtain ⟨count, written, fs, hst, hst'⟩ := hw
  have hne : S'.stack w ≠ S.stack w := by
    rw [hst, hst']
    exact fun h => List.cons_ne_self _ _ h.symm
  obtain ⟨-, ⟨t, c, f, gs, σ', nx, -, -, hst₂, hx, ⟨q, -⟩ | he⟩ | ⟨-, rfl⟩ | ⟨i, σ', -, -, rfl⟩⟩ :=
    Program.step_cases hs
  · exact q.elim
  · obtain ⟨fs', cpu', he, rfl⟩ := he
    obtain rfl : w = t := by
      by_contra h
      exact hne (update_of_ne h _ _)
    obtain ⟨rfl, rfl⟩ := List.cons.inj (hst.symm.trans hst₂)
    simp only [update_self] at hst'
    have hrun : (S.shared.task w).state = .running := by
      by_contra hr
      simp [program, exec, hr] at hx
    have hx' : writePipe S.shared w p count written = (σ', nx) := by
      simpa [program, exec, hrun] using hx
    cases he with
    | goto => exact absurd hst' (List.cons_ne_self _ _)
    | sleep => exact absurd hst' (List.cons_ne_self _ _)
    | call =>
      have hlen := congrArg List.length hst'
      simp only [List.length_cons] at hlen
      omega
    | ret =>
      have hrun' := writePipe_ret (congrArg Prod.snd hx') hu
      have hwait := writePipe_wait (s := S.shared) (t := w) (p := p) count written
      rw [hx'] at hrun' hwait
      exact ⟨hrun, hrun', hwait⟩
  · exact absurd rfl hne
  · exact absurd rfl hne

/-- A task that sleeps in `do_select` because a pipe was empty has been made to run when a
`write_pipe` returns, or is on the queue of the pipe below a task that has been made to run. Tasks
leave a queue from its head and make the next one run. -/
theorem readers_woken (task : Fin n → Task) (pipe : ℕ → Pipe) (empty full : ℕ → Bool) :
    (∀ S₁ S S' act t w p, Run (program n).step Always (initial task pipe empty full) S₁ →
      Selects S₁ t p → Run (program n).step (fun S _ => ¬ Running S t) S₁ S → ¬ Running S t →
      (program n).step act S = some S' → WriteReturns S S' w p →
      Running S' t ∨ ∃ u l, sleepers S' (.iWait p) = u :: l ∧ t ∈ l ∧ Running S' u) ∧
    ∀ S S' act q t, Run (program n).step Always (initial task pipe empty full) S →
      (program n).step act S = some S' → t ∈ sleepers S q → t ∉ sleepers S' q →
      sleepers S q = t :: sleepers S' q ∧ ∀ u ∈ (sleepers S' q).head?, Running S' u := by
  constructor
  · rintro S₁ S S' act t w p hr ⟨a, table, hpl, hwatch⟩ hr' ht hs hw
    have hi₁ := ordered_run hr
    obtain ⟨hi, hpl'⟩ := hi₁.place_run hr'
    have hpl'' := hi.place_eq ht hs
    -- The entry of the queue has been in the table since the task fell asleep.
    have hon : ((place S t).link (.iWait p)).isSome = true := by
      obtain ⟨e, he, hq⟩ := (hi₁.proper t).watched a table hpl p hwatch
      rw [hpl', hpl, Option.isSome_iff_ne_none]
      exact fun h => lookup_eq_none.mp h e he hq
    obtain ⟨u, l, hu, -⟩ := (hi.sleepers _).exists_head hon
    obtain ⟨-, hrun, hwait⟩ := hw.wakes hs hu
    have hst := ((hi.step hs).1).sleepers (.iWait p)
    obtain ⟨u', l', hu', hl'⟩ := hst.exists_head (t := t) (by rwa [hpl''])
    obtain rfl : u = u' := by
      rw [hwait, hu] at hu'
      exact Option.some.inj hu'
    have hm := (hst.mem t).mpr (by rwa [hpl''])
    rw [hl'] at hm ⊢
    rcases List.mem_cons.mp hm with rfl | hm
    · exact .inl hrun
    · exact .inr ⟨u, l', rfl, hm, hrun⟩
  · intro S S' act q t hr hs ht ht'
    obtain h | ⟨u, h | ⟨h, hrun⟩⟩ := ((ordered_run hr).step hs).2 q
    · exact absurd (h ▸ ht) ht'
    · exact absurd (h ▸ List.mem_cons_of_mem _ ht) ht'
    · rw [h] at ht
      rcases List.mem_cons.mp ht with rfl | ht
      · exact ⟨h, hrun⟩
      · exact absurd ht ht'

/-! ## A reader above a task that selects -/

def readyTask : Task where
  state := .running
  signal := 0
  blocked := 0
  timeout := 0
  alarm := 0

/-- Descriptor 0 is an empty pipe, to be read. -/
def waitForInput : Args where
  inp := 1
  outp := 0
  exp := 0
  filp i := if i = 0 then some (.pipe 0) else none

def start : State 3 (Sys 3) (Frame 3) Empty :=
  initial (fun _ => readyTask) (fun _ => ⟨0, 0, 2⟩) (fun _ => true) fun _ => false

/-- Task 0 selects. -/
def selecting : State 3 (Sys 3) (Frame 3) Empty :=
  (runList (program 3).step [.run 0 (.select waitForInput 1000), .run 0 .go, .run 0 .go] start).get
    (by decide +kernel)

/-- Task 1 reads and sleeps, and task 2 writes one byte. -/
def writing : List (Act 3 Choice (Interrupt 3)) :=
  [.run 1 (.read 0 1), .run 1 .go, .run 1 .go, .run 2 (.write 0 1), .run 2 .go, .run 2 .go]

def written : State 3 (Sys 3) (Frame 3) Empty :=
  (runList (program 3).step writing selecting).get (by decide +kernel)

def returned : State 3 (Sys 3) (Frame 3) Empty :=
  ((program 3).step (.run 2 .go) written).get (by decide +kernel)

theorem selects_selecting : Selects selecting 0 0 :=
  ⟨waitForInput, [⟨none, .iWait 0⟩], rfl, 0, by decide, by decide, rfl⟩

theorem run_selecting : Run (program 3).step (fun S _ => ¬ Running S 0) selecting written :=
  .of_each (by unfold Running; decide +kernel) (Option.some_get _).symm

theorem writeReturns_returned : WriteReturns written returned 2 0 :=
  ⟨0, 1, [.code], rfl, rfl⟩

/-- The writer wakes up the reader only. -/
theorem reader_woken_first : Run (program 3).step Always start selecting ∧ Selects selecting 0 0 ∧
    (selecting.shared.pipe 0).isEmpty = true ∧
    Run (program 3).step (fun S _ => ¬ Running S 0) selecting written ∧
    (program 3).step (.run 2 .go) written = some returned ∧ WriteReturns written returned 2 0 ∧
    (returned.shared.pipe 0).isEmpty = false ∧ ¬ Running returned 0 :=
  ⟨.of_runList_get _, selects_selecting, by decide +kernel, run_selecting, (Option.some_get _).symm,
    writeReturns_returned, by decide +kernel, by unfold Running; decide +kernel⟩

theorem readers_woken_returned : sleepers returned (.iWait 0) = [1, 0] ∧
    (Running returned 0 ∨
      ∃ u l, sleepers returned (.iWait 0) = u :: l ∧ 0 ∈ l ∧ Running returned u) :=
  ⟨by decide +kernel,
    (readers_woken (fun _ => readyTask) (fun _ => ⟨0, 0, 2⟩) (fun _ => true) fun _ => false).1
      selecting written returned (.run 2 .go) 0 2 0 (.of_runList_get _) selects_selecting run_selecting
      (by unfold Running; decide +kernel) (Option.some_get _).symm writeReturns_returned⟩

end Linux012.Select
