import Mathlib.Data.Prod.Lex
import Linux012.Kernel.Pty.Basic

/-! # Transfers end where one side does not echo

The side that does not echo, `a.other`, only gets what is in the queues. So the characters that the side `a`
can still process get fewer, and between two of them every loop has its own bound. With an echo on both sides
a letter goes back and forth for ever.
-/

namespace Linux012.Pty

open Function Linux012.Tty

variable {a x y : Side} {p q r p' : Pair} {t t' : Task} {ts : List Task} {s : Term} {k m n : ℕ}

/-! ## Runs of the stack -/

/-- The tasks are worked off one after the other, in so many steps. -/
inductive Runs : ℕ → List Task → Pair → Pair → Prop
  | nil (p : Pair) : Runs 0 [] p p
  | cons {m n : ℕ} {t : Task} {ts : List Task} {p q r : Pair} :
      Runs m (expand t p).2 (expand t p).1 q → Runs n ts q r → Runs (m + n + 1) (t :: ts) p r

theorem Runs.exec_append (h : Runs n ts p q) (fuel : ℕ) (us : List Task) :
    exec (n + fuel) (ts ++ us) p = exec fuel us q := by
  induction h generalizing fuel us with
  | nil => rw [Nat.zero_add, List.nil_append]
  | @cons m n t ts p q r _ _ ih ih' =>
    rw [show m + n + 1 + fuel = m + (n + fuel) + 1 by omega]
    show Pty.exec (m + (n + fuel)) ((expand t p).2 ++ (ts ++ us)) (expand t p).1 = _
    rw [ih, ih']

theorem exec_nil (fuel : ℕ) (p : Pair) : exec fuel [] p = some p := by
  cases fuel <;> rfl

theorem Runs.exec (h : Runs n ts p q) (fuel : ℕ) : exec (n + fuel) ts p = some q := by
  have hrun := h.exec_append fuel []
  rwa [List.append_nil, exec_nil] at hrun

/-- They are worked off in at most so many steps. -/
def Halts (n : ℕ) (ts : List Task) (p : Pair) : Prop := ∃ m ≤ n, ∃ q, Runs m ts p q

theorem Halts.mono (h : Halts m ts p) (hle : m ≤ n) : Halts n ts p := by
  obtain ⟨k, hk, q, hrun⟩ := h
  exact ⟨k, hk.trans hle, q, hrun⟩

theorem halts_nil (n : ℕ) (p : Pair) : Halts n [] p := ⟨0, Nat.zero_le n, p, .nil p⟩

theorem Halts.of_expand (h : Halts n (expand t p).2 (expand t p).1) : Halts (n + 1) [t] p := by
  obtain ⟨k, hk, q, hrun⟩ := h
  exact ⟨k + 0 + 1, Nat.succ_le_succ hk, q, .cons hrun (.nil q)⟩

theorem Runs.expand_of_single (h : Runs n [t] p q) :
    ∃ m, n = m + 1 ∧ Runs m (expand t p).2 (expand t p).1 q := by
  cases h with
  | cons h h' =>
    cases h'
    exact ⟨_, rfl, h⟩

theorem Halts.cons (h : Halts m [t] p) (hts : ∀ k q, Runs k [t] p q → Halts n ts q) :
    Halts (m + n) (t :: ts) p := by
  obtain ⟨k, hk, q, hq⟩ := h
  obtain ⟨l, hl, r, hr⟩ := hts k q hq
  obtain ⟨k', rfl, hq'⟩ := hq.expand_of_single
  exact ⟨k' + l + 1, by omega, r, .cons hq' hr⟩

/-! ## The two sides -/

@[simp] theorem other_other (x : Side) : x.other.other = x := by
  cases x <;> rfl

theorem other_ne (x : Side) : x.other ≠ x := by
  cases x <;> decide

theorem eq_or_other (a x : Side) : x = a ∨ x = a.other := by
  cases a <;> cases x <;> decide

@[simp] theorem set_self (p : Pair) (x : Side) (s : Term) : (p.set x s).tty x = s := update_self ..

theorem set_of_ne (p : Pair) (s : Term) (h : y ≠ x) : (p.set x s).tty y = p.tty y := update_of_ne h ..

theorem set_other (p : Pair) (x : Side) (s : Term) : (p.set x s).tty x.other = p.tty x.other :=
  set_of_ne p s (other_ne x)

/-! ## What the rounds do -/

theorem erase_readQ (s : Term) : s.erase.readQ = s.readQ := by
  simp only [Term.erase]

theorem erase_writeQ (s : Term) : s.erase.writeQ = s.writeQ := by
  simp only [Term.erase]

theorem erase_termios (s : Term) : s.erase.termios = s.termios := by
  simp only [Term.erase]

/-- The task works on this side. -/
def OnSide (x : Side) : Task → Prop
  | .copy y | .cook y | .kill y | .erase y | .store y _ => y = x

/-- A round of `copy_to_cooked` takes a character and may write an echo. -/
structure Cooks (x : Side) (p p' : Pair) (ts : List Task) : Prop where
  side : ∀ y, y ≠ x → p'.tty y = p.tty y
  busy : (p.tty x).idle = false
  readQ : (p'.tty x).readQ = (p.tty x).readQ.getch
  cooked : p'.cooked = update p.cooked x (p.cooked x ++ [(p.tty x).readQ.first])
  secondary : (p'.tty x).secondary = (p.tty x).secondary
  termios : (p'.tty x).termios = (p.tty x).termios
  taken : (p'.tty x).taken = (p.tty x).taken
  writeQ : (p.tty x).hasL ECHO = false → (p'.tty x).writeQ = (p.tty x).writeQ
  tasks : ∀ t ∈ ts, OnSide x t
  length : ts.length ≤ 3

theorem getch_self (p : Pair) (x : Side) :
    (p.getch x).tty x = { p.tty x with readQ := (p.tty x).readQ.getch } := update_self ..

theorem getch_of_ne (p : Pair) (h : y ≠ x) : (p.getch x).tty y = p.tty y := update_of_ne h ..

theorem output_of_quiet {cs : List UInt8} (hcs : s.hasL ECHO = false → cs = []) (h : s.hasL ECHO = false) :
    (s.output cs).writeQ = s.writeQ := by
  rw [hcs h]
  rfl

theorem rubout_of_quiet (h : s.hasL ECHO = false) : s.rubout = [] := by
  unfold Term.rubout
  rw [h]
  rfl

theorem echo_of_quiet {c : UInt8} (h : s.hasL ECHO = false) : s.echo (.store c) = [] := by
  unfold Term.echo
  rw [h]
  rfl

/-- The character is taken, and what else changes is neither a queue that is read nor the settings. -/
theorem cooks_set (hidle : (p.tty x).idle = false) (hr : s.readQ = (p.tty x).readQ.getch)
    (hsec : s.secondary = (p.tty x).secondary) (ht : s.termios = (p.tty x).termios)
    (htaken : s.taken = (p.tty x).taken) (hw : (p.tty x).hasL ECHO = false → s.writeQ = (p.tty x).writeQ)
    (hts : ∀ t ∈ ts, OnSide x t) (hlen : ts.length ≤ 3) : Cooks x p ((p.getch x).set x s) ts := by
  refine ⟨fun y hy => ?_, hidle, ?_, rfl, ?_, ?_, ?_, ?_, hts, hlen⟩
  · rw [set_of_ne _ _ hy, getch_of_ne p hy]
  · rw [set_self]
    exact hr
  · rw [set_self]
    exact hsec
  · rw [set_self]
    exact ht
  · rw [set_self]
    exact htaken
  · rw [set_self]
    exact hw

theorem cookRound_cases (x : Side) (p : Pair) :
    (p.tty x).idle = true ∧ cookRound x p = (p, []) ∨ Cooks x p (cookRound x p).1 (cookRound x p).2 := by
  cases hidle : (p.tty x).idle with
  | true =>
    refine .inl ⟨rfl, ?_⟩
    unfold cookRound
    exact if_pos hidle
  | false =>
    right
    have hsame : ∀ ts, (∀ t ∈ ts, OnSide x t) → ts.length ≤ 3 → Cooks x p (p.getch x) ts := by
      intro ts hts hlen
      have h := cooks_set (s := (p.getch x).tty x) hidle (by rw [getch_self]) (by rw [getch_self])
        (by rw [getch_self]) (by rw [getch_self]) (fun _ => by rw [getch_self]) hts hlen
      rwa [show (p.getch x).set x ((p.getch x).tty x) = p.getch x by
        unfold Pair.set
        rw [update_eq_self]] at h
    have hecho : ∀ (cs : List UInt8) (rest : List Task), ((p.tty x).hasL ECHO = false → cs = []) →
        (∀ t ∈ rest, OnSide x t) → rest.length ≤ 2 →
          Cooks x p (echoing (p.getch x) x cs).1 ((echoing (p.getch x) x cs).2 ++ rest) := by
      intro cs rest hcs hrest hlen
      refine cooks_set hidle (by rw [getch_self]; rfl) (by rw [getch_self]; rfl) (by rw [getch_self]; rfl)
        (by rw [getch_self]; rfl) (fun h => ?_) (fun t ht => ?_) ?_
      · rw [hcs h, getch_self]
        rfl
      · rcases List.mem_append.mp ht with ht | ht
        · dsimp only [echoing] at ht
          split at ht
          · rw [List.mem_singleton.mp ht]
            rfl
          · exact nomatch ht
        · exact hrest t ht
      · rw [List.length_append]
        dsimp only [echoing]
        split
        · rw [List.length_singleton]
          omega
        · rw [List.length_nil]
          omega
    unfold cookRound
    simp only [hidle, Bool.false_eq_true, if_false]
    split
    · exact hsame _ (by simp [OnSide]) (by simp)
    · exact hsame _ (by simp [OnSide]) (by simp)
    · exact hsame _ (by simp [OnSide]) (by simp)
    · split
      · exact hecho _ _ (fun h => rubout_of_quiet h) (by simp [OnSide]) (by simp)
      · exact hsame _ (by simp [OnSide]) (by simp)
    · exact cooks_set hidle (by rw [getch_self]) (by rw [getch_self]) (by rw [getch_self]) (by rw [getch_self])
        (fun _ => by rw [getch_self]) (by simp [OnSide]) (by simp)
    · exact cooks_set hidle (by rw [getch_self]) (by rw [getch_self]) (by rw [getch_self]) (by rw [getch_self])
        (fun _ => by rw [getch_self]) (by simp [OnSide]) (by simp)
    · exact hecho _ _ (fun h => echo_of_quiet h) (by simp [OnSide]) (by simp)

/-- A round of the loop that kills a line writes the echo, if any. -/
theorem killRound_cases (x : Side) (p : Pair) :
    (p.tty x).erasable = false ∧ killRound x p = (p, []) ∨
      (p.tty x).erasable = true ∧ killRound x p =
        (p.set x ((p.tty x).output (p.tty x).rubout),
          (if (p.tty x).hasL ECHO then [.copy x] else []) ++ [.erase x, .kill x]) := by
  cases h : (p.tty x).erasable with
  | false =>
    refine .inl ⟨rfl, ?_⟩
    unfold killRound
    exact if_neg (Bool.eq_false_iff.mp h)
  | true =>
    refine .inr ⟨rfl, ?_⟩
    unfold killRound
    exact if_pos h

/-- `pty_copy` moves one character from a write queue to the other read queue, which has room. -/
structure Moves (x : Side) (p p' : Pair) : Prop where
  source : p'.tty x = (p.tty x).take
  dest : p'.tty x.other = { p.tty x.other with readQ := (p.tty x.other).readQ.putch (p.tty x).writeQ.first }
  cooked : p'.cooked = p.cooked
  some : ¬ (p.tty x).writeQ.Empty
  room : ¬ (p.tty x.other).readQ.Full

theorem move_source (p : Pair) (x : Side) : (p.move x).tty x = (p.tty x).take := by
  unfold Pair.move
  rw [set_of_ne _ _ (other_ne x).symm, set_self]

theorem move_dest (p : Pair) (x : Side) : (p.move x).tty x.other =
    { p.tty x.other with readQ := (p.tty x.other).readQ.putch (p.tty x).writeQ.first } := by
  unfold Pair.move
  rw [set_self]

/-- The other side is made to read, or a character is moved. -/
theorem copyRound_cases (x : Side) (p : Pair) :
    Stays x p ∧ copyRound x p = (p, [.cook x.other]) ∨
      (p.tty x.other).idle = false ∧ copyRound x p = (p, [.cook x.other, .copy x]) ∨
      ∃ p', Moves x p p' ∧
        (Stays x p' ∧ copyRound x p = (p', [.cook x.other]) ∨ copyRound x p = (p', [.copy x])) := by
  unfold copyRound
  split
  · rename_i hgo
    split
    · rename_i hfull
      split
      · rename_i hsec
        exact .inl ⟨.inr (.inr (.inl ⟨hfull, hsec⟩)), rfl⟩
      · rename_i hsec
        refine .inr (.inl ⟨decide_eq_false ?_, rfl⟩)
        rintro (hempty | hsec')
        · have h₁ := (Queue.empty_iff _).mp hempty
          have h₂ := (p.tty x.other).readQ.left_add_chars
          have h₃ : (p.tty x.other).readQ.left = 0 := hfull
          rw [h₁, h₃] at h₂
          exact absurd h₂ (by decide)
        · exact hsec hsec'
    · rename_i hroom
      refine .inr (.inr ⟨{ p.move x with tests := (p.move x).tests + 1 },
        ⟨move_source p x, move_dest p x, rfl, hgo.2, hroom⟩, ?_⟩)
      dsimp only
      split
      · rename_i hsig
        exact .inl ⟨.inr (.inr (.inr ⟨_, rfl, hsig⟩)), rfl⟩
      · exact .inr rfl
  · rename_i hgo
    refine .inl ⟨?_, rfl⟩
    rcases not_and_or.mp hgo with hstop | hempty
    · exact .inl (by simpa using hstop)
    · exact .inr (.inl (not_not.mp hempty))

/-! ## What is left to process -/

/-- The side does not echo. -/
def Quiet (x : Side) (p : Pair) : Prop := (p.tty x).hasL ECHO = false

/-- The characters that the side can still take from its read queue, when the other one does not echo -/
def supply (a : Side) (p : Pair) : ℕ := (p.tty a).readQ.chars + (p.tty a.other).writeQ.chars

theorem Quiet.congr (h : Quiet x p) (ht : (q.tty x).termios = (p.tty x).termios) : Quiet x q := by
  unfold Quiet Term.hasL at h ⊢
  rw [ht]
  exact h

theorem Moves.tty (h : Moves x p q) (y : Side) :
    (q.tty y).termios = (p.tty y).termios ∧ (q.tty y).secondary = (p.tty y).secondary := by
  rcases eq_or_other x y with rfl | rfl
  · rw [h.source]
    exact ⟨rfl, rfl⟩
  · rw [h.dest]
    exact ⟨rfl, rfl⟩

theorem Cooks.termios_eq (h : Cooks x p q ts) (y : Side) : (q.tty y).termios = (p.tty y).termios := by
  by_cases hy : y = x
  · subst hy
    exact h.termios
  · rw [h.side y hy]

theorem set_termios (p : Pair) (x : Side) (s : Term) (hs : s.termios = (p.tty x).termios) (y : Side) :
    ((p.set x s).tty y).termios = (p.tty y).termios := by
  by_cases hy : y = x
  · subst hy
    rw [set_self]
    exact hs
  · rw [set_of_ne _ _ hy]

/-- The settings stay. -/
theorem expand_termios (t : Task) (p : Pair) (y : Side) :
    ((expand t p).1.tty y).termios = (p.tty y).termios := by
  cases t with
  | copy x =>
    show ((copyRound x p).1.tty y).termios = _
    rcases copyRound_cases x p with ⟨-, heq⟩ | ⟨-, heq⟩ | ⟨p', hmove, ⟨-, heq⟩ | heq⟩
    · rw [heq]
    · rw [heq]
    · rw [heq]
      exact (hmove.tty y).1
    · rw [heq]
      exact (hmove.tty y).1
  | cook x =>
    show ((cookRound x p).1.tty y).termios = _
    rcases cookRound_cases x p with ⟨-, heq⟩ | h
    · rw [heq]
    · exact h.termios_eq y
  | kill x =>
    show ((killRound x p).1.tty y).termios = _
    rcases killRound_cases x p with ⟨-, heq⟩ | ⟨-, heq⟩
    · rw [heq]
    · rw [heq]
      exact set_termios p x ((p.tty x).output (p.tty x).rubout) rfl y
  | erase x => exact set_termios p x (p.tty x).erase (erase_termios _) y
  | store x c => exact set_termios p x ((p.tty x).store c) rfl y

theorem runs_quiet (h : Runs n ts p q) (hq : Quiet x p) : Quiet x q := by
  induction h with
  | nil => exact hq
  | cons _ _ ih ih' => exact ih' (ih (hq.congr (expand_termios _ _ _)))

/-- What a task that is not the loop of the side `a` leaves of its supply, of its write queue and of what the
other side has to read -/
structure Leaves (a : Side) (p q : Pair) : Prop where
  writeQ : (q.tty a).writeQ = (p.tty a).writeQ
  readQ : (q.tty a.other).readQ.chars ≤ (p.tty a.other).readQ.chars

theorem Moves.supply_eq (h : Moves x p q) : supply a q = supply a p := by
  unfold supply
  rcases eq_or_other a x with rfl | rfl
  · rw [h.source, h.dest]
    rfl
  · have hd := h.dest
    rw [other_other] at hd
    rw [h.source, hd]
    have h₁ := Queue.chars_getch h.some
    have hroom := h.room
    rw [other_other] at hroom
    have h₂ := Queue.chars_putch (c := (p.tty a.other).writeQ.first) hroom
    show (((p.tty a).readQ.putch _).chars) + (p.tty a.other).writeQ.getch.chars = _
    omega

theorem Cooks.readQ_chars (h : Cooks x p q ts) : (q.tty x).readQ.chars + 1 = (p.tty x).readQ.chars := by
  have hempty : ¬ (p.tty x).readQ.Empty := fun he => (of_decide_eq_false h.busy) (.inl he)
  rw [h.readQ]
  exact Queue.chars_getch hempty

theorem Cooks.supply_lt (h : Cooks a p q ts) : supply a q < supply a p := by
  have := h.readQ_chars
  unfold supply
  rw [h.side a.other (other_ne a)]
  omega

theorem Cooks.supply_eq (h : Cooks a.other p q ts) (hq : Quiet a.other p) : supply a q = supply a p := by
  unfold supply
  rw [h.side a (other_ne a).symm, h.writeQ hq]

theorem supply_set (hr : s.readQ = (p.tty x).readQ) (hw : x = a.other → s.writeQ = (p.tty x).writeQ) :
    supply a (p.set x s) = supply a p := by
  unfold supply
  rcases eq_or_other a x with rfl | rfl
  · rw [set_self, set_other, hr]
  · rw [set_self, hw rfl, set_of_ne _ _ (other_ne a).symm]

theorem supply_output {cs : List UInt8} (hcs : (p.tty x).hasL ECHO = false → cs = []) (hq : Quiet a.other p) :
    supply a (p.set x ((p.tty x).output cs)) = supply a p := by
  apply supply_set
  · rfl
  · rintro rfl
    exact output_of_quiet hcs hq

theorem expand_supply (t : Task) (hq : Quiet a.other p) : supply a (expand t p).1 ≤ supply a p := by
  cases t with
  | copy x =>
    show supply a (copyRound x p).1 ≤ _
    rcases copyRound_cases x p with ⟨-, heq⟩ | ⟨-, heq⟩ | ⟨p', hmove, ⟨-, heq⟩ | heq⟩
    · rw [heq]
    · rw [heq]
    · rw [heq]
      exact hmove.supply_eq.le
    · rw [heq]
      exact hmove.supply_eq.le
  | cook x =>
    show supply a (cookRound x p).1 ≤ _
    rcases cookRound_cases x p with ⟨-, heq⟩ | h
    · rw [heq]
    · rcases eq_or_other a x with rfl | rfl
      · exact h.supply_lt.le
      · exact (h.supply_eq hq).le
  | kill x =>
    show supply a (killRound x p).1 ≤ _
    rcases killRound_cases x p with ⟨-, heq⟩ | ⟨-, heq⟩
    · rw [heq]
    · rw [heq]
      exact (supply_output rubout_of_quiet hq).le
  | erase x => exact (supply_set (erase_readQ _) fun _ => erase_writeQ _).le
  | store x c =>
    have hset : supply a (p.set x ((p.tty x).store c)) = supply a p := supply_set rfl fun _ => rfl
    exact hset.le

theorem runs_supply (h : Runs n ts p q) (hq : Quiet a.other p) : supply a q ≤ supply a p := by
  induction h with
  | nil => exact le_rfl
  | @cons m n t ts p q r h _ ih ih' =>
    have hq' : Quiet a.other (expand t p).1 := hq.congr (expand_termios t p _)
    exact (ih' (runs_quiet h hq')).trans ((ih hq').trans (expand_supply t hq))

/-! ## What stays while the supply stays -/

/-- The task is not a loop of the side `a` over its output or over a line. -/
def Calm (a : Side) : Task → Prop
  | .cook _ => True
  | .copy x | .kill x | .erase x | .store x _ => x = a.other

def Mild (a : Side) (t : Task) : Prop := Calm a t ∨ t = .copy a

theorem OnSide.calm (h : OnSide a.other t) : Calm a t := by
  cases t with
  | cook x => trivial
  | _ => exact h

theorem Calm.mild (h : Calm a t) : Mild a t := .inl h

/-- One step of a calm task -/
theorem expand_calm (hq : Quiet a.other p) (ht : Calm a t) (heq : supply a (expand t p).1 = supply a p) :
    (∀ t' ∈ (expand t p).2, Calm a t') ∧ (p.tty a).secondary = ((expand t p).1.tty a).secondary ∧
      Leaves a p (expand t p).1 := by
  have hset : ∀ s : Term, s.readQ = (p.tty a.other).readQ →
      (p.tty a).secondary = ((p.set a.other s).tty a).secondary ∧ Leaves a p (p.set a.other s) := by
    intro s hr
    have hne := (other_ne a).symm
    refine ⟨by rw [set_of_ne _ _ hne], by rw [set_of_ne _ _ hne], ?_⟩
    rw [set_self, hr]
  cases t with
  | copy x =>
    obtain rfl : x = a.other := ht
    show (∀ t' ∈ (copyRound a.other p).2, Calm a t') ∧ _ = ((copyRound a.other p).1.tty a).secondary ∧
      Leaves a p (copyRound a.other p).1
    rcases copyRound_cases a.other p with ⟨-, heq'⟩ | ⟨-, heq'⟩ | ⟨p', hmove, ⟨-, heq'⟩ | heq'⟩
    · rw [heq']
      exact ⟨by simp [Calm], rfl, rfl, le_rfl⟩
    · rw [heq']
      exact ⟨by simp [Calm], rfl, rfl, le_rfl⟩
    all_goals
      have hd := hmove.dest
      rw [other_other] at hd
      rw [heq']
      refine ⟨by simp [Calm], (hmove.tty a).2.symm, by rw [hd], ?_⟩
      rw [hmove.source]
      exact le_rfl
  | cook x =>
    show (∀ t' ∈ (cookRound x p).2, Calm a t') ∧ _ = ((cookRound x p).1.tty a).secondary ∧
      Leaves a p (cookRound x p).1
    rcases cookRound_cases x p with ⟨-, heq'⟩ | h
    · rw [heq']
      exact ⟨fun t' ht' => (nomatch ht'), rfl, rfl, le_rfl⟩
    · rcases eq_or_other a x with rfl | rfl
      · exact absurd heq h.supply_lt.ne
      · have hside := h.side a (other_ne a).symm
        refine ⟨fun t' ht' => (h.tasks t' ht').calm, by rw [hside], by rw [hside], ?_⟩
        have := h.readQ_chars
        omega
  | kill x =>
    obtain rfl : x = a.other := ht
    show (∀ t' ∈ (killRound a.other p).2, Calm a t') ∧ _ = ((killRound a.other p).1.tty a).secondary ∧
      Leaves a p (killRound a.other p).1
    rcases killRound_cases a.other p with ⟨-, heq'⟩ | ⟨-, heq'⟩
    · rw [heq']
      exact ⟨fun t' ht' => (nomatch ht'), rfl, rfl, le_rfl⟩
    · rw [heq', show (p.tty a.other).hasL ECHO = false from hq]
      exact ⟨by simp [Calm], hset ((p.tty a.other).output (p.tty a.other).rubout) rfl⟩
  | erase x =>
    obtain rfl : x = a.other := ht
    exact ⟨fun t' ht' => (nomatch ht'), hset (p.tty a.other).erase (erase_readQ _)⟩
  | store x c =>
    obtain rfl : x = a.other := ht
    exact ⟨fun t' ht' => (nomatch ht'), hset ((p.tty a.other).store c) rfl⟩

theorem expand_mild (hq : Quiet a.other p) (ht : Mild a t) (heq : supply a (expand t p).1 = supply a p) :
    (∀ t' ∈ (expand t p).2, Mild a t') ∧ ((expand t p).1.tty a).secondary = (p.tty a).secondary := by
  rcases ht with ht | rfl
  · obtain ⟨htasks, hsec, -⟩ := expand_calm hq ht heq
    exact ⟨fun t' ht' => (htasks t' ht').mild, hsec.symm⟩
  · show (∀ t' ∈ (copyRound a p).2, Mild a t') ∧ ((copyRound a p).1.tty a).secondary = _
    rcases copyRound_cases a p with ⟨-, heq'⟩ | ⟨-, heq'⟩ | ⟨p', hmove, ⟨-, heq'⟩ | heq'⟩
    · rw [heq']
      exact ⟨by simp [Mild, Calm], rfl⟩
    · rw [heq']
      exact ⟨by simp [Mild, Calm], rfl⟩
    · rw [heq']
      exact ⟨by simp [Mild, Calm], (hmove.tty a).2⟩
    · rw [heq']
      exact ⟨by simp [Mild, Calm], (hmove.tty a).2⟩

/-- Calm tasks leave the side `a` alone, unless it takes a character. -/
theorem runs_calm (h : Runs n ts p q) (hq : Quiet a.other p) (hts : ∀ t ∈ ts, Calm a t)
    (heq : supply a q = supply a p) : Leaves a p q := by
  induction h with
  | nil => exact ⟨rfl, le_rfl⟩
  | @cons m n t ts p q r h₁ h₂ ih₁ ih₂ =>
    have hq₁ : Quiet a.other (expand t p).1 := hq.congr (expand_termios t p _)
    have hq₂ := runs_quiet h₁ hq₁
    have hle₀ := expand_supply t hq
    have hle₁ := runs_supply h₁ hq₁
    have hle₂ := runs_supply h₂ hq₂
    obtain ⟨htasks, -, hleaves⟩ := expand_calm hq (hts t List.mem_cons_self) (by omega)
    have hl₁ := ih₁ hq₁ htasks (by omega)
    have hl₂ := ih₂ hq₂ (fun t' ht' => hts t' (List.mem_cons_of_mem _ ht')) (by omega)
    exact ⟨hl₂.writeQ.trans (hl₁.writeQ.trans hleaves.writeQ), hl₂.readQ.trans (hl₁.readQ.trans hleaves.readQ)⟩

theorem runs_mild (h : Runs n ts p q) (hq : Quiet a.other p) (hts : ∀ t ∈ ts, Mild a t)
    (heq : supply a q = supply a p) : (q.tty a).secondary = (p.tty a).secondary := by
  induction h with
  | nil => rfl
  | @cons m n t ts p q r h₁ h₂ ih₁ ih₂ =>
    have hq₁ : Quiet a.other (expand t p).1 := hq.congr (expand_termios t p _)
    have hq₂ := runs_quiet h₁ hq₁
    have hle₀ := expand_supply t hq
    have hle₁ := runs_supply h₁ hq₁
    have hle₂ := runs_supply h₂ hq₂
    obtain ⟨htasks, hsec⟩ := expand_mild hq (hts t List.mem_cons_self) (by omega)
    have hl₁ := ih₁ hq₁ htasks (by omega)
    have hl₂ := ih₂ hq₂ (fun t' ht' => hts t' (List.mem_cons_of_mem _ ht')) (by omega)
    exact hl₂.trans (hl₁.trans hsec)

/-! ## Every task ends -/

/-- While the supply stays, the loop may call those of a lower rank. -/
def rank (a : Side) : Task → ℕ
  | .cook x => if x = a then 0 else 2
  | .copy x => if x = a then 3 else 1
  | .kill x => if x = a then 4 else 1
  | .erase _ | .store _ _ => 0

/-- It gets less with each round while the supply stays. -/
def bound (p : Pair) : Task → ℕ
  | .cook x => (p.tty x).readQ.chars
  | .copy x => 2 * (p.tty x).writeQ.chars + (p.tty x.other).readQ.chars
  | .kill x => (p.tty x).secondary.chars
  | .erase _ | .store _ _ => 0

def measure (a : Side) (p : Pair) (t : Task) : ℕ ×ₗ ℕ ×ₗ ℕ :=
  toLex (supply a p, toLex (rank a t, bound p t))

theorem measure_lt (hle : supply a q ≤ supply a p)
    (h : supply a q = supply a p → rank a t' < rank a t ∨ rank a t' = rank a t ∧ bound q t' < bound p t) :
    measure a q t' < measure a p t := by
  apply Prod.Lex.toLex_lt_toLex.mpr
  rcases lt_or_eq_of_le hle with hlt | heq
  · exact .inl hlt
  · refine .inr ⟨heq, ?_⟩
    apply Prod.Lex.toLex_lt_toLex.mpr
    rcases h heq with hrank | ⟨hrank, hbound⟩
    · exact .inl hrank
    · exact .inr ⟨hrank, hbound⟩

/-- Tasks end one after the other when each ends from wherever the ones before it can lead. -/
theorem halts_of_forall (hq : Quiet a.other p)
    (h : ∀ t ∈ ts, ∀ q, Quiet a.other q → supply a q ≤ supply a p → Halts k [t] q) :
    Halts (k * ts.length) ts p := by
  induction ts generalizing p with
  | nil => exact halts_nil _ p
  | cons t ts ih =>
    have htail : Halts (k + k * ts.length) (t :: ts) p := by
      refine (h t List.mem_cons_self p hq le_rfl).cons fun n q hrun => ?_
      have hle := runs_supply hrun hq
      exact ih (runs_quiet hrun hq) fun t' ht' r hr hler => h t' (List.mem_cons_of_mem _ ht') r hr (hler.trans hle)
    exact htail.mono (by rw [List.length_cons, Nat.mul_succ, Nat.add_comm])

theorem halts_of_calm (hq : Quiet a.other p) (hts : ∀ t ∈ ts, Calm a t)
    (h : ∀ t ∈ ts, ∀ q, Quiet a.other q → supply a q ≤ supply a p →
      (supply a q = supply a p → (q.tty a.other).readQ.chars ≤ (p.tty a.other).readQ.chars) → Halts k [t] q) :
    Halts (k * ts.length) ts p := by
  induction ts generalizing p with
  | nil => exact halts_nil _ p
  | cons t ts ih =>
    have htail : Halts (k + k * ts.length) (t :: ts) p := by
      refine (h t List.mem_cons_self p hq le_rfl fun _ => le_rfl).cons fun n q hrun => ?_
      have hle := runs_supply hrun hq
      refine ih (runs_quiet hrun hq) (fun t' ht' => hts t' (List.mem_cons_of_mem _ ht')) ?_
      intro t' ht' r hr hler hread
      refine h t' (List.mem_cons_of_mem _ ht') r hr (hler.trans hle) fun heq => ?_
      have hcalm : ∀ t' ∈ [t], Calm a t' :=
        fun t' ht' => List.mem_singleton.mp ht' ▸ hts t List.mem_cons_self
      have hleaves := runs_calm hrun hq hcalm (by omega)
      exact (hread (by omega)).trans hleaves.readQ
    exact htail.mono (by rw [List.length_cons, Nat.mul_succ, Nat.add_comm])

/-- A side that can take a character takes one. -/
theorem runs_cook_supply (h : Runs n [.cook a] p q) (hidle : (p.tty a).idle = false) (hq : Quiet a.other p) :
    supply a q < supply a p := by
  obtain ⟨m, -, hrun⟩ := h.expand_of_single
  change Runs m (cookRound a p).2 (cookRound a p).1 q at hrun
  rcases cookRound_cases a p with ⟨hidle', -⟩ | hcooks
  · rw [hidle] at hidle'
    exact nomatch hidle'
  · have hq' : Quiet a.other (cookRound a p).1 := hq.congr (hcooks.termios_eq _)
    exact (runs_supply hrun hq').trans_lt hcooks.supply_lt

theorem runs_cook_other (h : Runs n [.cook a.other] p q) (hidle : (p.tty a.other).idle = false)
    (hq : Quiet a.other p) (heq : supply a q = supply a p) :
    (q.tty a).writeQ = (p.tty a).writeQ ∧ (q.tty a.other).readQ.chars < (p.tty a.other).readQ.chars := by
  obtain ⟨m, -, hrun⟩ := h.expand_of_single
  change Runs m (cookRound a.other p).2 (cookRound a.other p).1 q at hrun
  rcases cookRound_cases a.other p with ⟨hidle', -⟩ | hcooks
  · rw [hidle] at hidle'
    exact nomatch hidle'
  · have hq' : Quiet a.other (cookRound a.other p).1 := hq.congr (hcooks.termios_eq _)
    have hleaves := runs_calm hrun hq' (fun t ht => (hcooks.tasks t ht).calm)
      (heq.trans (hcooks.supply_eq hq).symm)
    have hchars := hcooks.readQ_chars
    have hread := hleaves.readQ
    refine ⟨?_, by omega⟩
    rw [hleaves.writeQ, hcooks.side a (other_ne a).symm]

section Halting

variable (ih : ∀ t' q, measure a q t' < measure a p t → Quiet a.other q → Halts k [t'] q)

include ih

/-- A step leads to tasks of a lower rank. -/
theorem halts_of_rank (hle : supply a q ≤ supply a p) (hq : Quiet a.other q)
    (hrank : rank a t' < rank a t) : Halts k [t'] q :=
  ih t' q (measure_lt hle fun _ => .inl hrank) hq

/-- The calls of a round of the side `a` find less to take, those of the other side less to read. -/
theorem halts_cook (ht : t = .cook x) (hq : Quiet a.other p) : Halts (k * 3 + 1) [t] p := by
  subst ht
  apply Halts.of_expand
  show Halts (k * 3) (cookRound x p).2 (cookRound x p).1
  rcases cookRound_cases x p with ⟨-, heq⟩ | hcooks
  · rw [heq]
    exact halts_nil _ p
  · have hq' : Quiet a.other (cookRound x p).1 := hq.congr (hcooks.termios_eq _)
    refine Halts.mono ?_ (Nat.mul_le_mul_left k hcooks.length)
    rcases eq_or_other a x with rfl | rfl
    · refine halts_of_forall hq' fun t' _ r hr hler => ih t' r (measure_lt ?_ ?_) hr
      · exact hler.trans hcooks.supply_lt.le
      · intro heq
        have := hcooks.supply_lt
        omega
    · have heq := hcooks.supply_eq hq
      have hchars := hcooks.readQ_chars
      refine halts_of_calm hq' (fun t' ht' => (hcooks.tasks t' ht').calm) ?_
      intro t' ht' r hr hler hread
      refine ih t' r (measure_lt (hler.trans heq.le) fun heq' => ?_) hr
      have hside := hcooks.tasks t' ht'
      have hread' := hread (heq'.trans heq.symm)
      have hrank : rank a (.cook a.other) = 2 := if_neg (other_ne a)
      rw [hrank]
      cases t' with
      | cook y =>
        obtain rfl : y = a.other := hside
        refine .inr ⟨hrank, ?_⟩
        show (r.tty a.other).readQ.chars < (p.tty a.other).readQ.chars
        omega
      | copy y =>
        obtain rfl : y = a.other := hside
        refine .inl ?_
        rw [show rank a (.copy a.other) = 1 from if_neg (other_ne a)]
        decide
      | kill y =>
        obtain rfl : y = a.other := hside
        refine .inl ?_
        rw [show rank a (.kill a.other) = 1 from if_neg (other_ne a)]
        decide
      | erase y => exact .inl (by decide : 0 < 2)
      | store y c => exact .inl (by decide : 0 < 2)

theorem halts_copy (ht : t = .copy x) (hq : Quiet a.other p) : Halts (k * 3 + 1) [t] p := by
  subst ht
  have hrank : rank a (.cook x.other) < rank a (.copy x) := by
    rcases eq_or_other a x with rfl | rfl
    · rw [show rank x (.cook x.other) = 2 from if_neg (other_ne x),
        show rank x (.copy x) = 3 from if_pos rfl]
      decide
    · rw [other_other, show rank a (.cook a) = 0 from if_pos rfl,
        show rank a (.copy a.other) = 1 from if_neg (other_ne a)]
      decide
  have hcook : ∀ q, supply a q ≤ supply a p → Quiet a.other q → Halts k [.cook x.other] q :=
    fun q hle hq' => halts_of_rank ih hle hq' hrank
  apply Halts.of_expand
  show Halts (k * 3) (copyRound x p).2 (copyRound x p).1
  rcases copyRound_cases x p with ⟨-, heq⟩ | ⟨hidle, heq⟩ | ⟨p', hmove, ⟨-, heq⟩ | heq⟩
  · rw [heq]
    exact (hcook p le_rfl hq).mono (by omega)
  · rw [heq]
    refine Halts.mono ((hcook p le_rfl hq).cons fun n q hrun => ?_) (by omega : k + k ≤ k * 3)
    refine ih (.copy x) q (measure_lt (runs_supply hrun hq) fun heq' => .inr ⟨rfl, ?_⟩) (runs_quiet hrun hq)
    rcases eq_or_other a x with rfl | rfl
    · obtain ⟨hwrite, hread⟩ := runs_cook_other hrun hidle hq heq'
      unfold bound
      dsimp only
      rw [hwrite]
      omega
    · rw [other_other] at hrun hidle
      exact absurd heq' (runs_cook_supply hrun hidle hq).ne
  · rw [heq]
    exact (hcook p' hmove.supply_eq.le (hq.congr (hmove.tty _).1)).mono (by omega)
  · rw [heq]
    refine Halts.mono (ih (.copy x) p' (measure_lt hmove.supply_eq.le fun _ => .inr ⟨rfl, ?_⟩)
      (hq.congr (hmove.tty _).1)) (by omega)
    have h₁ := Queue.chars_getch hmove.some
    have h₂ := Queue.chars_putch (c := (p.tty x).writeQ.first) hmove.room
    unfold bound
    dsimp only
    rw [hmove.source, hmove.dest]
    show 2 * (p.tty x).writeQ.getch.chars + ((p.tty x.other).readQ.putch _).chars < _
    omega

/-- What is left of a round of the loop that kills a line, when the echo is written -/
theorem halts_erase_kill (hk : 1 ≤ k) (herasable : (p.tty x).erasable = true) (ht : t = .kill x)
    (hq : Quiet a.other q) (hle : supply a q ≤ supply a p)
    (hsec : supply a q = supply a p → (q.tty x).secondary = (p.tty x).secondary) :
    Halts (k * 2) [.erase x, .kill x] q := by
  subst ht
  have hq' : Quiet a.other (q.set x (q.tty x).erase) :=
    hq.congr (set_termios q x (q.tty x).erase (erase_termios _) _)
  have heq : supply a (q.set x (q.tty x).erase) = supply a q :=
    supply_set (erase_readQ _) fun _ => erase_writeQ _
  have hkill : Halts k [.kill x] (q.set x (q.tty x).erase) := by
    refine ih (.kill x) _ (measure_lt (heq.le.trans hle) fun heq' => .inr ⟨rfl, ?_⟩) hq'
    show ((q.set x (q.tty x).erase).tty x).secondary.chars < (p.tty x).secondary.chars
    have hchars := Term.chars_erase herasable
    rw [set_self, ← hchars]
    unfold Term.erase
    rw [hsec (heq.symm.trans heq')]
    exact Nat.lt_succ_self _
  have herase : Halts 1 [.erase x] q := Halts.of_expand (halts_nil 0 _)
  refine Halts.mono (herase.cons fun n r hrun => ?_) (by omega : 1 + k ≤ k * 2)
  obtain ⟨m, -, hrun'⟩ := hrun.expand_of_single
  cases hrun'
  exact hkill

theorem halts_kill (hk : 1 ≤ k) (ht : t = .kill x) (hq : Quiet a.other p) : Halts (k * 3 + 1) [t] p := by
  subst ht
  apply Halts.of_expand
  show Halts (k * 3) (killRound x p).2 (killRound x p).1
  rcases killRound_cases x p with ⟨-, heq⟩ | ⟨herasable, heq⟩
  · rw [heq]
    exact halts_nil _ p
  · rw [heq]
    dsimp only
    have hq' : Quiet a.other (p.set x ((p.tty x).output (p.tty x).rubout)) :=
      hq.congr (set_termios p x ((p.tty x).output (p.tty x).rubout) rfl _)
    have hsupply : supply a (p.set x ((p.tty x).output (p.tty x).rubout)) = supply a p :=
      supply_output rubout_of_quiet hq
    split
    · rename_i hecho
      rcases eq_or_other a x with rfl | rfl
      · have hcopy : Halts k [.copy x] (p.set x ((p.tty x).output (p.tty x).rubout)) := by
          apply halts_of_rank ih hsupply.le hq'
          rw [show rank x (.copy x) = 3 from if_pos rfl, show rank x (.kill x) = 4 from if_pos rfl]
          decide
        refine Halts.mono (hcopy.cons fun n q hrun => ?_) (by omega : k + k * 2 ≤ k * 3)
        have hle := runs_supply hrun hq'
        refine halts_erase_kill ih hk herasable rfl (runs_quiet hrun hq') (hle.trans hsupply.le) ?_
        intro heq'
        have hmild : ∀ t' ∈ [Task.copy x], Mild x t' := fun t' ht' => .inr (List.mem_singleton.mp ht')
        rw [runs_mild hrun hq' hmild (heq'.trans hsupply.symm), set_self]
        rfl
      · rw [show (p.tty a.other).hasL ECHO = false from hq] at hecho
        exact nomatch hecho
    · refine Halts.mono (halts_erase_kill ih hk herasable rfl hq' hsupply.le fun _ => ?_)
        (Nat.mul_le_mul_left k (by decide))
      rw [set_self]
      rfl

end Halting

/-- A call whose loops have less to do than in so many steps takes three times as many. -/
theorem halts_of_measure (hk : 1 ≤ k) (ih : ∀ t' q, measure a q t' < measure a p t → Quiet a.other q → Halts k [t'] q)
    (hq : Quiet a.other p) : Halts (k * 3 + 1) [t] p := by
  cases ht : t with
  | copy x => exact ht ▸ halts_copy ih ht hq
  | cook x => exact ht ▸ halts_cook ih ht hq
  | kill x => exact ht ▸ halts_kill ih hk ht hq
  | erase x => exact Halts.of_expand (halts_nil _ _)
  | store x c => exact Halts.of_expand (halts_nil _ _)

theorem exists_finset (b c d : ℕ) :
    ∃ S : Finset (ℕ ×ₗ ℕ ×ₗ ℕ), ∀ i < b, ∀ j < c, ∀ l < d, toLex (i, toLex (j, l)) ∈ S := by
  refine ⟨(Finset.range b ×ˢ Finset.range c ×ˢ Finset.range d).image fun m => toLex (m.1, toLex m.2), ?_⟩
  intro i hi j hj l hl
  refine Finset.mem_image.mpr ⟨(i, j, l), ?_, rfl⟩
  simp only [Finset.mem_product, Finset.mem_range]
  exact ⟨hi, hj, hl⟩

theorem chars_le (q : Queue) : q.chars ≤ 1023 := by
  have hsum := q.left_add_chars
  unfold TTY_BUF_SIZE at hsum
  omega

theorem rank_lt (a : Side) (t : Task) : rank a t < 5 := by
  cases t with
  | erase x => exact (by decide : 0 < 5)
  | store x c => exact (by decide : 0 < 5)
  | _ =>
    unfold rank
    dsimp only
    split
    · decide
    · decide

theorem bound_lt (p : Pair) (t : Task) : bound p t < 3070 := by
  cases t with
  | cook x =>
    have hread := chars_le (p.tty x).readQ
    unfold bound
    dsimp only
    omega
  | copy x =>
    have hwrite := chars_le (p.tty x).writeQ
    have hread := chars_le (p.tty x.other).readQ
    unfold bound
    dsimp only
    omega
  | kill x =>
    have hsecondary := chars_le (p.tty x).secondary
    unfold bound
    dsimp only
    omega
  | erase x => exact Nat.zero_lt_succ _
  | store x c => exact Nat.zero_lt_succ _

/-- The queues hold so many characters, so there are finitely many measures. -/
theorem exists_measures (a : Side) : ∃ S : Finset (ℕ ×ₗ ℕ ×ₗ ℕ), ∀ p t, measure a p t ∈ S := by
  obtain ⟨S, hS⟩ := exists_finset 2047 5 3070
  refine ⟨S, fun p t => hS _ ?_ _ (rank_lt a t) _ (bound_lt p t)⟩
  have hread := chars_le (p.tty a).readQ
  have hwrite := chars_le (p.tty a.other).writeQ
  unfold supply
  omega

/-- Every call ends where a side does not echo, after a number of steps that does not depend on the queues. -/
theorem halts (a : Side) : ∃ n, ∀ t p, Quiet a.other p → Halts n [t] p := by
  obtain ⟨S, hS⟩ := exists_measures a
  have hone : ∀ m : ℕ ×ₗ ℕ ×ₗ ℕ, ∃ n, ∀ t p, Quiet a.other p → measure a p t = m → Halts n [t] p := by
    intro m
    induction m using WellFoundedLT.induction with
    | ind m ih =>
      choose! steps hsteps using ih
      refine ⟨(S.sup steps + 1) * 3 + 1, fun t p hq hm => ?_⟩
      refine halts_of_measure (Nat.le_add_left ..) (fun t' q hlt hq' => ?_) hq
      have hle : steps (measure a q t') ≤ S.sup steps := Finset.le_sup (hS q t')
      exact (hsteps _ (hm ▸ hlt) t' q hq' rfl).mono (Nat.le_succ_of_le hle)
  choose steps hsteps using hone
  refine ⟨S.sup steps, fun t p hq => ?_⟩
  exact (hsteps _ t p hq rfl).mono (Finset.le_sup (hS p t))

end Linux012.Pty
