import Linux012.Kernel.Pty.Transfer

/-! # Echoes between the sides of a pair

What leaves a write queue is read at the other side. When both sides echo, a letter that is written on one
side is never done: its echo comes back as if it were typed, and `copy_to_cooked` stores it only afterwards.
-/

namespace Linux012.Pty

open Function Linux012.Tty

variable {x y : Side} {p q r p₁ p₂ : Pair} {t : Task} {ts us : List Task} {s : Term} {c : UInt8} {k m n : ℕ}

/-! ## What is delivered -/

theorem Delivered.refl (p : Pair) : Delivered p p := by
  intro x
  refine ⟨[], [], ?_, ?_, ?_⟩
  · rw [List.append_nil]
  · rw [List.append_nil]
  · rw [List.append_nil, List.nil_append]

theorem Delivered.trans (h : Delivered p q) (h' : Delivered q r) : Delivered p r := by
  intro x
  obtain ⟨sent, received, htaken, hcooked, heq⟩ := h x
  obtain ⟨sent', received', htaken', hcooked', heq'⟩ := h' x
  refine ⟨sent ++ sent', received ++ received', ?_, ?_, ?_⟩
  · rw [htaken', htaken, List.append_assoc]
  · rw [hcooked', hcooked, List.append_assoc]
  · rw [← List.append_assoc, heq, List.append_assoc, heq', List.append_assoc]

theorem delivered_set (hr : s.readQ = (p.tty x).readQ) (ht : s.taken = (p.tty x).taken) :
    Delivered p (p.set x s) := by
  have hread : ∀ y, ((p.set x s).tty y).readQ = (p.tty y).readQ := by
    intro y
    by_cases hy : y = x
    · rw [hy, set_self, hr]
    · rw [set_of_ne _ _ hy]
  have htaken : ∀ y, ((p.set x s).tty y).taken = (p.tty y).taken := by
    intro y
    by_cases hy : y = x
    · rw [hy, set_self, ht]
    · rw [set_of_ne _ _ hy]
  intro y
  refine ⟨[], [], ?_, ?_, ?_⟩
  · rw [htaken, List.append_nil]
  · exact (List.append_nil _).symm
  · rw [hread, List.append_nil, List.nil_append]

theorem Moves.delivered (h : Moves x p q) : Delivered p q := by
  intro y
  rcases eq_or_other x y with rfl | rfl
  · refine ⟨[(p.tty y).writeQ.first], [], ?_, ?_, ?_⟩
    · rw [h.source]
      rfl
    · rw [h.cooked, List.append_nil]
    · rw [h.dest, List.nil_append]
      exact (Queue.contents_putch h.room).symm
  · refine ⟨[], [], ?_, ?_, ?_⟩
    · rw [h.dest, List.append_nil]
    · rw [h.cooked, List.append_nil]
    · rw [other_other, h.source, List.append_nil, List.nil_append]
      rfl

theorem Cooks.delivered (h : Cooks x p q ts) : Delivered p q := by
  have hempty : ¬ (p.tty x).readQ.Empty := fun he => (of_decide_eq_false h.busy) (.inl he)
  intro y
  rcases eq_or_other x y with rfl | rfl
  · have hside := h.side y.other (other_ne y)
    refine ⟨[], [], ?_, ?_, ?_⟩
    · rw [h.taken, List.append_nil]
    · rw [h.cooked, update_of_ne (other_ne y), List.append_nil]
    · rw [hside, List.append_nil, List.nil_append]
  · refine ⟨[], [(p.tty x).readQ.first], ?_, ?_, ?_⟩
    · rw [h.side x.other (other_ne x), List.append_nil]
    · rw [other_other, h.cooked, update_self]
    · rw [other_other, h.readQ, List.append_nil]
      exact Queue.contents_getch hempty

theorem expand_delivered (t : Task) (p : Pair) : Delivered p (expand t p).1 := by
  cases t with
  | copy x =>
    show Delivered p (copyRound x p).1
    rcases copyRound_cases x p with ⟨-, heq⟩ | ⟨-, heq⟩ | ⟨p', hmove, ⟨-, heq⟩ | heq⟩
    · rw [heq]
      exact .refl p
    · rw [heq]
      exact .refl p
    · rw [heq]
      exact hmove.delivered
    · rw [heq]
      exact hmove.delivered
  | cook x =>
    show Delivered p (cookRound x p).1
    rcases cookRound_cases x p with ⟨-, heq⟩ | h
    · rw [heq]
      exact .refl p
    · exact h.delivered
  | kill x =>
    show Delivered p (killRound x p).1
    rcases killRound_cases x p with ⟨-, heq⟩ | ⟨-, heq⟩
    · rw [heq]
      exact .refl p
    · rw [heq]
      apply delivered_set
      · rfl
      · rfl
  | erase x =>
    apply delivered_set
    · exact erase_readQ _
    · simp only [Term.erase]
  | store x c =>
    apply delivered_set
    · rfl
    · rfl

theorem exec_delivered (h : exec n ts p = some q) : Delivered p q := by
  induction n generalizing ts p with
  | zero =>
    cases ts with
    | nil =>
      obtain rfl : p = q := Option.some.inj h
      exact .refl p
    | cons t ts => exact nomatch h
  | succ n ih =>
    cases ts with
    | nil =>
      obtain rfl : p = q := Option.some.inj h
      exact .refl p
    | cons t ts => exact (expand_delivered t p).trans (ih h)

/-- Tasks are worked off one after the other. -/
theorem exec_split (h : exec n (ts ++ us) p = some r) :
    ∃ k ≤ n, ∃ q, exec n ts p = some q ∧ exec k us q = some r := by
  induction n generalizing ts p with
  | zero =>
    cases ts with
    | nil => exact ⟨0, le_rfl, p, rfl, h⟩
    | cons t ts => exact nomatch h
  | succ n ih =>
    cases ts with
    | nil => exact ⟨n + 1, le_rfl, p, rfl, h⟩
    | cons t ts =>
      change exec n ((expand t p).2 ++ (ts ++ us)) (expand t p).1 = some r at h
      rw [← List.append_assoc] at h
      obtain ⟨k, hk, q, hq, hr⟩ := ih h
      exact ⟨k, Nat.le_succ_of_le hk, q, hq, hr⟩

/-- The loop of `pty_copy` does not end before there is nothing to copy, or no way to. -/
theorem exec_copy (h : exec n [.copy x] p = some r) :
    ∃ p₁ m, Delivered p p₁ ∧ Stays x p₁ ∧ exec m [.cook x.other] p₁ = some r := by
  induction n using Nat.strong_induction_on generalizing p with
  | h n ih =>
    cases n with
    | zero => exact nomatch h
    | succ n =>
      change exec n ((copyRound x p).2 ++ []) (copyRound x p).1 = some r at h
      rw [List.append_nil] at h
      rcases copyRound_cases x p with ⟨hstays, heq⟩ | ⟨-, heq⟩ | ⟨p', hmove, ⟨hstays, heq⟩ | heq⟩
      · rw [heq] at h
        exact ⟨p, n, .refl p, hstays, h⟩
      · rw [heq] at h
        have h' : exec n ([.cook x.other] ++ [.copy x]) p = some r := h
        obtain ⟨k, hk, q, hq, hr⟩ := exec_split h'
        obtain ⟨p₁, m, hdel, hstays, hm⟩ := ih k (Nat.lt_succ_of_le hk) hr
        exact ⟨p₁, m, (exec_delivered hq).trans hdel, hstays, hm⟩
      · rw [heq] at h
        exact ⟨p', n, hmove.delivered, hstays, h⟩
      · rw [heq] at h
        obtain ⟨p₁, m, hdel, hstays, hm⟩ := ih n (Nat.lt_succ_self n) h
        exact ⟨p₁, m, hmove.delivered.trans hdel, hstays, hm⟩

theorem transfers_of_exec (h : ptyWrite n x p = some r) : Transfers n x p := by
  obtain ⟨p₁, m, hdel, hstays, hm⟩ := exec_copy h
  exact ⟨p₁, r, m, hdel, hstays, exec_delivered hm, hm, h⟩

/-! ## A letter that goes back and forth -/

def letters : Finset UInt8 := ((List.range 26).map fun i => 97 + UInt8.ofNat i).toFinset

/-- The characters of the settings that `copy_to_cooked` does not store -/
def controls : List ℕ := [VINTR, VQUIT, VERASE, VKILL, VSTART, VSTOP, VSUSP]

theorem letters_plain : ∀ c ∈ letters, c ≠ 10 ∧ c ≠ 13 ∧ Term.control c = false ∧
    c < 128 ∧ ¬ (65 ≤ c ∧ c ≤ 90) ∧ c.toInt8.toInt = c.toNat := by
  decide +kernel

/-- The letter is stored and echoed with these settings. -/
structure Plain (c : UInt8) (t : Termios) : Prop where
  letter : c ∈ letters
  free : ∀ i ∈ controls, t.cc i ≠ c
  echo : t.lflag &&& ECHO ≠ 0

theorem isCc_plain {i : ℕ} (h : Plain c s.termios) (hi : i ∈ controls) : s.isCc i c = false := by
  obtain ⟨-, -, -, -, -, hint⟩ := letters_plain c h.letter
  refine decide_eq_false fun ⟨_, heq⟩ => h.free i hi ?_
  rw [hint] at heq
  exact (UInt8.toNat_inj.mp (Int.ofNat.inj heq)).symm

theorem mapped_plain (h : Plain c s.termios) : s.mapped c = some c := by
  obtain ⟨h10, h13, -, hlt, hupper, -⟩ := letters_plain c h.letter
  have hlower : s.tolower c = c := by
    unfold Term.tolower Term.isupper
    rw [if_pos hlt, decide_eq_false hupper]
    rfl
  unfold Term.mapped
  dsimp only
  rw [if_neg h13, if_neg (show ¬ (c = 10 ∧ s.hasI INLCR = true) from fun hnl => h10 hnl.1)]
  split
  · rw [Option.map_some, hlower]
  · rfl

theorem effect_plain (h : Plain c s.termios) : s.effect c = .store c := by
  unfold Term.effect
  rw [mapped_plain h]
  dsimp only
  rw [isCc_plain h (by decide : VKILL ∈ controls), isCc_plain h (by decide : VERASE ∈ controls),
    isCc_plain h (by decide : VSTOP ∈ controls), isCc_plain h (by decide : VSTART ∈ controls),
    isCc_plain h (by decide : VINTR ∈ controls), isCc_plain h (by decide : VQUIT ∈ controls),
    isCc_plain h (by decide : VSUSP ∈ controls)]
  simp

theorem echo_plain (h : Plain c s.termios) : s.echo (.store c) = [c] := by
  obtain ⟨h10, -, hcontrol, -, -, -⟩ := letters_plain c h.letter
  have hecho : s.hasL ECHO = true := decide_eq_true h.echo
  unfold Term.echo
  dsimp only
  rw [if_pos hecho, if_neg h10, hcontrol]
  rfl

/-- There is a letter that is special on neither side. -/
theorem exists_plain {t : Side → Termios} (h : ∀ x, (t x).lflag &&& ECHO ≠ 0) : ∃ c, ∀ x, Plain c (t x) := by
  let special : Finset UInt8 := ((controls.map (t .master).cc) ++ controls.map (t .slave).cc).toFinset
  have hcard : special.card < letters.card := by
    refine (List.toFinset_card_le _).trans_lt ?_
    rw [List.length_append, List.length_map, List.length_map]
    decide
  obtain ⟨c, hc, hfree⟩ := Finset.exists_mem_notMem_of_card_lt_card hcard
  refine ⟨c, fun x => ⟨hc, fun i hi heq => hfree ?_, h x⟩⟩
  rw [List.mem_toFinset, List.mem_append]
  cases x with
  | master => exact .inl (List.mem_map.mpr ⟨i, hi, heq⟩)
  | slave => exact .inr (List.mem_map.mpr ⟨i, hi, heq⟩)

/-- A terminal that takes and echoes the letter -/
structure Ready (c : UInt8) (s : Term) : Prop where
  plain : Plain c s.termios
  going : s.stopped = false
  room : ¬ s.secondary.Full

/-- The letter is in the write queue of `x`, nothing else is under way. -/
structure Written (c : UInt8) (x : Side) (p : Pair) : Prop where
  ready : ∀ y, Ready c (p.tty y)
  readQ : ∀ y, (p.tty y).readQ.contents = []
  writeQ : (p.tty x).writeQ.contents = [c]
  other : (p.tty x.other).writeQ.contents = []

/-- The letter is in the read queue of `x`. -/
structure Arrived (c : UInt8) (x : Side) (p : Pair) : Prop where
  ready : ∀ y, Ready c (p.tty y)
  writeQ : ∀ y, (p.tty y).writeQ.contents = []
  readQ : (p.tty x).readQ.contents = [c]
  other : (p.tty x.other).readQ.contents = []

theorem empty_iff_contents (w : Queue) : w.Empty ↔ w.contents = [] := by
  rw [Queue.empty_iff, ← Queue.length_contents, List.length_eq_zero_iff]

theorem not_full_of_contents {w : Queue} {cs : List UInt8} (h : w.contents = cs) (hcs : cs.length ≤ 1) :
    ¬ w.Full := by
  intro hfull
  have hsum := w.left_add_chars
  have hleft : w.left = 0 := hfull
  rw [← Queue.length_contents, h, hleft] at hsum
  unfold TTY_BUF_SIZE at hsum
  omega

theorem getch_singleton {w : Queue} (h : w.contents = [c]) : w.first = c ∧ w.getch.contents = [] := by
  have hempty : ¬ w.Empty := by
    rw [empty_iff_contents, h]
    exact List.cons_ne_nil c []
  rw [Queue.contents_getch hempty] at h
  exact List.cons.inj h

theorem putch_nil {w : Queue} (h : w.contents = []) (c : UInt8) : (w.putch c).contents = [c] := by
  rw [Queue.contents_putch (not_full_of_contents h (Nat.zero_le 1)), h]
  rfl

/-- The loop moves the letter and comes to its end in a round or two. -/
theorem written_copy (h : Written c x p) :
    Arrived c x.other (copyRound x p).1 ∧
      ((copyRound x p).2 = [.cook x.other] ∨ (copyRound x p).2 = [.copy x]) := by
  have hgoing : ¬ (p.tty x).stopped = true := by
    rw [(h.ready x).going]
    exact Bool.false_ne_true
  have hsome : ¬ (p.tty x).writeQ.Empty := by
    rw [empty_iff_contents, h.writeQ]
    exact List.cons_ne_nil c []
  have hroom : ¬ (p.tty x.other).readQ.Full := not_full_of_contents (h.readQ x.other) (Nat.zero_le 1)
  obtain ⟨hfirst, hrest⟩ := getch_singleton h.writeQ
  have hmoved : ∀ k, Arrived c x.other { p.move x with tests := k } := by
    intro k
    have hsource := move_source p x
    have hdest := move_dest p x
    refine ⟨fun y => ?_, fun y => ?_, ?_, ?_⟩
    · rcases eq_or_other x y with rfl | rfl
      · exact hsource ▸ ⟨(h.ready y).plain, (h.ready y).going, (h.ready y).room⟩
      · exact hdest ▸ ⟨(h.ready _).plain, (h.ready _).going, (h.ready _).room⟩
    · rcases eq_or_other x y with rfl | rfl
      · rw [hsource]
        exact hrest
      · rw [hdest]
        exact h.other
    · rw [hdest, hfirst]
      exact putch_nil (h.readQ x.other) c
    · rw [other_other, hsource]
      exact h.readQ x
  unfold copyRound
  rw [if_pos ⟨hgoing, hsome⟩, if_neg hroom]
  dsimp only
  refine ⟨hmoved _, ?_⟩
  split
  · exact .inl rfl
  · exact .inr rfl

theorem arrived_copy (h : Arrived c x.other p) : copyRound x p = (p, [.cook x.other]) := by
  have hempty : (p.tty x).writeQ.Empty := (empty_iff_contents _).mpr (h.writeQ x)
  unfold copyRound
  rw [if_neg fun hgo => hgo.2 hempty]

/-- The letter is echoed before it is stored. -/
theorem arrived_cook (h : Arrived c x p) :
    Written c x (cookRound x p).1 ∧ (cookRound x p).2 = [.copy x, .store x c, .cook x] := by
  have hready := h.ready x
  have hsome : ¬ (p.tty x).readQ.Empty := by
    rw [empty_iff_contents, h.readQ]
    exact List.cons_ne_nil c []
  have hidle : (p.tty x).idle = false := by
    refine decide_eq_false fun hor => ?_
    rcases hor with hempty | hfull
    · exact hsome hempty
    · exact hready.room hfull
  obtain ⟨hfirst, hrest⟩ := getch_singleton h.readQ
  have hecho : (p.tty x).hasL ECHO = true := decide_eq_true hready.plain.echo
  have hround : cookRound x p = ((p.getch x).set x (((p.getch x).tty x).output [c]),
      [.copy x, .store x c, .cook x]) := by
    unfold cookRound echoing
    dsimp only
    rw [hidle, hfirst, effect_plain hready.plain]
    dsimp only
    have hecho' : ((p.getch x).tty x).hasL ECHO = true := by
      rw [getch_self]
      exact hecho
    rw [echo_plain hready.plain, hecho']
    rfl
  rw [hround]
  refine ⟨⟨fun y => ?_, fun y => ?_, ?_, ?_⟩, rfl⟩
  · rcases eq_or_other x y with rfl | rfl
    · rw [set_self, getch_self]
      exact ⟨hready.plain, hready.going, hready.room⟩
    · rw [set_other, getch_of_ne p (other_ne x)]
      exact h.ready x.other
  · rcases eq_or_other x y with rfl | rfl
    · rw [set_self, getch_self]
      exact hrest
    · rw [set_other, getch_of_ne p (other_ne x)]
      exact h.other
  · rw [set_self, getch_self]
    exact putch_nil (h.writeQ x) c
  · rw [set_other, getch_of_ne p (other_ne x)]
    exact h.writeQ x.other

/-- The other side echoes the letter, and so on. -/
theorem exec_written (n : ℕ) (h : Written c x p) (ts : List Task) : exec n (.copy x :: ts) p = none := by
  induction n using Nat.strong_induction_on generalizing x p ts with
  | h n ih =>
    have hcook : ∀ k < n, ∀ q, Arrived c x.other q → exec k (.cook x.other :: ts) q = none := by
      intro k hk q hq
      cases k with
      | zero => rfl
      | succ k =>
        obtain ⟨hwritten, htasks⟩ := arrived_cook hq
        show exec k ((cookRound x.other q).2 ++ ts) (cookRound x.other q).1 = none
        rw [htasks]
        exact ih k (by omega) hwritten _
    cases n with
    | zero => rfl
    | succ n =>
      show exec n ((copyRound x p).2 ++ ts) (copyRound x p).1 = none
      obtain ⟨harrived, htasks | htasks⟩ := written_copy h
      · rw [htasks]
        exact hcook n (Nat.lt_succ_self n) _ harrived
      · rw [htasks]
        cases n with
        | zero => rfl
        | succ n =>
          show exec n ((copyRound x (copyRound x p).1).2 ++ ts) (copyRound x (copyRound x p).1).1 = none
          rw [arrived_copy harrived]
          exact hcook n (by omega) _ harrived

/-! ## When a transfer ends -/

/-- The pair with these settings, with nothing in the queues -/
def fresh (t : Side → Termios) : Pair where
  tty x :=
    { termios := t x
      serial := false
      stopped := false
      readQ := .initial
      writeQ := .initial
      secondary := .initial
      below := fun _ => 0
      crFlag := false
      killing := 0
      testing := fun _ => false
      taking := false
      put := []
      taken := [] }
  sig _ := false
  tests := 0
  cooked _ := []

/-- A character is waiting to be written on the side. -/
def typed (t : Side → Termios) (x : Side) (c : UInt8) : Pair :=
  (fresh t).set x (((fresh t).tty x).output [c])

theorem written_typed {t : Side → Termios} (h : ∀ x, Plain c (t x)) (x : Side) : Written c x (typed t x c) := by
  have hempty : Queue.initial.contents = [] := rfl
  have hroom : ¬ Queue.initial.Full := not_full_of_contents hempty (Nat.zero_le 1)
  unfold typed
  refine ⟨fun y => ?_, fun y => ?_, ?_, ?_⟩
  · rcases eq_or_other x y with rfl | rfl
    · rw [set_self]
      exact ⟨h y, rfl, hroom⟩
    · rw [set_other]
      exact ⟨h _, rfl, hroom⟩
  · rcases eq_or_other x y with rfl | rfl
    · rw [set_self]
      exact hempty
    · rw [set_other]
      exact hempty
  · rw [set_self]
    exact putch_nil hempty c
  · rw [set_other]
    exact hempty

/-- With these settings every transfer ends, after a bounded number of rounds. -/
def Bounded (t : Side → Termios) : Prop :=
  ∃ n, ∀ p : Pair, (∀ x, (p.tty x).termios = t x) → ∀ x, Transfers n x p

/-- With these settings every transfer ends. -/
def Ends (t : Side → Termios) : Prop :=
  ∀ p : Pair, (∀ x, (p.tty x).termios = t x) → ∀ x, ∃ n, Transfers n x p

theorem bounded_of_quiet {t : Side → Termios} (h : (t y).lflag &&& ECHO = 0) : Bounded t := by
  obtain ⟨n, hn⟩ := halts y.other
  refine ⟨n, fun p hp x => ?_⟩
  have hq : Quiet y.other.other p := by
    rw [other_other]
    refine decide_eq_false fun hne => hne ?_
    rw [hp, h]
  obtain ⟨m, hm, q, hrun⟩ := hn (.copy x) p hq
  obtain ⟨k, rfl⟩ := Nat.exists_eq_add_of_le hm
  exact transfers_of_exec (hrun.exec k)

theorem not_ends {t : Side → Termios} (h : ∀ x, (t x).lflag &&& ECHO ≠ 0) : ¬ Ends t := by
  obtain ⟨c, hc⟩ := exists_plain h
  intro hends
  have hsettings : ∀ x, ((typed t .master c).tty x).termios = t x := set_termios (fresh t) .master _ rfl
  obtain ⟨n, p₁, p₂, m, -, -, -, -, hwrite⟩ := hends (typed t .master c) hsettings .master
  rw [ptyWrite, exec_written n (written_typed hc .master)] at hwrite
  exact nomatch hwrite

/-- Every transfer ends just if one of the sides does not echo, and then in bounded time. -/
theorem transfers_iff (t : Side → Termios) :
    (Bounded t ↔ ∃ x, (t x).lflag &&& ECHO = 0) ∧ (Ends t ↔ ∃ x, (t x).lflag &&& ECHO = 0) := by
  have hends : Bounded t → Ends t := fun ⟨n, hn⟩ p hp x => ⟨n, hn p hp x⟩
  have hquiet : Ends t → ∃ x, (t x).lflag &&& ECHO = 0 := by
    intro h
    by_contra hnone
    exact not_ends (fun x hx => hnone ⟨x, hx⟩) h
  constructor
  · constructor
    · exact fun h => hquiet (hends h)
    · exact fun ⟨x, hx⟩ => bounded_of_quiet hx
  · constructor
    · exact hquiet
    · exact fun ⟨x, hx⟩ => hends (bounded_of_quiet hx)

/-- The settings of `tty_init` for a pair, and both sides echo -/
def echoBoth : Side → Termios
  | .master => ⟨0, 0, ECHO, fun i => [3, 28, 127, 21, 4, 0, 1, 0, 17, 19, 26].getD i 0⟩
  | .slave =>
    ⟨0, 0, IXON ||| ISIG ||| ICANON ||| ECHO, fun i => [3, 28, 127, 21, 4, 0, 1, 0, 17, 19, 26].getD i 0⟩

/-- An `a` that is written on the master goes back and forth. -/
theorem letter_bounces :
    (∀ x, ((typed echoBoth .master 97).tty x).termios = echoBoth x) ∧
      ∀ n, ptyWrite n .master (typed echoBoth .master 97) = none := by
  have hplain : ∀ x, Plain 97 (echoBoth x) := by
    intro x
    cases x with
    | master => exact ⟨by decide, by decide, by decide⟩
    | slave => exact ⟨by decide, by decide, by decide⟩
  constructor
  · exact set_termios (fresh echoBoth) .master _ rfl
  · exact fun n => exec_written n (written_typed hplain .master) []

end Linux012.Pty
