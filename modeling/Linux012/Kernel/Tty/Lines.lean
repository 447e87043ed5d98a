import Linux012.Kernel.Tty.Output

/-! # Lines of a terminal

`secondary->data` is to count the characters of the queue that end a line. Characters are tested when they
come in and when they go out, each time against the settings of that moment.
-/

namespace Linux012.Tty

open Function Runs

/-- Newline or the current EOF character. -/
def Termios.delimits (t : Termios) (c : UInt8) : Bool := c = 10 ∨ t.cc VEOF ≠ POSIX_VDISABLE ∧ c = t.cc VEOF

namespace Term

/-- The delimiters in the secondary queue. -/
def lines (s : Term) : ℕ := s.secondary.contents.countP s.termios.delimits

/-- The current EOF character is negative as a `signed char` and is not recognized. -/
def odd (s : Term) (c : UInt8) : Bool := c = s.termios.cc VEOF ∧ 128 ≤ c

end Term

/-- The counter is right, and so are the tests of `tty_read`. A full read queue lets it go on without a
line. -/
structure Exact (s : Term) : Prop where
  counted : s.secondary.data.toNat = s.lines
  sleeps : s.hasL ICANON → s.mustWait → s.lines = 0
  goesOn : s.hasL ICANON → ¬ s.mustWait → ¬ s.readQ.Full → 0 < s.lines
  filled : s.taking → ¬ s.secondary.Empty

/-- What is erased is recognized, and `tty_read` is not about to take it. -/
def Erases (s : Term) : Prop :=
  s.erasable → ¬ s.odd s.secondary.last ∧ (s.taking → s.secondary.chars ≠ 1)

/-- What an effect must not do to the counter. -/
def Counts (s : Term) : Effect → Prop
  | .store c => ¬ s.odd c
  | .erase => Erases s
  | _ => True

/-- The settings change only with as many delimiters in the queue as before, and no unrecognized EOF
character is stored, erased or read. -/
def Steady (s : Term) : Act → Prop
  | .cook => ¬ s.idle → Counts s (s.effect s.readQ.first)
  | .killOne => Erases s
  | .get => ¬ s.odd s.secondary.first
  | .setTermios t => s.secondary.contents.countP t.delimits = s.lines
  | _ => True

variable {s s' : Term} {a : Act} {c : UInt8}

theorem isCc_iff {i : ℕ} :
    s.isCc i c ↔ s.termios.cc i ≠ POSIX_VDISABLE ∧ c = s.termios.cc i ∧ c < 128 := by
  unfold Term.isCc
  rw [decide_eq_true_iff]
  refine and_congr_right fun _ => ?_
  change c.toBitVec.toInt = _ ↔ _
  rw [BitVec.toInt_eq_toNat_cond]
  have hc := c.toNat_lt
  have he := (s.termios.cc i).toNat_lt
  rw [← UInt8.toNat_inj, UInt8.lt_iff_toNat_lt]
  change (if 2 * c.toNat < 2 ^ 8 then _ else _) = _ ↔ _
  change (if 2 * c.toNat < 2 ^ 8 then (c.toNat : ℤ) else (c.toNat : ℤ) - (2 ^ 8 : ℕ)) = _ ↔ _ ∧ c.toNat < 128
  split_ifs <;> omega

theorem delimits_iff : s.termios.delimits c ↔ c = 10 ∨ s.termios.cc VEOF ≠ POSIX_VDISABLE ∧ c = s.termios.cc VEOF :=
  decide_eq_true_iff

/-- What the tests of `tty_read` need follows from the counter. -/
theorem exact_iff_data : Exact s ↔ s.secondary.data.toNat = s.lines ∧ (s.taking → ¬ s.secondary.Empty) := by
  constructor
  · intro h
    exact ⟨h.counted, h.filled⟩
  · rintro ⟨hc, hf⟩
    refine ⟨hc, fun _ hw => ?_, fun hl hw hfull => ?_, hf⟩
    · rcases of_decide_eq_true hw with hempty | ⟨-, -, h0⟩
      · have hle : s.lines ≤ s.secondary.contents.length := List.countP_le_length
        rw [Queue.length_contents, (Queue.empty_iff _).mp hempty] at hle
        omega
      · rw [← hc, h0]
        rfl
    · rw [← hc]
      apply Nat.pos_of_ne_zero
      intro h0
      exact hw (decide_eq_true (.inr ⟨hl, hfull, UInt32.toNat_inj.mp h0⟩))

theorem Exact.congr (h : Exact s) (hq : s'.secondary = s.secondary) (ht : s'.termios = s.termios)
    (hr : s'.taking = s.taking) : Exact s' := by
  rw [exact_iff_data] at h ⊢
  unfold Term.lines at h ⊢
  rw [hq, ht, hr]
  exact h

theorem contents_store (hfull : ¬ s.secondary.Full) :
    (s.store c).secondary.contents = s.secondary.contents ++ [c] :=
  Queue.contents_putch (q := { s.secondary with data := _ }) hfull

variable (termios : Termios) (serial : Bool) (below : UInt8 → UInt8)

end Linux012.Tty
