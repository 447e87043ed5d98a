import Linux012.Kernel.Tty.Basic

/-! # Output of a terminal

Nothing that is put into the write queue is lost as long as every character finds room. `tty_write` looks
before it puts a character, the echo does not.
-/

namespace Linux012.Tty

open Function Runs

variable {q : Queue} {s s' : Term} {a : Act} {c : UInt8} {cs : List UInt8}

/-! ## Queues -/

namespace Queue

theorem left_add_chars (q : Queue) : q.left + q.chars = TTY_BUF_SIZE - 1 := by
  have hh := q.head_lt
  have ht := q.tail_lt
  unfold left chars
  unfold TTY_BUF_SIZE at *
  omega

theorem empty_iff (q : Queue) : q.Empty ↔ q.chars = 0 := by
  have hh := q.head_lt
  have ht := q.tail_lt
  unfold Empty chars
  unfold TTY_BUF_SIZE at *
  omega

@[simp] theorem length_contents (q : Queue) : q.contents.length = q.chars := Ring.length_slice

theorem head_eq (q : Queue) : q.head = (q.tail + q.chars) % TTY_BUF_SIZE := by
  have hh := q.head_lt
  have ht := q.tail_lt
  unfold chars
  unfold TTY_BUF_SIZE at *
  omega

theorem chars_putch (h : ¬ q.Full) : (q.putch c).chars = q.chars + 1 := by
  have hh := q.head_lt
  have ht := q.tail_lt
  unfold Full left at h
  unfold chars putch
  dsimp only
  unfold TTY_BUF_SIZE at *
  omega

/-- On a full queue head meets tail. -/
theorem chars_putch_full (h : q.Full) : (q.putch c).chars = 0 := by
  have hh := q.head_lt
  have ht := q.tail_lt
  unfold Full left at h
  unfold chars putch
  dsimp only
  unfold TTY_BUF_SIZE at *
  omega

theorem contents_putch (h : ¬ q.Full) : (q.putch c).contents = q.contents ++ [c] := by
  have hlt : q.chars < TTY_BUF_SIZE := by
    have := q.left_add_chars
    unfold TTY_BUF_SIZE at *
    omega
  unfold contents
  rw [chars_putch h, Ring.slice_succ_last]
  unfold putch
  dsimp only
  rw [← head_eq, update_self, head_eq, Ring.slice_update hlt]

theorem chars_getch (h : ¬ q.Empty) : q.getch.chars + 1 = q.chars := by
  have hh := q.head_lt
  have ht := q.tail_lt
  unfold Empty at h
  unfold chars getch
  dsimp only
  unfold TTY_BUF_SIZE at *
  omega

theorem contents_getch (h : ¬ q.Empty) : q.contents = q.first :: q.getch.contents := by
  unfold contents
  rw [← chars_getch h, Ring.slice_succ, Nat.mod_eq_of_lt q.tail_lt, Ring.slice_congr (Nat.mod_mod _ _).symm]
  rfl

theorem dec_tail (q : Queue) : q.dec.tail = q.tail := by
  simp only [dec]

theorem dec_buf (q : Queue) : q.dec.buf = q.buf := by
  simp only [dec]

theorem dec_head (q : Queue) : q.dec.head = (q.head + (TTY_BUF_SIZE - 1)) % TTY_BUF_SIZE := rfl

theorem chars_dec (h : ¬ q.Empty) : q.dec.chars + 1 = q.chars := by
  have hh := q.head_lt
  have ht := q.tail_lt
  unfold Empty at h
  unfold chars dec
  dsimp only
  unfold TTY_BUF_SIZE at *
  omega

theorem contents_dec (h : ¬ q.Empty) : q.contents = q.dec.contents ++ [q.last] := by
  have hlast := q.dec.head_eq
  rw [dec_tail, dec_head] at hlast
  unfold contents last
  rw [← chars_dec h, Ring.slice_succ_last, dec_buf, dec_tail, ← hlast]

/-- Characters that find room are added. -/
theorem contents_foldl_putch (h : cs.length ≤ q.left) :
    (cs.foldl putch q).contents = q.contents ++ cs := by
  induction cs generalizing q with
  | nil => simp only [List.foldl_nil, List.append_nil]
  | cons c cs ih =>
    rw [List.length_cons] at h
    have hfull : ¬ q.Full := by
      unfold Full
      omega
    have hroom : cs.length ≤ (q.putch c).left := by
      have h₁ := q.left_add_chars
      have h₂ := (q.putch c).left_add_chars
      have h₃ := chars_putch (c := c) hfull
      omega
    rw [List.foldl_cons, ih hroom, contents_putch hfull, List.append_assoc, List.singleton_append]

end Queue

theorem Term.chars_erase (h : s.erasable = true) : s.erase.secondary.chars + 1 = s.secondary.chars :=
  Queue.chars_dec (of_decide_eq_true h).1

/-! ## Runs -/

/-- The driver has taken what has been put, or it is still there. -/
def Intact (s : Term) : Prop := s.taken ++ s.writeQ.contents = s.put

/-- The queue has room for what is put. -/
def Room (s : Term) : Act → Prop
  | .cook => ¬ s.idle → (s.echo (s.effect s.readQ.first)).length ≤ s.writeQ.left
  | .killOne => s.erasable → s.rubout.length ≤ s.writeQ.left
  | .write _ _ => 1 ≤ s.writeQ.left
  | _ => True

/-- A step leaves the output alone. -/
def Same (s s' : Term) : Prop := s'.taken = s.taken ∧ s'.writeQ = s.writeQ ∧ s'.put = s.put

variable (termios : Termios) (serial : Bool) (below : UInt8 → UInt8)

end Linux012.Tty
