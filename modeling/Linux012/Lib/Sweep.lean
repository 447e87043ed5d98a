import Mathlib.Data.List.Perm.Basic
import Mathlib.Tactic

/-! # Sweeps

A sweep goes through its keys in ascending order, a queue with at most one descent is
one ascending sweep followed by another. Inserting a key by the elevator rule keeps
a queue in this form.
-/

namespace Sweep

variable {α : Type*} (r : α → α → Prop) [DecidableRel r] {x y t : α} {l : List α}

/-- The number of adjacent pairs that are not in ascending order. -/
def descents : List α → ℕ
  | x :: y :: l => (if r x y then 0 else 1) + descents (y :: l)
  | _ => 0

@[simp] theorem descents_nil : descents r [] = 0 := rfl
@[simp] theorem descents_singleton : descents r [x] = 0 := rfl
theorem descents_cons_cons :
    descents r (x :: y :: l) = (if r x y then 0 else 1) + descents r (y :: l) := rfl

theorem descents_tail_le : descents r l.tail ≤ descents r l := by
  match l with
  | [] => exact le_rfl
  | [x] => exact le_rfl
  | x :: y :: l => rw [List.tail_cons, descents_cons_cons]; omega

theorem descents_congr {r' : α → α → Prop} [DecidableRel r']
    (h : ∀ x ∈ l, ∀ y ∈ l, r x y ↔ r' x y) : descents r l = descents r' l := by
  induction l with
  | nil => rfl
  | cons x l ih =>
    cases l with
    | nil => rfl
    | cons y l =>
      rw [descents_cons_cons, descents_cons_cons,
        ih fun u hu v hv => h u (List.mem_cons_of_mem _ hu) v (List.mem_cons_of_mem _ hv),
        if_congr (h x (by simp) y (by simp)) rfl rfl]

/-- Insert behind the first element at which the test stops, or else at the end. -/
def insertAt (stop : α → α → Bool) (x : α) : List α → List α
  | [] => [x]
  | [t] => [t, x]
  | t :: y :: l => if stop t y then t :: x :: y :: l else t :: insertAt stop x (y :: l)

variable {stop : α → α → Bool}

theorem insertAt_cons_cons : insertAt stop x (t :: y :: l) =
    if stop t y then t :: x :: y :: l else t :: insertAt stop x (y :: l) := rfl

theorem insertAt_perm (stop : α → α → Bool) (x : α) :
    ∀ l : List α, (insertAt stop x l).Perm (x :: l)
  | [] => .refl _
  | [t] => .swap x t []
  | t :: y :: l => by
    rw [insertAt_cons_cons]
    split_ifs
    · exact .swap x t _
    · exact ((insertAt_perm stop x (y :: l)).cons t).trans (.swap x t _)

theorem insertAt_eq_cons : ∃ l', insertAt stop x (t :: l) = t :: l' := by
  match l with
  | [] => exact ⟨[x], rfl⟩
  | y :: l =>
    rw [insertAt_cons_cons]
    split_ifs
    · exact ⟨_, rfl⟩
    · exact ⟨_, rfl⟩

/-- The elevator's test between two neighbours of the queue. -/
def elevator (x t y : α) : Bool := decide ((r t x ∨ ¬ r t y) ∧ r x y)

/-- Above the head of an ascending sweep a key finds its place in the sweep. -/
theorem descents_insertAt_of_ascending (hl : descents r (t :: l) = 0) (htx : r t x)
    (htot : ∀ y ∈ l, ¬ r x y → r y x) :
    descents r (insertAt (elevator r x) x (t :: l)) = 0 := by
  induction l generalizing t with
  | nil => simp [insertAt, descents_cons_cons, htx]
  | cons y l ih =>
    rw [descents_cons_cons] at hl
    have hty : r t y := by by_contra hn; rw [if_neg hn] at hl; omega
    have hl' : descents r (y :: l) = 0 := by omega
    rw [insertAt_cons_cons]
    by_cases hxy : r x y
    · have hstop : elevator r x t y := by simp [elevator, htx, hxy]
      rw [if_pos hstop, descents_cons_cons, descents_cons_cons, if_pos htx, if_pos hxy, hl']
    · have hstop : ¬ elevator r x t y := by simp [elevator, hxy]
      have hrec := ih hl' (htot y (by simp) hxy) fun z hz => htot z (List.mem_cons_of_mem _ hz)
      obtain ⟨l', hl''⟩ := insertAt_eq_cons (x := x) (t := y) (l := l)
      rw [hl''] at hrec
      rw [if_neg hstop, hl'', descents_cons_cons, if_pos hty, hrec]

/-- The elevator's insertion leaves at most one descent. -/
theorem descents_insertAt_le (htrans : ∀ a b c, r a b → r b c → r a c)
    (hl : descents r (t :: l) ≤ 1) (htot : ∀ y ∈ l, ¬ r x y → r y x) :
    descents r (insertAt (elevator r x) x (t :: l)) ≤ 1 := by
  induction l generalizing t with
  | nil => simp only [insertAt, descents_cons_cons, descents_singleton]; split_ifs <;> omega
  | cons y l ih =>
    rw [descents_cons_cons] at hl
    rw [insertAt_cons_cons]
    by_cases hstop : elevator r x t y
    · rw [if_pos hstop, descents_cons_cons, descents_cons_cons]
      obtain ⟨ht, hxy⟩ : (r t x ∨ ¬ r t y) ∧ r x y := by simpa [elevator] using hstop
      rw [if_pos hxy]
      by_cases htx : r t x
      · rw [if_pos htx]
        rw [if_pos (htrans t x y htx hxy)] at hl
        omega
      · rw [if_neg htx]
        rw [if_neg (ht.resolve_left htx)] at hl
        omega
    · rw [if_neg hstop]
      obtain ⟨l', hl'⟩ := insertAt_eq_cons (x := x) (t := y) (l := l)
      have htot' : ∀ z ∈ l, ¬ r x z → r z x := fun z hz => htot z (List.mem_cons_of_mem _ hz)
      by_cases hty : r t y
      · rw [if_pos hty] at hl
        have hrec := ih (t := y) (by omega) htot'
        rw [hl'] at hrec ⊢
        rw [descents_cons_cons, if_pos hty]
        omega
      · -- past the descent the queue ascends, and the key belongs above its first element
        rw [if_neg hty] at hl
        have hxy : ¬ r x y := fun hxy => hstop (by simp [elevator, hty, hxy])
        have hrec := descents_insertAt_of_ascending r (t := y) (x := x) (l := l) (by omega)
          (htot y (by simp) hxy) htot'
        rw [hl'] at hrec ⊢
        rw [descents_cons_cons, if_neg hty, hrec]

end Sweep
