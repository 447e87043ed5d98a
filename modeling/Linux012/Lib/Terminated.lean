import Mathlib.Data.List.Basic
import Mathlib.Tactic

/-! # Words that end in a mark

A word is a list without the mark; its code is the list with the mark behind it. Codes written one
after another into a memory are found again by looking for the marks.
-/

namespace Terminated

variable {α : Type*} {mark : α}

/-- A list that does not contain the mark. -/
structure Word (mark : α) where
  body : List α
  mark_notMem : mark ∉ body

def Word.code (w : Word mark) : List α := w.body ++ [mark]

/-- The codes of a list of words, one after another. -/
def enc (ws : List (Word mark)) : List α := ws.flatMap Word.code

@[simp] theorem enc_nil : enc ([] : List (Word mark)) = [] := rfl

@[simp] theorem enc_cons (w : Word mark) (ws : List (Word mark)) : enc (w :: ws) = w.code ++ enc ws := rfl

@[simp] theorem enc_append (v w : List (Word mark)) : enc (v ++ w) = enc v ++ enc w := by
  simp [enc]

@[simp] theorem Word.length_code (w : Word mark) : w.code.length = w.body.length + 1 := by
  simp [Word.code]

theorem length_le_length_enc (ws : List (Word mark)) : ws.length ≤ (enc ws).length := by
  induction ws with
  | nil => exact le_rfl
  | cons w ws ih =>
    simp only [enc_cons, List.length_append, Word.length_code, List.length_cons]
    omega

/-! ## Reading a memory -/

variable {f g : ℕ → α} {p k : ℕ} {l l' : List α}

/-- From `p` on the memory holds `l`. -/
def Holds (f : ℕ → α) (p : ℕ) (l : List α) : Prop := ∀ i (h : i < l.length), f (p + i) = l[i]

theorem holds_nil : Holds f p [] := fun _ h => absurd h (Nat.not_lt_zero _)

theorem holds_cons {a : α} : Holds f p (a :: l) ↔ f p = a ∧ Holds f (p + 1) l := by
  constructor
  · intro h
    refine ⟨h 0 (Nat.succ_pos _), fun i hi => ?_⟩
    have := h (i + 1) (Nat.succ_lt_succ hi)
    rwa [List.getElem_cons_succ, show p + (i + 1) = p + 1 + i by omega] at this
  · rintro ⟨h₀, h⟩ i hi
    cases i with
    | zero => exact h₀
    | succ i =>
      rw [List.getElem_cons_succ, show p + (i + 1) = p + 1 + i by omega]
      exact h i (Nat.lt_of_succ_lt_succ hi)

theorem holds_append : Holds f p (l ++ l') ↔ Holds f p l ∧ Holds f (p + l.length) l' := by
  induction l generalizing p with
  | nil => simp [holds_nil]
  | cons a l ih =>
    rw [List.cons_append, holds_cons, holds_cons, ih, and_assoc, List.length_cons,
      show p + 1 + l.length = p + (l.length + 1) by omega]

theorem Holds.congr (h : Holds f p l) (hfg : ∀ x, p ≤ x → x < p + l.length → g x = f x) :
    Holds g p l := fun i hi => (hfg (p + i) (by omega) (by omega)).trans (h i hi)

/-- The place behind the first mark at or after `p`, if it is among the next `k`. -/
def skip [DecidableEq α] (mark : α) (f : ℕ → α) : ℕ → ℕ → Option ℕ
  | 0, _ => none
  | k + 1, p => if f p = mark then some (p + 1) else skip mark f k (p + 1)

theorem skip_code [DecidableEq α] {w : Word mark} (h : Holds f p w.code) (hk : w.body.length < k) :
    skip mark f k p = some (p + w.code.length) := by
  obtain ⟨body, hbody⟩ := w
  unfold Word.code at h ⊢
  dsimp only at h hk ⊢
  induction body generalizing p k with
  | nil =>
    obtain ⟨k, rfl⟩ := Nat.exists_eq_succ_of_ne_zero (by omega : k ≠ 0)
    rw [skip, if_pos (holds_cons.mp h).1]
    rfl
  | cons a body ih =>
    obtain ⟨k, rfl⟩ := Nat.exists_eq_succ_of_ne_zero (by omega : k ≠ 0)
    rw [List.cons_append, holds_cons] at h
    have ha : f p ≠ mark := h.1 ▸ fun he => hbody (he ▸ List.mem_cons_self)
    rw [skip, if_neg ha, ih (fun hm => hbody (List.mem_cons_of_mem _ hm)) h.2
      (by simpa using hk)]
    simp only [List.cons_append, List.length_cons]
    congr 1
    omega

end Terminated
