import Mathlib.Data.List.Nodup
import Mathlib.Logic.Function.Basic
import Mathlib.Tactic

/-! # Singly linked lists

A pointer map threads nodes into null-terminated lists. `Path` relates a pointer to
the nodes reached from it, `walk` computes them.
-/

namespace Links

open Function

variable {α : Type*} {next next' : α → Option α} {p : Option α} {l l' l₁ l₂ : List α} {x y : α}

/-- Following `next` from the pointer `p` visits the nodes of the list and ends. -/
def Path (next : α → Option α) : Option α → List α → Prop
  | p, [] => p = none
  | p, x :: l => p = some x ∧ Path next (next x) l

@[simp] theorem path_nil : Path next p [] ↔ p = none := Iff.rfl

@[simp] theorem path_cons : Path next p (x :: l) ↔ p = some x ∧ Path next (next x) l := Iff.rfl

theorem Path.head (h : Path next p l) : p = l.head? := by
  cases l with
  | nil => exact h
  | cons x l => exact h.1

theorem Path.congr (h : Path next p l) (hn : ∀ x ∈ l, next' x = next x) : Path next' p l := by
  induction l generalizing p with
  | nil => exact h
  | cons x l ih =>
    refine ⟨h.1, ?_⟩
    rw [hn x List.mem_cons_self]
    exact ih h.2 fun y hy => hn y (List.mem_cons_of_mem _ hy)

theorem Path.unique (h : Path next p l) (h' : Path next p l') : l = l' := by
  induction l generalizing p l' with
  | nil =>
    cases l' with
    | nil => rfl
    | cons y l' => exact absurd (h.symm.trans h'.1) (by simp)
  | cons x l ih =>
    cases l' with
    | nil => exact absurd (h.1.symm.trans h') (by simp)
    | cons y l' =>
      obtain rfl : x = y := Option.some.inj (h.1.symm.trans h'.1)
      rw [ih h.2 h'.2]

theorem Path.next_eq (h : Path next p (l₁ ++ x :: l₂)) : next x = l₂.head? := by
  induction l₁ generalizing p with
  | nil => exact h.2.head
  | cons y l₁ ih => exact ih h.2

theorem Path.next_eq_some (h : Path next p l) (hx : x ∈ l) (hy : next x = some y) :
    ∃ l₁ l₂, l = l₁ ++ x :: y :: l₂ := by
  obtain ⟨l₁, l₂, rfl⟩ := List.append_of_mem hx
  rw [h.next_eq] at hy
  cases l₂ with
  | nil => cases hy
  | cons z l₂ =>
    obtain rfl : z = y := Option.some.inj hy
    exact ⟨l₁, l₂, rfl⟩

variable [DecidableEq α]

/-- Link a new node in behind a node of the list. -/
theorem Path.insert (h : Path next p (l₁ ++ x :: l₂)) (hl : (l₁ ++ x :: l₂).Nodup)
    (hy : y ∉ l₁ ++ x :: l₂) :
    Path (update (update next y (next x)) x (some y)) p (l₁ ++ x :: y :: l₂) := by
  have hxy : y ≠ x := fun e => hy (by simp [e])
  induction l₁ generalizing p with
  | nil =>
    simp only [List.nil_append, List.mem_cons, not_or] at hy
    refine ⟨h.1, by simp, ?_⟩
    rw [update_of_ne hxy, update_self]
    refine h.2.congr fun z hz => ?_
    have hzx : z ≠ x := fun e => (List.nodup_cons.mp hl).1 (e ▸ hz)
    have hzy : z ≠ y := fun e => hy.2 (e ▸ hz)
    rw [update_of_ne hzx, update_of_ne hzy]
  | cons w l₁ ih =>
    have hw : w ∉ l₁ ++ x :: l₂ := (List.nodup_cons.mp hl).1
    have hwx : w ≠ x := fun e => hw (by simp [e])
    have hwy : w ≠ y := fun e => hy (by simp [e])
    refine ⟨h.1, ?_⟩
    rw [update_of_ne hwx, update_of_ne hwy]
    exact ih h.2 (List.nodup_cons.mp hl).2 fun hm => hy (List.mem_cons_of_mem _ hm)

omit [DecidableEq α]

/-- The first `k` nodes reached from the pointer. -/
def walk (next : α → Option α) : ℕ → Option α → List α
  | 0, _ => []
  | _ + 1, none => []
  | k + 1, some x => x :: walk next k (next x)

theorem Path.walk_eq (h : Path next p l) {k : ℕ} (hk : l.length ≤ k) : walk next k p = l := by
  induction l generalizing p k with
  | nil =>
    cases k with
    | zero => rfl
    | succ k => rw [path_nil.mp h]; rfl
  | cons x l ih =>
    cases k with
    | zero => simp at hk
    | succ k =>
      rw [h.1, walk, ih h.2 (by simpa using hk)]

end Links
