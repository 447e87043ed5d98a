import Mathlib.Logic.Function.Basic

/-! # Runs of a transition function

A system is a partial transition function over states and actions. `Run` collects
the states reached by steps that all meet a side condition, and `runList` executes
a given list of actions.
-/

namespace Runs

variable {S A : Type*} {step : A → S → Option S} {ok ok' : S → A → Prop} {s₀ s s' : S}

/-- The states reached from `s₀` by steps that all satisfy `ok`. -/
inductive Run (step : A → S → Option S) (ok : S → A → Prop) (s₀ : S) : S → Prop
  | refl : Run step ok s₀ s₀
  | tail {s s' : S} {a : A} : Run step ok s₀ s → ok s a → step a s = some s' →
      Run step ok s₀ s'

/-- The condition met by every step. -/
def Always : S → A → Prop := fun _ _ => True

theorem Run.invariant {I : S → Prop} (h : Run step ok s₀ s) (h0 : I s₀)
    (hstep : ∀ s a s', I s → ok s a → step a s = some s' → I s') : I s := by
  induction h with
  | refl => exact h0
  | tail _ hok hs ih => exact hstep _ _ _ ih hok hs

theorem Run.mono (h : Run step ok s₀ s) (hok : ∀ s a, ok s a → ok' s a) :
    Run step ok' s₀ s := by
  induction h with
  | refl => exact .refl
  | tail _ ha hs ih => exact ih.tail (hok _ _ ha) hs

theorem Run.trans (h : Run step ok s₀ s) (h' : Run step ok s s') : Run step ok s₀ s' := by
  induction h' with
  | refl => exact h
  | tail _ ha hs ih => exact ih.tail ha hs

/-- Execute the actions of a list in order. -/
def runList (step : A → S → Option S) : List A → S → Option S
  | [], s => some s
  | a :: as, s => (step a s).bind (runList step as)

@[simp] theorem runList_nil : runList step [] s = some s := rfl

theorem runList_cons (a : A) (as : List A) :
    runList step (a :: as) s = (step a s).bind (runList step as) := rfl

theorem runList_append (as bs : List A) (s : S) :
    runList step (as ++ bs) s = (runList step as s).bind (runList step bs) := by
  induction as generalizing s with
  | nil => rfl
  | cons a as ih =>
    rw [List.cons_append, runList_cons, runList_cons, Option.bind_assoc]
    exact Option.bind_congr fun s' _ => ih s'

theorem Run.of_runList {as : List A} (h : runList step as s₀ = some s) :
    Run step Always s₀ s := by
  induction as generalizing s₀ with
  | nil => cases h; exact .refl
  | cons a as ih =>
    obtain ⟨s₁, h₁, h₂⟩ := Option.bind_eq_some_iff.mp h
    exact (Run.tail .refl trivial h₁).trans (ih h₂)

/-- Every state on the way of a list of actions has the property. -/
def Throughout (step : A → S → Option S) (P : S → Prop) : List A → S → Prop
  | [], s => P s
  | a :: as, s => P s ∧ ∀ s', step a s = some s' → Throughout step P as s'

theorem Throughout.drop {P : S → Prop} {as bs : List A} (h : Throughout step P (as ++ bs) s)
    (has : runList step as s = some s') : Throughout step P bs s' := by
  induction as generalizing s with
  | nil =>
    cases has
    exact h
  | cons a as ih =>
    obtain ⟨s₁, h₁, h₂⟩ := Option.bind_eq_some_iff.mp has
    exact ih (h.2 s₁ h₁) h₂

/-- Every step that a list of actions takes meets the condition. -/
def Each (step : A → S → Option S) (ok : S → A → Prop) : List A → S → Prop
  | [], _ => True
  | a :: as, s => ∀ s', step a s = some s' → ok s a ∧ Each step ok as s'

theorem each_cons_of_step {a : A} {as : List A} (h : step a s = some s') :
    Each step ok (a :: as) s ↔ ok s a ∧ Each step ok as s' := by
  simp [Each, h]

theorem each_cons_of_stuck {a : A} {as : List A} (h : step a s = none) :
    Each step ok (a :: as) s ↔ True := by
  simp [Each, h]

instance Each.decidable [∀ s a, Decidable (ok s a)] : ∀ (as : List A) (s : S), Decidable (Each step ok as s)
  | [], _ => isTrue trivial
  | a :: as, s =>
    match h : step a s with
    | none => decidable_of_iff _ (each_cons_of_stuck h).symm
    | some s' =>
      have := Each.decidable as s'
      decidable_of_iff (ok s a ∧ Each step ok as s') (each_cons_of_step h).symm

theorem Run.of_each {as : List A} (he : Each step ok as s₀) (h : runList step as s₀ = some s) :
    Run step ok s₀ s := by
  induction as generalizing s₀ with
  | nil => cases h; exact .refl
  | cons a as ih =>
    obtain ⟨s₁, h₁, h₂⟩ := Option.bind_eq_some_iff.mp h
    obtain ⟨hok, he⟩ := he s₁ h₁
    exact (Run.tail .refl hok h₁).trans (ih he h₂)

theorem Each.last {a : A} {as : List A} (h : Each step ok (as ++ [a]) s) (has : runList step as s = some s')
    (ha : (step a s').isSome) : ok s' a := by
  induction as generalizing s with
  | nil =>
    cases has
    obtain ⟨t, ht⟩ := Option.isSome_iff_exists.mp ha
    exact (h t ht).1
  | cons b as ih =>
    obtain ⟨s₁, h₁, h₂⟩ := Option.bind_eq_some_iff.mp has
    exact ih (h s₁ h₁).2 h₂

theorem Each.of_append {as bs : List A} (h : Each step ok (as ++ bs) s) (has : runList step as s = some s') :
    Each step ok as s ∧ Each step ok bs s' := by
  induction as generalizing s with
  | nil =>
    cases has
    exact ⟨trivial, h⟩
  | cons a as ih =>
    obtain ⟨s₁, h₁, h₂⟩ := Option.bind_eq_some_iff.mp has
    obtain ⟨hok, hrest⟩ := h s₁ h₁
    obtain ⟨hfirst, hlast⟩ := ih hrest h₂
    refine ⟨fun s₂ h₂ => ?_, hlast⟩
    obtain rfl := Option.some_inj.mp (h₁.symm.trans h₂)
    exact ⟨hok, hfirst⟩

/-- Conditions that agree wherever an invariant holds are met by the same runs. The invariant need
only be kept by the steps that meet them. -/
theorem each_congr {I : S → Prop} {as : List A}
    (hI : ∀ s a s', I s → ok' s a → step a s = some s' → I s')
    (hok : ∀ s a, I s → (ok s a ↔ ok' s a)) (h₀ : I s) : Each step ok as s ↔ Each step ok' as s := by
  induction as generalizing s with
  | nil => exact Iff.rfl
  | cons a as ih =>
    constructor
    · intro h s' hs
      obtain ⟨ha, he⟩ := h s' hs
      have ha' := (hok s a h₀).mp ha
      exact ⟨ha', (ih (hI s a s' h₀ ha' hs)).mp he⟩
    · intro h s' hs
      obtain ⟨ha', he⟩ := h s' hs
      exact ⟨(hok s a h₀).mpr ha', (ih (hI s a s' h₀ ha' hs)).mpr he⟩

theorem Each.imp {I : S → Prop} {as : List A} (hI : ∀ s a s', I s → ok s a → step a s = some s' → I s')
    (hok : ∀ s a, I s → ok s a → ok' s a) (h₀ : I s) (h : Each step ok as s) : Each step ok' as s := by
  induction as generalizing s with
  | nil => trivial
  | cons a as ih =>
    intro s' hs
    obtain ⟨ha, he⟩ := h s' hs
    exact ⟨hok s a h₀ ha, ih (hI s a s' h₀ ha hs) he⟩

/-- A property that follows from an invariant of the steps that meet a condition, and that
every other step breaks, holds throughout a run exactly when all its steps meet it. -/
theorem throughout_iff_each {I P : S → Prop} {as : List A} (hP : ∀ s, I s → P s)
    (hI : ∀ s a s', I s → ok s a → step a s = some s' → I s')
    (hbad : ∀ s a s', I s → step a s = some s' → P s' → ok s a) (h₀ : I s) :
    Throughout step P as s ↔ Each step ok as s := by
  induction as generalizing s with
  | nil => exact iff_of_true (hP s h₀) trivial
  | cons a as ih =>
    constructor
    · rintro ⟨-, h⟩ s' hs
      have hPs' : P s' := by
        cases as with
        | nil => exact h s' hs
        | cons b bs => exact (h s' hs).1
      have hok := hbad s a s' h₀ hs hPs'
      exact ⟨hok, (ih (hI s a s' h₀ hok hs)).mp (h s' hs)⟩
    · intro h
      refine ⟨hP s h₀, fun s' hs => ?_⟩
      obtain ⟨hok, he⟩ := h s' hs
      exact (ih (hI s a s' h₀ hok hs)).mpr he

theorem Run.of_runList_get {as : List A} (h : (runList step as s₀).isSome) :
    Run step Always s₀ ((runList step as s₀).get h) :=
  .of_runList (Option.some_get h).symm

end Runs
