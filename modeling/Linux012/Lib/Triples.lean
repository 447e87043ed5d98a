import Mathlib.Data.List.Count
import Mathlib.Data.List.Perm.Basic

/-! # Code that may not return, and the references it holds

Code changes a state and returns a value, or does not return. A triple says what holds when it
returns. References are counted for each object, and code is described by the references that it
takes over and those that it hands back.
-/

namespace Triples

universe u

/-- `none` stands for code that does not return. -/
abbrev Code (σ α : Type u) := StateT σ Option α

variable {σ α β : Type u} {ι : Type*} {P P' : σ → Prop} {Q Q' : α → σ → Prop} {m : Code σ α}

/-- Look at the state. -/
def reads (f : σ → α) : Code σ α := fun s => some (f s, s)

def modifies (f : σ → σ) : Code σ PUnit := fun s => some (⟨⟩, f s)

/-- Whenever the code returns from a state with `P`, the value and the state have `Q`. -/
def Triple (P : σ → Prop) (m : Code σ α) (Q : α → σ → Prop) : Prop :=
  ∀ s a s', P s → m s = some (a, s') → Q a s'

namespace Triple

theorem pure {a : α} (h : ∀ s, P s → Q a s) : Triple P (Pure.pure a) Q := by
  rintro s _ _ hs ⟨⟩
  exact h s hs

theorem bind {R : β → σ → Prop} {m : Code σ β} {f : β → Code σ α} (hm : Triple P m R)
    (hf : ∀ b, Triple (R b) (f b) Q) : Triple P (m >>= f) Q := by
  intro s a s' hs h
  obtain ⟨⟨b, s₁⟩, hb, ha⟩ := Option.bind_eq_some_iff.mp h
  exact hf b s₁ a s' (hm s b s₁ hs hb) ha

theorem weaken (h : Triple P m Q) (hP : ∀ s, P' s → P s) (hQ : ∀ a s, Q a s → Q' a s) :
    Triple P' m Q' :=
  fun s a s' hs hm => hQ a s' (h s a s' (hP s hs) hm)

theorem reads {f : σ → α} : Triple P (reads f) fun a s => a = f s ∧ P s := by
  rintro s _ _ hs ⟨⟩
  exact ⟨rfl, hs⟩

theorem modifies {f : σ → σ} {Q : PUnit → σ → Prop} (h : ∀ s, P s → Q ⟨⟩ (f s)) :
    Triple P (modifies f) Q := by
  rintro s _ _ hs ⟨⟩
  exact h s hs

theorem failure : Triple P (failure : Code σ α) Q := by
  rintro s _ _ - ⟨⟩

/-- A condition on the code alone, not on the state. -/
theorem of_imp {p : Prop} (h : p → Triple P m Q) : Triple (fun s => p ∧ P s) m Q :=
  fun s a s' hs hm => h hs.1 s a s' hs.2 hm

end Triple

/-! ## References -/

variable [DecidableEq ι] {count : σ → ι → ℕ} {b : ι → ℕ} {h h₁ h₂ r : List ι} {s : σ}

/-- Each object has `b` references and those of the list. -/
def Holding (count : σ → ι → ℕ) (b : ι → ℕ) (h : List ι) (s : σ) : Prop :=
  ∀ i, count s i = b i + h.count i

theorem Holding.perm (hs : Holding count b h₁ s) (hp : h₁.Perm h₂) : Holding count b h₂ s :=
  fun i => by rw [hs i, hp.count_eq]

/-- References that somebody else holds. -/
theorem holding_append : Holding count b (h ++ r) s ↔ Holding count (fun i => b i + r.count i) h s := by
  unfold Holding
  refine forall_congr' fun i => ?_
  rw [List.count_append]
  dsimp only
  omega

/-- The code takes over the references `h` and hands back those of the value. -/
def Moves (count : σ → ι → ℕ) (h : List ι) (m : Code σ α) (h' : α → List ι) : Prop :=
  ∀ b, Triple (Holding count b h) m fun a => Holding count b (h' a)

namespace Moves

variable {g g' : α → List ι}

theorem pure {a : α} (hp : h.Perm (g a)) : Moves count h (Pure.pure a) g :=
  fun _ => .pure fun _ hs => hs.perm hp

theorem bind {k : β → List ι} {m : Code σ β} {f : β → Code σ α} (hm : Moves count h m k)
    (hf : ∀ b, Moves count (k b) (f b) g) : Moves count h (m >>= f) g :=
  fun b => (hm b).bind fun a => hf a b

theorem perm (hm : Moves count h₁ m g) (hp : h₂.Perm h₁) (hp' : ∀ a, (g a).Perm (g' a)) :
    Moves count h₂ m g' :=
  fun b => (hm b).weaken (fun _ hs => hs.perm hp) fun a _ hs => hs.perm (hp' a)

/-- What the code does not touch stays. -/
theorem frame (hm : Moves count h m g) (r : List ι) :
    Moves count (h ++ r) m fun a => g a ++ r := by
  intro b
  refine (hm fun i => b i + r.count i).weaken (fun s hs => holding_append.mp hs) ?_
  exact fun a s hs => holding_append.mpr hs

theorem keep (hm : ∀ s a s', m s = some (a, s') → ∀ i, count s' i = count s i) :
    Moves count h m fun _ => h :=
  fun _ s a s' hs hx i => (hm s a s' hx i).trans (hs i)

theorem reads {f : σ → α} : Moves count h (reads f) fun _ => h :=
  .keep (by rintro s _ _ ⟨⟩ i; rfl)

theorem modifies {f : σ → σ} (hf : ∀ s i, count (f s) i = count s i) :
    Moves count h (modifies f) fun _ => h :=
  .keep (by rintro s _ _ ⟨⟩ i; exact hf s i)

theorem failure : Moves count h (failure : Code σ α) g := fun _ => .failure

theorem ite {p : Prop} [Decidable p] {m' : Code σ α} (hm : Moves count h m g)
    (hm' : Moves count h m' g) : Moves count h (if p then m else m') g := by
  split
  · exact hm
  · exact hm'

/-- The code takes the first reference of those that are held. -/
theorem first {i : ι} (hm : Moves count [i] m g) : Moves count (i :: r) m fun a => g a ++ r :=
  hm.frame r

/-- The code is given nothing of what is held. -/
theorem fresh (hm : Moves count [] m g) : Moves count r m fun a => g a ++ r := hm.frame r

end Moves

end Triples
