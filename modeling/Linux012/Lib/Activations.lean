import Linux012.Lib.Coop

/-! # Calls that return

The activation of a function is the frame that its call puts on a stack, and what this frame becomes until it
returns a value. The frames below it stay as they are.
-/

namespace Coop

open Function Runs

variable {n : ℕ} {σ F V C H P : Type*} {p : Program n σ F V C H P} {ok : State n σ F P → Act n C H → Prop}
  {s s' : State n σ F P} {t : Fin n} {f : F} {v : V} {base : List F}

/-- Task `t` has a frame above `base`. -/
def Above (t : Fin n) (base : List F) (s : State n σ F P) : Prop := ∃ g l, s.stack t = l ++ g :: base

/-- The frame `f` on top of the stack of `t` in `s` has returned `v` in `s'`, in a run whose steps meet `ok`. -/
inductive Returned (p : Program n σ F V C H P) (ok : State n σ F P → Act n C H → Prop) (t : Fin n) (f : F)
    (v : V) (s s' : State n σ F P) : Prop
  | intro {s₁ : State n σ F P} {base : List F} {top : F} {c : C} {σ' : σ} : s.stack t = f :: base →
      Run p.step (fun s a => ok s a ∧ Above t base s) s s₁ → ok s₁ (.run t c) → s₁.stack t = top :: base →
      p.exec t c top s₁.shared = some (σ', .ret v) → p.step (.run t c) s₁ = some s' → Returned p ok t f v s s'

/-- What the frame of an activation becomes in a piece of code. -/
def Next.Keeps (I : F → Prop) : Next F V P → Prop
  | .goto g => I g
  | .sleep g => I g
  | .call g _ => I g
  | .ret _ => True
  | .panic _ => True

/-- The frame above `base` has the property, or has returned. -/
def Active (I : F → Prop) (t : Fin n) (base : List F) (s : State n σ F P) : Prop :=
  (∃ g l, s.stack t = l ++ g :: base ∧ I g) ∨ (s.stack t).length ≤ base.length

theorem Above.active {I : F → Prop} (ha : Above t base s) (h : Active I t base s) :
    ∃ g l, s.stack t = l ++ g :: base ∧ I g := by
  rcases h with h | h
  · exact h
  · obtain ⟨g, l, hst⟩ := ha
    rw [hst] at h
    simp at h
    omega

/-- What every piece of code and every returned value keep of a frame is kept of the frame above `base`. -/
theorem Active.step {I : F → Prop} {a : Act n C H} (h : Active I t base s) (ha : Above t base s)
    (hs : p.step a s = some s')
    (hexec : ∀ c g b nx, g ∈ s.stack t → I g → p.exec t c g s.shared = some (b, nx) → nx.Keeps I)
    (hresume : ∀ g v g', I g → p.resume g v = some g' → I g') : Active I t base s' := by
  obtain ⟨g, l, hst, hg⟩ := ha.active h
  obtain ⟨-, ⟨u, c, f, fs, σ', nx, -, -, hstu, hx, ⟨q, -, rfl⟩ | ⟨fs', cpu', he, rfl⟩⟩ |
    ⟨-, rfl⟩ | ⟨i, σ', -, -, rfl⟩⟩ := Program.step_cases hs
  · exact .inl ⟨g, l, hst, hg⟩
  · rcases eq_or_ne t u with rfl | hu
    · simp only [Active, update_self]
      rw [hst] at hstu
      cases l with
      | nil =>
        obtain ⟨rfl, rfl⟩ := List.cons.inj hstu
        have hk := hexec c _ _ _ (hst ▸ List.mem_cons_self) hg hx
        cases he with
        | goto => exact .inl ⟨_, [], rfl, hk⟩
        | sleep => exact .inl ⟨_, [], rfl, hk⟩
        | call => exact .inl ⟨_, [_], rfl, hk⟩
        | ret => exact .inr le_rfl
      | cons x l =>
        have hfs : l ++ g :: base = fs := (List.cons.inj hstu).2
        left
        cases he with
        | goto => exact ⟨g, _ :: l, by rw [← hfs]; rfl, hg⟩
        | sleep => exact ⟨g, _ :: l, by rw [← hfs]; rfl, hg⟩
        | call => exact ⟨g, _ :: _ :: l, by rw [← hfs]; rfl, hg⟩
        | ret hr =>
          cases l with
          | nil =>
            obtain ⟨rfl, rfl⟩ := List.cons.inj hfs
            exact ⟨_, [], rfl, hresume _ _ _ hg hr⟩
          | cons y l =>
            obtain ⟨-, rfl⟩ := List.cons.inj hfs
            exact ⟨g, _ :: l, rfl, hg⟩
    · simp only [Active, update_of_ne hu]
      exact .inl ⟨g, l, hst, hg⟩
  · exact .inl ⟨g, l, hst, hg⟩
  · exact .inl ⟨g, l, hst, hg⟩

namespace Returned

/-- The step that returns is one of the frame that the activation has become. The pieces of code are those
of states that a run reaches. -/
theorem top (h : Returned p ok t f v s s') {I : F → Prop} {S : State n σ F P → Prop} (hf : I f) (hS : S s)
    (hstep : ∀ s a s', S s → ok s a → p.step a s = some s' → S s')
    (hexec : ∀ s, S s → ∀ a, ok s a → ∀ c g b nx, g ∈ s.stack t → I g → p.exec t c g s.shared = some (b, nx) →
      nx.Keeps I)
    (hresume : ∀ g v g', I g → p.resume g v = some g' → I g') :
    ∃ s₁ g c a, S s₁ ∧ ok s₁ (.run t c) ∧ g ∈ s₁.stack t ∧ I g ∧
      p.exec t c g s₁.shared = some (a, .ret v) := by
  obtain ⟨hst, hrun, hok, hst₁, hx, -⟩ := h
  rename_i s₁ base top c a
  have hkeep : S s₁ ∧ Active I t base s₁ := by
    refine hrun.invariant (I := fun s => S s ∧ Active I t base s) ?_ fun s a s' hi hok hs => ?_
    · exact ⟨hS, .inl ⟨f, [], hst, hf⟩⟩
    · exact ⟨hstep s a s' hi.1 hok.1 hs, hi.2.step hok.2 hs (hexec s hi.1 a hok.1) hresume⟩
  obtain ⟨hS₁, hact⟩ := hkeep
  have habove : Above t base s₁ := ⟨top, [], hst₁⟩
  obtain ⟨g, l, hst', hg⟩ := habove.active hact
  have hl : l = [] := by
    have hlen := congrArg List.length (hst₁.symm.trans hst')
    simp at hlen
    exact hlen
  subst hl
  obtain ⟨rfl, -⟩ := List.cons.inj (hst₁.symm.trans hst')
  exact ⟨s₁, _, c, a, hS₁, hok, hst₁ ▸ List.mem_cons_self, hg, hx⟩

theorem run (h : Returned p ok t f v s s') : Run p.step ok s s' := by
  obtain ⟨-, hrun, hok, -, -, hs⟩ := h
  exact (hrun.mono fun _ _ h => h.1).tail hok hs

/-- A call that has returned leaves the weight of the value in place of its own. -/
theorem weight {w : F → ℕ} {wv : V → ℕ} (h : Returned p ok t f v s s')
    (hres : ∀ h v h', p.resume h v = some h' → w h' = w h + wv v) :
    ((s'.stack t).map w).sum + w f = ((s.stack t).map w).sum + wv v := by
  obtain ⟨hst, -, -, hst₁, hx, hs⟩ := h
  obtain ⟨-, σ', nx, hx', he⟩ := Program.step_run hs hst₁
  obtain ⟨rfl, rfl⟩ := Prod.mk.inj (Option.some.inj (hx.symm.trans hx'))
  rcases Program.enter_cases he with ⟨q, hq, -⟩ | ⟨fs', cpu', hfs, rfl⟩
  · cases hq
  · cases hfs with
    | ret hr =>
      simp only [update_self, hst, List.map_cons, List.sum_cons, hres _ _ _ hr]
      omega

end Returned

end Coop
