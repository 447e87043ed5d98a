import Linux012.Lib.Coop

/-! # Contracts of calls

A running frame promises that the value it returns meets a contract. A frame that waits
for a value makes its promise under the contract of this value. The promises of all
frames fit together when each frame waits for what the frame above it promises.
-/

namespace Coop

open Function

variable {n : ℕ} {σ F V C H P K : Type*}

structure Contracts (σ F V K : Type*) where
  promises : σ → F → K → Prop
  waits : σ → F → K → K → Prop
  value : σ → K → V → Prop

namespace Contracts

variable (T : Contracts σ F V K)

/-- The frames wait for a value that meets `κ`. -/
def Await (a : σ) : K → List F → Prop
  | _, [] => True
  | κ, g :: fs => ∃ κ', T.waits a g κ κ' ∧ Await a κ' fs

/-- The top frame promises what the frames below wait for. -/
def Keep (a : σ) : List F → Prop
  | [] => True
  | f :: fs => ∃ κ, T.promises a f κ ∧ T.Await a κ fs

/-- The end of a piece of code keeps the promise `κ`. -/
def Ends (a : σ) (κ : K) : Next F V P → Prop
  | .goto f => T.promises a f κ
  | .sleep f => T.promises a f κ
  | .call f g => ∃ κ', T.promises a g κ' ∧ T.waits a f κ' κ
  | .ret v => T.value a κ v
  | .panic _ => True

variable {T} {a a' : σ} {f : F} {fs fs' : List F} {κ : K} {nx : Next F V P}
  {p : Program n σ F V C H P}

theorem Await.mono (h : T.Await a κ fs)
    (hw : ∀ g ∈ fs, ∀ κ κ', T.waits a g κ κ' → T.waits a' g κ κ') : T.Await a' κ fs := by
  induction fs generalizing κ with
  | nil => trivial
  | cons g fs ih =>
    obtain ⟨κ', hg, hfs⟩ := h
    exact ⟨κ', hw g List.mem_cons_self _ _ hg,
      ih hfs fun g hg => hw g (List.mem_cons_of_mem _ hg)⟩

theorem Keep.mono (h : T.Keep a fs) (hp : ∀ g ∈ fs, ∀ κ, T.promises a g κ → T.promises a' g κ)
    (hw : ∀ g ∈ fs, ∀ κ κ', T.waits a g κ κ' → T.waits a' g κ κ') : T.Keep a' fs := by
  cases fs with
  | nil => trivial
  | cons f fs =>
    obtain ⟨κ, hf, hfs⟩ := h
    exact ⟨κ, hp f List.mem_cons_self κ hf,
      hfs.mono fun g hg => hw g (List.mem_cons_of_mem _ hg)⟩

/-- A piece of code that keeps its promise leaves frames that fit together. -/
theorem Keep.enter (h : T.Keep a (f :: fs)) (he : p.Enters fs nx fs')
    (hw : ∀ g ∈ fs, ∀ κ κ', T.waits a g κ κ' → T.waits a' g κ κ')
    (hexec : ∀ κ, T.promises a f κ → T.Ends a' κ nx)
    (hresume : ∀ h v h' κ κ', T.waits a' h κ κ' → T.value a' κ v → p.resume h v = some h' →
      T.promises a' h' κ') : T.Keep a' fs' := by
  obtain ⟨κ, hf, hfs⟩ := h
  have hend := hexec κ hf
  have hfs := hfs.mono hw
  cases he with
  | goto => exact ⟨κ, hend, hfs⟩
  | sleep => exact ⟨κ, hend, hfs⟩
  | call =>
    obtain ⟨κ', hg, hf'⟩ := hend
    exact ⟨κ', hg, κ, hf', hfs⟩
  | ret hr =>
    obtain ⟨κ', hh, hhs⟩ := hfs
    exact ⟨κ', hresume _ _ _ _ _ hh hend hr, hhs⟩

variable {s s' : State n σ F P}

/-- A step keeps all promises when its piece of code does, and nothing breaks the others. -/
theorem step {b : Act n C H} (hi : ∀ t, T.Keep s.shared (s.stack t)) (hs : p.step b s = some s')
    (hexec : ∀ t c f fs a' nx, b = .run t c → s.stack t = f :: fs →
      p.exec t c f s.shared = some (a', nx) → (∀ q, nx ≠ .panic q) →
      (∀ g, Apart s f g → (∀ κ, T.promises s.shared g κ → T.promises a' g κ) ∧
        ∀ κ κ', T.waits s.shared g κ κ' → T.waits a' g κ κ') ∧
      ∀ κ, T.promises s.shared f κ → T.Ends a' κ nx)
    (hresume : ∀ a h v h' κ κ', T.waits a h κ κ' → T.value a κ v → p.resume h v = some h' →
      T.promises a h' κ')
    (hintr : ∀ i a', b = .intr i → p.intr i s.shared = some a' → ∀ t, ∀ g ∈ s.stack t,
      (∀ κ, T.promises s.shared g κ → T.promises a' g κ) ∧
        ∀ κ κ', T.waits s.shared g κ κ' → T.waits a' g κ κ') :
    ∀ t, T.Keep s'.shared (s'.stack t) := by
  intro u
  obtain ⟨-, ⟨t, c, f, fs, a', nx, hb, -, hst, hx, ⟨q, -, rfl⟩ | ⟨fs', cpu', he, rfl⟩⟩ |
    ⟨-, rfl⟩ | ⟨i, a', hb, hx, rfl⟩⟩ := Program.step_cases hs
  · exact hi u
  · have hnp : ∀ q, nx ≠ .panic q := by rintro q rfl; cases he
    obtain ⟨hstable, hend⟩ := hexec t c f fs a' nx hb hst hx hnp
    by_cases hu : u = t
    · subst hu
      simp only [update_self]
      refine Keep.enter (hst ▸ hi u) he (fun g hg => (hstable g (apart_below hst hg)).2) hend
        fun h v h' κ κ' => hresume a' h v h' κ κ'
    · simp only [update_of_ne hu]
      exact (hi u).mono (fun g hg => (hstable g (apart_of_ne hst hu hg)).1)
        fun g hg => (hstable g (apart_of_ne hst hu hg)).2
  · exact hi u
  · exact (hi u).mono (fun g hg => (hintr i a' hb hx u g hg).1)
      fun g hg => (hintr i a' hb hx u g hg).2

end Contracts

end Coop
