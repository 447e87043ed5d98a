import Mathlib.Algebra.Order.BigOperators.Group.List
import Linux012.Lib.Runs
import Linux012.Lib.Sums

/-! # Cooperative tasks

Tasks share one state and one processor. A task is a stack of frames; the top frame
runs without interruption up to the point where it sleeps, calls, returns or panics.
Another task gets the processor only when the running one sleeps, or when a clock
tick finds it in user mode. Interrupt handlers change the shared state at any time.
-/

namespace Coop

open Function

/-- How an uninterrupted piece of code ends. -/
inductive Next (F V P : Type*)
  | goto (f : F)
  | sleep (f : F)
  | call (f g : F)
  | ret (v : V)
  | panic (p : P)
  deriving DecidableEq

/-- The same end with other frames. -/
def Next.map {F F' V P : Type*} (g : F → F') : Next F V P → Next F' V P
  | .goto f => .goto (g f)
  | .sleep f => .sleep (g f)
  | .call f h => .call (g f) (g h)
  | .ret v => .ret v
  | .panic q => .panic q

/-- The code of the tasks: `C` resolves the choices left open by a frame. -/
structure Program (n : ℕ) (σ F V C H P : Type*) where
  exec : Fin n → C → F → σ → Option (σ × Next F V P)
  resume : F → V → Option F
  user : F → Bool
  intr : H → σ → Option σ

structure State (n : ℕ) (σ F P : Type*) where
  shared : σ
  stack : Fin n → List F
  cpu : Option (Fin n)
  panicked : Option P

inductive Act (n : ℕ) (C H : Type*)
  | run (t : Fin n) (c : C)
  | tick
  | intr (h : H)

variable {n : ℕ} {σ F V C H P : Type*} (p : Program n σ F V C H P)

namespace Program

/-- The state after task `t` has run the piece that ends in the given way above `fs`. -/
def enter (s : State n σ F P) (t : Fin n) (fs : List F) (σ' : σ) :
    Next F V P → Option (State n σ F P)
  | .goto f => some { s with shared := σ', stack := update s.stack t (f :: fs), cpu := some t }
  | .sleep f => some { s with shared := σ', stack := update s.stack t (f :: fs), cpu := none }
  | .call f g =>
    some { s with shared := σ', stack := update s.stack t (g :: f :: fs), cpu := some t }
  | .ret v =>
    match fs with
    | [] => none
    | h :: hs => (p.resume h v).map fun h' =>
        { s with shared := σ', stack := update s.stack t (h' :: hs), cpu := some t }
  | .panic q => some { s with panicked := some q }

def runTask (t : Fin n) (c : C) (s : State n σ F P) : Option (State n σ F P) :=
  match s.stack t with
  | [] => none
  | f :: fs => (p.exec t c f s.shared).bind fun r => p.enter s t fs r.1 r.2

/-- A clock tick takes the processor from a task that is in user mode. -/
def tick (s : State n σ F P) : Option (State n σ F P) :=
  match s.cpu with
  | none => none
  | some t =>
    match s.stack t with
    | [] => none
    | f :: _ => if p.user f then some { s with cpu := none } else none

def step (a : Act n C H) (s : State n σ F P) : Option (State n σ F P) :=
  match s.panicked with
  | some _ => none
  | none =>
    match a with
    | .run t c => if s.cpu = none ∨ s.cpu = some t then p.runTask t c s else none
    | .tick => p.tick s
    | .intr h => (p.intr h s.shared).map fun σ' => { s with shared := σ' }

/-- The stack that the end of a piece of code leaves in place of the frames `fs`. -/
inductive Enters : List F → Next F V P → List F → Prop
  | goto {f : F} {fs : List F} : Enters fs (.goto f) (f :: fs)
  | sleep {f : F} {fs : List F} : Enters fs (.sleep f) (f :: fs)
  | call {f g : F} {fs : List F} : Enters fs (.call f g) (g :: f :: fs)
  | ret {v : V} {h h' : F} {hs : List F} : p.resume h v = some h' →
      Enters (h :: hs) (.ret v) (h' :: hs)

variable {p} {s s' : State n σ F P}

theorem enter_cases {t : Fin n} {fs : List F} {σ' : σ} {nx : Next F V P}
    (h : p.enter s t fs σ' nx = some s') :
    (∃ q, nx = .panic q ∧ s' = { s with panicked := some q }) ∨
    (∃ fs' cpu', p.Enters fs nx fs' ∧
      s' = { s with shared := σ', stack := update s.stack t fs', cpu := cpu' }) := by
  cases nx with
  | goto f => exact .inr ⟨_, _, .goto, (Option.some.inj h).symm⟩
  | sleep f => exact .inr ⟨_, _, .sleep, (Option.some.inj h).symm⟩
  | call f g => exact .inr ⟨_, _, .call, (Option.some.inj h).symm⟩
  | panic q => exact .inl ⟨q, rfl, (Option.some.inj h).symm⟩
  | ret v =>
    cases fs with
    | nil => cases h
    | cons h₀ hs =>
      obtain ⟨h', hr, rfl⟩ := Option.map_eq_some_iff.mp h
      exact .inr ⟨_, _, .ret hr, rfl⟩

theorem runTask_cases {t : Fin n} {c : C} (h : p.runTask t c s = some s') :
    ∃ f fs σ' nx, s.stack t = f :: fs ∧ p.exec t c f s.shared = some (σ', nx) ∧
      p.enter s t fs σ' nx = some s' := by
  unfold runTask at h
  cases hst : s.stack t with
  | nil => simp [hst] at h
  | cons f fs =>
    simp only [hst] at h
    obtain ⟨⟨σ', nx⟩, hx, he⟩ := Option.bind_eq_some_iff.mp h
    exact ⟨f, fs, σ', nx, rfl, hx, he⟩

/-- Everything a step can do. -/
theorem step_cases {a : Act n C H} (h : p.step a s = some s') :
    s.panicked = none ∧
    ((∃ t c f fs σ' nx, a = .run t c ∧ (s.cpu = none ∨ s.cpu = some t) ∧
        s.stack t = f :: fs ∧ p.exec t c f s.shared = some (σ', nx) ∧
        ((∃ q, nx = .panic q ∧ s' = { s with panicked := some q }) ∨
         (∃ fs' cpu', p.Enters fs nx fs' ∧
          s' = { s with shared := σ', stack := update s.stack t fs', cpu := cpu' }))) ∨
      (a = .tick ∧ s' = { s with cpu := none }) ∨
      (∃ i σ', a = .intr i ∧ p.intr i s.shared = some σ' ∧ s' = { s with shared := σ' })) := by
  unfold step at h
  split at h
  · cases h
  · rename_i hp
    refine ⟨hp, ?_⟩
    cases a with
    | run t c =>
      by_cases hc : s.cpu = none ∨ s.cpu = some t
      · obtain ⟨f, fs, σ', nx, hst, hx, he⟩ := runTask_cases (by simpa [hc] using h)
        exact .inl ⟨t, c, f, fs, σ', nx, rfl, hc, hst, hx, enter_cases he⟩
      · simp [hc] at h
    | tick =>
      refine .inr (.inl ⟨rfl, ?_⟩)
      simp only [tick] at h
      split at h
      · cases h
      · split at h
        · cases h
        · split at h
          · exact (Option.some.inj h).symm
          · cases h
    | intr i =>
      obtain ⟨σ', hi, rfl⟩ := Option.map_eq_some_iff.mp h
      exact .inr (.inr ⟨i, σ', rfl, hi, rfl⟩)

/-- A running task executes its top frame. -/
theorem step_run {t : Fin n} {c : C} {f : F} {fs : List F} (h : p.step (.run t c) s = some s')
    (hst : s.stack t = f :: fs) :
    (s.cpu = none ∨ s.cpu = some t) ∧
      ∃ σ' nx, p.exec t c f s.shared = some (σ', nx) ∧ p.enter s t fs σ' nx = some s' := by
  unfold step at h
  split at h
  · cases h
  · by_cases hc : s.cpu = none ∨ s.cpu = some t
    · obtain ⟨g, gs, σ', nx, hst', hx, he⟩ := runTask_cases (by simpa [hc] using h)
      obtain ⟨rfl, rfl⟩ := List.cons.inj (hst.symm.trans hst')
      exact ⟨hc, σ', nx, hx, he⟩
    · simp [hc] at h

theorem step_tick (h : p.step .tick s = some s') :
    ∃ t f fs, s.cpu = some t ∧ s.stack t = f :: fs ∧ p.user f = true ∧
      s' = { s with cpu := none } := by
  unfold step at h
  split at h
  · cases h
  · simp only [tick] at h
    cases hc : s.cpu with
    | none => simp [hc] at h
    | some t =>
      cases hst : s.stack t with
      | nil => simp [hc, hst] at h
      | cons f fs =>
        simp only [hc, hst] at h
        split_ifs at h with hu
        exact ⟨t, f, fs, rfl, hst, hu, (Option.some.inj h).symm⟩

end Program

/-! ## Accounting

A weight on frames is summed over all stacks. When every piece of code balances the
weight it gives up against a quantity of the shared state, the balance holds along
every run. -/

namespace State

variable (w : F → ℕ) (s : State n σ F P)

/-- The total weight of the frames on all stacks. -/
def total : ℕ := ∑ t, ((s.stack t).map w).sum

variable {w s}

theorem total_eq_zero (h : ∀ t, ∀ f ∈ s.stack t, w f = 0) : s.total w = 0 := by
  refine Finset.sum_eq_zero fun t _ => List.sum_eq_zero fun x hx => ?_
  obtain ⟨f, hf, rfl⟩ := List.mem_map.mp hx
  exact h t f hf

theorem weight_le_total {t : Fin n} : ((s.stack t).map w).sum ≤ s.total w :=
  Sums.single_le (Finset.mem_univ t) fun t => ((s.stack t).map w).sum

theorem frame_le_total {t : Fin n} {f : F} (h : f ∈ s.stack t) : w f ≤ s.total w :=
  (List.single_le_sum (by simp) _ (List.mem_map_of_mem h)).trans weight_le_total

theorem total_update (t : Fin n) (fs : List F) (σ' : σ) (cpu : Option (Fin n)) :
    ({ s with shared := σ', stack := update s.stack t fs, cpu := cpu } : State n σ F P).total w +
      ((s.stack t).map w).sum = s.total w + (fs.map w).sum :=
  Sums.sum_update_add (Finset.mem_univ t) s.stack fs fun l => (l.map w).sum

end State

/-- The weight of what the end of a piece of code leaves: new frames or a value. -/
def Next.weight (w : F → ℕ) (wv : V → ℕ) : Next F V P → ℕ
  | .goto f => w f
  | .sleep f => w f
  | .call f g => w f + w g
  | .ret v => wv v
  | .panic _ => 0

section Accounting

variable {p} {w : F → ℕ} {wv : V → ℕ} {s : State n σ F P}

theorem Program.Enters.sum_eq (hres : ∀ h v h', p.resume h v = some h' → w h' = w h + wv v)
    {fs fs' : List F} {nx : Next F V P} (h : p.Enters fs nx fs') :
    (fs'.map w).sum = (fs.map w).sum + nx.weight w wv := by
  cases h with
  | goto => simp [Next.weight]; omega
  | sleep => simp [Next.weight]; omega
  | call => simp [Next.weight]; omega
  | ret hr => simp [Next.weight, hres _ _ _ hr]; omega

/-- The total weight moves by what the piece of code of the step gives up and leaves. -/
theorem State.total_enter (hres : ∀ h v h', p.resume h v = some h' → w h' = w h + wv v)
    {t : Fin n} {f : F} {fs fs' : List F} {nx : Next F V P} (hst : s.stack t = f :: fs)
    (he : p.Enters fs nx fs') (σ' : σ) (cpu : Option (Fin n)) :
    ({ s with shared := σ', stack := update s.stack t fs', cpu := cpu } : State n σ F P).total w +
      w f = s.total w + nx.weight w wv := by
  have h := total_update (w := w) (s := s) t fs' σ' cpu
  have hs := he.sum_eq hres
  simp only [hst, List.map_cons, List.sum_cons] at h
  omega

theorem Program.Enters.sum_le (hres : ∀ h v h', p.resume h v = some h' → w h' ≤ w h + wv v)
    {fs fs' : List F} {nx : Next F V P} (h : p.Enters fs nx fs') :
    (fs'.map w).sum ≤ (fs.map w).sum + nx.weight w wv := by
  cases h with
  | goto => simp [Next.weight]; omega
  | sleep => simp [Next.weight]; omega
  | call => simp [Next.weight]; omega
  | ret hr =>
    have := hres _ _ _ hr
    simp [Next.weight]
    omega

/-- The same for frames that may lose weight when a value is returned to them. -/
theorem State.total_enter_le (hres : ∀ h v h', p.resume h v = some h' → w h' ≤ w h + wv v)
    {t : Fin n} {f : F} {fs fs' : List F} {nx : Next F V P} (hst : s.stack t = f :: fs)
    (he : p.Enters fs nx fs') (σ' : σ) (cpu : Option (Fin n)) :
    ({ s with shared := σ', stack := update s.stack t fs', cpu := cpu } : State n σ F P).total w +
      w f ≤ s.total w + nx.weight w wv := by
  have h := total_update (w := w) (s := s) t fs' σ' cpu
  have hs := he.sum_le hres
  simp only [hst, List.map_cons, List.sum_cons] at h
  omega

end Accounting

/-! ## Invariants of the shared state and of the frames -/

/-- The frames that the end of a piece of code puts on the stack. -/
def Next.frames : Next F V P → List F
  | .goto f => [f]
  | .sleep f => [f]
  | .call f g => [g, f]
  | .ret _ => []
  | .panic _ => []

section Invariants

variable {p} {s s' : State n σ F P}

/-- The frames of a task after a step are new, resumed, or were on its stack before. -/
theorem Program.Enters.mem {fs fs' : List F} {nx : Next F V P} (h : p.Enters fs nx fs') {g : F}
    (hg : g ∈ fs') :
    g ∈ fs ∨ g ∈ nx.frames ∨ ∃ h v, nx = .ret v ∧ h ∈ fs ∧ p.resume h v = some g := by
  cases h with
  | goto => simpa [Next.frames, or_comm] using hg
  | sleep => simpa [Next.frames, or_comm] using hg
  | call => simp [Next.frames] at hg ⊢; tauto
  | ret hr =>
    rcases List.mem_cons.mp hg with rfl | hg
    · exact .inr (.inr ⟨_, _, rfl, List.mem_cons_self, hr⟩)
    · exact .inl (List.mem_cons_of_mem _ hg)

/-- The same with the frame that a returned value goes to. -/
theorem Program.Enters.mem_head {fs fs' : List F} {nx : Next F V P} (h : p.Enters fs nx fs') {g : F}
    (hg : g ∈ fs') :
    g ∈ fs ∨ g ∈ nx.frames ∨ ∃ h hs v, fs = h :: hs ∧ nx = .ret v ∧ p.resume h v = some g := by
  cases h with
  | goto => simpa [Next.frames, or_comm] using hg
  | sleep => simpa [Next.frames, or_comm] using hg
  | call => simp [Next.frames] at hg ⊢; tauto
  | ret hr =>
    rcases List.mem_cons.mp hg with rfl | hg
    · exact .inr (.inr ⟨_, _, _, rfl, rfl, hr⟩)
    · exact .inl (List.mem_cons_of_mem _ hg)

/-- What holds of the shared state, and of the shared state together with each frame. -/
structure Holds (I : σ → Prop) (J : σ → F → Prop) (s : State n σ F P) : Prop where
  shared : I s.shared
  frames : ∀ t, ∀ f ∈ s.stack t, J s.shared f

/-- Two frames on the stacks: together they weigh at most as much as all. -/
def Apart (s : State n σ F P) (f g : F) : Prop := ∀ w : F → ℕ, w f + w g ≤ s.total w

theorem apart_below {t : Fin n} {f g : F} {fs : List F} (hst : s.stack t = f :: fs)
    (hg : g ∈ fs) : Apart s f g := by
  intro w
  have h₁ := State.weight_le_total (s := s) (w := w) (t := t)
  have h₂ := List.single_le_sum (l := fs.map w) (by simp) _ (List.mem_map_of_mem hg)
  rw [hst, List.map_cons, List.sum_cons] at h₁
  omega

theorem apart_of_ne {t u : Fin n} {f g : F} {fs : List F} (hst : s.stack t = f :: fs)
    (hu : u ≠ t) (hg : g ∈ s.stack u) : Apart s f g := by
  intro w
  have h₁ := Sums.add_le (Finset.mem_univ t) (Finset.mem_univ u) hu.symm
    fun t => ((s.stack t).map w).sum
  have h₂ := List.single_le_sum (l := (s.stack u).map w) (by simp) _ (List.mem_map_of_mem hg)
  change _ ≤ s.total w at h₁
  simp only [hst, List.map_cons, List.sum_cons] at h₁
  omega

/-- A piece of code that breaks nothing of the other frames, and leaves frames and a value as
expected, keeps what holds of the shared state and of every frame. -/
theorem Holds.enter {I : σ → Prop} {J : σ → F → Prop} (JV : σ → V → Prop) (hi : Holds I J s)
    {t : Fin n} {f : F} {fs fs' : List F} {σ' : σ} {nx : Next F V P} (hst : s.stack t = f :: fs)
    (he : p.Enters fs nx fs') (hI : I σ')
    (hstable : ∀ g, Apart s f g → J s.shared g → J σ' g) (hnew : ∀ g ∈ nx.frames, J σ' g)
    (hval : ∀ v, nx = .ret v → JV σ' v)
    (hresume : ∀ h v g, J σ' h → JV σ' v → p.resume h v = some g → J σ' g)
    (cpu : Option (Fin n)) :
    Holds I J { s with shared := σ', stack := update s.stack t fs', cpu := cpu } := by
  refine ⟨hI, fun u g hg => ?_⟩
  by_cases hu : u = t
  · subst hu
    have hold : ∀ g ∈ fs, J σ' g := fun g hg =>
      hstable g (apart_below hst hg) (hi.frames u g (hst ▸ List.mem_cons_of_mem f hg))
    simp only [update_self] at hg
    rcases he.mem hg with hg | hg | ⟨h, v, hv, hh, hr⟩
    · exact hold g hg
    · exact hnew g hg
    · exact hresume h v g (hold h hh) (hval v hv) hr
  · simp only [update_of_ne hu] at hg
    exact hstable g (apart_of_ne hst hu hg) (hi.frames u g hg)

/-- A step keeps what holds of the shared state and of every frame when no piece of code breaks
what holds of other frames, and what it returns is as the frame below expects. -/
theorem Holds.step {I : σ → Prop} {J : σ → F → Prop} (JV : σ → V → Prop) {a : Act n C H}
    (hi : Holds I J s) (hs : p.step a s = some s')
    (hexec : ∀ t c f fs σ' nx, a = .run t c → s.stack t = f :: fs →
      p.exec t c f s.shared = some (σ', nx) → (∀ q, nx ≠ .panic q) →
      I σ' ∧ (∀ g, Apart s f g → J s.shared g → J σ' g) ∧ (∀ g ∈ nx.frames, J σ' g) ∧
        ∀ v, nx = .ret v → JV σ' v)
    (hresume : ∀ σ h v g, J σ h → JV σ v → p.resume h v = some g → J σ g)
    (hintr : ∀ i σ', a = .intr i → p.intr i s.shared = some σ' →
      I σ' ∧ ∀ g, J s.shared g → J σ' g) : Holds I J s' := by
  obtain ⟨-, ⟨t, c, f, fs, σ', nx, ha, -, hst, hx, hq | hn⟩ | ⟨rfl, rfl⟩ |
    ⟨i, σ', ha, hx, rfl⟩⟩ := Program.step_cases hs
  · obtain ⟨q, -, rfl⟩ := hq; exact ⟨hi.shared, hi.frames⟩
  · obtain ⟨fs', cpu', he, rfl⟩ := hn
    have hnp : ∀ q, nx ≠ .panic q := by rintro q rfl; cases he
    obtain ⟨hI, hstable, hnew, hval⟩ := hexec t c f fs σ' nx ha hst hx hnp
    exact hi.enter JV hst he hI hstable hnew hval (hresume σ') cpu'
  · exact ⟨hi.shared, hi.frames⟩
  · obtain ⟨hI, hstable⟩ := hintr i σ' ha hx
    exact ⟨hI, fun u g hg => hstable g (hi.frames u g hg)⟩

end Invariants

/-! ## Frames and the frames below them -/

/-- What the end of a piece of code of `f` leaves fits wherever `f` did. -/
def Next.Fits (R : F → F → Prop) (f : F) : Next F V P → Prop
  | .goto g => ∀ x, R f x → R g x
  | .sleep g => ∀ x, R f x → R g x
  | .call g h => R h g ∧ ∀ x, R f x → R g x
  | .ret _ => True
  | .panic _ => True

/-- Every frame fits on the frame below it. -/
def Stacked (R : F → F → Prop) (s : State n σ F P) : Prop := ∀ t, (s.stack t).IsChain R

section Stacked

variable {p} {s s' : State n σ F P} {R : F → F → Prop}

theorem Program.Enters.isChain {f : F} {fs fs' : List F} {nx : Next F V P}
    (h : p.Enters fs nx fs') (hc : (f :: fs).IsChain R) (hnx : nx.Fits R f)
    (hresume : ∀ h v h', p.resume h v = some h' → ∀ x, R h x → R h' x) : fs'.IsChain R := by
  have hswap : ∀ {a b : F} {l : List F}, (∀ x, R a x → R b x) → (a :: l).IsChain R →
      (b :: l).IsChain R := by
    intro a b l hab hl
    cases l with
    | nil => exact .singleton _
    | cons x l => exact .cons_cons (hab x hl.rel) hl.tail
  cases h with
  | goto => exact hswap hnx hc
  | sleep => exact hswap hnx hc
  | call => exact .cons_cons hnx.1 (hswap hnx.2 hc)
  | ret hr => exact hswap (hresume _ _ _ hr) hc.tail

theorem Stacked.enter (h : Stacked R s) {t : Fin n} {f : F} {fs fs' : List F} {nx : Next F V P}
    (hst : s.stack t = f :: fs) (he : p.Enters fs nx fs') (hnx : nx.Fits R f)
    (hresume : ∀ h v h', p.resume h v = some h' → ∀ x, R h x → R h' x) (σ' : σ)
    (cpu : Option (Fin n)) :
    Stacked R { s with shared := σ', stack := update s.stack t fs', cpu := cpu } := by
  intro u
  by_cases hu : u = t
  · subst hu
    simp only [update_self]
    exact he.isChain (hst ▸ h u) hnx hresume
  · simp only [update_of_ne hu]
    exact h u

end Stacked

end Coop
