import Linux012.Kernel.Ptree.Basic

/-! # The shape of the process tree

The live tasks form a tree under `task[0]`, whose only child is `task[1]`. The children of a
task are chained from its youngest to its oldest.
-/

namespace Linux012.Ptree

open Function Links Runs

variable {s s' : Tasks} {kids : Ptr → List Ptr} {p₀ p₁ t p x y z : Ptr} {i j nr : Fin NR_TASKS}

/-- The children of each live task, in the order of their chain, and a depth of the tasks. -/
structure Tree (s : Tasks) (p₀ p₁ : Ptr) (kids : Ptr → List Ptr) (depth : Ptr → ℕ) : Prop where
  zero : s.task 0 = some p₀
  one : s.task 1 = some p₁
  inj : ∀ i j p, s.task i = some p → s.task j = some p → i = j
  root : s.pPptr p₀ = some p₀ ∧ s.pYsptr p₀ = none ∧ s.pOsptr p₀ = none
  kids_root : kids p₀ = [p₁]
  alive : s.zombie p₁ = false
  chain : ∀ x, s.Live x → Chain s.pOsptr s.pYsptr (s.pCptr x) (kids x)
  child : ∀ x, s.Live x → ∀ y ∈ kids x, s.Live y ∧ y ≠ p₀ ∧ s.pPptr y = some x
  parent : ∀ y, s.Live y → y ≠ p₀ → ∃ x, s.Live x ∧ s.pPptr y = some x ∧ y ∈ kids x
  leaf : ∀ x, s.Live x → s.zombie x = true → kids x = []
  deeper : ∀ y, s.Live y → y ≠ p₀ → (∀ x, s.pPptr y = some x → depth x < depth y) ∧
    (y ≠ p₁ → depth p₁ < depth y)

namespace Tree

variable {depth : Ptr → ℕ}

theorem live_zero (h : Tree s p₀ p₁ kids depth) : s.Live p₀ := ⟨0, h.zero⟩

theorem live_one (h : Tree s p₀ p₁ kids depth) : s.Live p₁ := ⟨1, h.one⟩

theorem one_ne_zero (h : Tree s p₀ p₁ kids depth) : p₁ ≠ p₀ :=
  (h.child p₀ h.live_zero p₁ (by rw [h.kids_root]; exact List.mem_singleton_self _)).2.1

theorem pPptr_one (h : Tree s p₀ p₁ kids depth) : s.pPptr p₁ = some p₀ :=
  (h.child p₀ h.live_zero p₁ (by rw [h.kids_root]; exact List.mem_singleton_self _)).2.2

theorem parent_unique (h : Tree s p₀ p₁ kids depth) (hx : s.Live x) (hz : s.Live z)
    (hyx : y ∈ kids x) (hyz : y ∈ kids z) : x = z :=
  Option.some.inj ((h.child x hx y hyx).2.2.symm.trans (h.child z hz y hyz).2.2)

theorem slot_ne_zero (h : Tree s p₀ p₁ kids depth) (hi : s.task i = some p) :
    i ≠ 0 ↔ p ≠ p₀ := by
  constructor
  · rintro hne rfl
    exact hne (h.inj i 0 p hi h.zero)
  · rintro hne rfl
    exact hne (Option.some.inj (hi.symm.trans h.zero))

theorem calls (h : Tree s p₀ p₁ kids depth) (hc : s.Calls t) :
    s.Live t ∧ t ≠ p₀ ∧ s.zombie t = false := by
  obtain ⟨⟨i, hi, ht⟩, hz⟩ := hc
  exact ⟨⟨i, ht⟩, (h.slot_ne_zero ht).mp hi, hz⟩

/-- As long as any other task lives, `task[1]` has a child. -/
theorem heir (h : Tree s p₀ p₁ kids depth) (hx : s.Live x) (h₀ : x ≠ p₀) (h₁ : x ≠ p₁) :
    kids p₁ ≠ [] := by
  induction hd : depth x using Nat.strong_induction_on generalizing x with
  | _ d ih =>
    obtain ⟨z, hz, hpz, hxz⟩ := h.parent x hx h₀
    by_cases hz₁ : z = p₁
    · rw [← hz₁]
      exact List.ne_nil_of_mem hxz
    · by_cases hz₀ : z = p₀
      · rw [hz₀, h.kids_root] at hxz
        exact absurd (List.mem_singleton.mp hxz) h₁
      · exact ih (depth z) (hd ▸ (h.deeper x hx h₀).1 z hpz) hz hz₀ hz₁ rfl

/-- What is said of pages without a task does not matter. -/
theorem congr (h : Tree s p₀ p₁ kids depth) (htask : s'.task = s.task)
    (hl : ∀ x, s.Live x → s'.zombie x = s.zombie x ∧ s'.pPptr x = s.pPptr x ∧
      s'.pCptr x = s.pCptr x ∧ s'.pYsptr x = s.pYsptr x ∧ s'.pOsptr x = s.pOsptr x) :
    Tree s' p₀ p₁ kids depth := by
  have hlive : ∀ x, s'.Live x ↔ s.Live x := fun x => by rw [Tasks.Live, htask, Tasks.Live]
  obtain ⟨-, hp, -, hys, hos⟩ := hl p₀ h.live_zero
  constructor
  · rw [htask, h.zero]
  · rw [htask, h.one]
  · rw [htask]
    exact h.inj
  · rw [hp, hys, hos]
    exact h.root
  · exact h.kids_root
  · rw [(hl p₁ h.live_one).1, h.alive]
  · intro x hx
    have hx := (hlive x).mp hx
    rw [(hl x hx).2.2.1]
    exact (h.chain x hx).congr (fun y hy => (hl y (h.child x hx y hy).1).2.2.2.2)
      fun y hy => (hl y (h.child x hx y hy).1).2.2.2.1
  · intro x hx y hy
    obtain ⟨h₁, h₂, h₃⟩ := h.child x ((hlive x).mp hx) y hy
    exact ⟨(hlive y).mpr h₁, h₂, (hl y h₁).2.1.trans h₃⟩
  · intro y hy h₀
    have hy := (hlive y).mp hy
    obtain ⟨x, h₁, h₂, h₃⟩ := h.parent y hy h₀
    exact ⟨x, (hlive x).mpr h₁, (hl y hy).2.1.trans h₂, h₃⟩
  · intro x hx hz
    have hx := (hlive x).mp hx
    exact h.leaf x hx ((hl x hx).1 ▸ hz)
  · intro y hy h₀
    have hy := (hlive y).mp hy
    rw [(hl y hy).2.1]
    exact h.deeper y hy h₀

/-! ## The audit -/

theorem not_bad (h : s.Live x) : s.badTaskPtr (some x) = false := by
  simpa [Tasks.badTaskPtr] using h

theorem auditLink {o : Option Ptr} {P : Ptr → Bool} : (∀ a, o = some a → P a = true) →
    (match o with
      | none => true
      | some a => P a) = true := by
  intro h
  cases o with
  | none => rfl
  | some a => exact h a rfl

theorem auditTask (h : Tree s p₀ p₁ kids depth) (ht : s.Live t) (h₀ : t ≠ p₀) :
    s.auditTask t = true := by
  obtain ⟨x, hx, hp, htx⟩ := h.parent t ht h₀
  have hch := h.chain x hx
  have hsib : ∀ o, o ∈ kids x → s.badTaskPtr (some o) = false ∧ s.pPptr t = s.pPptr o := by
    intro o ho
    obtain ⟨h₁, -, h₃⟩ := h.child x hx o ho
    exact ⟨not_bad h₁, hp.trans h₃.symm⟩
  have hself : s.pPptr t ≠ some t := fun he => by
    have := (h.deeper t ht h₀).1 t he
    omega
  have hos : s.badTaskPtr (s.pOsptr t) = false ∧ s.pOsptr t ≠ some t ∧ ∀ o, s.pOsptr t = some o →
      (decide (s.pPptr t = s.pPptr o) && decide (s.pYsptr o = some t)) = true := by
    cases hos : s.pOsptr t with
    | none => exact ⟨rfl, by simp, by simp⟩
    | some o =>
      obtain ⟨hbad, hpp⟩ := hsib o (hch.next_mem htx hos)
      refine ⟨hbad, hos ▸ hch.next_ne_self htx, fun o' ho => ?_⟩
      obtain rfl := Option.some.inj ho
      simp [hpp, hch.prev_next htx hos]
  have hys : s.badTaskPtr (s.pYsptr t) = false ∧ s.pYsptr t ≠ some t ∧ ∀ y, s.pYsptr t = some y →
      (decide (s.pPptr t = s.pPptr y) && decide (s.pOsptr y = some t)) = true := by
    cases hys : s.pYsptr t with
    | none => exact ⟨rfl, by simp, by simp⟩
    | some y =>
      obtain ⟨hbad, hpp⟩ := hsib y (hch.prev_mem htx hys)
      have hnext := hch.next_prev htx hys
      refine ⟨hbad, fun he => ?_, fun y' hy => ?_⟩
      · obtain rfl := Option.some.inj he
        exact hch.next_ne_self htx hnext
      · obtain rfl := Option.some.inj hy
        simp [hpp, hnext]
  have hc : s.badTaskPtr (s.pCptr t) = false ∧ s.pCptr t ≠ some t ∧ ∀ c, s.pCptr t = some c →
      (decide (s.pPptr c = some t) && decide (s.pYsptr c = none)) = true := by
    cases hc : s.pCptr t with
    | none => exact ⟨rfl, by simp, by simp⟩
    | some c =>
      have hch' := h.chain t ht
      have hct : c ∈ kids t := List.mem_of_mem_head? (by rw [← hch'.head, hc]; rfl)
      obtain ⟨h₁, -, h₃⟩ := h.child t ht c hct
      refine ⟨not_bad h₁, fun he => ?_, fun c' he => ?_⟩
      · obtain rfl := Option.some.inj he
        exact hself h₃
      · obtain rfl := Option.some.inj he
        simp [h₃, (hch'.prev_eq_none_iff hct).mpr hc]
  have hpp : s.badTaskPtr (s.pPptr t) = false := hp ▸ not_bad hx
  simp only [Tasks.auditTask, Bool.and_eq_true, Bool.not_eq_true', decide_eq_true_eq]
  exact ⟨⟨⟨⟨⟨⟨⟨⟨⟨⟨hpp, hc.1⟩, hys.1⟩, hos.1⟩, hself⟩, hc.2.1⟩, hys.2.1⟩, hos.2.1⟩,
    auditLink hos.2.2⟩, auditLink hys.2.2⟩, auditLink hc.2.2⟩

theorem auditPtree (h : Tree s p₀ p₁ kids depth) : s.auditPtree = true := by
  simp only [Tasks.auditPtree, List.all_eq_true, List.mem_finRange, true_implies, Bool.or_eq_true,
    decide_eq_true_eq]
  intro i
  by_cases hi : i = 0
  · exact .inl hi
  · right
    cases ht : s.task i with
    | none => rfl
    | some t => exact h.auditTask ⟨i, ht⟩ ((h.slot_ne_zero ht).mp hi)

end Tree

end Linux012.Ptree
