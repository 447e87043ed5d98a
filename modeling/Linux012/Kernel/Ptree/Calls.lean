import Linux012.Kernel.Ptree.Shape
import Linux012.Lib.Index

/-! # Fork, exit and waitpid on the process tree

Each call keeps the tree: a fork pushes the child in front of its siblings, an exit splices the
children in front of those of `task[1]`, and a wait takes a zombie out of its chain.
-/

namespace Linux012.Ptree

open Function Links Runs
open scoped Index

variable {s s' : Tasks} {kids : Ptr → List Ptr} {depth : Ptr → ℕ}
  {p₀ p₁ t p x y z c : Ptr} {i j nr : Fin NR_TASKS} {l : List Ptr} {k : ℕ}

namespace Tree

/-! ## Fork -/

theorem fork_fails (h : Tree s p₀ p₁ kids depth) (hnr : s.task nr = none) (hp : ¬ s.Live p) :
    Tree (s.copyProcess t p nr true) p₀ p₁ kids depth := by
  have htask : (s.copyProcess t p nr true).task = s.task := by
    simp only [Tasks.copyProcess, if_true, update_idem]
    rw [← hnr, update_eq_self]
  refine h.congr htask fun x hx => ?_
  have hxp : x ≠ p := fun e => hp (e ▸ hx)
  simp only [Tasks.copyProcess, if_true, update_of_ne hxp, and_self]

/-- The links after a fork has gone well. -/
structure Forked (s s' : Tasks) (t p : Ptr) (nr : Fin NR_TASKS) : Prop where
  task : s'.task = update s.task nr (some p)
  zombie : s'.zombie = update s.zombie p false
  pPptr : s'.pPptr = update s.pPptr p (some t)
  pCptr : ∀ y, s'.pCptr y = if y = t then some p else if y = p then none else s.pCptr y
  pYsptr : ∀ y, s'.pYsptr y =
    if s.pCptr t = some y then some p else if y = p then none else s.pYsptr y
  pOsptr : s'.pOsptr = update s.pOsptr p (s.pCptr t)

theorem forked (htp : t ≠ p) : Forked s (s.copyProcess t p nr false) t p nr := by
  constructor
  · simp [Tasks.copyProcess]
  · simp [Tasks.copyProcess]
  · simp [Tasks.copyProcess]
  · intro y
    simp only [Tasks.copyProcess, Bool.false_eq_true, if_false, update_apply, if_neg htp]
    split_ifs <;> rfl
  · intro y
    simp only [Tasks.copyProcess, Bool.false_eq_true, if_false, setAt_apply, update_self,
      update_of_ne htp, update_apply]
    split_ifs <;> rfl
  · simp [Tasks.copyProcess, update_of_ne htp]

theorem fork (h : Tree s p₀ p₁ kids depth) (ht : s.Live t) (ht₀ : t ≠ p₀)
    (htz : s.zombie t = false) (hnr : s.task nr = none) (hp : ¬ s.Live p) (hf : Forked s s' t p nr) :
    ∃ depth', Tree s' p₀ p₁ (update (update kids p []) t (p :: kids t)) depth' := by
  have htp : t ≠ p := fun e => hp (e ▸ ht)
  have hne : ∀ x, s.Live x → x ≠ p := fun x hx e => hp (e ▸ hx)
  have hlive : ∀ x, s'.Live x ↔ s.Live x ∨ x = p := by
    intro x
    simp only [Tasks.Live, hf.task]
    constructor
    · rintro ⟨i, hi⟩
      by_cases hinr : i = nr
      · subst hinr
        rw [update_self] at hi
        exact .inr (Option.some.inj hi).symm
      · rw [update_of_ne hinr] at hi
        exact .inl ⟨i, hi⟩
    · rintro (⟨i, hi⟩ | rfl)
      · have hinr : i ≠ nr := by
          rintro rfl
          rw [hnr] at hi
          cases hi
        exact ⟨i, by rw [update_of_ne hinr, hi]⟩
      · exact ⟨nr, update_self ..⟩
  have hold : ∀ i x, s.task i = some x → s'.task i = some x := by
    intro i x hi
    have hinr : i ≠ nr := by
      rintro rfl
      rw [hnr] at hi
      cases hi
    rw [hf.task, update_of_ne hinr, hi]
  have hpar : ∀ x, x ≠ p → s'.pPptr x = s.pPptr x := fun x hx => by
    rw [hf.pPptr, update_of_ne hx]
  have hkids : ∀ x, x ≠ t → x ≠ p →
      (update (update kids p []) t (p :: kids t)) x = kids x := fun x hx hxp => by
    rw [update_of_ne hx, update_of_ne hxp]
  have hkt : (update (update kids p []) t (p :: kids t)) t = p :: kids t := update_self ..
  have hkp : (update (update kids p []) t (p :: kids t)) p = [] := by
    rw [update_of_ne htp.symm, update_self]
  have hp₀ := hne p₀ h.live_zero
  have hp₁ := hne p₁ h.live_one
  have hpk : ∀ x, s.Live x → p ∉ kids x := fun x hx hm => hp (h.child x hx p hm).1
  have hhead : ∀ y, s.pCptr t = some y → y ∈ kids t := fun y hy =>
    List.mem_of_mem_head? (by rw [← (h.chain t ht).head, hy]; rfl)
  refine ⟨update depth p (max (depth t) (depth p₁) + 1), ?_⟩
  constructor
  · exact hold 0 p₀ h.zero
  · exact hold 1 p₁ h.one
  · intro i j x hi hj
    rw [hf.task] at hi hj
    by_cases hin : i = nr <;> by_cases hjn : j = nr
    · rw [hin, hjn]
    · subst hin
      rw [update_self] at hi
      rw [update_of_ne hjn] at hj
      exact absurd ⟨j, hj⟩ (Option.some.inj hi ▸ hp)
    · subst hjn
      rw [update_self] at hj
      rw [update_of_ne hin] at hi
      exact absurd ⟨i, hi⟩ (Option.some.inj hj ▸ hp)
    · rw [update_of_ne hin] at hi
      rw [update_of_ne hjn] at hj
      exact h.inj i j x hi hj
  · obtain ⟨h₁, h₂, h₃⟩ := h.root
    refine ⟨(hpar p₀ hp₀).trans h₁, ?_, by rw [hf.pOsptr, update_of_ne hp₀, h₃]⟩
    have hne₀ : s.pCptr t ≠ some p₀ := fun he => (h.child t ht p₀ (hhead p₀ he)).2.1 rfl
    rw [hf.pYsptr, if_neg hne₀, if_neg hp₀, h₂]
  · rw [hkids p₀ ht₀.symm hp₀, h.kids_root]
  · rw [hf.zombie, update_of_ne hp₁, h.alive]
  · intro x hx
    rw [hf.pCptr]
    by_cases hxt : x = t
    · subst hxt
      rw [if_pos rfl, hkt]
      refine (h.chain x ht).cons (hpk x ht) ?_ ?_ (fun y hy => ?_) fun y hy => ?_
      · rw [hf.pOsptr, update_self]
      · have : s.pCptr x ≠ some p := fun he => hpk x ht (hhead p he)
        rw [hf.pYsptr, if_neg this, if_pos rfl]
      · rw [hf.pOsptr, update_of_ne (hne y (h.child x ht y hy).1)]
      · rw [hf.pYsptr, if_neg (hne y (h.child x ht y hy).1)]
    · rw [if_neg hxt]
      by_cases hxp : x = p
      · rw [if_pos hxp, hxp, hkp]
        exact .nil
      · have hx := ((hlive x).mp hx).resolve_right hxp
        rw [if_neg hxp, hkids x hxt hxp]
        refine (h.chain x hx).congr (fun y hy => ?_) fun y hy => ?_
        · rw [hf.pOsptr, update_of_ne (hne y (h.child x hx y hy).1)]
        · have hyt : s.pCptr t ≠ some y := fun he =>
            hxt (h.parent_unique hx ht hy (hhead y he))
          rw [hf.pYsptr, if_neg hyt, if_neg (hne y (h.child x hx y hy).1)]
  · intro x hx y hy
    by_cases hxt : x = t
    · subst hxt
      rw [hkt] at hy
      rcases List.mem_cons.mp hy with rfl | hy
      · exact ⟨(hlive y).mpr (.inr rfl), hp₀.symm, by rw [hf.pPptr, update_self]⟩
      · obtain ⟨h₁, h₂, h₃⟩ := h.child x ht y hy
        exact ⟨(hlive y).mpr (.inl h₁), h₂, (hpar y (hne y h₁)).trans h₃⟩
    · by_cases hxp : x = p
      · rw [hxp, hkp] at hy
        cases hy
      · rw [hkids x hxt hxp] at hy
        obtain ⟨h₁, h₂, h₃⟩ := h.child x (((hlive x).mp hx).resolve_right hxp) y hy
        exact ⟨(hlive y).mpr (.inl h₁), h₂, (hpar y (hne y h₁)).trans h₃⟩
  · intro y hy hy₀
    by_cases hyp : y = p
    · subst hyp
      refine ⟨t, (hlive t).mpr (.inl ht), by rw [hf.pPptr, update_self], ?_⟩
      rw [hkt]
      exact List.mem_cons_self
    · obtain ⟨x, h₁, h₂, h₃⟩ := h.parent y (((hlive y).mp hy).resolve_right hyp) hy₀
      refine ⟨x, (hlive x).mpr (.inl h₁), (hpar y hyp).trans h₂, ?_⟩
      by_cases hxt : x = t
      · rw [hxt, hkt]
        exact List.mem_cons_of_mem _ (hxt ▸ h₃)
      · rwa [hkids x hxt (hne x h₁)]
  · intro x hx hz
    by_cases hxp : x = p
    · rw [hxp, hf.zombie, update_self] at hz
      cases hz
    · have hx := ((hlive x).mp hx).resolve_right hxp
      rw [hf.zombie, update_of_ne hxp] at hz
      have hxt : x ≠ t := by
        rintro rfl
        rw [htz] at hz
        cases hz
      rw [hkids x hxt hxp]
      exact h.leaf x hx hz
  · intro y hy hy₀
    by_cases hyp : y = p
    · subst hyp
      refine ⟨fun x hx => ?_, fun _ => ?_⟩
      · rw [hf.pPptr, update_self] at hx
        obtain rfl := Option.some.inj hx
        rw [update_self, update_of_ne htp]
        omega
      · rw [update_self, update_of_ne hp₁]
        omega
    · have hy := ((hlive y).mp hy).resolve_right hyp
      obtain ⟨h₁, h₂⟩ := h.deeper y hy hy₀
      rw [hpar y hyp, update_of_ne hyp, update_of_ne hp₁]
      refine ⟨fun x hx => ?_, h₂⟩
      obtain ⟨z, hz, hpz, -⟩ := h.parent y hy hy₀
      obtain rfl := Option.some.inj (hpz.symm.trans hx)
      rw [update_of_ne (hne z hz)]
      exact h₁ z hx

/-! ## Exit -/

theorem adopt_spec (init : Ptr) (h : Path s.pOsptr (some c) (c :: l)) (hl : (c :: l).Nodup)
    (hk : l.length < k) :
    Tasks.adopt init k c s = some
      ({ s with pPptr := fun y => if y ∈ c :: l then some init else s.pPptr y },
        (c :: l).getLast (List.cons_ne_nil c l)) := by
  induction l generalizing c s k with
  | nil =>
    obtain ⟨k, rfl⟩ := Nat.exists_eq_add_of_lt hk
    have hmap : update s.pPptr c (some init) =
        fun y => if y ∈ [c] then some init else s.pPptr y := by
      funext y
      simp [update_apply]
    simp [Tasks.adopt, path_nil.mp h.2, hmap]
  | cons q l ih =>
    obtain ⟨k, rfl⟩ : ∃ j, k = j + 1 := ⟨k - 1, by omega⟩
    have hq : s.pOsptr c = some q := h.2.1
    have hcq := (List.nodup_cons.mp hl).1
    have hpath : Path s.pOsptr (some q) (q :: l) := hq ▸ h.2
    simp only [Tasks.adopt, hq]
    rw [ih (s := { s with pPptr := update s.pPptr c (some init) }) hpath
      (List.nodup_cons.mp hl).2 (by simpa using hk)]
    have hmap : (fun y => if y ∈ q :: l then some init else update s.pPptr c (some init) y) =
        fun y => if y ∈ c :: q :: l then some init else s.pPptr y := by
      funext y
      by_cases hyc : y = c
      · subst hyc
        rw [if_neg hcq, if_pos List.mem_cons_self, update_self]
      · rw [update_of_ne hyc]
        simp [hyc]
    simp only [hmap, List.getLast_cons_cons]

/-- The links after a task with children has exited. -/
structure Exited (s s' : Tasks) (t p₁ b y : Ptr) (ks : List Ptr) : Prop where
  task : s'.task = s.task
  zombie : s'.zombie = update s.zombie t true
  pPptr : ∀ x, s'.pPptr x = if x ∈ ks then some p₁ else s.pPptr x
  pCptr : s'.pCptr = update (update s.pCptr p₁ (s.pCptr t)) t none
  pYsptr : s'.pYsptr = update s.pYsptr y (some b)
  pOsptr : s'.pOsptr = update s.pOsptr b (some y)

theorem length_le {q : List Ptr} (hq : q.Nodup)
    (hlive : ∀ x ∈ q, s.Live x) : q.length ≤ NR_TASKS := by
  choose! slot hslot using hlive
  have hinj : ∀ x ∈ q, ∀ y ∈ q, slot x = slot y → x = y := fun x hx y hy he =>
    Option.some.inj ((hslot x hx).symm.trans (he ▸ hslot y hy))
  have hnd : (q.map slot).Nodup := List.Nodup.map_on hinj hq
  simpa using hnd.length_le_card

/-- `do_exit` does not go through a null pointer. -/
theorem doExit_spec (h : Tree s p₀ p₁ kids depth) (ht : s.Live t) (ht₀ : t ≠ p₀) (ht₁ : t ≠ p₁)
    {ks : List Ptr} {b : Ptr} (hks : kids t = ks ++ [b]) :
    ∃ y l, kids p₁ = y :: l ∧ ∃ s', s.doExit t = some s' ∧ Exited s s' t p₁ b y (kids t) := by
  obtain ⟨y, l, hl⟩ := List.exists_cons_of_ne_nil (h.heir ht ht₀ ht₁)
  have hch := h.chain t ht
  have hy : s.pCptr p₁ = some y := by
    rw [(h.chain p₁ h.live_one).head, hl]
    rfl
  obtain ⟨c, ks', hc⟩ := List.exists_cons_of_ne_nil (l := kids t) (by simp [hks])
  have hlast : (c :: ks').getLast (List.cons_ne_nil c ks') = b := by
    simp [← hc, hks]
  have hhead : s.pCptr t = some c := by
    rw [hch.head, hc]
    rfl
  have hpath := hch.path
  have hnd := hch.nodup
  have hlen := length_le (s := s) hnd fun x hx => (h.child t ht x hx).1
  rw [hhead, hc] at hpath
  rw [hc] at hnd hlen
  have hadopt := adopt_spec p₁ (s := { s with zombie := update s.zombie t true })
    (k := NR_TASKS) hpath hnd (by simpa using hlen)
  rw [hlast] at hadopt
  refine ⟨y, l, hl, { s with
      zombie := update s.zombie t true
      pPptr := fun x => if x ∈ c :: ks' then some p₁ else s.pPptr x
      pCptr := update (update s.pCptr p₁ (some c)) t none
      pYsptr := update s.pYsptr y (some b)
      pOsptr := update s.pOsptr b (some y) }, ?_, ?_⟩
  · simp only [Tasks.doExit, hhead, h.one, hadopt, hy, Option.bind_eq_bind, Option.bind_some]
  · exact ⟨rfl, rfl, fun x => by rw [hc], by rw [hhead], rfl, rfl⟩

/-- A task without children only becomes a zombie. -/
theorem exit_leaf (h : Tree s p₀ p₁ kids depth) (ht : s.Live t) (ht₁ : t ≠ p₁)
    (hks : kids t = []) :
    ∃ s', s.doExit t = some s' ∧ Tree s' p₀ p₁ kids depth := by
  have hhead : s.pCptr t = none := by rw [(h.chain t ht).head, hks]; rfl
  refine ⟨{ s with zombie := update s.zombie t true }, by simp [Tasks.doExit, hhead],
    h.zero, h.one, h.inj, h.root, h.kids_root, ?_, h.chain, h.child, h.parent, ?_, h.deeper⟩
  · dsimp only
    rw [update_of_ne ht₁.symm, h.alive]
  · intro x hx hz
    by_cases hxt : x = t
    · rw [hxt, hks]
    · refine h.leaf x hx ?_
      dsimp only at hz
      rwa [update_of_ne hxt] at hz

theorem exit (h : Tree s p₀ p₁ kids depth) (ht : s.Live t) (ht₀ : t ≠ p₀) (ht₁ : t ≠ p₁)
    {ks : List Ptr} {b : Ptr} (hks : kids t = ks ++ [b]) (hl : kids p₁ = y :: l)
    (he : Exited s s' t p₁ b y (kids t)) :
    Tree s' p₀ p₁ (update (update kids p₁ (kids t ++ kids p₁)) t []) depth := by
  have hlive : ∀ x, s'.Live x ↔ s.Live x := fun x => by rw [Tasks.Live, he.task, Tasks.Live]
  have h₁ := h.live_one
  have hkt : (update (update kids p₁ (kids t ++ kids p₁)) t []) t = [] := update_self ..
  have hk₁ : (update (update kids p₁ (kids t ++ kids p₁)) t []) p₁ = kids t ++ kids p₁ := by
    rw [update_of_ne ht₁.symm, update_self]
  have hkids : ∀ x, x ≠ t → x ≠ p₁ →
      (update (update kids p₁ (kids t ++ kids p₁)) t []) x = kids x := fun x hx hx₁ => by
    rw [update_of_ne hx, update_of_ne hx₁]
  have hbt : b ∈ kids t := by rw [hks]; simp
  have hy₁ : y ∈ kids p₁ := by rw [hl]; exact List.mem_cons_self
  have hpar : ∀ x z, s.Live z → z ≠ t → x ∈ kids z → s'.pPptr x = s.pPptr x := by
    intro x z hz hzt hx
    rw [he.pPptr, if_neg fun hm => hzt (h.parent_unique hz ht hx hm)]
  have hdisj : ∀ x ∈ kids t, x ∉ kids p₁ := fun x hx hx₁ =>
    ht₁ (h.parent_unique ht h₁ hx hx₁)
  have hone : p₁ ∉ kids t := fun hm => by
    have := (h.child t ht p₁ hm).2.2
    rw [h.pPptr_one] at this
    exact ht₀ (Option.some.inj this).symm
  have hzero : p₀ ∉ kids t := fun hm => (h.child t ht p₀ hm).2.1 rfl
  have hlink : ∀ z, s.Live z → z ≠ t → z ≠ p₁ → ∀ x ∈ kids z, x ≠ b ∧ x ≠ y := by
    intro z hz hzt hz₁ x hx
    exact ⟨fun e => hzt (h.parent_unique hz ht hx (e ▸ hbt)),
      fun e => hz₁ (h.parent_unique hz h₁ hx (e ▸ hy₁))⟩
  constructor
  · rw [he.task, h.zero]
  · rw [he.task, h.one]
  · rw [he.task]
    exact h.inj
  · obtain ⟨hr₁, hr₂, hr₃⟩ := h.root
    have hb₀ : p₀ ≠ b := fun e => hzero (e ▸ hbt)
    have hy₀ : p₀ ≠ y := fun e => (h.child p₁ h₁ y hy₁).2.1 e.symm
    rw [he.pPptr, if_neg hzero, he.pYsptr, update_of_ne hy₀, he.pOsptr, update_of_ne hb₀]
    exact ⟨hr₁, hr₂, hr₃⟩
  · rw [hkids p₀ ht₀.symm h.one_ne_zero.symm, h.kids_root]
  · rw [he.zombie, update_of_ne ht₁.symm, h.alive]
  · intro x hx
    have hx := (hlive x).mp hx
    rw [he.pCptr, he.pYsptr, he.pOsptr]
    by_cases hxt : x = t
    · rw [hxt, hkt, update_self]
      exact .nil
    · rw [update_of_ne hxt]
      by_cases hx₁ : x = p₁
      · rw [hx₁, hk₁, update_self]
        have hch := h.chain t ht
        have hch₁ := h.chain p₁ h₁
        rw [hch₁.head, hl] at hch₁
        rw [hks] at hch hdisj ⊢
        rw [hl] at hdisj ⊢
        exact hch.append hch₁ hdisj
      · rw [update_of_ne hx₁, hkids x hxt hx₁]
        exact (h.chain x hx).congr
          (fun z hz => update_of_ne (hlink x hx hxt hx₁ z hz).1 ..)
          fun z hz => update_of_ne (hlink x hx hxt hx₁ z hz).2 ..
  · intro x hx z hz
    have hx := (hlive x).mp hx
    by_cases hxt : x = t
    · rw [hxt, hkt] at hz
      cases hz
    · by_cases hx₁ : x = p₁
      · rw [hx₁, hk₁] at hz
        rcases List.mem_append.mp hz with hz | hz
        · obtain ⟨h₁, h₂, -⟩ := h.child t ht z hz
          exact ⟨(hlive z).mpr h₁, h₂, by rw [he.pPptr, if_pos hz, hx₁]⟩
        · obtain ⟨h₂, h₃, h₄⟩ := h.child p₁ h₁ z hz
          exact ⟨(hlive z).mpr h₂, h₃, by rw [hpar z p₁ h₁ ht₁.symm hz, h₄, hx₁]⟩
      · rw [hkids x hxt hx₁] at hz
        obtain ⟨h₂, h₃, h₄⟩ := h.child x hx z hz
        exact ⟨(hlive z).mpr h₂, h₃, by rw [hpar z x hx hxt hz, h₄]⟩
  · intro z hz hz₀
    obtain ⟨x, hx, hp, hzx⟩ := h.parent z ((hlive z).mp hz) hz₀
    by_cases hxt : x = t
    · subst hxt
      refine ⟨p₁, (hlive p₁).mpr h₁, by rw [he.pPptr, if_pos hzx], ?_⟩
      rw [hk₁]
      exact List.mem_append_left _ hzx
    · refine ⟨x, (hlive x).mpr hx, (hpar z x hx hxt hzx).trans hp, ?_⟩
      by_cases hx₁ : x = p₁
      · rw [hx₁, hk₁]
        exact List.mem_append_right _ (hx₁ ▸ hzx)
      · rwa [hkids x hxt hx₁]
  · intro x hx hz
    have hx := (hlive x).mp hx
    by_cases hxt : x = t
    · rw [hxt, hkt]
    · rw [he.zombie, update_of_ne hxt] at hz
      have hx₁ : x ≠ p₁ := by
        rintro rfl
        rw [h.alive] at hz
        cases hz
      rw [hkids x hxt hx₁]
      exact h.leaf x hx hz
  · intro z hz hz₀
    have hz := (hlive z).mp hz
    obtain ⟨h₂, h₃⟩ := h.deeper z hz hz₀
    refine ⟨fun x hx => ?_, h₃⟩
    rw [he.pPptr] at hx
    split_ifs at hx with hm
    · obtain rfl := Option.some.inj hx
      exact h₃ fun e => hone (e ▸ hm)
    · exact h₂ x hx

/-! ## Wait -/

/-- The links after a zombie has been released. -/
structure Released (s s' : Tasks) (p q : Ptr) (i : Fin NR_TASKS) : Prop where
  task : s'.task = update s.task i none
  zombie : s'.zombie = s.zombie
  pPptr : s'.pPptr = s.pPptr
  pCptr : ∀ x, s'.pCptr x = if x = q ∧ s.pCptr q = some p then s.pOsptr p else s.pCptr x
  pYsptr : s'.pYsptr = setAt s.pYsptr (s.pOsptr p) (s.pYsptr p)
  pOsptr : s'.pOsptr = setAt s.pOsptr (s.pYsptr p) (s.pOsptr p)

/-- `release` finds the task and goes through no null pointer. -/
theorem release_spec (h : Tree s p₀ p₁ kids depth) (hq : s.Live t) (hp : p ∈ kids t)
    (htp : p ≠ t) :
    ∃ i, s.task i = some p ∧ i ≠ 0 ∧ ∃ s', s.release t p = some s' ∧ Released s s' p t i := by
  obtain ⟨hlive, hp₀, hpp⟩ := h.child t hq p hp
  have hch := h.chain t hq
  obtain ⟨j, hj⟩ := hlive
  have hj₀ : j ≠ 0 := (h.slot_ne_zero hj).mpr hp₀
  obtain ⟨i, hi⟩ : ∃ i, (List.finRange NR_TASKS).find?
      (fun i => i ≠ 0 && s.task i = some p) = some i := by
    rw [← Option.isSome_iff_exists, List.find?_isSome]
    exact ⟨j, List.mem_finRange j, by simp [hj₀, hj]⟩
  obtain ⟨hi₀, hip⟩ : i ≠ 0 ∧ s.task i = some p := by simpa using List.find?_some hi
  have hself : s.pOsptr p ≠ some p := hch.next_ne_self hp
  have hys : setAt s.pYsptr (s.pOsptr p) (s.pYsptr p) p = s.pYsptr p := by
    rw [setAt_apply, if_neg hself]
  have hhead := hch.prev_eq_none_iff hp
  refine ⟨i, hip, hi₀, ?_⟩
  cases hy : s.pYsptr p with
  | none =>
    rw [hy] at hys
    refine ⟨{ s with
      task := update s.task i none
      pYsptr := setAt s.pYsptr (s.pOsptr p) none
      pCptr := update s.pCptr t (s.pOsptr p) }, ?_, ?_⟩
    · simp only [Tasks.release, if_neg htp, hi, Option.bind_eq_bind, Option.bind_some, hy, hys, hpp]
    · refine ⟨rfl, rfl, rfl, fun x => ?_, by rw [hy], by rw [hy]; rfl⟩
      by_cases hxt : x = t
      · simp [hxt, hhead.mp hy]
      · simp [hxt]
  | some y =>
    rw [hy] at hys
    refine ⟨{ s with
      task := update s.task i none
      pYsptr := setAt s.pYsptr (s.pOsptr p) (some y)
      pOsptr := update s.pOsptr y (s.pOsptr p) }, ?_, ?_⟩
    · simp only [Tasks.release, if_neg htp, hi, Option.bind_eq_bind, Option.bind_some, hy, hys]
    · have hne : s.pCptr t ≠ some p := fun he => by
        rw [hhead.mpr he] at hy
        cases hy
      exact ⟨rfl, rfl, rfl, fun x => by simp [hne], by rw [hy], by rw [hy]; rfl⟩

/-- Whoever is released is gone. -/
theorem released_live (h : Tree s p₀ p₁ kids depth) (hi : s.task i = some p) (hr : Released s s' p t i) (x : Ptr) :
    s'.Live x ↔ s.Live x ∧ x ≠ p := by
  simp only [Tasks.Live, hr.task]
  constructor
  · rintro ⟨j, hj⟩
    have hji : j ≠ i := by
      rintro rfl
      rw [update_self] at hj
      cases hj
    rw [update_of_ne hji] at hj
    exact ⟨⟨j, hj⟩, fun e => hji (h.inj j i p (e ▸ hj) hi)⟩
  · rintro ⟨⟨j, hj⟩, hx⟩
    have hji : j ≠ i := by
      rintro rfl
      exact hx (Option.some.inj (hj.symm.trans hi))
    exact ⟨j, by rw [update_of_ne hji, hj]⟩

theorem release (h : Tree s p₀ p₁ kids depth) (ht : s.Live t) (hp : p ∈ kids t)
    (hz : s.zombie p = true) (hi : s.task i = some p) (hr : Released s s' p t i) :
    Tree s' p₀ p₁ (update kids t ((kids t).erase p)) depth := by
  obtain ⟨hlp, hp₀, hpt⟩ := h.child t ht p hp
  have hp₁ : p ≠ p₁ := by
    rintro rfl
    rw [h.alive] at hz
    cases hz
  have hleaf := h.leaf p hlp hz
  have hch := h.chain t ht
  have hlive : ∀ x, s'.Live x ↔ s.Live x ∧ x ≠ p := fun x => h.released_live hi hr x
  have hold : ∀ j x, s.task j = some x → x ≠ p → s'.task j = some x := by
    intro j x hj hx
    have hji : j ≠ i := by
      rintro rfl
      exact hx (Option.some.inj (hj.symm.trans hi))
    rw [hr.task, update_of_ne hji, hj]
  have hkt : (update kids t ((kids t).erase p)) t = (kids t).erase p := update_self ..
  have hkids : ∀ x, x ≠ t → (update kids t ((kids t).erase p)) x = kids x := fun x hx =>
    update_of_ne hx ..
  -- the neighbours of the zombie are its siblings
  have hos : ∀ x, s.pOsptr p = some x → x ∈ kids t := fun x hx => hch.next_mem hp hx
  have hys : ∀ x, s.pYsptr p = some x → x ∈ kids t := fun x hx => hch.prev_mem hp hx
  have hother : ∀ z, s.Live z → z ≠ t → ∀ x ∈ kids z, s'.pOsptr x = s.pOsptr x ∧
      s'.pYsptr x = s.pYsptr x := by
    intro z hz hzt x hx
    rw [hr.pOsptr, hr.pYsptr, setAt_apply, setAt_apply,
      if_neg fun he => hzt (h.parent_unique hz ht hx (hys x he)),
      if_neg fun he => hzt (h.parent_unique hz ht hx (hos x he))]
    exact ⟨rfl, rfl⟩
  constructor
  · exact hold 0 p₀ h.zero hp₀.symm
  · exact hold 1 p₁ h.one hp₁.symm
  · intro j k x hj hk
    rw [hr.task] at hj hk
    have hji : j ≠ i := by
      rintro rfl
      rw [update_self] at hj
      cases hj
    have hki : k ≠ i := by
      rintro rfl
      rw [update_self] at hk
      cases hk
    rw [update_of_ne hji] at hj
    rw [update_of_ne hki] at hk
    exact h.inj j k x hj hk
  · obtain ⟨h₁, h₂, h₃⟩ := h.root
    rw [hr.pPptr, hr.pYsptr, hr.pOsptr, setAt_apply, setAt_apply,
      if_neg fun he => (h.child t ht p₀ (hos p₀ he)).2.1 rfl,
      if_neg fun he => (h.child t ht p₀ (hys p₀ he)).2.1 rfl]
    exact ⟨h₁, h₂, h₃⟩
  · have ht₀ : p₀ ≠ t := by
      rintro rfl
      rw [h.kids_root] at hp
      exact hp₁ (List.mem_singleton.mp hp)
    rw [hkids p₀ ht₀, h.kids_root]
  · rw [hr.zombie, h.alive]
  · intro x hx
    obtain ⟨hx, -⟩ := (hlive x).mp hx
    rw [hr.pCptr]
    by_cases hxt : x = t
    · subst hxt
      rw [hkt, hr.pOsptr, hr.pYsptr]
      have herase := hch.erase hp
      simpa using herase
    · rw [if_neg fun hh => hxt hh.1, hkids x hxt]
      exact (h.chain x hx).congr (fun y hy => (hother x hx hxt y hy).1)
        fun y hy => (hother x hx hxt y hy).2
  · intro x hx y hy
    obtain ⟨hx, -⟩ := (hlive x).mp hx
    have hyx : y ∈ kids x ∧ y ≠ p := by
      by_cases hxt : x = t
      · subst hxt
        rw [hkt] at hy
        exact ⟨List.mem_of_mem_erase hy, fun e => hch.nodup.not_mem_erase (e ▸ hy)⟩
      · rw [hkids x hxt] at hy
        exact ⟨hy, fun e => hxt (h.parent_unique hx ht (e ▸ hy) hp)⟩
    obtain ⟨h₁, h₂, h₃⟩ := h.child x hx y hyx.1
    exact ⟨(hlive y).mpr ⟨h₁, hyx.2⟩, h₂, by rw [hr.pPptr, h₃]⟩
  · intro y hy hy₀
    obtain ⟨hy, hyp⟩ := (hlive y).mp hy
    obtain ⟨x, hx, hpx, hyx⟩ := h.parent y hy hy₀
    have hxp : x ≠ p := by
      rintro rfl
      rw [hleaf] at hyx
      cases hyx
    refine ⟨x, (hlive x).mpr ⟨hx, hxp⟩, by rw [hr.pPptr, hpx], ?_⟩
    by_cases hxt : x = t
    · subst hxt
      rw [hkt]
      exact (List.mem_erase_of_ne hyp).mpr hyx
    · rwa [hkids x hxt]
  · intro x hx hxz
    obtain ⟨hx, -⟩ := (hlive x).mp hx
    rw [hr.zombie] at hxz
    have hnil := h.leaf x hx hxz
    by_cases hxt : x = t
    · subst hxt
      rw [hkt, hnil]
      rfl
    · rw [hkids x hxt, hnil]
  · intro y hy hy₀
    rw [hr.pPptr]
    exact h.deeper y ((hlive y).mp hy).1 hy₀

/-! ## Runs -/

theorem boot (h : Boot s p₀ p₁) :
    Tree s p₀ p₁ (fun x => if x = p₀ then [p₁] else []) fun x => if x = p₀ then 0 else 1 := by
  have hlive : ∀ x, s.Live x ↔ x = p₀ ∨ x = p₁ := by
    intro x
    constructor
    · rintro ⟨i, hi⟩
      exact ((h.task i x).mp hi).imp And.right And.right
    · rintro (rfl | rfl)
      · exact ⟨0, (h.task 0 _).mpr (.inl ⟨rfl, rfl⟩)⟩
      · exact ⟨1, (h.task 1 _).mpr (.inr ⟨rfl, rfl⟩)⟩
  have hne := h.ne.symm
  constructor
  · exact (h.task 0 p₀).mpr (.inl ⟨rfl, rfl⟩)
  · exact (h.task 1 p₁).mpr (.inr ⟨rfl, rfl⟩)
  · intro i j x hi hj
    rcases (h.task i x).mp hi with ⟨rfl, rfl⟩ | ⟨rfl, rfl⟩
    · rcases (h.task j _).mp hj with ⟨rfl, -⟩ | ⟨-, he⟩
      · rfl
      · exact absurd he h.ne
    · rcases (h.task j _).mp hj with ⟨-, he⟩ | ⟨rfl, -⟩
      · exact absurd he hne
      · rfl
  · exact ⟨h.pPptr.1, h.pYsptr.1, h.pOsptr.1⟩
  · simp
  · exact h.zombie.2
  · intro x hx
    rcases (hlive x).mp hx with rfl | rfl
    · rw [if_pos rfl, h.pCptr.1]
      exact ⟨rfl, ⟨h.pYsptr.2, h.pOsptr.2, seg_nil⟩, List.nodup_singleton _⟩
    · rw [if_neg hne, h.pCptr.2]
      exact .nil
  · intro x hx y hy
    rcases (hlive x).mp hx with rfl | rfl
    · rw [if_pos rfl] at hy
      obtain rfl := List.mem_singleton.mp hy
      exact ⟨(hlive _).mpr (.inr rfl), hne, h.pPptr.2⟩
    · rw [if_neg hne] at hy
      cases hy
  · intro y hy hy₀
    obtain rfl := ((hlive y).mp hy).resolve_left hy₀
    exact ⟨p₀, (hlive p₀).mpr (.inl rfl), h.pPptr.2, by simp⟩
  · intro x hx hz
    rcases (hlive x).mp hx with rfl | rfl
    · rw [h.zombie.1] at hz
      cases hz
    · rw [if_neg hne]
  · intro y hy hy₀
    obtain rfl := ((hlive y).mp hy).resolve_left hy₀
    refine ⟨fun x hx => ?_, fun hn => absurd rfl hn⟩
    obtain rfl := Option.some.inj (h.pPptr.2.symm.trans hx)
    simp [hne]

/-- Every call keeps the tree, and goes through. -/
theorem after {a : Act} (h : Tree s p₀ p₁ kids depth) (ha : s.Allowed a) :
    ∃ s', run a s = some s' ∧ ∃ kids' depth', Tree s' p₀ p₁ kids' depth' := by
  cases a with
  | fork t p fail =>
    obtain ⟨hc, hp⟩ := ha
    obtain ⟨ht, ht₀, hz⟩ := h.calls hc
    cases hnr : s.findEmpty with
    | none => exact ⟨s, by simp only [run, hnr], kids, depth, h⟩
    | some nr =>
      have hnone : s.task nr = none := by
        have := List.find?_some hnr
        simp only [Bool.and_eq_true, decide_eq_true_eq] at this
        exact this.2
      refine ⟨s.copyProcess t p nr fail, by simp only [run, hnr], ?_⟩
      cases fail with
      | true => exact ⟨kids, depth, h.fork_fails hnone hp⟩
      | false =>
        have htp : t ≠ p := fun e => hp (e ▸ ht)
        obtain ⟨depth', h'⟩ := h.fork ht ht₀ hz hnone hp (forked htp)
        exact ⟨_, depth', h'⟩
  | exit t =>
    obtain ⟨hc, h₁⟩ := ha
    obtain ⟨ht, ht₀, -⟩ := h.calls hc
    have ht₁ : t ≠ p₁ := fun e => h₁ (e ▸ h.one)
    rcases List.eq_nil_or_concat (kids t) with hnil | ⟨ks, b, hks⟩
    · obtain ⟨s', hs', h'⟩ := h.exit_leaf ht ht₁ hnil
      exact ⟨s', hs', kids, depth, h'⟩
    · rw [List.concat_eq_append] at hks
      obtain ⟨y, l, hl, s', hs', he⟩ := h.doExit_spec ht ht₀ ht₁ hks
      exact ⟨s', hs', _, depth, h.exit ht ht₀ ht₁ hks hl he⟩
  | waitpid t sel =>
    obtain ⟨ht, ht₀, hz⟩ := h.calls ha
    cases hf : s.findZombie sel t with
    | none => exact ⟨s, by simp only [run, Tasks.waitpid, hf], kids, depth, h⟩
    | some p =>
      have hch := h.chain t ht
      have hlen := length_le (s := s) hch.nodup fun x hx => (h.child t ht x hx).1
      have hwalk : walk s.pOsptr NR_TASKS (s.pCptr t) = kids t := hch.path.walk_eq hlen
      rw [Tasks.findZombie, hwalk] at hf
      have hp := List.mem_of_find?_eq_some hf
      have hpz : s.zombie p = true := by
        have := List.find?_some hf
        simp only [Bool.and_eq_true] at this
        exact this.2
      have hpt : p ≠ t := by
        rintro rfl
        rw [hz] at hpz
        cases hpz
      obtain ⟨i, hi, -, s', hs', hr⟩ := h.release_spec ht hp hpt
      refine ⟨s', ?_, _, depth, h.release ht hp hpz hi hr⟩
      have hf' : s.findZombie sel t = some p := by rw [Tasks.findZombie, hwalk, hf]
      simp only [run, Tasks.waitpid, hf', hs']

end Tree

/-- In every state reached by completed forks, exits and waits the links of the live tasks are
those of a tree, `audit_ptree` prints no warning, and every call goes through: none follows a
null pointer or panics. The root is its own parent and nobody's child. -/
theorem process_tree {s₀ : Tasks} (h₀ : Boot s₀ p₀ p₁) (h : Run step Always s₀ s) :
    s.auditPtree = true ∧
      (∃ kids : Ptr → List Ptr, ∀ x, s.Live x → Chain s.pOsptr s.pYsptr (s.pCptr x) (kids x) ∧
        ∀ y, y ∈ kids x ↔ s.Live y ∧ y ≠ p₀ ∧ s.pPptr y = some x) ∧
      (∀ x, s.Live x → ∀ q, s.pPptr x = some q ∨ s.pCptr x = some q ∨ s.pYsptr x = some q ∨
        s.pOsptr x = some q → s.Live q) ∧
      ∀ a, s.Allowed a → (step a s).isSome := by
  obtain ⟨kids, depth, ht⟩ : ∃ kids depth, Tree s p₀ p₁ kids depth :=
    h.invariant (I := fun s => ∃ kids depth, Tree s p₀ p₁ kids depth) ⟨_, _, Tree.boot h₀⟩
      fun s a s' ⟨kids, depth, hs⟩ _ hstep => by
        rw [step] at hstep
        split_ifs at hstep with ha
        obtain ⟨s'', hs'', h'⟩ := hs.after ha
        obtain rfl := Option.some.inj (hs''.symm.trans hstep)
        exact h'
  refine ⟨ht.auditPtree, ⟨kids, fun x hx => ⟨ht.chain x hx, fun y => ?_⟩⟩, ?_, fun a ha => ?_⟩
  · constructor
    · exact ht.child x hx y
    · rintro ⟨hy, hy₀, hp⟩
      obtain ⟨z, -, hpz, hyz⟩ := ht.parent y hy hy₀
      obtain rfl := Option.some.inj (hp.symm.trans hpz)
      exact hyz
  · intro x hx q hq
    have hch := ht.chain x hx
    have hc : s.pCptr x = some q → s.Live q := fun hc =>
      (ht.child x hx q (List.mem_of_mem_head? (by rw [← hch.head, hc]; rfl))).1
    by_cases hx₀ : x = p₀
    · subst hx₀
      obtain ⟨h₁, h₂, h₃⟩ := ht.root
      rw [h₁, h₂, h₃] at hq
      rcases hq with hq | hq | hq | hq
      · exact Option.some.inj hq ▸ hx
      · exact hc hq
      · cases hq
      · cases hq
    · obtain ⟨z, hz, hpz, hxz⟩ := ht.parent x hx hx₀
      have hsib := ht.chain z hz
      rcases hq with hq | hq | hq | hq
      · exact Option.some.inj (hpz.symm.trans hq) ▸ hz
      · exact hc hq
      · exact (ht.child z hz q (hsib.prev_mem hxz hq)).1
      · exact (ht.child z hz q (hsib.next_mem hxz hq)).1
  · obtain ⟨s', hs', -⟩ := ht.after ha
    rw [step, if_pos ha, hs']
    rfl

section Examples

/-- The tasks after the kernel has started, at the addresses 100 and 101. -/
def booted : Tasks where
  task := fun i => if i = 0 then some 100 else if i = 1 then some 101 else none
  zombie := fun _ => false
  pPptr := fun _ => some 100
  pCptr := fun p => if p = 100 then some 101 else none
  pYsptr := fun _ => none
  pOsptr := fun _ => none

theorem boot_booted : Boot booted 100 101 where
  ne := by decide
  task := fun i p => by
    by_cases h₀ : i = 0
    · subst h₀
      simp [booted, eq_comm]
    · by_cases h₁ : i = 1
      · subst h₁
        simp [booted, eq_comm]
      · simp [booted, h₀, h₁]
  zombie := ⟨rfl, rfl⟩
  pPptr := ⟨rfl, rfl⟩
  pCptr := ⟨rfl, rfl⟩
  pYsptr := ⟨rfl, rfl⟩
  pOsptr := ⟨rfl, rfl⟩

/-- `task[1]` has a child and a grandchild; the child exits and is waited for. -/
def orphanActs : List Act :=
  [.fork 101 102 false, .fork 102 103 false, .fork 102 104 false, .exit 102,
    .waitpid 101 fun _ => true]

def orphans : Tasks := (runList step orphanActs booted).get (by decide +kernel)

theorem process_tree_orphans : orphans.auditPtree = true :=
  (process_tree boot_booted (.of_runList_get _)).1

end Examples

end Linux012.Ptree
