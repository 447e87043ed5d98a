import Linux012.Lib.Sums

/-! # Counted references

A finite set of places, each of which may refer to an object, and the number of places that
refer to one object. A store into a place moves the count of the object it named and of the
one it names from then on, and no other. `Counted` says that a table of counts agrees with the
places, and `Exact` that the objects in use are the ones referred to, each from one place.
-/

namespace Refs

open Function

variable {ι α : Type*} [DecidableEq ι] [DecidableEq α] {L : Finset ι} {f g : ι → Option α} {i j : ι}
  {x : α} {v : Option α}

/-- The number of places in `L` that refer to `x`. -/
def refs (L : Finset ι) (f : ι → Option α) (x : α) : ℕ := ∑ i ∈ L, if f i = some x then 1 else 0

omit [DecidableEq ι] in
theorem refs_congr (h : ∀ i ∈ L, f i = g i) : refs L f x = refs L g x :=
  Finset.sum_congr rfl fun i hi => by rw [h i hi]

omit [DecidableEq ι] in
theorem refs_eq_zero_iff : refs L f x = 0 ↔ ∀ i ∈ L, f i ≠ some x := by
  unfold refs
  rw [Finset.sum_eq_zero_iff]
  exact forall₂_congr fun i _ => by split_ifs with h <;> simp [h]

omit [DecidableEq ι] in
theorem refs_pos (hi : i ∈ L) (h : f i = some x) : 0 < refs L f x :=
  Nat.pos_of_ne_zero fun h0 => refs_eq_zero_iff.mp h0 i hi h

theorem refs_update_add (hi : i ∈ L) (x : α) :
    refs L (update f i v) x + (if f i = some x then 1 else 0) =
      refs L f x + if v = some x then 1 else 0 :=
  Sums.sum_update_add hi f v fun w => if w = some x then 1 else 0

theorem refs_update_of_notMem (hi : i ∉ L) : refs L (update f i v) x = refs L f x :=
  refs_congr fun _ hj => update_of_ne (ne_of_mem_of_not_mem hj hi) _ _

theorem refs_update_of_ne (hi : i ∈ L) (h : f i ≠ some x) (hv : v ≠ some x) :
    refs L (update f i v) x = refs L f x := by
  have hsum := refs_update_add (v := v) hi (f := f) x
  simpa [h, hv] using hsum

theorem refs_update_gain (hi : i ∈ L) (h : f i ≠ some x) (hv : v = some x) :
    refs L (update f i v) x = refs L f x + 1 := by
  have hsum := refs_update_add (v := v) hi (f := f) x
  simpa [h, hv] using hsum

theorem refs_update_lose (hi : i ∈ L) (h : f i = some x) (hv : v ≠ some x) :
    refs L (update f i v) x + 1 = refs L f x := by
  have hsum := refs_update_add (v := v) hi (f := f) x
  simpa [h, hv] using hsum

omit [DecidableEq ι] in
/-- An object with one reference is referred to from one place only. -/
theorem eq_of_refs_le_one (h : refs L f x ≤ 1) (hi : i ∈ L) (hj : j ∈ L) (hfi : f i = some x)
    (hfj : f j = some x) : i = j := by
  classical
  by_contra hne
  have hsum := Sums.add_le hi hj hne fun k => if f k = some x then 1 else 0
  simp only [hfi, hfj, if_true] at hsum
  unfold refs at h
  omega

omit [DecidableEq ι] in
theorem exists_of_refs_pos (h : 0 < refs L f x) : ∃ i ∈ L, f i = some x := by
  by_contra hno
  push Not at hno
  exact absurd (refs_eq_zero_iff.mpr hno) h.ne'

omit [DecidableEq ι] in
/-- References that a key tells apart are at most as many as the keys. -/
theorem refs_le_card {κ : Type*} {K : Finset κ} (key : ι → κ)
    (hK : ∀ i ∈ L, f i = some x → key i ∈ K)
    (hinj : ∀ i ∈ L, ∀ j ∈ L, f i = some x → f j = some x → key i = key j → i = j) :
    refs L f x ≤ K.card := by
  classical
  have hcard : refs L f x = (L.filter fun i => f i = some x).card := by
    rw [Finset.card_filter]
    rfl
  rw [hcard]
  apply Finset.card_le_card_of_injOn key
  · intro i hi
    obtain ⟨hL, hx⟩ := Finset.mem_filter.mp hi
    exact hK i hL hx
  · intro i hi j hj he
    obtain ⟨hL, hx⟩ := Finset.mem_filter.mp (Finset.mem_coe.mp hi)
    obtain ⟨hL', hx'⟩ := Finset.mem_filter.mp (Finset.mem_coe.mp hj)
    exact hinj i hL j hL' hx hx' he

/-- Each object in the range `[lo, top)` has its references counted, with the `held` ones that
are in no place, and only places that are `alike` share an object. -/
structure Counted (L : Finset ι) (alike : ι → ι → Prop) (lo top : ℕ) (f : ι → Option ℕ)
    (count held : ℕ → ℕ) : Prop where
  count_eq {p : ℕ} : lo ≤ p → p < top → count p = refs L f p + held p
  lt {i : ι} {p : ℕ} : i ∈ L → f i = some p → lo ≤ p → p < top
  alike_of {i j : ι} {p : ℕ} : i ∈ L → j ∈ L → f i = some p → f j = some p → lo ≤ p → alike i j
  beyond {p : ℕ} : top ≤ p → count p ≠ 0

section Counted

variable {alike : ι → ι → Prop} {lo top p : ℕ} {f : ι → Option ℕ} {count held : ℕ → ℕ}

omit [DecidableEq ι] in
theorem Counted.congr {g : ι → Option ℕ} (h : Counted L alike lo top f count held)
    (hfg : ∀ i ∈ L, f i = g i) : Counted L alike lo top g count held where
  count_eq hq hq' := by
    rw [← refs_congr hfg]
    exact h.count_eq hq hq'
  lt hi hp := h.lt hi ((hfg _ hi).trans hp)
  alike_of hi hj hp hq := h.alike_of hi hj ((hfg _ hi).trans hp) ((hfg _ hj).trans hq)
  beyond := h.beyond

omit [DecidableEq ι] in
theorem Counted.unreferred (h : Counted L alike lo top f count held) (hlo : lo ≤ p)
    (hc : count p ≤ held p) (hi : i ∈ L) : f i ≠ some p := by
  intro hp
  have hpos := refs_pos hi hp
  have hsum := h.count_eq hlo (h.lt hi hp hlo)
  omega

omit [DecidableEq ι] in
/-- A free object is taken by a holder. -/
theorem Counted.take (h : Counted L alike lo top f count held) (hlt : p < top) (h0 : count p = 0)
    (hlo : lo ≤ p) : Counted L alike lo top f (update count p 1) (update held p 1) where
  count_eq {q} hq hq' := by
    have hsum := h.count_eq hq hq'
    rcases eq_or_ne q p with rfl | hne
    · simp only [update_self]
      omega
    · simpa only [update_of_ne hne] using hsum
  lt := h.lt
  alike_of := h.alike_of
  beyond {q} hq := by
    simpa only [update_of_ne (hlt.trans_le hq).ne'] using h.beyond hq

omit [DecidableEq ι] in
/-- The only holder of an object gives it back. -/
theorem Counted.giveBack (h : Counted L alike lo top f count held) (hlo : lo ≤ p) (hlt : p < top)
    (h1 : count p = 1) (hh : held p = 1) :
    Counted L alike lo top f (update count p 0) (update held p 0) where
  count_eq {q} hq hq' := by
    have hsum := h.count_eq hq hq'
    rcases eq_or_ne q p with rfl | hne
    · simp only [update_self]
      omega
    · simpa only [update_of_ne hne] using hsum
  lt := h.lt
  alike_of := h.alike_of
  beyond {q} hq := by
    simpa only [update_of_ne (hlt.trans_le hq).ne'] using h.beyond hq

/-- The only holder of an object puts it into an empty place. -/
theorem Counted.gain (h : Counted L alike lo top f count held) (hrefl : alike i i) (hi : i ∈ L)
    (hf : f i = none) (hlo : lo ≤ p) (hlt : p < top) (h1 : count p = 1) (hh : held p = 1) :
    Counted L alike lo top (update f i (some p)) count (update held p 0) := by
  have hno : ∀ j ∈ L, f j ≠ some p := fun j hj => h.unreferred hlo (h1.trans hh.symm).le hj
  exact {
    count_eq := fun {q} hq hq' => by
      have hsum := h.count_eq hq hq'
      rcases eq_or_ne q p with rfl | hne
      · rw [refs_update_gain hi (by simp [hf]) rfl, update_self]
        omega
      · rw [refs_update_of_ne hi (by simp [hf]) (by simp [hne.symm]), update_of_ne hne]
        exact hsum
    lt := fun {j q} hj hq hq' => by
      rcases eq_or_ne j i with rfl | hne
      · rw [update_self] at hq
        exact Option.some.inj hq ▸ hlt
      · rw [update_of_ne hne] at hq
        exact h.lt hj hq hq'
    alike_of := fun {j k q} hj hk hjq hkq hq => by
      rcases eq_or_ne j i with hji | hne <;> rcases eq_or_ne k i with hki | hne'
      · rw [hji, hki]
        exact hrefl
      · rw [hji, update_self] at hjq
        rw [update_of_ne hne', ← hjq] at hkq
        exact absurd hkq (hno k hk)
      · rw [hki, update_self] at hkq
        rw [update_of_ne hne, ← hkq] at hjq
        exact absurd hjq (hno j hj)
      · rw [update_of_ne hne] at hjq
        rw [update_of_ne hne'] at hkq
        exact h.alike_of hj hk hjq hkq hq
    beyond := h.beyond }

omit [DecidableEq α] in
theorem eq_some_of_update_none {f : ι → Option α} (h : update f i none j = some x) :
    j ≠ i ∧ f j = some x := by
  rcases eq_or_ne j i with rfl | hne
  · simp at h
  · exact ⟨hne, by rwa [update_of_ne hne] at h⟩

/-- A place is emptied and the count of what it referred to goes down. -/
theorem Counted.lose (h : Counted L alike lo top f count held) (hi : i ∈ L) (hf : f i = some p)
    (hlo : lo ≤ p) :
    Counted L alike lo top (update f i none) (update count p (count p - 1)) held where
  count_eq {q} hq hq' := by
    have hsum := h.count_eq hq hq'
    rcases eq_or_ne q p with rfl | hne
    · have hlose := refs_update_lose (v := none) hi hf (by simp)
      rw [update_self]
      omega
    · rw [refs_update_of_ne hi (by simp [hf, hne.symm]) (by simp), update_of_ne hne]
      exact hsum
  lt {j q} hj hq hq' := h.lt hj (eq_some_of_update_none hq).2 hq'
  alike_of {j k q} hj hk hjq hkq hq :=
    h.alike_of hj hk (eq_some_of_update_none hjq).2 (eq_some_of_update_none hkq).2 hq
  beyond {q} hq := by
    simpa only [update_of_ne ((h.lt hi hf hlo).trans_le hq).ne'] using h.beyond hq

/-- A place that refers to nothing that is counted is emptied. -/
theorem Counted.loseLow (h : Counted L alike lo top f count held) (hi : i ∈ L)
    (hf : ∀ p, f i = some p → p < lo) : Counted L alike lo top (update f i none) count held where
  count_eq {q} hq hq' := by
    have hsum := h.count_eq hq hq'
    rwa [refs_update_of_ne hi (fun hp => absurd (hf q hp) hq.not_gt) (by simp)]
  lt {j q} hj hq hq' := h.lt hj (eq_some_of_update_none hq).2 hq'
  alike_of {j k q} hj hk hjq hkq hq :=
    h.alike_of hj hk (eq_some_of_update_none hjq).2 (eq_some_of_update_none hkq).2 hq
  beyond := h.beyond

/-- An empty place comes to share what a place like it refers to. -/
theorem Counted.share (h : Counted L alike lo top f count held)
    (hsymm : ∀ {i j}, alike i j → alike j i)
    (htrans : ∀ {i j k}, alike i j → alike j k → alike i k) (hij : alike i j) (hi : i ∈ L)
    (hj : j ∈ L) (hf : f i = some p) (hfj : f j = none) (hlo : lo ≤ p) :
    Counted L alike lo top (update f j (some p)) (update count p (count p + 1)) held := by
  have hlt := h.lt hi hf hlo
  exact {
    count_eq := fun {q} hq hq' => by
      have hsum := h.count_eq hq hq'
      rcases eq_or_ne q p with rfl | hne
      · rw [refs_update_gain hj (by simp [hfj]) rfl, update_self]
        omega
      · rw [refs_update_of_ne hj (by simp [hfj]) (by simp [hne.symm]), update_of_ne hne]
        exact hsum
    lt := fun {k q} hk hq hq' => by
      rcases eq_or_ne k j with rfl | hne
      · rw [update_self] at hq
        exact Option.some.inj hq ▸ hlt
      · rw [update_of_ne hne] at hq
        exact h.lt hk hq hq'
    alike_of := fun {k k' q} hk hk' hkq hkq' hq => by
      rcases eq_or_ne k j with hkj | hne <;> rcases eq_or_ne k' j with hkj' | hne'
      · rw [hkj, hkj']
        exact htrans (hsymm hij) hij
      · rw [hkj, update_self] at hkq
        rw [update_of_ne hne', ← hkq] at hkq'
        rw [hkj]
        exact htrans (hsymm hij) (h.alike_of hi hk' hf hkq' hlo)
      · rw [hkj', update_self] at hkq'
        rw [update_of_ne hne, ← hkq'] at hkq
        rw [hkj']
        exact htrans (h.alike_of hk hi hkq hf hlo) hij
      · rw [update_of_ne hne] at hkq
        rw [update_of_ne hne'] at hkq'
        exact h.alike_of hk hk' hkq hkq' hq
    beyond := fun {q} hq => by
      simpa only [update_of_ne (hlt.trans_le hq).ne'] using h.beyond hq }

/-- An empty place comes to refer to something that is not counted. -/
theorem Counted.gainLow (h : Counted L alike lo top f count held) (hi : i ∈ L) (hf : f i = none)
    (hlo : p < lo) : Counted L alike lo top (update f i (some p)) count held := by
  have hold : ∀ {j q}, lo ≤ q → update f i (some p) j = some q → f j = some q := by
    intro j q hq hjq
    rcases eq_or_ne j i with rfl | hne
    · rw [update_self] at hjq
      exact absurd (Option.some.inj hjq ▸ hlo) hq.not_gt
    · rwa [update_of_ne hne] at hjq
  exact {
    count_eq := fun {q} hq hq' => by
      have hsum := h.count_eq hq hq'
      rwa [refs_update_of_ne hi (by simp [hf]) (by simpa using (hlo.trans_le hq).ne)]
    lt := fun hj hq hq' => h.lt hj (hold hq' hq) hq'
    alike_of := fun hj hk hjq hkq hq => h.alike_of hj hk (hold hq hjq) (hold hq hkq) hq
    beyond := h.beyond }

end Counted

/-- The objects in use are the ones referred to, each from one place. -/
structure Exact (L : Finset ι) (f : ι → Option α) (used : α → Prop) : Prop where
  used_of {i : ι} {x : α} : i ∈ L → f i = some x → used x
  place {x : α} : used x → ∃ i ∈ L, f i = some x
  inj {i j : ι} {x : α} : i ∈ L → j ∈ L → f i = some x → f j = some x → i = j

section Exact

variable {used used' : α → Prop}

omit [DecidableEq ι] [DecidableEq α] in
theorem Exact.congr (h : Exact L f used) (hu : ∀ x, used x ↔ used' x) : Exact L f used' where
  used_of hi hf := (hu _).mp (h.used_of hi hf)
  place hx := h.place ((hu _).mpr hx)
  inj := h.inj

omit [DecidableEq ι] [DecidableEq α] in
theorem Exact.congr_place (h : Exact L f used) (hfg : ∀ i ∈ L, f i = g i) : Exact L g used where
  used_of hi hp := h.used_of hi ((hfg _ hi).trans hp)
  place hx := by
    obtain ⟨i, hi, hp⟩ := h.place hx
    exact ⟨i, hi, (hfg i hi).symm.trans hp⟩
  inj hi hj hp hq := h.inj hi hj ((hfg _ hi).trans hp) ((hfg _ hj).trans hq)

omit [DecidableEq α] in
/-- An unused object is put into an empty place. -/
theorem Exact.gain (h : Exact L f used) (hi : i ∈ L) (hf : f i = none) (hx : ¬ used x) :
    Exact L (update f i (some x)) (fun y => y = x ∨ used y) := by
  have hno : ∀ j ∈ L, f j ≠ some x := fun j hj hjx => hx (h.used_of hj hjx)
  exact {
    used_of := fun {j y} hj hy => by
      rcases eq_or_ne j i with rfl | hne
      · rw [update_self] at hy
        exact Or.inl (Option.some.inj hy).symm
      · rw [update_of_ne hne] at hy
        exact Or.inr (h.used_of hj hy)
    place := fun {y} hy => by
      rcases hy with rfl | hy
      · exact ⟨i, hi, update_self ..⟩
      · obtain ⟨j, hj, hjy⟩ := h.place hy
        have hne : j ≠ i := fun e => by simp [← e, hjy] at hf
        exact ⟨j, hj, by rw [update_of_ne hne]; exact hjy⟩
    inj := fun {j k y} hj hk hjy hky => by
      rcases eq_or_ne j i with hji | hne <;> rcases eq_or_ne k i with hki | hne'
      · exact hji.trans hki.symm
      · rw [hji, update_self] at hjy
        rw [update_of_ne hne', ← hjy] at hky
        exact absurd hky (hno k hk)
      · rw [hki, update_self] at hky
        rw [update_of_ne hne, ← hky] at hjy
        exact absurd hjy (hno j hj)
      · rw [update_of_ne hne] at hjy
        rw [update_of_ne hne'] at hky
        exact h.inj hj hk hjy hky }

omit [DecidableEq α] in
/-- The place that refers to an object is emptied, which is then unused. -/
theorem Exact.lose (h : Exact L f used) (hi : i ∈ L) (hf : f i = some x) :
    Exact L (update f i none) (fun y => y ≠ x ∧ used y) where
  used_of {j y} hj hy := by
    obtain ⟨hne, hjy⟩ := eq_some_of_update_none hy
    refine ⟨?_, h.used_of hj hjy⟩
    rintro rfl
    exact hne (h.inj hj hi hjy hf)
  place {y} hy := by
    obtain ⟨hne, hused⟩ := hy
    obtain ⟨j, hj, hjy⟩ := h.place hused
    have hji : j ≠ i := fun e => hne (Option.some.inj (hjy.symm.trans (e ▸ hf)))
    exact ⟨j, hj, by rw [update_of_ne hji]; exact hjy⟩
  inj hj hk hjy hky := h.inj hj hk (eq_some_of_update_none hjy).2 (eq_some_of_update_none hky).2

end Exact

end Refs
