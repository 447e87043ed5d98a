import Linux012.Mm.Evict

/-! # Freeing page tables

`free_page_tables` gives back every page and every swap page of the tables it frees, and the
tables themselves.
-/

namespace Linux012.Paging

open Function Refs Mm

variable {U : ℕ → Bool} {held : ℕ → ℕ} {m m' m'' : Mm} {d t e p nr k : ℕ} {l : ℕ × ℕ}
  {image : ℕ × ℕ → Bytes} {T : ℕ → Prop}

/-- Only tables at the directory entries `T` are given up. -/
structure Sheds (T : ℕ → Prop) (m m' : Mm) : Prop where
  pgDir (d : ℕ) : m'.pgDir d = m.pgDir d ∨ T d ∧ m'.pgDir d = none
  task : m'.task = m.task
  limit : m'.limit = m.limit
  fresh : m'.fresh = m.fresh
  highMemory : m'.highMemory = m.highMemory
  count (p : ℕ) : m'.memMap p ≤ m.memMap p
  keeps (image : ℕ × ℕ → Bytes) (l : ℕ × ℕ) : User l → ¬ T l.1 → Keeps image l m m'

theorem Sheds.refl (T : ℕ → Prop) (m : Mm) : Sheds T m m where
  pgDir _ := Or.inl rfl
  task := rfl
  limit := rfl
  fresh := rfl
  highMemory := rfl
  count _ := le_rfl
  keeps image l _ _ := .refl image l m

theorem Sheds.trans (h : Sheds T m m') (h' : Sheds T m' m'') : Sheds T m m'' where
  pgDir d := by
    rcases h'.pgDir d with he' | hn
    · rw [he']
      exact h.pgDir d
    · exact Or.inr hn
  task := h'.task.trans h.task
  limit := h'.limit.trans h.limit
  fresh := h'.fresh.trans h.fresh
  highMemory := h'.highMemory.trans h.highMemory
  count p := (h'.count p).trans (h.count p)
  keeps image l hl hT := (h.keeps image l hl hT).trans (h'.keeps image l hl hT)

theorem Sheds.mono {T' : ℕ → Prop} (h : Sheds T m m') (hT : ∀ d, T d → T' d) : Sheds T' m m' where
  pgDir d := (h.pgDir d).imp_right fun ⟨hd, hn⟩ => ⟨hT d hd, hn⟩
  task := h.task
  limit := h.limit
  fresh := h.fresh
  highMemory := h.highMemory
  count := h.count
  keeps image l hl hd := h.keeps image l hl fun hd' => hd (hT _ hd')

/-- An entry that names a swap page is emptied and the swap page freed. -/
theorem Law.dropSlot (h : Law U held m) (hl : l ∈ places) (ht : m.pgDir l.1 = some t)
    (he : m.entry l = .swapped nr) {b : ℕ → Bool} (hb : m.swapBitmap = some b) (hU : U nr = true) :
    Law U held ({ m with swapBitmap := some (update b nr true) }.setEntry t l.2 .none) := by
  have hslot : m.slot l = some nr := by simp [slot, he]
  have hpage : m.ref (.entry l) = none := by simp [ref, he]
  refine h.store hl (h.entry_setEntry (mem_places.mp hl).1 ht l.2 .none) rfl rfl rfl rfl ?_ ?_ ?_
    h.held_le h.quiet h.handed
  · rw [Pte.page?_none, ← hpage, update_eq_self]
    exact h.pages
  · exact (h.slots.lose hl hslot).congr (inUse_of_set hb rfl)
  · intro b' x hb' hx
    obtain rfl := Option.some.inj hb'
    rcases eq_or_ne x nr with rfl | hne
    · exact hU
    · rw [update_of_ne hne] at hx
      exact h.bits hb hx

/-- A swap page that an entry names is in use. -/
theorem Law.inUse (h : Law U held m) (hl : l ∈ places) (he : m.entry l = .swapped nr) :
    U nr = true ∧ ∃ b, m.swapBitmap = some b ∧ b nr = false :=
  h.slots.used_of hl (by simp [slot, he])

theorem swapFree_eq {b : ℕ → Bool} (hb : m.swapBitmap = some b) (h1 : 1 ≤ nr)
    (hlt : nr < SWAP_BITS) (hnr : b nr = false) :
    m.swapFree nr = { m with swapBitmap := some (update b nr true) } := by
  unfold swapFree
  rw [if_neg (by omega), hb]
  simp [hlt, hnr]

/-- What becomes of one entry in `free_page_tables`. -/
theorem freeEntry_spec (h : Law U held m) (hl : l ∈ places) (ht : m.pgDir l.1 = some t) :
    ∃ m', m.freeEntry t l.2 = some m' ∧ Law U held m' ∧ Sheds (· = l.1) m m' ∧
      m'.pgDir = m.pgDir ∧ m'.entry = update m.entry l .none := by
  have htab : m.entry l = m.table t l.2 := entry_of_dir ht l.2
  have hd := (mem_places.mp hl).1
  have hstore := h.entry_setEntry hd ht l.2 .none
  have hother : ∀ l' : ℕ × ℕ, ¬ l'.1 = l.1 → update m.entry l .none l' = m.entry l' :=
    fun l' hne => update_of_ne (fun he : l' = l => hne (congrArg Prod.fst he)) ..
  unfold freeEntry
  cases he : m.table t l.2 with
  | none =>
    refine ⟨m, rfl, h, .refl _ m, rfl, ?_⟩
    rw [← he, ← htab, update_eq_self]
  | page p rw dirty =>
    rw [he] at htab
    have hp : (m.entry l).page? = some p := by simp [htab]
    by_cases hlo : LOW_MEM ≤ p
    · have hhi := h.pages.lt (entry_mem_allPlaces.mpr hl) hp hlo
      have hpos := h.count_pos (entry_mem_allPlaces.mpr hl) hp hlo
      refine ⟨(m.setEntry t l.2 .none).setCount p (m.memMap p - 1),
        congrArg (Option.map _) (freePage_eq hlo hhi hpos), h.drop hl ht hp hlo, ⟨fun _ => Or.inl rfl, rfl, rfl, rfl, rfl, fun q => ?_,
        fun image l' _ hne => ?_⟩, rfl, hstore⟩
      · change update m.memMap p (m.memMap p - 1) q ≤ m.memMap q
        rcases eq_or_ne q p with rfl | hne
        · simp
        · rw [update_of_ne hne]
      · exact .of_same ((congrFun hstore l').trans (hother l' hne)) (fun _ _ => rfl) fun _ _ _ _ => rfl
    · have hslot : m.slot l = none := by simp [slot, htab]
      refine ⟨m.setEntry t l.2 .none, congrArg (Option.map _) (freePage_low (not_le.mp hlo)), ?_,
        ⟨fun _ => Or.inl rfl, rfl, rfl, rfl, rfl, fun _ => le_rfl, fun image l' _ hne => ?_⟩, rfl,
        hstore⟩
      · refine h.store hl hstore rfl rfl rfl rfl ?_ ?_ h.bits h.held_le h.quiet h.handed
        · apply h.pages.loseLow (entry_mem_allPlaces.mpr hl)
          intro q hq
          rw [ref_entry, hp] at hq
          exact Option.some.inj hq ▸ not_le.mp hlo
        · rw [Pte.slot?_none, ← hslot, update_eq_self]
          exact h.slots
      · exact .of_same ((congrFun hstore l').trans (hother l' hne)) (fun _ _ => rfl) fun _ _ _ _ => rfl
  | swapped nr =>
    rw [he] at htab
    obtain ⟨hU, b, hb, hnr⟩ := h.inUse hl htab
    obtain ⟨h1, hlt⟩ := h.range hU
    refine ⟨_, by simp only [swapFree_eq hb h1 hlt hnr], h.dropSlot hl ht htab hb hU,
      ⟨fun _ => Or.inl rfl, rfl, rfl, rfl, rfl, fun _ => le_rfl, fun image l' _ hne => ?_⟩, rfl,
      hstore⟩
    exact .of_same ((congrFun hstore l').trans (hother l' hne)) (fun _ _ => rfl) fun _ _ _ _ => rfl

/-- The entries that the inner loop has passed are empty, the others as they were. -/
theorem freeEntries_spec (h : Law U held m) (hd : d ∈ dirs) (ht : m.pgDir d = some t)
    (he : e + k ≤ 1024) :
    ∃ m', freeEntries t k e m = some m' ∧ Law U held m' ∧ Sheds (· = d) m m' ∧
      m'.pgDir = m.pgDir ∧ (∀ i, e ≤ i → i < e + k → m'.entry (d, i) = .none) ∧
      ∀ i, i < e → m'.entry (d, i) = m.entry (d, i) := by
  induction k generalizing m e with
  | zero => exact ⟨m, rfl, h, .refl _ m, rfl, fun i _ _ => by omega, fun _ _ => rfl⟩
  | succ k ih =>
    obtain ⟨m₁, hrun₁, hlaw₁, hshed₁, hdir₁, hentry₁⟩ :=
      freeEntry_spec (l := (d, e)) h (mem_places.mpr ⟨hd, by omega⟩) ht
    obtain ⟨m', hrun, hlaw, hshed, hdir, hnone, hsame⟩ :=
      ih (e := e + 1) hlaw₁ (hdir₁ ▸ ht) (by omega)
    refine ⟨m', ?_, hlaw, hshed₁.trans hshed, hdir.trans hdir₁, fun i hi hi' => ?_, fun i hi => ?_⟩
    · unfold freeEntries
      rw [hrun₁]
      exact hrun
    · rcases eq_or_ne i e with rfl | hne
      · rw [hsame i (by omega), hentry₁, update_self]
      · exact hnone i (by omega) (by omega)
    · rw [hsame i (by omega), hentry₁, update_of_ne (by simp; omega)]

theorem entry_setDir_of_ne {v : Option ℕ} (hne : l.1 ≠ d) : (m.setDir d v).entry l = m.entry l := by
  simp [entry, setDir, hne]

/-- An empty table is taken out of the directory, and its count goes down. -/
theorem Law.dropDir (h : Law U held m) (hd : d ∈ dirs) (ht : m.pgDir d = some t)
    (hnone : ∀ e < 1024, m.entry (d, e) = .none) :
    Law U held ((m.setCount t (m.memMap t - 1)).setDir d none) := by
  have hentry : ∀ l : ℕ × ℕ, l.2 < 1024 →
      ((m.setCount t (m.memMap t - 1)).setDir d none).entry l = m.entry l := by
    intro l hl
    by_cases hne : l.1 = d
    · obtain ⟨d', e⟩ := l
      obtain rfl : d' = d := hne
      rw [hnone e hl]
      exact entry_of_no_dir (update_self ..)
    · exact entry_setDir_of_ne hne
  have hpages := h.pages.lose (dir_mem_allPlaces.mpr hd) ht (h.dirPage hd ht)
  have hold : ∀ {d' t'}, update m.pgDir d none d' = some t' → m.pgDir d' = some t' :=
    fun he => (eq_some_of_update_none he).2
  exact {
    pages := by
      apply hpages.congr
      intro i hi
      cases i with
      | entry l =>
        rw [update_of_ne (by simp)]
        rw [entry_mem_allPlaces, mem_places] at hi
        exact congrArg Pte.page? (hentry l hi.2).symm
      | dir d' =>
        rcases eq_or_ne d' d with rfl | hne
        · simp [ref, setDir]
        · simp [ref, setDir, setCount, hne]
      | task n => simp [ref, setDir, setCount]
    slots := h.slots.congr_place fun l hl =>
      congrArg Pte.slot? (hentry l (mem_places.mp hl).2).symm
    bits := h.bits
    range := h.range
    held_le := h.held_le
    high_le := h.high_le
    dirPage := fun hd' ht' => h.dirPage hd' (hold ht')
    taskPage := h.taskPage
    kernelDir := fun hd' ht' => h.kernelDir hd' (hold ht')
    kernelSlot := fun {l} hl => by
      have hne : l.1 ≠ d := fun e => hl (e ▸ hd)
      exact (congrArg Pte.slot? (entry_setDir_of_ne hne)).trans (h.kernelSlot hl)
    kernelPage := fun {e q} he hq => by
      rw [hentry (0, e) (by simp only; omega)] at hq
      exact h.kernelPage he hq
    cursor := h.cursor
    quiet := h.quiet
    handed := h.handed }

/-- A table that nothing else uses is free once it is out of the directory. -/
theorem Law.dropDir_count (h : Law U held m) (hd : d ∈ dirs) (ht : m.pgDir d = some t)
    (hh : held t = 0) : m.memMap t - 1 = 0 := by
  have hlo := h.dirPage hd ht
  have hsum := h.pages.count_eq hlo (h.dir_lt hd ht)
  have hone : refs allPlaces m.ref t ≤ ({d} : Finset ℕ).card := by
    have honly : ∀ i ∈ allPlaces, m.ref i = some t → i = .dir d := fun i hi hp =>
      (h.pages.alike_of hi (dir_mem_allPlaces.mpr hd) hp ht hlo).eq_dir
    apply refs_le_card fun _ => d
    · exact fun _ _ _ => Finset.mem_singleton_self d
    · exact fun i hi j hj hp hq _ => (honly i hi hp).trans (honly j hj hq).symm
  rw [Finset.card_singleton] at hone
  omega

theorem freeDirs_spec (h : Law U held m) (hlo : 16 ≤ d) (hhi : d + k ≤ 1024) :
    ∃ m', freeDirs k d m = some m' ∧ Law U held m' ∧ Sheds (fun i => d ≤ i ∧ i < d + k) m m' ∧
      (∀ i, d ≤ i → i < d + k → m'.pgDir i = none) ∧
      ∀ i p, d ≤ i → i < d + k → m.pgDir i = some p → held p = 0 → m'.memMap p = 0 := by
  induction k generalizing m d with
  | zero => exact ⟨m, rfl, h, .refl _ m, fun i _ _ => by omega, fun i p _ _ => by omega⟩
  | succ k ih =>
    have hd : d ∈ dirs := mem_dirs.mpr ⟨hlo, by omega⟩
    unfold freeDirs
    cases ht : m.pgDir d with
    | none =>
      obtain ⟨m', hrun, hlaw, hshed, hnone, hfree⟩ := ih (m := m) (d := d + 1) h (by omega) (by omega)
      refine ⟨m', hrun, hlaw, hshed.mono fun i hi => by omega, fun i hi hi' => ?_,
        fun i p hi hi' hp hh => ?_⟩
      · rcases eq_or_ne i d with rfl | hne
        · rcases hshed.pgDir i with he | ⟨-, hn⟩
          · rw [he, ht]
          · exact hn
        · exact hnone i (by omega) (by omega)
      · have hne : i ≠ d := by
          rintro rfl
          rw [ht] at hp
          cases hp
        exact hfree i p (by omega) (by omega) hp hh
    | some t =>
      obtain ⟨m₁, hrun₁, hlaw₁, hshed₁, hdir₁, hnone₁, -⟩ :=
        freeEntries_spec (e := 0) (k := 1024) h hd ht le_rfl
      have ht₁ : m₁.pgDir d = some t := hdir₁ ▸ ht
      have hempty : ∀ e < 1024, m₁.entry (d, e) = .none := fun e he =>
        hnone₁ e (Nat.zero_le e) (by omega)
      have hlot := hlaw₁.dirPage hd ht₁
      have hpos := hlaw₁.count_pos (dir_mem_allPlaces.mpr hd) ht₁ hlot
      have hfree₁ : m₁.freePage t = some (m₁.setCount t (m₁.memMap t - 1)) :=
        freePage_eq hlot (hlaw₁.dir_lt hd ht₁) hpos
      have hlaw₂ := hlaw₁.dropDir hd ht₁ hempty
      obtain ⟨m', hrun, hlaw, hshed, hnone, hfree⟩ := ih (d := d + 1) hlaw₂ (by omega) (by omega)
      have hshed₂ : Sheds (· = d) m₁ ((m₁.setCount t (m₁.memMap t - 1)).setDir d none) := by
        refine ⟨fun i => ?_, rfl, rfl, rfl, rfl, fun q => ?_, fun image l _ hne => ?_⟩
        · rcases eq_or_ne i d with rfl | hne
          · exact Or.inr ⟨rfl, update_self ..⟩
          · exact Or.inl (update_of_ne hne ..)
        · change update m₁.memMap t (m₁.memMap t - 1) q ≤ m₁.memMap q
          rcases eq_or_ne q t with rfl | hne
          · simp
          · rw [update_of_ne hne]
        · exact .of_same (entry_setDir_of_ne hne) (fun _ _ => rfl) fun _ _ _ _ => rfl
      simp only [hrun₁, hfree₁, Option.bind_some]
      refine ⟨m', hrun, hlaw, ?_, fun i hi hi' => ?_, fun i p hi hi' hp hh => ?_⟩
      · have hfirst := (hshed₁.trans hshed₂).mono
          fun i hi => (show d ≤ i ∧ i < d + (k + 1) by omega)
        exact hfirst.trans (hshed.mono fun i hi => by omega)
      · rcases eq_or_ne i d with rfl | hne
        · rcases hshed.pgDir i with he | ⟨-, hn⟩
          · rw [he]
            exact update_self ..
          · exact hn
        · exact hnone i (by omega) (by omega)
      · rcases eq_or_ne i d with rfl | hne
        · obtain rfl : t = p := Option.some.inj (ht.symm.trans hp)
          have hzero := hlaw₁.dropDir_count hd ht₁ hh
          have hle := hshed.count t
          change m'.memMap t ≤ update m₁.memMap t (m₁.memMap t - 1) t at hle
          rw [update_self] at hle
          omega
        · refine hfree i p (by omega) (by omega) ?_ hh
          change update m₁.pgDir d none i = some p
          rw [update_of_ne hne, hdir₁]
          exact hp

/-- `free_page_tables` ends without a panic and leaves no table of the range. -/
theorem freePageTables_spec (h : Law U held m) (hlo : 16 ≤ d) (hhi : d + k ≤ 1024) :
    ∃ m', m.freePageTables d k = some m' ∧ Law U held m' ∧
      Sheds (fun i => d ≤ i ∧ i < d + k) m m' ∧ (∀ i, d ≤ i → i < d + k → m'.pgDir i = none) ∧
      ∀ i p, d ≤ i → i < d + k → m.pgDir i = some p → held p = 0 → m'.memMap p = 0 := by
  unfold freePageTables
  rw [if_neg (by omega)]
  exact freeDirs_spec h hlo hhi

end Linux012.Paging
