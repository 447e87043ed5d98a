import Linux012.Mm.Calls

/-! # What the child of a fork reads

A page that can be written is mapped once. The copy of a table shows at every address what the table that is
copied shows, and what else is read stays as it was.
-/

namespace Linux012.Paging

open Function Refs Mm

variable {U : ℕ → Bool} {held : ℕ → ℕ} {m m' m'' : Mm} {d t e p q n nr cur k cnt fd td ft tt : ℕ} {l l' : ℕ × ℕ}
  {image : ℕ × ℕ → Bytes} {v : Pte} {r : Bool}

/-! ## Pages that can be written -/

/-- A page that a task can write is one for paging, at no other address. -/
def Sole (m : Mm) : Prop :=
  ∀ l ∈ places, ∀ p dirty, m.entry l = .page p true dirty →
    LOW_MEM ≤ p ∧ ∀ l' ∈ places, (m.entry l').page? = some p → l' = l

/-- Entries stay as they are or come to map nothing. -/
def Shrinks (m m' : Mm) : Prop := ∀ l, m'.entry l = m.entry l ∨ (m'.entry l).page? = none

theorem Shrinks.refl (m : Mm) : Shrinks m m := fun _ => .inl rfl

theorem Shrinks.trans (h : Shrinks m m') (h' : Shrinks m' m'') : Shrinks m m'' := by
  intro l
  rcases h' l with he | hn
  · exact (h l).imp he.trans (congrArg Pte.page? he).trans
  · exact .inr hn

theorem Shrinks.of_entry (h : m'.entry = m.entry) : Shrinks m m' := fun l => .inl (congrFun h l)

theorem Shrinks.of_page (h : Shrinks m m') (hp : (m'.entry l).page? = some p) : m'.entry l = m.entry l := by
  rcases h l with he | hn
  · exact he
  · rw [hn] at hp
    cases hp

theorem Mm.Evicts.shrinks (h : Evicts m m') : Shrinks m m' := fun l => (h.entry l).imp_right And.right

theorem Sole.of_shrinks (h : Sole m) (hs : Shrinks m m') : Sole m' := by
  intro l hl p dirty he
  have hp : (m'.entry l).page? = some p := by rw [he, Pte.page?_page]
  obtain ⟨hlo, hsole⟩ := h l hl p dirty ((hs.of_page hp).symm.trans he)
  exact ⟨hlo, fun l' hl' hp' => hsole l' hl' (hs.of_page hp' ▸ hp')⟩

theorem Sole.of_entry (h : Sole m) (he : m'.entry = m.entry) : Sole m' := h.of_shrinks (.of_entry he)

/-- An entry comes to map a page that nothing maps. -/
theorem Sole.update_fresh (h : Sole m) (hentry : m'.entry = update m.entry l (.page p true r)) (hlo : LOW_MEM ≤ p)
    (hp : ∀ l' ∈ places, (m.entry l').page? ≠ some p) : Sole m' := by
  intro a ha q dirty hq
  have hother {b : ℕ × ℕ} (hb : b ∈ places) (hbq : (m'.entry b).page? = some q) :
      b = l ∧ q = p ∨ b ≠ l ∧ (m.entry b).page? = some q := by
    rw [hentry] at hbq
    rcases eq_or_ne b l with rfl | hne
    · rw [update_self, Pte.page?_page] at hbq
      exact .inl ⟨rfl, (Option.some.inj hbq).symm⟩
    · rw [update_of_ne hne] at hbq
      exact .inr ⟨hne, hbq⟩
  rcases hother ha (by rw [hq, Pte.page?_page]) with ⟨rfl, rfl⟩ | ⟨hne, hap⟩
  · refine ⟨hlo, fun b hb hbq => ?_⟩
    rcases hother hb hbq with ⟨rfl, -⟩ | ⟨-, hbp⟩
    · rfl
    · exact absurd hbp (hp b hb)
  · rw [hentry, update_of_ne hne] at hq
    obtain ⟨hloq, hsole⟩ := h a ha q dirty hq
    refine ⟨hloq, fun b hb hbq => ?_⟩
    rcases hother hb hbq with ⟨-, rfl⟩ | ⟨-, hbp⟩
    · exact absurd hap (hp a ha)
    · exact hsole b hb hbp

/-- An entry comes to map a page read-only that no other address maps writable. -/
theorem Sole.update_shared (h : Sole m) (hentry : m'.entry = update m.entry l (.page p false r))
    (hp : ∀ a ∈ places, ∀ dirty, m.entry a = .page p true dirty → a = l) : Sole m' := by
  intro a ha q dirty hq
  rw [hentry] at hq
  rcases eq_or_ne a l with rfl | hne
  · rw [update_self] at hq
    cases hq
  · rw [update_of_ne hne] at hq
    obtain ⟨hlo, hsole⟩ := h a ha q dirty hq
    refine ⟨hlo, fun b hb hbq => ?_⟩
    rw [hentry] at hbq
    rcases eq_or_ne b l with rfl | hne'
    · rw [update_self, Pte.page?_page] at hbq
      obtain rfl := Option.some.inj hbq
      exact absurd (hp a ha dirty hq) hne
    · rw [update_of_ne hne'] at hbq
      exact hsole b hb hbq

/-- An entry comes to map nothing. -/
theorem Sole.update_unmapped (h : Sole m) (hentry : m'.entry = update m.entry l v) (hv : v.page? = none) :
    Sole m' := by
  apply h.of_shrinks
  intro a
  rw [hentry]
  rcases eq_or_ne a l with rfl | hne
  · exact .inr (by rw [update_self, hv])
  · exact .inl (update_of_ne hne ..)

/-! ## Giving pages back -/

theorem setEntry_none_shrinks (m : Mm) (t e : ℕ) : Shrinks m (m.setEntry t e .none) := by
  intro l
  unfold Mm.entry Mm.setEntry
  cases m.pgDir l.1 with
  | none => exact .inl rfl
  | some t' =>
    simp only
    rcases eq_or_ne t' t with rfl | hne
    · rcases eq_or_ne l.2 e with rfl | hne'
      · exact .inr (by rw [update_self, update_self, Pte.page?_none])
      · exact .inl (by rw [update_self, update_of_ne hne'])
    · exact .inl (by rw [update_of_ne hne])

theorem setDir_none_shrinks (m : Mm) (d : ℕ) : Shrinks m (m.setDir d none) := by
  intro l
  by_cases hd : l.1 = d
  · have hnone : (m.setDir d none).entry l = .none := entry_of_no_dir (by rw [hd]; exact update_self ..)
    exact .inr (by rw [hnone, Pte.page?_none])
  · exact .inl (entry_setDir_of_ne hd)

theorem freePage_entry (h : m.freePage p = some m') : m'.entry = m.entry := by
  unfold freePage at h
  split_ifs at h <;> obtain rfl := Option.some.inj h <;> rfl

theorem swapFree_entry (m : Mm) (nr : ℕ) : (m.swapFree nr).entry = m.entry := by
  unfold swapFree
  cases m.swapBitmap with
  | none => split_ifs <;> rfl
  | some b =>
    simp only
    split_ifs <;> rfl

theorem freeEntry_shrinks (h : m.freeEntry t e = some m') : Shrinks m m' := by
  unfold freeEntry at h
  split at h
  · obtain rfl := Option.some.inj h
    exact .refl m
  · obtain ⟨m₁, h₁, rfl⟩ := Option.map_eq_some_iff.mp h
    exact (Shrinks.of_entry (freePage_entry h₁)).trans (setEntry_none_shrinks m₁ t e)
  · obtain rfl := Option.some.inj h
    exact (Shrinks.of_entry (swapFree_entry m _)).trans (setEntry_none_shrinks _ t e)

theorem freeEntries_shrinks (h : freeEntries t k e m = some m') : Shrinks m m' := by
  induction k generalizing e m with
  | zero =>
    obtain rfl := Option.some.inj h
    exact .refl m
  | succ k ih =>
    obtain ⟨m₁, h₁, h₂⟩ := Option.bind_eq_some_iff.mp h
    exact (freeEntry_shrinks h₁).trans (ih h₂)

theorem freeDirs_shrinks (h : freeDirs k d m = some m') : Shrinks m m' := by
  induction k generalizing d m with
  | zero =>
    obtain rfl := Option.some.inj h
    exact .refl m
  | succ k ih =>
    unfold freeDirs at h
    split at h
    · exact ih h
    · obtain ⟨m₁, h₁, h₂⟩ := Option.bind_eq_some_iff.mp h
      obtain ⟨m₂, h₂, h₃⟩ := Option.bind_eq_some_iff.mp h₂
      refine (freeEntries_shrinks h₁).trans ((Shrinks.of_entry (freePage_entry h₂)).trans ?_)
      exact (setDir_none_shrinks m₂ d).trans (ih h₃)

theorem freePageTables_shrinks (h : m.freePageTables d k = some m') : Shrinks m m' := by
  unfold freePageTables at h
  split_ifs at h
  exact freeDirs_shrinks h

/-! ## Copying page tables -/

/-- What the copy of the entry `e` does: the child's address comes to show what the parent's shows, and what is
read at the others stays. -/
structure EntryCopied (fd td e : ℕ) (m m' : Mm) (r : Bool) : Prop where
  sole : Sole m → Sole m'
  keeps (image : ℕ × ℕ → Bytes) (l : ℕ × ℕ) : User l → l ≠ (td, e) → Keeps image l m m'
  child (image : ℕ × ℕ → Bytes) : r = true → image (td, e) = image (fd, e) → m.Clean image (fd, e) →
    m'.view image (td, e) = m.view image (fd, e) ∧ m'.Clean image (td, e)

/-- The child's entry names the page that the parent's named. -/
theorem child_page {a b dirty : Bool} (he : m.entry l = .page p a dirty) (he' : m'.entry l' = .page p b dirty)
    (hb : m'.bytes p = m.bytes p) (hi : image l' = image l) (hc : m.Clean image l) :
    m'.view image l' = m.view image l ∧ m'.Clean image l' := by
  constructor
  · simp only [view, he, he', hb]
  · intro q w hq hlo
    rw [he'] at hq
    cases hq
    rw [hb, hi]
    exact hc p a he hlo

theorem entry_pair (h : Law U held m) (hc : Copying fd td ft tt m) (hf : (fd, e) ∈ places) (v w : Pte) :
    ((m.setEntry tt e v).setEntry ft e w).entry = update (update m.entry (td, e) v) (fd, e) w := by
  rw [Paging.entry_setEntry (m := m.setEntry tt e v) (fun _ ht' => h.dir_inj (mem_places.mp hf).1 hc.from_ ht')
    hc.from_, h.entry_setEntry hc.mem hc.to_]

theorem copy_swapped_copies (h : Law U (update held p 1) m) (hc : Copying fd td ft tt m) (hf : (fd, e) ∈ places)
    (he : m.entry (fd, e) = .swapped nr) (h1 : m.memMap p = 1) (hlo : LOW_MEM ≤ p) :
    EntryCopied fd td e m (((m.readSwapPage nr p).setEntry tt e (.swapped nr)).setEntry ft e (.page p true true))
      true := by
  obtain ⟨-, b, -, -⟩ := h.inUse hf he
  have hne : (fd, e) ≠ (td, e) := fun h => hc.ne (congrArg Prod.fst h)
  have hentry : (((m.readSwapPage nr p).setEntry tt e (.swapped nr)).setEntry ft e (.page p true true)).entry =
      update (update m.entry (td, e) (.swapped nr)) (fd, e) (.page p true true) :=
    entry_pair h hc hf (.swapped nr) (.page p true true)
  refine ⟨fun hs => ?_, fun image l hl hl' => ?_, fun image _ _ _ => ?_⟩
  · have hfirst := h.entry_setEntry hc.mem hc.to_ e (.swapped nr)
    refine (hs.update_unmapped hfirst rfl).update_fresh (l := (fd, e)) (r := true) (hentry.trans ?_) hlo fun a ha => ?_
    · rw [hfirst]
    · rw [hfirst]
      rcases eq_or_ne a (td, e) with rfl | hne'
      · rw [update_self]
        nofun
      · rw [update_of_ne hne']
        exact h.unmapped (.inl ha) hlo (by rw [h1, update_self])
  · refine (fetched_keeps (b := b) h hf hc.from_ he h1 hlo hl).trans ?_
    refine .of_same ?_ (fun _ _ => rfl) fun _ _ _ _ => rfl
    rw [hentry, fetched_entry nr p b h hf hc.from_]
    rcases eq_or_ne l (fd, e) with rfl | hne'
    · rw [update_self, update_self]
    · rw [update_of_ne hne', update_of_ne hne', update_of_ne hl']
  · have hchild : (((m.readSwapPage nr p).setEntry tt e (.swapped nr)).setEntry ft e (.page p true true)).entry
        (td, e) = .swapped nr := by
      rw [hentry, update_of_ne hne.symm, update_self]
    constructor
    · simp only [view, hchild, he]
      rfl
    · intro q rw hq
      rw [hchild] at hq
      cases hq

/-- What follows the loss of some pages. -/
theorem EntryCopied.of_evicts (h : Evicts m m') (hu : User (fd, e)) (h' : EntryCopied fd td e m' m'' r) :
    EntryCopied fd td e m m'' r where
  sole hs := h'.sole (hs.of_shrinks h.shrinks)
  keeps image l hl hne := (h.keeps image l hl).trans (h'.keeps image l hl hne)
  child image hr hi hc := by
    obtain ⟨hv, hc'⟩ := h.keeps image (fd, e) hu hc
    rw [← hv]
    exact h'.child image hr hi hc'

theorem copy_page_copies (h : Law U held m) (hc : Copying fd td ft tt m) (hf : (fd, e) ∈ places) {rw dirty : Bool}
    (he : m.entry (fd, e) = .page p rw dirty) :
    EntryCopied fd td e m (((m.setEntry tt e (.page p false dirty)).setEntry ft e (.page p false dirty)).incCount p)
      true := by
  have hne : (fd, e) ≠ (td, e) := fun h => hc.ne (congrArg Prod.fst h)
  have hentry : (((m.setEntry tt e (.page p false dirty)).setEntry ft e (.page p false dirty)).incCount p).entry =
      update (update m.entry (td, e) (.page p false dirty)) (fd, e) (.page p false dirty) :=
    entry_pair h hc hf _ _
  have hpage : (m.entry (fd, e)).page? = some p := by rw [he, Pte.page?_page]
  refine ⟨fun hs => ?_, fun image l hl hl' => ?_, fun image _ hi hclean => ?_⟩
  · -- only the parent's entry can have mapped the page writable
    have hsole {a : ℕ × ℕ} {dirty' : Bool} (ha : a ∈ places) (hp : m.entry a = .page p true dirty') : a = (fd, e) :=
      ((hs a ha p dirty' hp).2 (fd, e) hf hpage).symm
    have hcomm : update (update m.entry (td, e) (.page p false dirty)) (fd, e) (.page p false dirty) =
        update (update m.entry (fd, e) (.page p false dirty)) (td, e) (.page p false dirty) :=
      update_comm hne.symm _ _ _
    have hfirst := h.entry_setEntry (mem_places.mp hf).1 hc.from_ e (.page p false dirty)
    refine (hs.update_shared hfirst fun a ha _ => hsole ha).update_shared
      (hentry.trans (hcomm.trans (by rw [hfirst]))) fun a ha dirty' hp => ?_
    rw [hfirst] at hp
    rcases eq_or_ne a (fd, e) with rfl | hne'
    · rw [update_self] at hp
      cases hp
    · rw [update_of_ne hne'] at hp
      exact absurd (hsole ha hp) hne'
  · rcases eq_or_ne l (fd, e) with rfl | hne'
    · intro hclean
      refine child_page (b := false) he ?_ rfl rfl hclean
      rw [hentry, update_self]
    · refine .of_same ?_ (fun _ _ => rfl) fun _ _ _ _ => rfl
      rw [hentry, update_of_ne hne', update_of_ne hl']
  · refine child_page (b := false) he ?_ rfl hi hclean
    rw [hentry, update_of_ne hne.symm, update_self]

/-- A page below 1 MB is mapped for the child, and the parent's entry stays. -/
theorem copy_low_copies (h : Law U held m) (hc : Copying fd td ft tt m) {rw dirty : Bool}
    (he : m.entry (fd, e) = .page p rw dirty) (hlo : p < LOW_MEM) :
    EntryCopied fd td e m (m.setEntry tt e (.page p false dirty)) true := by
  have hentry := h.entry_setEntry hc.mem hc.to_ e (.page p false dirty)
  refine ⟨fun hs => hs.update_shared hentry fun a ha dirty' hp => ?_, fun image l _ hl' => ?_,
    fun image _ hi hclean => child_page (b := false) he ?_ rfl hi hclean⟩
  · exact absurd (hs a ha p dirty' hp).1 hlo.not_ge
  · refine .of_same ?_ (fun _ _ => rfl) fun _ _ _ _ => rfl
    rw [hentry, update_of_ne hl']
  · rw [hentry, update_self]

theorem copyEntry_copies (h : Law U held m) (hc : Copying fd td ft tt m) (hu : User (fd, e))
    (hnone : m.entry (td, e) = .none) (hrun : m.copyEntry ft tt e = some (m', r)) :
    EntryCopied fd td e m m' r := by
  have htab : m.entry (fd, e) = m.table ft e := entry_of_dir hc.from_ e
  unfold copyEntry at hrun
  cases he : m.table ft e with
  | none =>
    rw [he] at hrun htab
    obtain ⟨rfl, rfl⟩ := Prod.mk.inj (Option.some.inj hrun)
    refine ⟨id, fun image l _ _ => .refl image l m, fun image _ hi _ => ⟨?_, fun p rw hp => ?_⟩⟩
    · simp only [view, hnone, htab, hi]
    · rw [hnone] at hp
      cases hp
  | swapped nr =>
    rw [he] at hrun htab
    obtain ⟨m₁, r₁, hrun₁, hres⟩ := getFreePage_spec h
    simp only [hrun₁, Option.map_some] at hrun
    cases r₁ with
    | none =>
      obtain ⟨rfl, rfl⟩ := Prod.mk.inj (Option.some.inj hrun)
      refine ⟨fun hs => hs.of_shrinks hres.1.shrinks, fun image l hl _ => hres.1.keeps image l hl, fun _ hr => ?_⟩
      exact absurd hr Bool.false_ne_true
    | some p =>
      obtain ⟨rfl, rfl⟩ := Prod.mk.inj (Option.some.inj hrun)
      obtain ⟨hev, hlaw, -, h1, hlo, -, -⟩ := hres.spec
      have hf : (fd, e) ∈ places := by
        refine mem_places.mpr ⟨?_, hu.lt⟩
        by_contra hd
        have hslot : m.slot (fd, e) = some nr := by rw [slot, htab, Pte.slot?_swapped]
        rw [h.kernelSlot hd] at hslot
        cases hslot
      have he₁ : m₁.entry (fd, e) = .swapped nr := (hev.entry_eq (by rw [htab, Pte.page?_swapped])).trans htab
      exact .of_evicts hev hu (copy_swapped_copies hlaw (hc.of_fills (hev.fills td)) hf he₁ h1 hlo)
  | page p rw dirty =>
    rw [he] at hrun htab
    simp only at hrun
    split_ifs at hrun with hlo
    · obtain ⟨rfl, rfl⟩ := Prod.mk.inj (Option.some.inj hrun)
      have hf : (fd, e) ∈ places := by
        rcases hu with hf | ⟨hd, he'⟩
        · exact hf
        · obtain rfl : fd = 0 := hd
          exact absurd (h.kernelPage he' (by rw [htab, Pte.page?_page])) hlo.not_gt
      exact copy_page_copies h hc hf htab
    · obtain ⟨rfl, rfl⟩ := Prod.mk.inj (Option.some.inj hrun)
      exact copy_low_copies h hc htab (not_le.mp hlo)

/-- What the copy of `k` entries from `e` on does. -/
structure TableCopied (fd td e k : ℕ) (m m' : Mm) (r : Bool) : Prop where
  sole : Sole m → Sole m'
  keeps (image : ℕ × ℕ → Bytes) (l : ℕ × ℕ) : User l → (l.1 = td → l.2 < e ∨ e + k ≤ l.2) → Keeps image l m m'
  child (image : ℕ × ℕ → Bytes) : r = true → (∀ i, image (td, i) = image (fd, i)) →
    (∀ i, e ≤ i → i < e + k → m.Clean image (fd, i)) → ∀ i, e ≤ i → i < e + k →
      m'.view image (td, i) = m.view image (fd, i) ∧ m'.Clean image (td, i)

theorem copyEntries_copies (h : Law U held m) (hc : Copying fd td ft tt m) (hu : ∀ i, i < e + k → User (fd, i))
    (hnone : ∀ i, e ≤ i → i < e + k → m.entry (td, i) = .none)
    (hrun : copyEntries ft tt k e m = some (m', r)) : TableCopied fd td e k m m' r := by
  induction k generalizing m e with
  | zero =>
    obtain ⟨rfl, rfl⟩ := Prod.mk.inj (Option.some.inj hrun)
    exact ⟨id, fun image l _ _ => .refl image l m, fun _ _ _ _ i hi hi' => by omega⟩
  | succ k ih =>
    obtain ⟨m₁, r₁, hrun₁, hlaw₁, hfills₁, hrest⟩ := copyEntry_spec h hc (hu e (by omega)) (hnone e le_rfl (by omega))
    have hcop := copyEntry_copies h hc (hu e (by omega)) (hnone e le_rfl (by omega)) hrun₁
    have hkeep (image : ℕ × ℕ → Bytes) (l : ℕ × ℕ) (hl : User l)
        (hout : l.1 = td → l.2 < e ∨ e + (k + 1) ≤ l.2) : Keeps image l m m₁ := by
      refine hcop.keeps image l hl ?_
      rintro rfl
      have := hout rfl
      simp only at this
      omega
    unfold copyEntries at hrun
    rw [hrun₁] at hrun
    cases r₁ with
    | false =>
      obtain ⟨rfl, rfl⟩ := Prod.mk.inj (Option.some.inj hrun)
      exact ⟨hcop.sole, hkeep, fun _ hr => absurd hr Bool.false_ne_true⟩
    | true =>
      have hrest' := ih (e := e + 1) hlaw₁ (hc.of_fills hfills₁) (fun i hi => hu i (by omega))
        (fun i hi hi' => hrest i (by omega) (hnone i (by omega) (by omega))) hrun
      refine ⟨fun hs => hrest'.sole (hcop.sole hs), fun image l hl hout => ?_, fun image hr hi hclean i hie hik => ?_⟩
      · exact (hkeep image l hl hout).trans (hrest'.keeps image l hl fun htd => by have := hout htd; omega)
      · rcases Nat.eq_or_lt_of_le hie with rfl | hlt
        · obtain ⟨hv, hc'⟩ := hcop.child image rfl (hi e) (hclean e le_rfl (by omega))
          have hplace : User (td, e) := .inl (mem_places.mpr ⟨hc.mem, (hu e (by omega)).lt⟩)
          obtain ⟨hv', hc''⟩ := hrest'.keeps image (td, e) hplace (fun _ => .inl (Nat.lt_succ_self e)) hc'
          exact ⟨hv'.trans hv, hc''⟩
        · have hne {j : ℕ} : (fd, j) ≠ (td, e) := fun h => hc.ne (congrArg Prod.fst h)
          have hclean₁ (j : ℕ) (hj : e + 1 ≤ j) (hj' : j < e + 1 + k) : m₁.Clean image (fd, j) :=
            (hcop.keeps image (fd, j) (hu j (by omega)) hne (hclean j (by omega) (by omega))).2
          obtain ⟨hv, hc'⟩ := hrest'.child image hr hi hclean₁ i hlt (by omega)
          refine ⟨hv.trans ?_, hc'⟩
          exact (hcop.keeps image (fd, i) (hu i (by omega)) hne (hclean i (by omega) (by omega))).1

/-- What the child reads: in the first `cnt` entries of a table what the parent reads, behind them and where there
is no table what a page fault brings in. -/
def Inherited (cnt : ℕ) (image : ℕ × ℕ → Bytes) (m m' : Mm) (l l' : ℕ × ℕ) : Prop :=
  m'.view image l' = (if l.2 < cnt then m.view image l else image l') ∧ m'.Clean image l'

theorem Inherited.of_keeps (h : Inherited cnt image m m' l l') (hk : Keeps image l' m' m'') :
    Inherited cnt image m m'' l l' := by
  obtain ⟨hv, hc⟩ := hk h.2
  exact ⟨hv.trans h.1, hc⟩

theorem view_none (he : m.entry l = .none) : m.view image l = image l := by
  rw [view, he]

theorem clean_none (he : m.entry l = .none) : m.Clean image l := by
  intro p rw hp
  rw [he] at hp
  cases hp

/-- What the copy of `k` tables does. -/
structure DirsCopied (cnt k fd td : ℕ) (m m' : Mm) (r : Bool) : Prop where
  sole : Sole m → Sole m'
  child (image : ℕ × ℕ → Bytes) : r = true → (∀ j < k, ∀ i, image (td + j, i) = image (fd + j, i)) →
    (∀ j < k, ∀ i < cnt, m.Clean image (fd + j, i)) → ∀ j < k, ∀ i < 1024,
      Inherited cnt image m m' (fd + j, i) (td + j, i)

/-- An empty table in the directory changes no entry. -/
theorem entry_addDir (hnone : m.pgDir d = none) (hempty : m.table p = fun _ => .none) :
    (m.setDir d (some p)).entry = m.entry := by
  ext1 l
  by_cases hd : l.1 = d
  · obtain ⟨d', e⟩ := l
    obtain rfl : d' = d := hd
    calc (m.setDir d' (some p)).entry (d', e) = m.table p e := entry_of_dir (update_self ..) e
      _ = .none := congrFun hempty e
      _ = m.entry (d', e) := (entry_of_no_dir (l := (d', e)) hnone).symm
  · exact entry_setDir_of_ne hd

/-- Where the parent has no table the child reads what a page fault brings in. -/
theorem inherited_none (ht : m.pgDir fd = none) (ht' : m'.pgDir td = none) {i : ℕ}
    (hi : image (td, i) = image (fd, i)) : Inherited cnt image m m' (fd, i) (td, i) := by
  have he : m.entry (fd, i) = .none := entry_of_no_dir ht
  have he' : m'.entry (td, i) = .none := entry_of_no_dir ht'
  refine ⟨?_, clean_none he'⟩
  rw [view_none he, view_none he', hi, ite_self]

theorem copyDirs_copies (fd td : ℕ) (h : Law U held m) (hlo : 16 ≤ td) (hhi : td + k ≤ 1024)
    (hmod : fd % 16 = td % 16) (hdis : fd + k ≤ td ∨ td + k ≤ fd)
    (hu : ∀ j i, j < k → i < cnt → User (fd + j, i)) (hnone : ∀ i, td ≤ i → i < td + k → m.pgDir i = none)
    (hrun : copyDirs cnt k fd td m = some (m', r)) : DirsCopied cnt k fd td m m' r := by
  induction k generalizing m fd td with
  | zero =>
    obtain ⟨rfl, rfl⟩ := Prod.mk.inj (Option.some.inj hrun)
    exact ⟨id, fun _ _ _ _ j hj => by omega⟩
  | succ k ih =>
    have hd : td ∈ dirs := mem_dirs.mpr ⟨hlo, by omega⟩
    have hnone₀ : m.pgDir td = none := hnone td le_rfl (by omega)
    have hnext : ∀ j i, j < k → i < cnt → User (fd + 1 + j, i) := fun j i hj hi => by
      have hju := hu (j + 1) i (by omega) hi
      rwa [show fd + (j + 1) = fd + 1 + j by omega] at hju
    unfold copyDirs at hrun
    rw [hnone₀, if_neg (by simp)] at hrun
    cases hf : m.pgDir fd with
    | none =>
      simp only [hf] at hrun
      have hnone' : ∀ i, td + 1 ≤ i → i < td + 1 + k → m.pgDir i = none := fun i hi hi' => hnone i (by omega) (by omega)
      obtain ⟨_, _, hrun', -, hcopies⟩ := copyDirs_spec (fd + 1) (td + 1) (k := k) h (by omega) (by omega) (by omega)
        (by omega) hnext hnone'
      obtain ⟨rfl, rfl⟩ := Prod.mk.inj (Option.some.inj (hrun'.symm.trans hrun))
      have hcop := ih (m := m) (fd + 1) (td + 1) h (by omega) (by omega) (by omega) (by omega) hnext hnone' hrun
      refine ⟨hcop.sole, fun image hr hi hclean j hj i hi' => ?_⟩
      cases j with
      | zero => exact inherited_none hf ((hcopies.pgDir (by omega)).trans hnone₀) (hi 0 hj i)
      | succ j =>
        rw [show fd + (j + 1) = fd + 1 + j by omega, show td + (j + 1) = td + 1 + j by omega]
        refine hcop.child image hr (fun j hj i => ?_) (fun j hj i hi => ?_) j (by omega) i hi'
        · rw [show td + 1 + j = td + (j + 1) by omega, show fd + 1 + j = fd + (j + 1) by omega]
          exact hi (j + 1) (by omega) i
        · rw [show fd + 1 + j = fd + (j + 1) by omega]
          exact hclean (j + 1) (by omega) i hi
    | some ft =>
      obtain ⟨m₁, r₁, hrun₁, hres⟩ := getFreePage_spec h
      simp only [hf, hrun₁, Option.bind_some] at hrun
      cases r₁ with
      | none =>
        obtain ⟨rfl, rfl⟩ := Prod.mk.inj (Option.some.inj hrun)
        exact ⟨fun hs => hs.of_shrinks hres.1.shrinks, fun _ hr => absurd hr Bool.false_ne_true⟩
      | some tt =>
        obtain ⟨hev, hlaw₁, hh, h1, hlot, hhit, hempty⟩ := hres.spec
        have hnone₁ : m₁.pgDir td = none := by rw [hev.pgDir, hnone₀]
        have hne : fd ≠ td := by omega
        let m₃ : Mm := { m₁.setDir td (some tt) with fresh := tt :: m₁.fresh }
        have hlaw₂ := hlaw₁.addDir hh hd hnone₁ hempty h1 hlot hhit
        have hlaw₃ : Law U held m₃ := hlaw₂.of_same rfl rfl rfl rfl rfl rfl hlaw₂.cursor hlaw₂.quiet hlaw₂.handed
        have hentry₃ : m₃.entry = m₁.entry := entry_addDir hnone₁ hempty
        have hnone₃ (i : ℕ) : m₃.entry (td, i) = .none := by
          rw [hentry₃]
          exact entry_of_no_dir hnone₁
        have hkeep₃ (image : ℕ × ℕ → Bytes) (l : ℕ × ℕ) (hl : User l) : Keeps image l m m₃ :=
          (hev.keeps image l hl).trans (.of_same (congrFun hentry₃ l) (fun _ _ => rfl) fun _ _ _ _ => rfl)
        have hc : Copying fd td ft tt m₃ := by
          refine ⟨(update_of_ne hne ..).trans ?_, update_self .., hd, hne, hmod⟩
          rw [hev.pgDir, hf]
        have huf (i : ℕ) (hi : i < 0 + cnt) : User (fd, i) := hu 0 i (by omega) (by omega)
        obtain ⟨m₄, r₄, hrun₄, hlaw₄, hfills⟩ := copyEntries_spec (e := 0) (k := cnt) hlaw₃ hc huf fun i _ _ => hnone₃ i
        have htable := copyEntries_copies (e := 0) (k := cnt) hlaw₃ hc huf (fun i _ _ => hnone₃ i) hrun₄
        have hsole₄ (hs : Sole m) : Sole m₄ := htable.sole ((hs.of_shrinks hev.shrinks).of_entry hentry₃)
        change (copyEntries ft tt cnt 0 m₃).bind _ = _ at hrun
        simp only [hrun₄, Option.bind_some] at hrun
        cases r₄ with
        | false =>
          obtain ⟨rfl, rfl⟩ := Prod.mk.inj (Option.some.inj hrun)
          exact ⟨hsole₄, fun _ hr => absurd hr Bool.false_ne_true⟩
        | true =>
          have hnone₄ (i : ℕ) (hi : td + 1 ≤ i) (hi' : i < td + 1 + k) : m₄.pgDir i = none := by
            rw [hfills.pgDir]
            refine (update_of_ne (by omega) ..).trans ?_
            rw [hev.pgDir]
            exact hnone i (by omega) (by omega)
          obtain ⟨_, _, hrun', -, hcopies⟩ := copyDirs_spec (fd + 1) (td + 1) (k := k) hlaw₄ (by omega) (by omega)
            (by omega) (by omega) hnext hnone₄
          obtain ⟨rfl, rfl⟩ := Prod.mk.inj (Option.some.inj (hrun'.symm.trans hrun))
          have hcop := ih (m := m₄) (fd + 1) (td + 1) hlaw₄ (by omega) (by omega) (by omega) (by omega) hnext hnone₄
            hrun
          refine ⟨fun hs => hcop.sole (hsole₄ hs), fun image hr hi hclean j hj i hi' => ?_⟩
          have hkeep₄ (l : ℕ × ℕ) (hl : User l) (hl' : l.1 ≠ td) : Keeps image l m m₄ :=
            (hkeep₃ image l hl).trans (htable.keeps image l hl fun h => absurd h hl')
          cases j with
          | zero =>
            have hplace : User (td, i) := .inl (mem_places.mpr ⟨hd, hi'⟩)
            refine Inherited.of_keeps ?_ (hcopies.keeps image (td, i) hplace (by simp))
            by_cases hlt : i < cnt
            · obtain ⟨hv, hc'⟩ := htable.child image rfl (hi 0 hj)
                (fun i _ hi => (hkeep₃ image (fd, i) (huf i hi) (hclean 0 hj i (by omega))).2) i (Nat.zero_le i)
                (by omega)
              refine ⟨(hv.trans ?_).trans (if_pos hlt).symm, hc'⟩
              exact (hkeep₃ image (fd, i) (huf i (by omega)) (hclean 0 hj i hlt)).1
            · obtain ⟨hv, hc'⟩ := htable.keeps image (td, i) hplace (fun _ => .inr (by simp only; omega))
                (clean_none (hnone₃ i))
              exact ⟨(hv.trans (view_none (hnone₃ i))).trans (if_neg hlt).symm, hc'⟩
          | succ j =>
            rw [show fd + (j + 1) = fd + 1 + j by omega, show td + (j + 1) = td + 1 + j by omega]
            have hi₁ (j : ℕ) (hj : j < k) (i : ℕ) : image (td + 1 + j, i) = image (fd + 1 + j, i) := by
              rw [show td + 1 + j = td + (j + 1) by omega, show fd + 1 + j = fd + (j + 1) by omega]
              exact hi (j + 1) (by omega) i
            have hclean₁ (j : ℕ) (hj : j < k) (i : ℕ) (hi : i < cnt) : m.Clean image (fd + 1 + j, i) := by
              rw [show fd + 1 + j = fd + (j + 1) by omega]
              exact hclean (j + 1) (by omega) i hi
            have hk (j : ℕ) (hj : j < k) (i : ℕ) (hi : i < cnt) : m₄.view image (fd + 1 + j, i) =
                m.view image (fd + 1 + j, i) ∧ m₄.Clean image (fd + 1 + j, i) :=
              hkeep₄ _ (hnext j i hj hi) (by simp only; omega) (hclean₁ j hj i hi)
            obtain ⟨hv, hc'⟩ := hcop.child image hr hi₁ (fun j hj i hi => (hk j hj i hi).2) j (by omega) i hi'
            refine ⟨hv.trans ?_, hc'⟩
            exact if_ctx_congr Iff.rfl (fun hlt => (hk j (by omega) i hlt).1) fun _ => rfl

/-- How many entries of each table of a task are copied. -/
def copiedEntries (cur : ℕ) : ℕ := if cur = 0 then 0xA0 else 1024

/-- What the child of a fork has of its parent -/
structure Inherits (nr cur : ℕ) (m m' : Mm) (r : Bool) : Prop where
  sole : Sole m → Sole m'
  child (image : ℕ × ℕ → Bytes) : r = true →
    (∀ j < m.limit cur, ∀ i, image (nr * TASK_DIRS + j, i) = image (cur * TASK_DIRS + j, i)) →
    (∀ j < m.limit cur, ∀ i < copiedEntries cur, m.Clean image (cur * TASK_DIRS + j, i)) →
    ∀ j < m.limit cur, ∀ i < 1024,
      Inherited (copiedEntries cur) image m m' (cur * TASK_DIRS + j, i) (nr * TASK_DIRS + j, i)

theorem user_of_limit (hlim : m.limit cur ≤ TASK_DIRS) (hzero : m.limit 0 ≤ 1) (hcur : cur < NR_TASKS) {j i : ℕ}
    (hj : j < m.limit cur) (hi : i < copiedEntries cur) : User (cur * TASK_DIRS + j, i) := by
  unfold copiedEntries at hi
  simp only [TASK_DIRS, NR_TASKS] at *
  rcases Nat.eq_zero_or_pos cur with rfl | hpos
  · exact .inr ⟨by simp only; omega, hi⟩
  · rw [if_neg (by omega)] at hi
    exact .inl (mem_places.mpr ⟨mem_dirs.mpr (by simp only; omega), hi⟩)

theorem copyMem_inherits (h : Law U held m) (hlim : m.limit cur ≤ TASK_DIRS) (hzero : m.limit 0 ≤ 1)
    (hn : nr ∈ taskSlots) (hcur : cur < NR_TASKS) (hne : cur ≠ nr) (hnone : ∀ d, d / TASK_DIRS = nr → m.pgDir d = none)
    (hrun : m.copyMem nr cur = some (m', r)) :
    Inherits nr cur m m' r ∧ m'.task = m.task ∧ m'.limit = m.limit := by
  obtain ⟨hn1, hn2⟩ := mem_taskSlots.mp hn
  have hlim' : m.limit cur ≤ 16 := hlim
  have hcur' : cur < 64 := hcur
  have hcount : (if cur * TASK_DIRS = 0 then 0xA0 else 1024) = copiedEntries cur := by
    unfold copiedEntries
    exact if_congr (by simp [TASK_DIRS]) rfl rfl
  unfold copyMem copyPageTables at hrun
  rw [hcount] at hrun
  obtain ⟨⟨m₂, r₂⟩, hrun₂, hrun⟩ := Option.bind_eq_some_iff.mp hrun
  have hlow : 16 ≤ nr * TASK_DIRS := by simp only [TASK_DIRS]; omega
  have hhigh : nr * TASK_DIRS + m.limit cur ≤ 1024 := by simp only [TASK_DIRS]; omega
  have hmod : cur * TASK_DIRS % 16 = nr * TASK_DIRS % 16 := by simp only [TASK_DIRS]; omega
  have hdis : cur * TASK_DIRS + m.limit cur ≤ nr * TASK_DIRS ∨ nr * TASK_DIRS + m.limit cur ≤ cur * TASK_DIRS := by
    simp only [TASK_DIRS]
    omega
  have hu (j i : ℕ) (hj : j < m.limit cur) (hi : i < copiedEntries cur) : User (cur * TASK_DIRS + j, i) :=
    user_of_limit hlim hzero hcur hj hi
  have hnone' (i : ℕ) (hi : nr * TASK_DIRS ≤ i) (hi' : i < nr * TASK_DIRS + m.limit cur) : m.pgDir i = none :=
    hnone i (by simp only [TASK_DIRS] at *; omega)
  have hcop := copyDirs_copies (cur * TASK_DIRS) (nr * TASK_DIRS) h hlow hhigh hmod hdis hu hnone' hrun₂
  obtain ⟨m₁, r₁, hrun₁, hlaw₁, hcopies⟩ :=
    copyDirs_spec (cur * TASK_DIRS) (nr * TASK_DIRS) h hlow hhigh hmod hdis hu hnone'
  obtain ⟨rfl, rfl⟩ := Prod.mk.inj (Option.some.inj (hrun₁.symm.trans hrun₂))
  cases r₁ with
  | true =>
    obtain ⟨rfl, rfl⟩ := Prod.mk.inj (Option.some.inj hrun)
    exact ⟨⟨hcop.sole, fun image hr hi hclean => hcop.child image hr hi hclean⟩, hcopies.task,
      hcopies.limit⟩
  | false =>
    obtain ⟨m₃, hrun₃, heq⟩ := Option.map_eq_some_iff.mp hrun
    obtain ⟨rfl, rfl⟩ := Prod.mk.inj heq
    obtain ⟨_, hrun₃', -, hshed, -⟩ := freePageTables_spec hlaw₁ hlow hhigh
    obtain rfl := Option.some.inj (hrun₃'.symm.trans hrun₃)
    exact ⟨⟨fun hs => (hcop.sole hs).of_shrinks (freePageTables_shrinks hrun₃), nofun⟩,
      hshed.task.trans hcopies.task, hshed.limit.trans hcopies.limit⟩

/-- What a fork leaves of the table of tasks -/
structure Enters (nr cur : ℕ) (m m' : Mm) (r : Bool) : Prop where
  task {n : ℕ} : n ≠ nr → m'.task n = m.task n
  limit_of_ne {n : ℕ} : n ≠ nr → m'.limit n = m.limit n
  limit : r = true → m'.limit nr = m.limit cur

theorem copyProcess_inherits (h : Law U held m) (hr : Regions m) (hn : nr ∈ taskSlots) (hfree : m.task nr = none)
    (hcur : cur < NR_TASKS) (hne : cur ≠ nr) (hrun : m.copyProcess nr cur = some (m', r)) :
    Inherits nr cur m m' r ∧ Enters nr cur m m' r := by
  have h₀ : Law U held { m with fresh := [] } :=
    h.of_same rfl rfl rfl rfl rfl rfl h.cursor h.quiet h.handed
  have hr₀ : Regions { m with fresh := [] } := ⟨hr.limit_le, hr.limit_zero, hr.empty, hr.beyond⟩
  obtain ⟨m₁, r₁, hrun₁, hres⟩ := getFreePage_spec h₀
  unfold copyProcess at hrun
  simp only [hrun₁, Option.bind_some] at hrun
  cases r₁ with
  | none =>
    obtain ⟨rfl, rfl⟩ := Prod.mk.inj (Option.some.inj hrun)
    have hev := hres.1
    exact ⟨⟨fun hs => hs.of_shrinks hev.shrinks, nofun⟩, fun _ => by rw [hev.task], fun _ => by rw [hev.limit], nofun⟩
  | some p =>
    obtain ⟨hev, hlaw₁, hh, h1, hlo, hhi, -⟩ := hres.spec
    have hfree₁ : m₁.task nr = none := by
      rw [hev.task]
      exact hfree
    have hlaw₂ := hlaw₁.setTask_some hh hn hfree₁ h1 hlo hhi
    let m₂ : Mm := { m₁.setTask nr (some p) with
      limit := update m₁.limit nr (m₁.limit cur)
      fresh := [p] }
    have hlaw₃ : Law U held m₂ := hlaw₂.of_same rfl rfl rfl rfl rfl rfl hlaw₂.cursor hlaw₂.quiet hlaw₂.handed
    have hkeep (image : ℕ × ℕ → Bytes) (l : ℕ × ℕ) (hl : User l) : Keeps image l m m₂ := by
      have hsame : Keeps image l m { m with fresh := [] } := .of_same rfl (fun _ _ => rfl) fun _ _ _ _ => rfl
      exact hsame.trans ((hev.keeps image l hl).trans (.of_same rfl (fun _ _ => rfl) fun _ _ _ _ => rfl))
    have hlimit (n : ℕ) (hn' : n ≠ nr) : m₂.limit n = m.limit n := by
      change update m₁.limit nr (m₁.limit cur) n = _
      rw [update_of_ne hn', hev.limit]
    have htask (n : ℕ) (hn' : n ≠ nr) : m₂.task n = m.task n := by
      change update m₁.task nr (some p) n = _
      rw [update_of_ne hn', hev.task]
    have hself : m₂.limit nr = m.limit cur := by
      change update m₁.limit nr (m₁.limit cur) nr = _
      rw [update_self, hev.limit]
    have hne0 : 0 ≠ nr := by
      have := (mem_taskSlots.mp hn).1
      omega
    have hempty (d : ℕ) (hd : d / TASK_DIRS = nr) : m₂.pgDir d = none := by
      change m₁.pgDir d = none
      rw [hev.pgDir]
      exact hr.empty hn hfree hd
    change (m₂.copyMem nr cur).bind _ = _ at hrun
    obtain ⟨⟨m₃, r₃⟩, hrun₃, hrun⟩ := Option.bind_eq_some_iff.mp hrun
    obtain ⟨⟨hsole, hchild⟩, htask₃, hlimit₃⟩ := copyMem_inherits hlaw₃ (hlimit cur hne ▸ hr.limit_le cur)
      (hlimit 0 hne0 ▸ hr.limit_zero) hn hcur hne hempty hrun₃
    have hsole' (hs : Sole m) : Sole m₃ := hsole ((hs.of_shrinks hev.shrinks).of_entry rfl)
    cases r₃ with
    | true =>
      obtain ⟨rfl, rfl⟩ := Prod.mk.inj (Option.some.inj hrun)
      refine ⟨⟨hsole', fun image hr' hi hclean j hj i hi' => ?_⟩, fun {n} hn' => ?_, fun {n} hn' => ?_, fun _ => ?_⟩
      · have hkeep' (j : ℕ) (hj : j < m.limit cur) (i : ℕ) (hi : i < copiedEntries cur) :=
          hkeep image _ (user_of_limit (hr.limit_le cur) hr.limit_zero hcur hj hi) (hclean j hj i hi)
        rw [← hlimit cur hne] at hj
        obtain ⟨hv, hc⟩ := hchild image hr' (fun j hj => hi j (hlimit cur hne ▸ hj))
          (fun j hj i hi => (hkeep' j (hlimit cur hne ▸ hj) i hi).2) j hj i hi'
        refine ⟨hv.trans ?_, hc⟩
        exact if_ctx_congr Iff.rfl (fun hlt => (hkeep' j (hlimit cur hne ▸ hj) i hlt).1) fun _ => rfl
      · rw [htask₃, htask n hn']
      · rw [hlimit₃, hlimit n hn']
      · rw [hlimit₃, hself]
    | false =>
      obtain ⟨m₄, hrun₄, heq⟩ := Option.map_eq_some_iff.mp hrun
      obtain ⟨rfl, rfl⟩ := Prod.mk.inj heq
      have hentry₄ : m₄.entry = (m₃.setTask nr none).entry := freePage_entry hrun₄
      have hsame₄ : m₄.task = update m₃.task nr none ∧ m₄.limit = m₃.limit := by
        unfold freePage at hrun₄
        split_ifs at hrun₄ <;> obtain rfl := Option.some.inj hrun₄ <;> exact ⟨rfl, rfl⟩
      refine ⟨⟨fun hs => (hsole' hs).of_entry hentry₄, nofun⟩, fun {n} hn' => ?_, fun {n} hn' => ?_, nofun⟩
      · rw [hsame₄.1, update_of_ne hn', htask₃, htask n hn']
      · rw [hsame₄.2, hlimit₃, hlimit n hn']

end Linux012.Paging
