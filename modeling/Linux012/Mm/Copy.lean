import Linux012.Mm.Tables

/-! # Swapping in and copying page tables

A page that comes back from swap space, and the copy of page tables for a fork: a page that is
present is shared read-only, and a swap page goes to the child while the parent gets its own
page.
-/

namespace Linux012.Paging

open Function Refs Mm

variable {U : ℕ → Bool} {held : ℕ → ℕ} {m m' m'' : Mm} {d t e p nr k : ℕ} {l l' : ℕ × ℕ}
  {image : ℕ × ℕ → Bytes} {b : ℕ → Bool}

section Moves

/-- The page `p` has been read from the swap page `nr`, which is freed. -/
def fetched (m : Mm) (t e nr p : ℕ) (b : ℕ → Bool) : Mm :=
  ({ m.readSwapPage nr p with swapBitmap := some (update b nr true) } : Mm).setEntry t e
    (.page p true true)

theorem fetched_entry (nr p : ℕ) (b : ℕ → Bool) (h : Law U held m) (hl : l ∈ places)
    (ht : m.pgDir l.1 = some t) :
    (fetched m t l.2 nr p b).entry = update m.entry l (.page p true true) :=
  h.entry_setEntry (mem_places.mp hl).1 ht l.2 _

theorem Law.fetch (h : Law U (update held p 1) m) (hh : held p = 0) (hl : l ∈ places)
    (ht : m.pgDir l.1 = some t) (he : m.entry l = .swapped nr) (hb : m.swapBitmap = some b)
    (h1 : m.memMap p = 1) (hlo : LOW_MEM ≤ p) (hhi : p < m.highMemory) :
    Law U held (fetched m t l.2 nr p b) := by
  have hU := (h.inUse hl he).1
  have hslot : m.slot l = some nr := by simp [slot, he]
  have hpage : m.ref (.entry l) = none := by simp [ref, he]
  have hheld : update (update held p 1) p 0 = held := by
    rw [update_idem, ← hh, update_eq_self]
  refine h.store hl (fetched_entry _ _ _ h hl ht) rfl rfl rfl rfl ?_ ?_ ?_ (fun q => ?_) h.quiet h.handed
  · have hgain := h.pages.gain (.refl _) (entry_mem_allPlaces.mpr hl) hpage hlo hhi h1 (update_self ..)
    rw [hheld] at hgain
    exact hgain
  · exact (h.slots.lose hl hslot).congr (inUse_of_set hb rfl)
  · intro b' x hb' hx
    obtain rfl := Option.some.inj hb'
    rcases eq_or_ne x nr with rfl | hne
    · exact hU
    · rw [update_of_ne hne] at hx
      exact h.bits hb hx
  · rcases eq_or_ne q p with rfl | hne
    · simp [hh]
    · have hle := h.held_le q
      rwa [update_of_ne hne] at hle

/-- A page that only a holder uses is at no address of a task. -/
theorem Law.unmapped (h : Law U held m) (hl : User l) (hlo : LOW_MEM ≤ p)
    (hc : m.memMap p ≤ held p) : (m.entry l).page? ≠ some p := by
  rcases hl with hl | ⟨hd, hl⟩
  · exact h.pages.unreferred hlo hc (entry_mem_allPlaces.mpr hl)
  · intro hp
    obtain ⟨d, e⟩ := l
    obtain rfl : d = 0 := hd
    exact absurd (h.kernelPage hl hp) hlo.not_gt

theorem fetched_keeps (h : Law U (update held p 1) m) (hl : l ∈ places) (ht : m.pgDir l.1 = some t)
    (he : m.entry l = .swapped nr) (h1 : m.memMap p = 1) (hlo : LOW_MEM ≤ p) (hl' : User l') :
    Keeps image l' m (fetched m t l.2 nr p b) := by
  have hentry := fetched_entry nr p b h hl ht
  have hbytes : ∀ q, (fetched m t l.2 nr p b).bytes q = update m.bytes p (m.swapDev nr) q :=
    fun _ => rfl
  rcases eq_or_ne l' l with rfl | hne
  · intro _
    have hentry' : (fetched m t l'.2 nr p b).entry l' = .page p true true := by
      rw [hentry, update_self]
    constructor
    · rw [view, view, hentry', he]
      simp only [hbytes, update_self]
    · intro q rw hq
      rw [hentry'] at hq
      cases hq
  · apply Keeps.of_same
    · rw [hentry, update_of_ne hne]
    · exact fun _ _ => rfl
    · intro q rw dirty hq
      have hqp : q ≠ p := by
        rintro rfl
        exact h.unmapped hl' hlo (by rw [h1, update_self]) (by simp [hq])
      rw [hbytes, update_of_ne hqp]

/-- A free swap page is given to an empty entry. -/
theorem Law.lend (h : Law U held m) (hl : l ∈ places) (ht : m.pgDir l.1 = some t)
    (he : m.entry l = .none) (hb : m.swapBitmap = some b) (hnr : b nr = true) :
    Law U held ({ m with swapBitmap := some (update b nr false) }.setEntry t l.2 (.swapped nr)) := by
  have hU := h.bits hb hnr
  have hslot : m.slot l = none := by simp [slot, he]
  have hpage : m.ref (.entry l) = none := by simp [ref, he]
  refine h.store hl (h.entry_setEntry (mem_places.mp hl).1 ht l.2 _) rfl rfl rfl rfl ?_ ?_ ?_
    h.held_le h.quiet h.handed
  · rw [Pte.page?_swapped, ← hpage, update_eq_self]
    exact h.pages
  · have hfree : ¬ m.InUse U nr := by simp [inUse_iff hb, hnr]
    exact (h.slots.gain hl hslot hfree).congr (inUse_of_clear hb hU rfl)
  · intro b' x hb' hx
    obtain rfl := Option.some.inj hb'
    rcases eq_or_ne x nr with rfl | hne
    · exact hU
    · rw [update_of_ne hne] at hx
      exact h.bits hb hx

/-- The bits of a present entry are changed. -/
theorem Law.reflag (h : Law U held m) (hl : l ∈ places) (ht : m.pgDir l.1 = some t)
    (hp : (m.entry l).page? = some p) (rw dirty : Bool) :
    Law U held (m.setEntry t l.2 (.page p rw dirty)) := by
  have hslot : m.slot l = none := by
    obtain ⟨rw', dirty', he⟩ := Pte.page?_eq_some.mp hp
    simp [slot, he]
  refine h.store hl (h.entry_setEntry (mem_places.mp hl).1 ht l.2 _) rfl rfl rfl rfl ?_ ?_
    h.bits h.held_le h.quiet h.handed
  · rw [Pte.page?_page, ← hp, ← ref_entry, update_eq_self]
    exact h.pages
  · rw [Pte.slot?_page, ← hslot, update_eq_self]
    exact h.slots

/-- The task of a page-table entry. -/
def Place.slot : Place → ℕ
  | .entry l => l.1 / TASK_DIRS
  | _ => 0

/-- A page is mapped at most once for each task. -/
theorem Law.refs_le (h : Law U held m) (hl : l ∈ places) (hp : (m.entry l).page? = some p)
    (hlo : LOW_MEM ≤ p) : refs allPlaces m.ref p ≤ NR_TASKS := by
  have hentry : ∀ i ∈ allPlaces, m.ref i = some p →
      ∃ l', i = .entry l' ∧ l'.1 % 16 = l.1 % 16 ∧ l'.2 = l.2 ∧ l'.1 < 1024 := by
    intro i hi hi'
    have halike := h.pages.alike_of hi (entry_mem_allPlaces.mpr hl) hi' hp hlo
    cases i with
    | entry l' =>
      have hd := mem_dirs.mp (mem_places.mp (entry_mem_allPlaces.mp hi)).1
      exact ⟨l', rfl, halike.1, halike.2, hd.2⟩
    | dir d => exact absurd halike (by simp [Alike])
    | task n => exact absurd halike (by simp [Alike])
  have hcard : refs allPlaces m.ref p ≤ (Finset.range NR_TASKS).card := by
    apply refs_le_card Place.slot
    · intro i hi hi'
      obtain ⟨l', rfl, -, -, hlt⟩ := hentry i hi hi'
      apply Finset.mem_range.mpr
      change l'.1 / 16 < 64
      omega
    · intro i hi j hj hi' hj' hk
      obtain ⟨l₁, rfl, hmod₁, hsnd₁, -⟩ := hentry i hi hi'
      obtain ⟨l₂, rfl, hmod₂, hsnd₂, -⟩ := hentry j hj hj'
      simp only [Place.slot, TASK_DIRS] at hk
      congr 1
      ext <;> omega
  rwa [Finset.card_range] at hcard

/-- An empty entry comes to share a page of the same address of another task. -/
theorem Law.share (h : Law U held m) (hl : l ∈ places) (hl' : l' ∈ places)
    (hmod : l.1 % 16 = l'.1 % 16) (hsnd : l.2 = l'.2) (ht : m.pgDir l'.1 = some t)
    (hp : (m.entry l).page? = some p) (he : m.entry l' = .none) (hlo : LOW_MEM ≤ p)
    (rw dirty : Bool) :
    Law U held ((m.setEntry t l'.2 (.page p rw dirty)).incCount p) := by
  have hslot : m.slot l' = none := by simp [slot, he]
  have hpage : m.ref (.entry l') = none := by simp [ref, he]
  have hcount : (m.memMap p + 1) % 256 = m.memMap p + 1 := by
    have hsum := h.pages.count_eq hlo (h.pages.lt (entry_mem_allPlaces.mpr hl) hp hlo)
    have hle := h.refs_le hl hp hlo
    have hheld := h.held_le p
    simp only [NR_TASKS, USED] at hle hheld
    omega
  refine h.store hl' (h.entry_setEntry (mem_places.mp hl').1 ht l'.2 _) rfl rfl rfl rfl ?_ ?_
    h.bits h.held_le h.quiet h.handed
  · have halike : Alike (.entry l) (.entry l') := ⟨hmod, hsnd⟩
    have hshare := h.pages.share Alike.symm Alike.trans halike (entry_mem_allPlaces.mpr hl)
      (entry_mem_allPlaces.mpr hl') hp hpage hlo
    rw [← hcount] at hshare
    exact hshare
  · rw [Pte.slot?_page, ← hslot, update_eq_self]
    exact h.slots

/-- An empty entry comes to map a page below 1 MB. -/
theorem Law.shareLow (h : Law U held m) (hl : l ∈ places) (ht : m.pgDir l.1 = some t)
    (he : m.entry l = .none) (hlo : p < LOW_MEM) (rw dirty : Bool) :
    Law U held (m.setEntry t l.2 (.page p rw dirty)) := by
  have hslot : m.slot l = none := by simp [slot, he]
  have hpage : m.ref (.entry l) = none := by simp [ref, he]
  refine h.store hl (h.entry_setEntry (mem_places.mp hl).1 ht l.2 _) rfl rfl rfl rfl ?_ ?_
    h.bits h.held_le h.quiet h.handed
  · exact h.pages.gainLow (entry_mem_allPlaces.mpr hl) hpage hlo
  · rw [Pte.slot?_page, ← hslot, update_eq_self]
    exact h.slots

end Moves

/-- A page got for an entry that names a swap page: the page is free to take and the entry is as
before. -/
theorem Got.spec (h : Got U held m m' p) :
    Evicts m m' ∧ Law U (update held p 1) m' ∧ held p = 0 ∧ m'.memMap p = 1 ∧ LOW_MEM ≤ p ∧
      p < m'.highMemory ∧ m'.table p = fun _ => .none := by
  obtain ⟨m₁, hev, hlaw, hlo, hhi, h0, rfl⟩ := h
  have hsum := hlaw.pages.count_eq hlo hhi
  exact ⟨hev.trans (hlaw.take_evicts hlo h0), hlaw.take hlo hhi h0, by omega, update_self .., hlo,
    hhi, update_self ..⟩

/-- The tables of every task stay where they are. -/
structure SameDirs (m m' : Mm) : Prop where
  pgDir : m'.pgDir = m.pgDir
  task : m'.task = m.task
  limit : m'.limit = m.limit

theorem swapIn_spec (h : Law U held m) (hl : l ∈ places) (ht : m.pgDir l.1 = some t) :
    ∃ m' r, m.swapIn t l.2 = some (m', r) ∧ Law U held m' ∧ SameDirs m m' := by
  have htab : m.entry l = m.table t l.2 := entry_of_dir ht l.2
  unfold swapIn
  cases hb : m.swapBitmap with
  | none => exact ⟨_, _, rfl, h.print (by simp) (by simp), ⟨rfl, rfl, rfl⟩⟩
  | some b₀ =>
    cases he : m.table t l.2 with
    | none => exact ⟨_, _, rfl, h.print (by simp) (by simp), ⟨rfl, rfl, rfl⟩⟩
    | page p rw dirty => exact ⟨_, _, rfl, h.print (by simp) (by simp), ⟨rfl, rfl, rfl⟩⟩
    | swapped nr =>
      rw [he] at htab
      obtain ⟨m', r, hrun, hres⟩ := getFreePage_spec h
      simp only [hrun, Option.map_some]
      cases r with
      | none => exact ⟨m', false, rfl, hres.2, ⟨hres.1.pgDir, hres.1.task, hres.1.limit⟩⟩
      | some p =>
        obtain ⟨hev, hlaw, hh, h1, hlo, hhi, -⟩ := hres.spec
        have ht' : m'.pgDir l.1 = some t := hev.pgDir ▸ ht
        have he' : m'.entry l = .swapped nr := (hev.entry_eq (by simp [htab])).trans htab
        obtain ⟨-, b, hb', hnr⟩ := hlaw.inUse hl he'
        refine ⟨fetched m' t l.2 nr p b, true, ?_, hlaw.fetch hh hl ht' he' hb' h1 hlo hhi,
          ⟨hev.pgDir, hev.task, hev.limit⟩⟩
        have hbit : (m'.readSwapPage nr p).swapBitmap = some b := hb'
        simp only [hbit, hnr]
        rfl

theorem setEntry_comm {t' : ℕ} (hne : t ≠ t') (e e' : ℕ) (v w : Pte) :
    (m.setEntry t e v).setEntry t' e' w = (m.setEntry t' e' w).setEntry t e v := by
  unfold setEntry
  simp only [update_of_ne hne, update_of_ne hne.symm]
  rw [update_comm hne]

/-- Only the table at the directory entry `td` and pages of the tasks are changed. -/
structure Fills (td : ℕ) (m m' : Mm) : Prop where
  pgDir : m'.pgDir = m.pgDir
  task : m'.task = m.task
  limit : m'.limit = m.limit
  fresh : m'.fresh = m.fresh
  keeps (image : ℕ × ℕ → Bytes) (l : ℕ × ℕ) : User l → l.1 ≠ td → Keeps image l m m'

theorem Fills.refl (td : ℕ) (m : Mm) : Fills td m m := ⟨rfl, rfl, rfl, rfl, fun image l _ _ => .refl image l m⟩

theorem Fills.trans {td : ℕ} (h : Fills td m m') (h' : Fills td m' m'') : Fills td m m'' where
  pgDir := h'.pgDir.trans h.pgDir
  task := h'.task.trans h.task
  limit := h'.limit.trans h.limit
  fresh := h'.fresh.trans h.fresh
  keeps image l hl hne := (h.keeps image l hl hne).trans (h'.keeps image l hl hne)

theorem Mm.Evicts.fills (td : ℕ) (h : Evicts m m') : Fills td m m' :=
  ⟨h.pgDir, h.task, h.limit, h.fresh, fun image l hl _ => h.keeps image l hl⟩

/-- A store into the table being filled. -/
theorem setEntry_fills (h : Law U held m) (hl : l ∈ places) (ht : m.pgDir l.1 = some t) (v : Pte) :
    Fills l.1 m (m.setEntry t l.2 v) := by
  refine ⟨rfl, rfl, rfl, rfl, fun image l' _ hne => ?_⟩
  have hne' : l' ≠ l := fun e => hne (congrArg Prod.fst e)
  refine .of_same ?_ (fun _ _ => rfl) fun _ _ _ _ => rfl
  rw [h.entry_setEntry (mem_places.mp hl).1 ht, update_of_ne hne']

/-- A present entry loses its write permission. -/
theorem reflag_fills (td : ℕ) (h : Law U held m) (hl : l ∈ places) (ht : m.pgDir l.1 = some t)
    {rw dirty : Bool} (he : m.entry l = .page p rw dirty) (rw' : Bool) :
    Fills td m (m.setEntry t l.2 (.page p rw' dirty)) := by
  have hentry := h.entry_setEntry (mem_places.mp hl).1 ht l.2 (.page p rw' dirty)
  refine ⟨rfl, rfl, rfl, rfl, fun image l' _ _ => ?_⟩
  rcases eq_or_ne l' l with rfl | hne
  · have hentry' : (m.setEntry t l'.2 (.page p rw' dirty)).entry l' = .page p rw' dirty := by
      rw [hentry, update_self]
    intro hc
    constructor
    · simp only [view, hentry', he]
      rfl
    · intro q w hq hlo
      rw [hentry'] at hq
      cases hq
      exact hc p rw he hlo
  · refine .of_same ?_ (fun _ _ => rfl) fun _ _ _ _ => rfl
    rw [hentry, update_of_ne hne]

section Copy

variable {fd td ft tt : ℕ}

/-- A table being copied: the new one is in the directory, for the same addresses of a task. -/
structure Copying (fd td ft tt : ℕ) (m : Mm) : Prop where
  from_ : m.pgDir fd = some ft
  to_ : m.pgDir td = some tt
  mem : td ∈ dirs
  ne : fd ≠ td
  mod : fd % 16 = td % 16

theorem Copying.of_fills (h : Copying fd td ft tt m) (hf : Fills d m m') :
    Copying fd td ft tt m' :=
  ⟨hf.pgDir ▸ h.from_, hf.pgDir ▸ h.to_, h.mem, h.ne, h.mod⟩

theorem Law.table_inj (h : Law U held m) (hc : Copying fd td ft tt m) : ft ≠ tt := by
  rintro rfl
  exact hc.ne (h.dir_inj hc.mem hc.to_ hc.from_)

/-- A swap page goes to the child, and the parent gets the page. -/
theorem copy_swapped (h : Law U (update held p 1) m) (hh : held p = 0)
    (hc : Copying fd td ft tt m) (hf : (fd, e) ∈ places) (ht : (td, e) ∈ places)
    (he : m.entry (fd, e) = .swapped nr) (hnone : m.entry (td, e) = .none) (h1 : m.memMap p = 1)
    (hlo : LOW_MEM ≤ p) (hhi : p < m.highMemory) :
    Law U held (((m.readSwapPage nr p).setEntry tt e (.swapped nr)).setEntry ft e (.page p true true)) ∧
      Fills td m (((m.readSwapPage nr p).setEntry tt e (.swapped nr)).setEntry ft e
        (.page p true true)) ∧
      ∀ i, i ≠ e → (((m.readSwapPage nr p).setEntry tt e (.swapped nr)).setEntry ft e
        (.page p true true)).entry (td, i) = m.entry (td, i) := by
  obtain ⟨-, b, hb, hnr⟩ := h.inUse hf he
  have hfetch := h.fetch hh hf hc.from_ he hb h1 hlo hhi
  have hentry₁ := fetched_entry nr p b h hf hc.from_
  have hnone₁ : (fetched m ft e nr p b).entry (td, e) = .none := by
    rw [hentry₁, update_of_ne (by simp [hc.ne.symm])]
    exact hnone
  have hlend := hfetch.lend ht hc.to_ hnone₁ rfl (update_self ..)
  have hbits : some (update (update b nr true) nr false) = m.swapBitmap := by
    rw [update_idem, ← hnr, update_eq_self, hb]
  have hstate : ({ fetched m ft e nr p b with
      swapBitmap := some (update (update b nr true) nr false) } : Mm).setEntry tt e (.swapped nr) =
      ((m.readSwapPage nr p).setEntry tt e (.swapped nr)).setEntry ft e (.page p true true) := by
    rw [hbits, setEntry_comm (h.table_inj hc).symm]
    rfl
  rw [hstate] at hlend
  have hentry : (((m.readSwapPage nr p).setEntry tt e (.swapped nr)).setEntry ft e
      (.page p true true)).entry = update (update m.entry (fd, e) (.page p true true)) (td, e)
        (.swapped nr) := by
    rw [← hstate, ← hentry₁]
    exact hfetch.entry_setEntry hc.mem hc.to_ e _
  refine ⟨hlend, ⟨rfl, rfl, rfl, rfl, fun image l hl hne => ?_⟩, fun i hi => ?_⟩
  · refine (fetched_keeps (b := b) h hf hc.from_ he h1 hlo hl).trans ?_
    refine .of_same ?_ (fun _ _ => rfl) fun _ _ _ _ => rfl
    rw [hentry, hentry₁, update_of_ne fun e => hne (congrArg Prod.fst e)]
  · rw [hentry, update_of_ne (by simp [hi]), update_of_ne (by simp [hc.ne.symm])]

/-- A page that is present is shared read-only. -/
theorem copy_page (h : Law U held m) (hc : Copying fd td ft tt m) (hf : (fd, e) ∈ places)
    (ht : (td, e) ∈ places) {rw dirty : Bool} (he : m.entry (fd, e) = .page p rw dirty)
    (hnone : m.entry (td, e) = .none) (hlo : LOW_MEM ≤ p) :
    Law U held (((m.setEntry tt e (.page p false dirty)).setEntry ft e (.page p false dirty)).incCount p) ∧
      Fills td m (((m.setEntry tt e (.page p false dirty)).setEntry ft e
        (.page p false dirty)).incCount p) ∧
      ∀ i, i ≠ e → (((m.setEntry tt e (.page p false dirty)).setEntry ft e
        (.page p false dirty)).incCount p).entry (td, i) = m.entry (td, i) := by
  have hp : (m.entry (fd, e)).page? = some p := by simp [he]
  have hshare := h.share hf ht hc.mod rfl hc.to_ hp hnone hlo false dirty
  have hentry₁ := h.entry_setEntry hc.mem hc.to_ e (.page p false dirty)
  have he₁ : (m.setEntry tt e (.page p false dirty)).entry (fd, e) = .page p rw dirty := by
    rw [hentry₁, update_of_ne (by simp [hc.ne])]
    exact he
  have hfills₁ : Fills td m ((m.setEntry tt e (.page p false dirty)).incCount p) :=
    ⟨rfl, rfl, rfl, rfl, (setEntry_fills h ht hc.to_ _).keeps⟩
  have hlaw := hshare.reflag hf hc.from_ (p := p) (congrArg Pte.page? he₁) false dirty
  have hfills := reflag_fills td hshare hf hc.from_ he₁ false
  have hentry := hshare.entry_setEntry (mem_places.mp hf).1 hc.from_ e (.page p false dirty)
  refine ⟨hlaw, hfills₁.trans hfills, fun i hi => ?_⟩
  refine (congrFun hentry (td, i)).trans ?_
  rw [update_of_ne (by simp [hc.ne.symm])]
  refine (congrFun hentry₁ (td, i)).trans ?_
  rw [update_of_ne (by simp [hi])]

theorem copyEntry_spec (h : Law U held m) (hc : Copying fd td ft tt m) (hu : User (fd, e))
    (hnone : m.entry (td, e) = .none) :
    ∃ m' r, m.copyEntry ft tt e = some (m', r) ∧ Law U held m' ∧ Fills td m m' ∧
      ∀ i, i ≠ e → m.entry (td, i) = .none → m'.entry (td, i) = .none := by
  have htab : m.entry (fd, e) = m.table ft e := entry_of_dir hc.from_ e
  have ht : (td, e) ∈ places := mem_places.mpr ⟨hc.mem, hu.lt⟩
  unfold copyEntry
  cases he : m.table ft e with
  | none => exact ⟨m, true, rfl, h, .refl td m, fun _ _ hi => hi⟩
  | swapped nr =>
    rw [he] at htab
    have hf : (fd, e) ∈ places := by
      refine mem_places.mpr ⟨?_, hu.lt⟩
      by_contra hd
      have hslot : m.slot (fd, e) = some nr := by simp [slot, htab]
      rw [h.kernelSlot hd] at hslot
      cases hslot
    obtain ⟨m', r, hrun, hres⟩ := getFreePage_spec h
    simp only [hrun, Option.map_some]
    cases r with
    | none =>
      obtain ⟨hev, hlaw⟩ := hres
      exact ⟨m', false, rfl, hlaw, hev.fills _, fun i _ hi => (hev.entry_eq (by simp [hi])).trans hi⟩
    | some p =>
      obtain ⟨hev, hlaw, hh, h1, hlo, hhi, -⟩ := hres.spec
      have he' : m'.entry (fd, e) = .swapped nr := (hev.entry_eq (by simp [htab])).trans htab
      have hnone' : m'.entry (td, e) = .none := (hev.entry_eq (by simp [hnone])).trans hnone
      obtain ⟨hlaw', hfills, hrest⟩ :=
        copy_swapped hlaw hh (hc.of_fills (hev.fills td)) hf ht he' hnone' h1 hlo hhi
      refine ⟨_, true, rfl, hlaw', (hev.fills _).trans hfills, fun i hi hi' => ?_⟩
      rw [hrest i hi, hev.entry_eq (by simp [hi']), hi']
  | page p rw dirty =>
    rw [he] at htab
    simp only
    split_ifs with hlo
    · have hf : (fd, e) ∈ places := by
        rcases hu with hf | ⟨hd, he'⟩
        · exact hf
        · obtain rfl : fd = 0 := hd
          exact absurd (h.kernelPage he' (by simp [htab])) hlo.not_gt
      obtain ⟨hlaw, hfills, hrest⟩ := copy_page h hc hf ht htab hnone hlo
      exact ⟨_, true, rfl, hlaw, hfills, fun i hi hi' => (hrest i hi).trans hi'⟩
    · refine ⟨_, true, rfl, h.shareLow ht hc.to_ hnone (not_le.mp hlo) false dirty,
        setEntry_fills h ht hc.to_ _, fun i hi hi' => ?_⟩
      refine (congrFun (h.entry_setEntry hc.mem hc.to_ e _) (td, i)).trans ?_
      rw [update_of_ne (by simp [hi])]
      exact hi'

/-- The entries that the inner loop has not reached stay empty. -/
theorem copyEntries_spec (h : Law U held m) (hc : Copying fd td ft tt m)
    (hu : ∀ i, i < e + k → User (fd, i))
    (hnone : ∀ i, e ≤ i → i < e + k → m.entry (td, i) = .none) :
    ∃ m' r, copyEntries ft tt k e m = some (m', r) ∧ Law U held m' ∧ Fills td m m' := by
  induction k generalizing m e with
  | zero => exact ⟨m, true, rfl, h, .refl td m⟩
  | succ k ih =>
    obtain ⟨m₁, r, hrun₁, hlaw₁, hfills₁, hrest⟩ :=
      copyEntry_spec h hc (hu e (by omega)) (hnone e le_rfl (by omega))
    unfold copyEntries
    rw [hrun₁]
    cases r with
    | false => exact ⟨m₁, false, rfl, hlaw₁, hfills₁⟩
    | true =>
      obtain ⟨m', r, hrun, hlaw, hfills⟩ := ih (e := e + 1) hlaw₁ (hc.of_fills hfills₁)
        (fun i hi => hu i (by omega))
        fun i hi hi' => hrest i (by omega) (hnone i (by omega) (by omega))
      exact ⟨m', r, hrun, hlaw, hfills₁.trans hfills⟩

/-- An empty table is put into the directory. -/
theorem Law.addDir (h : Law U (update held p 1) m) (hh : held p = 0) (hd : d ∈ dirs)
    (hnone : m.pgDir d = none) (hempty : m.table p = fun _ => .none) (h1 : m.memMap p = 1)
    (hlo : LOW_MEM ≤ p) (hhi : p < m.highMemory) : Law U held (m.setDir d (some p)) := by
  have hentry : ∀ l : ℕ × ℕ, (m.setDir d (some p)).entry l = m.entry l := by
    intro l
    by_cases hne : l.1 = d
    · obtain ⟨d', e⟩ := l
      obtain rfl : d' = d := hne
      calc (m.setDir d' (some p)).entry (d', e) = m.table p e := entry_of_dir (update_self ..) e
        _ = .none := congrFun hempty e
        _ = m.entry (d', e) := (entry_of_no_dir (l := (d', e)) hnone).symm
    · exact entry_setDir_of_ne hne
  have hheld : update (update held p 1) p 0 = held := by
    rw [update_idem, ← hh, update_eq_self]
  have hpages := h.pages.gain (.refl _) (dir_mem_allPlaces.mpr hd) hnone hlo hhi h1 (update_self ..)
  rw [hheld] at hpages
  have hnew : ∀ {d' t'}, update m.pgDir d (some p) d' = some t' →
      d' = d ∧ t' = p ∨ m.pgDir d' = some t' := by
    intro d' t' ht'
    rcases eq_or_ne d' d with rfl | hne
    · rw [update_self] at ht'
      exact Or.inl ⟨rfl, (Option.some.inj ht').symm⟩
    · exact Or.inr (by rwa [update_of_ne hne] at ht')
  exact {
    pages := by
      apply hpages.congr
      intro i hi
      cases i with
      | entry l =>
        rw [update_of_ne (by simp)]
        exact congrArg Pte.page? (hentry l).symm
      | dir d' =>
        rcases eq_or_ne d' d with rfl | hne
        · simp [ref, setDir]
        · simp [ref, setDir, hne]
      | task n => simp [ref, setDir]
    slots := h.slots.congr_place fun l _ => congrArg Pte.slot? (hentry l).symm
    bits := h.bits
    range := h.range
    held_le := fun q => by
      rcases eq_or_ne q p with rfl | hne
      · simp [hh]
      · have hle := h.held_le q
        rwa [update_of_ne hne] at hle
    high_le := h.high_le
    dirPage := fun hd' ht' => by
      rcases hnew ht' with ⟨-, rfl⟩ | ht'
      · exact hlo
      · exact h.dirPage hd' ht'
    taskPage := h.taskPage
    kernelDir := fun hd' ht' => by
      rcases hnew ht' with ⟨rfl, -⟩ | ht'
      · exact absurd hd hd'
      · exact h.kernelDir hd' ht'
    kernelSlot := fun hl => (congrArg Pte.slot? (hentry _)).trans (h.kernelSlot hl)
    kernelPage := fun he hq => h.kernelPage he (hentry _ ▸ hq)
    cursor := h.cursor
    quiet := h.quiet
    handed := h.handed }

/-- Tables have been added at the directory entries `T`, in pages that were free before. -/
structure Copies (held : ℕ → ℕ) (T : ℕ → Prop) (m m' : Mm) : Prop where
  pgDir {d : ℕ} : ¬ T d → m'.pgDir d = m.pgDir d
  grows {d t : ℕ} : m.pgDir d = some t → m'.pgDir d = some t
  task : m'.task = m.task
  limit : m'.limit = m.limit
  fresh {p : ℕ} : p ∈ m'.fresh → p ∈ m.fresh ∨ held p = 0 ∧ ∃ d, T d ∧ m'.pgDir d = some p
  keeps (image : ℕ × ℕ → Bytes) (l : ℕ × ℕ) : User l → ¬ T l.1 → Keeps image l m m'

variable {T T' : ℕ → Prop}

theorem Copies.refl (held : ℕ → ℕ) (T : ℕ → Prop) (m : Mm) : Copies held T m m where
  pgDir _ := rfl
  grows ht := ht
  task := rfl
  limit := rfl
  fresh hp := Or.inl hp
  keeps image l _ _ := .refl image l m

theorem Copies.trans (h : Copies held T m m') (h' : Copies held T m' m'') :
    Copies held T m m'' where
  pgDir hd := (h'.pgDir hd).trans (h.pgDir hd)
  grows ht := h'.grows (h.grows ht)
  task := h'.task.trans h.task
  limit := h'.limit.trans h.limit
  fresh hp := by
    rcases h'.fresh hp with hp' | hnew
    · rcases h.fresh hp' with hp'' | ⟨hh, d, hd, ht⟩
      · exact Or.inl hp''
      · exact Or.inr ⟨hh, d, hd, h'.grows ht⟩
    · exact Or.inr hnew
  keeps image l hl hT := (h.keeps image l hl hT).trans (h'.keeps image l hl hT)

theorem Copies.mono (h : Copies held T m m') (hT : ∀ d, T d → T' d) : Copies held T' m m' where
  pgDir hd := h.pgDir fun hd' => hd (hT _ hd')
  grows := h.grows
  task := h.task
  limit := h.limit
  fresh hp := (h.fresh hp).imp_right fun ⟨hh, d, hd, ht⟩ => ⟨hh, d, hT d hd, ht⟩
  keeps image l hl hd := h.keeps image l hl fun hd' => hd (hT _ hd')

theorem Fills.copies (h : Fills td m m') : Copies held (· = td) m m' where
  pgDir _ := by rw [h.pgDir]
  grows ht := by rwa [h.pgDir]
  task := h.task
  limit := h.limit
  fresh hp := Or.inl (h.fresh ▸ hp)
  keeps image l hl hne := h.keeps image l hl hne

theorem Mm.Evicts.copies (h : Evicts m m') : Copies held T m m' where
  pgDir _ := by rw [h.pgDir]
  grows ht := by rwa [h.pgDir]
  task := h.task
  limit := h.limit
  fresh hp := Or.inl (h.fresh ▸ hp)
  keeps image l hl _ := h.keeps image l hl

/-- `copy_page_tables` ends without a panic where the child has no table yet. -/
theorem copyDirs_spec (fd td : ℕ) {cnt : ℕ} (h : Law U held m) (hlo : 16 ≤ td) (hhi : td + k ≤ 1024)
    (hmod : fd % 16 = td % 16) (hdis : fd + k ≤ td ∨ td + k ≤ fd)
    (hu : ∀ j i, j < k → i < cnt → User (fd + j, i))
    (hnone : ∀ i, td ≤ i → i < td + k → m.pgDir i = none) :
    ∃ m' r, copyDirs cnt k fd td m = some (m', r) ∧ Law U held m' ∧
      Copies held (fun i => td ≤ i ∧ i < td + k) m m' := by
  induction k generalizing m fd td with
  | zero => exact ⟨m, true, rfl, h, .refl held _ m⟩
  | succ k ih =>
    have hd : td ∈ dirs := mem_dirs.mpr ⟨hlo, by omega⟩
    have hnone₀ : m.pgDir td = none := hnone td le_rfl (by omega)
    have hnext : ∀ j i, j < k → i < cnt → User (fd + 1 + j, i) := fun j i hj hi => by
      have hju := hu (j + 1) i (by omega) hi
      rwa [show fd + (j + 1) = fd + 1 + j by omega] at hju
    unfold copyDirs
    rw [hnone₀, if_neg (by simp)]
    cases hf : m.pgDir fd with
    | none =>
      obtain ⟨m', r, hrun, hlaw, hcop⟩ := ih (m := m) (fd + 1) (td + 1) h
        (by omega) (by omega) (by omega) (by omega) hnext fun i hi hi' => hnone i (by omega) (by omega)
      exact ⟨m', r, hrun, hlaw, hcop.mono fun i hi => by omega⟩
    | some ft =>
      obtain ⟨m₁, r, hrun₁, hres⟩ := getFreePage_spec h
      simp only [hrun₁, Option.bind_some]
      cases r with
      | none => exact ⟨m₁, false, rfl, hres.2, hres.1.copies⟩
      | some tt =>
        obtain ⟨hev, hlaw₁, hh, h1, hlot, hhit, hempty⟩ := hres.spec
        have hnone₁ : m₁.pgDir td = none := by rw [hev.pgDir, hnone₀]
        have hne : fd ≠ td := by omega
        have hlaw₂ := hlaw₁.addDir hh hd hnone₁ hempty h1 hlot hhit
        have hlaw₃ : Law U held { m₁.setDir td (some tt) with fresh := tt :: m₁.fresh } :=
          hlaw₂.of_same rfl rfl rfl rfl rfl rfl hlaw₂.cursor hlaw₂.quiet hlaw₂.handed
        have hcop₃ : Copies held (· = td) m₁
            { m₁.setDir td (some tt) with fresh := tt :: m₁.fresh } := by
          refine ⟨fun hd' => update_of_ne hd' .., fun {d' t'} ht' => ?_, rfl, rfl, fun hp => ?_,
            fun image l _ hne => ?_⟩
          · have hne' : d' ≠ td := by
              rintro rfl
              rw [hnone₁] at ht'
              cases ht'
            exact (update_of_ne hne' ..).trans ht'
          · rcases List.mem_cons.mp hp with rfl | hp
            · exact Or.inr ⟨hh, td, rfl, update_self ..⟩
            · exact Or.inl hp
          · exact .of_same (entry_setDir_of_ne hne) (fun _ _ => rfl) fun _ _ _ _ => rfl
        have hc : Copying fd td ft tt { m₁.setDir td (some tt) with fresh := tt :: m₁.fresh } := by
          refine ⟨(update_of_ne hne ..).trans ?_, update_self .., hd, hne, hmod⟩
          rw [hev.pgDir, hf]
        obtain ⟨m₄, r, hrun₄, hlaw₄, hfills⟩ := copyEntries_spec (e := 0) (k := cnt) hlaw₃ hc
          (fun i hi => hu 0 i (by omega) (by omega))
          fun i _ _ => (entry_of_dir (update_self ..) i).trans (congrFun hempty i)
        have hcop₄ : Copies held (· = td) m m₄ := (hev.copies.trans hcop₃).trans hfills.copies
        simp only [hrun₄, Option.bind_some]
        cases r with
        | false => exact ⟨m₄, false, rfl, hlaw₄, hcop₄.mono fun i hi => by omega⟩
        | true =>
          obtain ⟨m', r, hrun, hlaw, hcop⟩ := ih (m := m₄) (fd + 1) (td + 1) hlaw₄
            (by omega) (by omega) (by omega) (by omega) hnext fun i hi hi' => by
              rw [hcop₄.pgDir (by omega)]
              exact hnone i (by omega) (by omega)
          refine ⟨m', r, hrun, hlaw, ?_⟩
          exact (hcop₄.mono fun i hi => by omega).trans (hcop.mono fun i hi => by omega)

end Copy

end Linux012.Paging
