import Linux012.Mm.Law

/-! # Swapping out and getting a free page

What `swap_out` may do to the entries of the page tables, and that `get_free_page` ends without
a panic, keeps the law and leaves what is read at every address as it was, as long as the pages
it drops are the ones that a page fault brings back.
-/

namespace Linux012.Paging

open Function Refs

variable {U : ℕ → Bool} {held : ℕ → ℕ} {m m' m'' : Mm} {d t e p nr : ℕ} {l : ℕ × ℕ}
  {image : ℕ × ℕ → Bytes}

namespace Mm

/-- What is read at an address, with the page that `do_no_page` brings in for an empty entry. -/
def view (image : ℕ × ℕ → Bytes) (m : Mm) (l : ℕ × ℕ) : Bytes :=
  match m.entry l with
  | .none => image l
  | .swapped nr => m.swapDev nr
  | .page p _ _ => m.bytes p

/-- An address of a task; task 0 has its first 640 kB. -/
def User (l : ℕ × ℕ) : Prop := l ∈ places ∨ l.1 = 0 ∧ l.2 < 0xA0

theorem User.lt {l : ℕ × ℕ} (h : User l) : l.2 < 1024 := by
  rcases h with h | ⟨-, h⟩
  · exact (mem_places.mp h).2
  · omega

/-- A page that is not marked dirty holds what `do_no_page` brings in. -/
def Clean (image : ℕ × ℕ → Bytes) (m : Mm) (l : ℕ × ℕ) : Prop :=
  ∀ p rw, m.entry l = .page p rw false → LOW_MEM ≤ p → m.bytes p = image l

/-- The same is read at an address before and after. -/
def Keeps (image : ℕ × ℕ → Bytes) (l : ℕ × ℕ) (m m' : Mm) : Prop :=
  m.Clean image l → m'.view image l = m.view image l ∧ m'.Clean image l

theorem Keeps.refl (image : ℕ × ℕ → Bytes) (l : ℕ × ℕ) (m : Mm) : m.Keeps image l m :=
  fun h => ⟨rfl, h⟩

theorem Keeps.trans (h : Keeps image l m m') (h' : Keeps image l m' m'') : Keeps image l m m'' := by
  intro hc
  obtain ⟨hv, hc'⟩ := h hc
  obtain ⟨hv', hc''⟩ := h' hc'
  exact ⟨hv'.trans hv, hc''⟩

/-- An address whose entry and page are left alone. -/
theorem Keeps.of_same (he : m'.entry l = m.entry l)
    (hs : ∀ nr, m.entry l = .swapped nr → m'.swapDev nr = m.swapDev nr)
    (hp : ∀ p rw dirty, m.entry l = .page p rw dirty → m'.bytes p = m.bytes p) :
    Keeps image l m m' := by
  intro hc
  unfold view Clean
  rw [he]
  constructor
  · cases hl : m.entry l with
    | none => rfl
    | swapped nr => exact hs nr hl
    | page p rw dirty => exact hp p rw dirty hl
  · intro p rw hl hlo
    rw [hp p rw false hl]
    exact hc p rw hl hlo

/-- Some pages of the tasks are swapped out or dropped. -/
structure Evicts (m m' : Mm) : Prop where
  pgDir : m'.pgDir = m.pgDir
  task : m'.task = m.task
  limit : m'.limit = m.limit
  fresh : m'.fresh = m.fresh
  highMemory : m'.highMemory = m.highMemory
  entry (l : ℕ × ℕ) : m'.entry l = m.entry l ∨ (m.entry l).page? ≠ none ∧ (m'.entry l).page? = none
  keeps (image : ℕ × ℕ → Bytes) (l : ℕ × ℕ) : User l → Keeps image l m m'

theorem Evicts.refl (m : Mm) : Evicts m m where
  pgDir := rfl
  task := rfl
  limit := rfl
  fresh := rfl
  highMemory := rfl
  entry _ := Or.inl rfl
  keeps image l _ := .refl image l m

theorem Evicts.trans (h : Evicts m m') (h' : Evicts m' m'') : Evicts m m'' where
  pgDir := h'.pgDir.trans h.pgDir
  task := h'.task.trans h.task
  limit := h'.limit.trans h.limit
  fresh := h'.fresh.trans h.fresh
  highMemory := h'.highMemory.trans h.highMemory
  entry l := by
    rcases h.entry l with he | ⟨hp, hp'⟩
    · rcases h'.entry l with he' | ⟨hq, hq'⟩
      · exact Or.inl (he'.trans he)
      · exact Or.inr ⟨he ▸ hq, hq'⟩
    · rcases h'.entry l with he' | ⟨hq, -⟩
      · exact Or.inr ⟨hp, he' ▸ hp'⟩
      · exact absurd hp' hq
  keeps image l hl := (h.keeps image l hl).trans (h'.keeps image l hl)

/-- An entry that maps no page stays as it is. -/
theorem Evicts.entry_eq (h : Evicts m m') (hl : (m.entry l).page? = none) :
    m'.entry l = m.entry l := by
  rcases h.entry l with he | ⟨hp, -⟩
  · exact he
  · exact absurd hl hp

end Mm

open Mm

theorem findSwapPage_spec {b : ℕ → Bool} {k x : ℕ} (h : findSwapPage b k nr = some x) :
    b x = true := by
  induction k generalizing nr with
  | zero => cases h
  | succ k ih =>
    unfold findSwapPage at h
    split_ifs at h with hb
    · rwa [← Option.some.inj h]
    · exact ih h

/-- The number of entries that map a page. -/
def present (m : Mm) : ℕ := (places.filter fun l => (m.entry l).page? ≠ none).card

theorem present_lt (hl : l ∈ places) (hp : (m.entry l).page? ≠ none) {v : Pte}
    (hv : v.page? = none) (he : m'.entry = update m.entry l v) : present m' < present m := by
  apply Finset.card_lt_card
  apply Finset.ssubset_iff_of_subset _ |>.mpr
  · refine ⟨l, by simp [hl, hp], ?_⟩
    simp [he, hv]
  · intro l' hl'
    obtain ⟨hL, hp'⟩ := Finset.mem_filter.mp hl'
    have hne : l' ≠ l := by
      rintro rfl
      simp [he, hv] at hp'
    rw [he, update_of_ne hne] at hp'
    exact Finset.mem_filter.mpr ⟨hL, hp'⟩

theorem freePage_eq (hlo : LOW_MEM ≤ p) (hhi : p < m.highMemory) (h0 : m.memMap p ≠ 0) :
    m.freePage p = some (m.setCount p (m.memMap p - 1)) := by
  unfold freePage
  rw [if_neg hlo.not_gt, if_neg hhi.not_ge, if_neg h0]

theorem freePage_low (hlo : p < LOW_MEM) : m.freePage p = some m := if_pos hlo

/-- A page that is referred to has a count. -/
theorem Law.count_pos (h : Law U held m) {i : Place} (hi : i ∈ allPlaces) (hp : m.ref i = some p)
    (hlo : LOW_MEM ≤ p) : m.memMap p ≠ 0 := by
  have hc := h.pages.count_eq hlo (h.pages.lt hi hp hlo)
  have hpos := refs_pos hi hp
  omega

/-- A page with one reference is mapped at one address only. -/
theorem Law.sole (h : Law U held m) {i j : Place} (hi : i ∈ allPlaces) (hj : j ∈ allPlaces)
    (hp : m.ref i = some p) (hq : m.ref j = some p) (hlo : LOW_MEM ≤ p) (h1 : m.memMap p = 1) :
    i = j := by
  have hc := h.pages.count_eq hlo (h.pages.lt hi hp hlo)
  exact eq_of_refs_le_one (by omega) hi hj hp hq

/-- An entry is emptied and its page freed. -/
theorem Law.drop (h : Law U held m) (hl : l ∈ places) (ht : m.pgDir l.1 = some t)
    (hp : (m.entry l).page? = some p) (hlo : LOW_MEM ≤ p) :
    Law U held ((m.setEntry t l.2 .none).setCount p (m.memMap p - 1)) := by
  have hslot : m.slot l = none := by
    obtain ⟨rw, dirty, he⟩ := Pte.page?_eq_some.mp hp
    simp [slot, he]
  refine h.store hl (h.entry_setEntry (mem_places.mp hl).1 ht l.2 .none) rfl rfl rfl rfl ?_ ?_
    h.bits h.held_le h.quiet h.handed
  · exact h.pages.lose (entry_mem_allPlaces.mpr hl) hp hlo
  · rw [Pte.slot?_none, ← hslot, update_eq_self]
    exact h.slots

theorem drop_evicts (h : Law U held m) (hl : l ∈ places) (ht : m.pgDir l.1 = some t) {rw : Bool}
    (he : m.entry l = .page p rw false) (hlo : LOW_MEM ≤ p) (n : ℕ) :
    Evicts m ((m.setEntry t l.2 .none).setCount p n) := by
  have hentry := h.entry_setEntry (mem_places.mp hl).1 ht l.2 .none
  refine ⟨rfl, rfl, rfl, rfl, rfl, fun l' => ?_, fun image l' _ => ?_⟩
  · change (m.setEntry t l.2 .none).entry l' = _ ∨ _ ∧ ((m.setEntry t l.2 .none).entry l').page? = _
    rcases eq_or_ne l' l with rfl | hne
    · rw [hentry, update_self, he]
      simp
    · rw [hentry, update_of_ne hne]
      simp
  · rcases eq_or_ne l' l with rfl | hne
    · intro hc
      have hentry' : ((m.setEntry t l'.2 .none).setCount p n).entry l' = .none :=
        (congrFun hentry l').trans (update_self ..)
      constructor
      · rw [view, view, hentry', he]
        exact (hc p rw he hlo).symm
      · intro q rw' hq
        rw [hentry'] at hq
        cases hq
    · apply Keeps.of_same
      · exact (congrFun hentry l').trans (update_of_ne hne ..)
      · exact fun _ _ => rfl
      · exact fun _ _ _ _ => rfl

/-- A page is written to the swap page `nr`. -/
def swapped (m : Mm) (t e p nr : ℕ) (b : ℕ → Bool) : Mm :=
  ((({ m with
    swapBitmap := some (update b nr false)
    handed := (nr, m.entry) :: m.handed } : Mm).setEntry t e (.swapped nr)).writeSwapPage nr p).setCount p 0

section Swapped

variable {b : ℕ → Bool}

theorem swapped_entry (p nr : ℕ) (b : ℕ → Bool) (h : Law U held m) (hl : l ∈ places)
    (ht : m.pgDir l.1 = some t) :
    (swapped m t l.2 p nr b).entry = update m.entry l (.swapped nr) :=
  h.entry_setEntry (mem_places.mp hl).1 ht l.2 (.swapped nr)

/-- A free swap page is named by no entry. -/
theorem Law.slot_ne (h : Law U held m) (hb : m.swapBitmap = some b) (hnr : b nr = true)
    {l : ℕ × ℕ} (hl : l.2 < 1024) : m.slot l ≠ some nr := by
  intro hs
  by_cases hd : l.1 ∈ dirs
  · have hused := h.slots.used_of (mem_places.mpr ⟨hd, hl⟩) hs
    rw [inUse_iff hb] at hused
    simp [hnr] at hused
  · simp [h.kernelSlot hd] at hs

theorem Law.swapped (h : Law U held m) (hl : l ∈ places) (ht : m.pgDir l.1 = some t)
    (hp : (m.entry l).page? = some p) (hlo : LOW_MEM ≤ p) (h1 : m.memMap p = 1)
    (hb : m.swapBitmap = some b) (hnr : b nr = true) :
    Law U held (swapped m t l.2 p nr b) := by
  have hU := h.bits hb hnr
  have hslot : m.slot l = none := by
    obtain ⟨rw, dirty, he⟩ := Pte.page?_eq_some.mp hp
    simp [slot, he]
  refine h.store hl (swapped_entry _ _ _ h hl ht) rfl rfl rfl rfl ?_ ?_ ?_ h.held_le h.quiet ?_
  · have hlose := h.pages.lose (entry_mem_allPlaces.mpr hl) hp hlo
    rw [h1] at hlose
    exact hlose
  · have hfree : ¬ m.InUse U nr := by simp [inUse_iff hb, hnr]
    exact (h.slots.gain hl hslot hfree).congr (inUse_of_clear hb hU rfl)
  · intro b' x hb' hx
    obtain rfl := Option.some.inj hb'
    rcases eq_or_ne x nr with rfl | hne
    · exact hU
    · rw [update_of_ne hne] at hx
      exact h.bits hb hx
  · intro x hx
    rcases List.mem_cons.mp hx with rfl | hx
    · exact ⟨hU, fun l' hl' => h.slot_ne hb hnr hl'⟩
    · exact h.handed x hx

theorem swapped_evicts (h : Law U held m) (hl : l ∈ places) (ht : m.pgDir l.1 = some t) {rw : Bool}
    (he : m.entry l = .page p rw true) (hb : m.swapBitmap = some b) (hnr : b nr = true) :
    Evicts m (swapped m t l.2 p nr b) := by
  have hentry := swapped_entry p nr b h hl ht
  refine ⟨rfl, rfl, rfl, rfl, rfl, fun l' => ?_, fun image l' hl' => ?_⟩
  · rcases eq_or_ne l' l with rfl | hne
    · rw [hentry, update_self, he]
      simp
    · rw [hentry, update_of_ne hne]
      simp
  · have hdev : ∀ x, (swapped m t l.2 p nr b).swapDev x = update m.swapDev nr (m.bytes p) x :=
      fun _ => rfl
    rcases eq_or_ne l' l with rfl | hne
    · intro _
      have hentry' : (swapped m t l'.2 p nr b).entry l' = .swapped nr := by rw [hentry, update_self]
      constructor
      · rw [view, view, hentry', he]
        simp only [hdev, update_self]
      · intro q rw' hq
        rw [hentry'] at hq
        cases hq
    · apply Keeps.of_same
      · rw [hentry, update_of_ne hne]
      · intro x hx
        have hxn : x ≠ nr := by
          rintro rfl
          exact h.slot_ne hb hnr hl'.lt (by simp [slot, hx])
        rw [hdev, update_of_ne hxn]
      · exact fun _ _ _ _ => rfl

end Swapped

theorem tryToSwapOut_spec (h : Law U held m) (hl : l ∈ places) (ht : m.pgDir l.1 = some t) :
    m.tryToSwapOut t l.2 = some (m, false) ∨
      ∃ m', m.tryToSwapOut t l.2 = some (m', true) ∧ Law U held m' ∧ Evicts m m' ∧
        present m' < present m := by
  unfold tryToSwapOut
  have htab : m.entry l = m.table t l.2 := entry_of_dir ht l.2
  cases he : m.table t l.2 with
  | none => exact Or.inl rfl
  | swapped nr => exact Or.inl rfl
  | page p rw dirty =>
    rw [he] at htab
    have hp : (m.entry l).page? = some p := by simp [htab]
    have hpres : (m.entry l).page? ≠ none := by simp [htab]
    simp only
    by_cases hrange : p < LOW_MEM ∨ LOW_MEM + PAGING_PAGES ≤ p
    · rw [if_pos hrange]
      exact Or.inl rfl
    · rw [if_neg hrange]
      have hlo : LOW_MEM ≤ p := by omega
      have hhi : p < m.highMemory := h.pages.lt (entry_mem_allPlaces.mpr hl) hp hlo
      have hpos := h.count_pos (entry_mem_allPlaces.mpr hl) hp hlo
      cases dirty with
      | false =>
        right
        have hfree : (m.setEntry t l.2 .none).freePage p =
            some ((m.setEntry t l.2 .none).setCount p (m.memMap p - 1)) :=
          freePage_eq hlo hhi hpos
        refine ⟨_, by simp [hfree], h.drop hl ht hp hlo, drop_evicts h hl ht htab hlo _, ?_⟩
        exact present_lt hl hpres rfl (h.entry_setEntry (mem_places.mp hl).1 ht l.2 .none)
      | true =>
        by_cases h1 : m.memMap p = 1
        · rw [if_pos rfl, if_neg (not_not.mpr h1)]
          unfold getSwapPage
          cases hb : m.swapBitmap with
          | none => exact Or.inl rfl
          | some b =>
            cases hf : findSwapPage b (SWAP_BITS - 1) 1 with
            | none =>
              left
              simp only [Option.bind_some, hf, Option.map_none]
            | some nr =>
              right
              have hnr := findSwapPage_spec hf
              refine ⟨swapped m t l.2 p nr b, ?_, h.swapped hl ht hp hlo h1 hb hnr,
                swapped_evicts h hl ht htab hb hnr, present_lt hl hpres rfl (swapped_entry _ _ _ h hl ht)⟩
              have hfree : ((({ m with
                  swapBitmap := some (update b nr false)
                  handed := (nr, m.entry) :: m.handed } : Mm).setEntry t l.2
                    (.swapped nr)).writeSwapPage nr p).freePage p = some (swapped m t l.2 p nr b) := by
                rw [freePage_eq hlo (by exact hhi) (by exact hpos)]
                simp [swapped, writeSwapPage, setEntry, h1]
              simp only [Option.bind_some, hf, Option.map_some, hfree]
        · rw [if_pos rfl, if_pos h1]
          exact Or.inl rfl

section Cursor

theorem nextDir_mem (hd : d ∈ dirs) : nextDir d ∈ dirs := by
  rw [mem_dirs] at *
  simp only [nextDir, FIRST_VM_DIR]
  split_ifs <;> omega

theorem seekDir_spec (hd : d ∈ dirs) (k : ℕ) :
    (m.seekDir k d).1 ∈ dirs ∧ ((m.seekDir k d).2 ≠ 0 → (m.pgDir (m.seekDir k d).1).isSome) := by
  induction k generalizing d with
  | zero => exact ⟨hd, fun h => absurd rfl h⟩
  | succ k ih =>
    unfold seekDir
    split_ifs with hp
    · exact ⟨hd, fun _ => hp⟩
    · exact ih (nextDir_mem hd)

theorem repeatDir_spec (hd : d ∈ dirs) (k c : ℕ) :
    (m.repeatDir k d c).1 ∈ dirs ∧
      ((m.repeatDir k d c).2.isSome → (m.pgDir (m.repeatDir k d c).1).isSome) := by
  induction k generalizing d c with
  | zero => exact ⟨hd, fun h => by cases h⟩
  | succ k ih =>
    unfold repeatDir
    split_ifs with hp hc
    · exact ⟨nextDir_mem hd, fun _ => hp⟩
    · exact ⟨nextDir_mem hd, fun h => by cases h⟩
    · exact ih (nextDir_mem hd) _

/-- The cursors of `swap_out` are moved. -/
def moveTo (m : Mm) (d e : ℕ) : Mm := { m with dirEntry := d, nextEntry := e }

theorem Law.moveTo (h : Law U held m) (hd : d ∈ dirs) (e : ℕ) : Law U held (moveTo m d e) :=
  h.of_same rfl rfl rfl rfl rfl rfl hd h.quiet h.handed

theorem moveTo_evicts (m : Mm) (d e : ℕ) : Evicts m (moveTo m d e) where
  pgDir := rfl
  task := rfl
  limit := rfl
  fresh := rfl
  highMemory := rfl
  entry _ := Or.inl rfl
  keeps _ _ _ := .of_same rfl (fun _ _ => rfl) fun _ _ _ _ => rfl

theorem advance_spec (hd : m.dirEntry ∈ dirs) (hdir : (m.pgDir m.dirEntry).isSome) (c : ℕ) :
    ∃ d e c', m.advance c = (moveTo m d (e + 1), c') ∧ d ∈ dirs ∧ e < 1024 ∧
      (c'.isSome → (m.pgDir d).isSome) := by
  unfold advance
  split_ifs with hn
  · exact ⟨m.dirEntry, m.nextEntry, some c, rfl, hd, hn, fun _ => hdir⟩
  · obtain ⟨hmem, hsome⟩ := repeatDir_spec (m := m) hd 1024 c
    exact ⟨_, 0, _, rfl, hmem, by omega, hsome⟩

end Cursor

theorem Law.print (h : Law U held m) {msg : Message} (hbad : msg ≠ .swapSpaceBad)
    (hmult : msg ≠ .swapInMultiply) : Law U held (m.print msg) := by
  refine h.of_same rfl rfl rfl rfl rfl rfl h.cursor ?_ h.handed
  obtain ⟨hbad', hmult'⟩ := h.quiet
  exact ⟨by simpa [Mm.print, hbad.symm] using hbad', by simpa [Mm.print, hmult.symm] using hmult'⟩

theorem Law.outOfSwap (h : Law U held m) : Law U held (m.print .outOfSwapMemory) :=
  h.print (by simp) (by simp)

theorem print_evicts (m : Mm) (msg : Message) : Evicts m (m.print msg) where
  pgDir := rfl
  task := rfl
  limit := rfl
  fresh := rfl
  highMemory := rfl
  entry _ := Or.inl rfl
  keeps _ _ _ := .of_same rfl (fun _ _ => rfl) fun _ _ _ _ => rfl

theorem sweep_spec (h : Law U held m) (k c : ℕ) (hdir : c ≠ 0 → (m.pgDir m.dirEntry).isSome) :
    ∃ m' r, sweep k c m = some (m', r) ∧ Law U held m' ∧ Evicts m m' ∧
      (r = true → present m' < present m) := by
  induction k generalizing m c with
  | zero => exact ⟨_, _, rfl, h.outOfSwap, print_evicts .., fun hr => by cases hr⟩
  | succ k ih =>
    cases c with
    | zero => exact ⟨_, _, rfl, h.outOfSwap, print_evicts .., fun hr => by cases hr⟩
    | succ c =>
      obtain ⟨d, e, c', hadv, hd, he, hsome⟩ := advance_spec h.cursor (hdir c.succ_ne_zero) c
      have hlaw : Law U held (moveTo m d (e + 1)) := h.moveTo hd _
      have hev := moveTo_evicts m d (e + 1)
      unfold sweep
      rw [hadv]
      cases c' with
      | none =>
        exact ⟨_, _, rfl, hlaw.outOfSwap, hev.trans (print_evicts ..), fun hr => by cases hr⟩
      | some c' =>
        obtain ⟨t, ht⟩ := Option.isSome_iff_exists.mp (hsome rfl)
        have ht' : (moveTo m d (e + 1)).pgDir (moveTo m d (e + 1)).dirEntry = some t := ht
        simp only [ht']
        have htry := tryToSwapOut_spec (l := (d, e)) hlaw (mem_places.mpr ⟨hd, he⟩) ht
        rcases htry with hno | ⟨m', hyes, hlaw', hev', hlt⟩
        · have hno' : (moveTo m d (e + 1)).tryToSwapOut t ((moveTo m d (e + 1)).nextEntry - 1) =
              some (moveTo m d (e + 1), false) := hno
          simp only [hno', Option.bind_some]
          obtain ⟨m', r, hrun, hlaw', hev', hlt⟩ := ih hlaw c' fun _ => by simp [ht']
          exact ⟨m', r, hrun, hlaw', hev.trans hev', hlt⟩
        · have hyes' : (moveTo m d (e + 1)).tryToSwapOut t ((moveTo m d (e + 1)).nextEntry - 1) =
              some (m', true) := hyes
          simp only [hyes', Option.bind_some]
          exact ⟨m', true, rfl, hlaw', hev.trans hev', fun _ => hlt⟩

theorem swapOut_spec (h : Law U held m) :
    ∃ m' r, m.swapOut = some (m', r) ∧ Law U held m' ∧ Evicts m m' ∧
      (r = true → present m' < present m) := by
  obtain ⟨hd, hsome⟩ := seekDir_spec (m := m) h.cursor (VM_PAGES / 1024)
  have hlaw : Law U held (moveTo m (m.seekDir (VM_PAGES / 1024) m.dirEntry).1 m.nextEntry) :=
    h.moveTo hd _
  obtain ⟨m', r, hrun, hlaw', hev, hlt⟩ :=
    sweep_spec hlaw VM_PAGES ((m.seekDir (VM_PAGES / 1024) m.dirEntry).2 * 1024) fun hc =>
      hsome fun h0 => hc (by rw [h0, Nat.zero_mul])
  exact ⟨m', r, hrun, hlaw', (moveTo_evicts ..).trans hev, hlt⟩

section Stuck

/-- Nothing can be swapped out. -/
def Stuck (m : Mm) : Prop :=
  ∀ l ∈ places, ∀ p rw dirty, m.entry l = .page p rw dirty →
    p < LOW_MEM ∨ dirty = true ∧ m.swapBitmap = none

theorem tryToSwapOut_stuck (h : Stuck m) (hl : l ∈ places) (ht : m.pgDir l.1 = some t) :
    m.tryToSwapOut t l.2 = some (m, false) := by
  have htab : m.entry l = m.table t l.2 := entry_of_dir ht l.2
  unfold tryToSwapOut
  cases he : m.table t l.2 with
  | none => rfl
  | swapped nr => rfl
  | page p rw dirty =>
    rw [he] at htab
    rcases h l hl p rw dirty htab with hlo | ⟨rfl, hb⟩
    · exact if_pos (Or.inl hlo)
    · simp only [getSwapPage, hb, Option.bind_none, if_true]
      split_ifs <;> rfl

/-- `swap_out` fails then, and has only moved its cursors. -/
theorem sweep_stuck (h : Stuck m) (hd : m.dirEntry ∈ dirs) (k c : ℕ)
    (hdir : c ≠ 0 → (m.pgDir m.dirEntry).isSome) :
    ∃ d e, sweep k c m = some ((moveTo m d e).print .outOfSwapMemory, false) := by
  induction k generalizing m c with
  | zero => exact ⟨_, _, rfl⟩
  | succ k ih =>
    cases c with
    | zero => exact ⟨_, _, rfl⟩
    | succ c =>
      obtain ⟨d, e, c', hadv, hd', he, hsome⟩ := advance_spec hd (hdir c.succ_ne_zero) c
      unfold sweep
      rw [hadv]
      cases c' with
      | none => exact ⟨_, _, rfl⟩
      | some c' =>
        obtain ⟨t, ht⟩ := Option.isSome_iff_exists.mp (hsome rfl)
        have ht' : (moveTo m d (e + 1)).pgDir (moveTo m d (e + 1)).dirEntry = some t := ht
        have hno : (moveTo m d (e + 1)).tryToSwapOut t ((moveTo m d (e + 1)).nextEntry - 1) =
            some (moveTo m d (e + 1), false) :=
          tryToSwapOut_stuck (l := (d, e)) h (mem_places.mpr ⟨hd', he⟩) ht
        simp only [ht', hno, Option.bind_some]
        obtain ⟨d', e', hrun⟩ := ih (m := moveTo m d (e + 1)) h hd' c' fun _ => by simp [ht']
        exact ⟨d', e', hrun⟩

theorem lastFree_full (h : ∀ p, m.memMap p ≠ 0) (k : ℕ) : m.lastFree k = none := by
  induction k with
  | zero => rfl
  | succ k ih => exact (if_neg (h _)).trans ih

/-- `get_free_page` fails when no page is free and nothing can be swapped out. -/
theorem getFreePage_stuck (h : Stuck m) (hd : m.dirEntry ∈ dirs) (hfull : ∀ p, m.memMap p ≠ 0) :
    ∃ d e, m.getFreePage = some ((moveTo m d e).print .outOfSwapMemory, none) := by
  obtain ⟨hd', hsome⟩ := seekDir_spec (m := m) hd (VM_PAGES / 1024)
  obtain ⟨d, e, hrun⟩ := sweep_stuck
    (m := moveTo m (m.seekDir (VM_PAGES / 1024) m.dirEntry).1 m.nextEntry) h hd' VM_PAGES
    ((m.seekDir (VM_PAGES / 1024) m.dirEntry).2 * 1024) fun hc =>
      hsome fun h0 => hc (by rw [h0, Nat.zero_mul])
  refine ⟨d, e, ?_⟩
  have hout : m.swapOut = some ((moveTo m d e).print .outOfSwapMemory, false) := hrun
  unfold getFreePage getFreePageIn
  rw [lastFree_full hfull]
  simp only [hout, Option.bind_some]

end Stuck

/-- A free page is no page table. -/
theorem Law.table_ne (h : Law U held m) (hlo : LOW_MEM ≤ p) (h0 : m.memMap p = 0)
    (ht : m.pgDir d = some t) : t ≠ p := by
  rintro rfl
  by_cases hd : d ∈ dirs
  · exact h.count_pos (dir_mem_allPlaces.mpr hd) ht hlo h0
  · exact absurd (h.kernelDir hd ht) hlo.not_gt

theorem Law.entry_take (h : Law U held m) (hlo : LOW_MEM ≤ p) (h0 : m.memMap p = 0) :
    (m.take p).entry = m.entry := by
  ext1 l
  unfold entry take
  cases hl : m.pgDir l.1 with
  | none => rfl
  | some t =>
    simp only
    rw [update_of_ne (h.table_ne hlo h0 hl)]

theorem Law.take (h : Law U held m) (hlo : LOW_MEM ≤ p) (hhi : p < m.highMemory)
    (h0 : m.memMap p = 0) : Law U (update held p 1) (m.take p) := by
  have hentry := h.entry_take hlo h0
  have href : (m.take p).ref = m.ref := by
    ext1 i
    cases i with
    | entry l => simp [ref, hentry]
    | dir d => rfl
    | task n => rfl
  have hslot : (m.take p).slot = m.slot := by
    ext1 l
    simp [slot, hentry]
  exact {
    pages := by
      rw [href]
      exact h.pages.take hhi h0 hlo
    slots := by
      rw [hslot]
      exact h.slots
    bits := h.bits
    range := h.range
    held_le := fun q => by
      rcases eq_or_ne q p with rfl | hne
      · simp
      · rw [update_of_ne hne]
        exact h.held_le q
    high_le := h.high_le
    dirPage := h.dirPage
    taskPage := h.taskPage
    kernelDir := h.kernelDir
    kernelSlot := fun hl => hslot ▸ h.kernelSlot hl
    kernelPage := fun he hq => h.kernelPage he (hentry ▸ hq)
    cursor := h.cursor
    quiet := h.quiet
    handed := h.handed }

theorem Law.take_evicts (h : Law U held m) (hlo : LOW_MEM ≤ p) (h0 : m.memMap p = 0) :
    Evicts m (m.take p) where
  pgDir := rfl
  task := rfl
  limit := rfl
  fresh := rfl
  highMemory := rfl
  entry l := Or.inl (congrFun (h.entry_take hlo h0) l)
  keeps image l hl := by
    apply Keeps.of_same (congrFun (h.entry_take hlo h0) l) (fun _ _ => rfl)
    intro q rw dirty he
    have hq : (m.entry l).page? = some q := by simp [he]
    have hne : q ≠ p := by
      rintro rfl
      rcases hl with hl | ⟨hd, hl⟩
      · exact h.count_pos (entry_mem_allPlaces.mpr hl) hq hlo h0
      · obtain ⟨d, e⟩ := l
        obtain rfl : d = 0 := hd
        exact absurd (h.kernelPage hl hq) hlo.not_gt
    exact update_of_ne hne ..

theorem lastFree_spec {k : ℕ} (hp : m.lastFree k = some p) :
    LOW_MEM ≤ p ∧ m.memMap p = 0 := by
  induction k with
  | zero => cases hp
  | succ k ih =>
    unfold lastFree at hp
    split_ifs at hp with h0
    · obtain rfl := Option.some.inj hp
      exact ⟨Nat.le_add_right .., h0⟩
    · exact ih hp

/-- `get_free_page` has got the page `p`, after swapping out. -/
def Got (U : ℕ → Bool) (held : ℕ → ℕ) (m m' : Mm) (p : ℕ) : Prop :=
  ∃ m₁, Evicts m m₁ ∧ Law U held m₁ ∧ LOW_MEM ≤ p ∧ p < m₁.highMemory ∧ m₁.memMap p = 0 ∧
    m' = m₁.take p

/-- What `get_free_page` has done when it returns. -/
def Result (U : ℕ → Bool) (held : ℕ → ℕ) (m m' : Mm) : Option ℕ → Prop
  | none => Evicts m m' ∧ Law U held m'
  | some p => Got U held m m' p

theorem Result.of_evicts {r : Option ℕ} (h : Evicts m m') (h' : Result U held m' m'' r) :
    Result U held m m'' r := by
  cases r with
  | none => exact ⟨h.trans h'.1, h'.2⟩
  | some p =>
    obtain ⟨m₁, hev, hrest⟩ := h'
    exact ⟨m₁, h.trans hev, hrest⟩

theorem getFreePageIn_spec (h : Law U held m) {k : ℕ} (hk : present m < k) :
    ∃ m' r, getFreePageIn k m = some (m', r) ∧ Result U held m m' r := by
  induction k generalizing m with
  | zero => omega
  | succ k ih =>
    unfold getFreePageIn
    cases hp : m.lastFree PAGING_PAGES with
    | some p =>
      obtain ⟨hlo, h0⟩ := lastFree_spec hp
      have hhi : p < m.highMemory := by
        by_contra hge
        exact h.pages.beyond (not_lt.mp hge) h0
      simp only [if_neg hhi.not_ge]
      exact ⟨_, _, rfl, m, .refl m, h, hlo, hhi, h0, rfl⟩
    | none =>
      obtain ⟨m', r, hrun, hlaw, hev, hlt⟩ := swapOut_spec h
      simp only [hrun, Option.bind_some]
      cases r with
      | false => exact ⟨m', none, rfl, hev, hlaw⟩
      | true =>
        obtain ⟨m'', r', hrun', hres⟩ := ih hlaw (by have := hlt rfl; omega)
        exact ⟨m'', r', hrun', hres.of_evicts hev⟩

theorem card_places : places.card = VM_PAGES := by
  simp [places, dirs, FIRST_VM_DIR, VM_PAGES]

theorem present_le (m : Mm) : present m ≤ VM_PAGES := by
  have hle : present m ≤ places.card := Finset.card_filter_le _ _
  rwa [card_places] at hle

/-- `get_free_page` ends without a panic. -/
theorem getFreePage_spec (h : Law U held m) :
    ∃ m' r, m.getFreePage = some (m', r) ∧ Result U held m m' r :=
  getFreePageIn_spec h (Nat.lt_succ_of_le (present_le m))

end Linux012.Paging
