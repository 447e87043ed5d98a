import Linux012.Lib.Refs
import Linux012.Mm.Basic

/-! # The law of pages and swap pages

`mem_map` counts the places that hold a page: page-table entries, directory entries and task
slots, next to `held` uses of other kinds. The swap pages in use are the ones that page-table
entries name, each named once. `U` tells the swap pages that were free when swapping started.
-/

namespace Linux012.Paging

open Function Refs

/-- The directory entries of the tasks other than task 0. -/
@[irreducible] def dirs : Finset ℕ := Finset.Ico FIRST_VM_DIR 1024

/-- The page-table entries of the tasks other than task 0. -/
@[irreducible] def places : Finset (ℕ × ℕ) := dirs ×ˢ Finset.range 1024

/-- The slots of `task` whose structures are in pages of their own. -/
@[irreducible] def taskSlots : Finset ℕ := Finset.Ico 1 NR_TASKS

theorem mem_dirs {d : ℕ} : d ∈ dirs ↔ 16 ≤ d ∧ d < 1024 := by
  simp [dirs]

theorem mem_places {l : ℕ × ℕ} : l ∈ places ↔ l.1 ∈ dirs ∧ l.2 < 1024 := by
  simp [places]

theorem mem_taskSlots {n : ℕ} : n ∈ taskSlots ↔ 1 ≤ n ∧ n < 64 := by
  simp [taskSlots]

/-- Where a page is referred to. -/
inductive Place
  | entry (l : ℕ × ℕ)
  | dir (d : ℕ)
  | task (n : ℕ)
  deriving DecidableEq

/-- Only page-table entries share pages, at the same address of different tasks. -/
def Alike : Place → Place → Prop
  | .entry l, .entry l' => l.1 % TASK_DIRS = l'.1 % TASK_DIRS ∧ l.2 = l'.2
  | .dir d, .dir d' => d = d'
  | .task n, .task n' => n = n'
  | _, _ => False

theorem Alike.refl (i : Place) : Alike i i := by
  cases i <;> simp [Alike]

theorem Alike.symm {i j : Place} (h : Alike i j) : Alike j i := by
  cases i <;> cases j <;> simp_all [Alike]

theorem Alike.trans {i j k : Place} (h : Alike i j) (h' : Alike j k) : Alike i k := by
  cases i <;> cases j <;> cases k <;> simp_all [Alike]

theorem Alike.eq_dir {i : Place} {d : ℕ} (h : Alike i (.dir d)) : i = .dir d := by
  cases i <;> simp_all [Alike]

theorem Alike.eq_task {i : Place} {n : ℕ} (h : Alike i (.task n)) : i = .task n := by
  cases i <;> simp_all [Alike]

/-- All places that `mem_map` counts. -/
@[irreducible] def allPlaces : Finset Place :=
  places.image .entry ∪ (dirs.image .dir ∪ taskSlots.image .task)

@[simp] theorem entry_mem_allPlaces {l : ℕ × ℕ} : Place.entry l ∈ allPlaces ↔ l ∈ places := by
  simp [allPlaces]

@[simp] theorem dir_mem_allPlaces {d : ℕ} : Place.dir d ∈ allPlaces ↔ d ∈ dirs := by
  simp [allPlaces]

@[simp] theorem task_mem_allPlaces {n : ℕ} : Place.task n ∈ allPlaces ↔ n ∈ taskSlots := by
  simp [allPlaces]

namespace Mm

/-- The page that a place refers to. -/
def ref (m : Mm) : Place → Option ℕ
  | .entry l => (m.entry l).page?
  | .dir d => m.pgDir d
  | .task n => m.task n

/-- The swap page that an entry names. -/
def slot (m : Mm) (l : ℕ × ℕ) : Option ℕ := (m.entry l).slot?

/-- A swap page that was free when swapping started and is not now. -/
def InUse (U : ℕ → Bool) (m : Mm) (nr : ℕ) : Prop :=
  U nr = true ∧ ∃ b, m.swapBitmap = some b ∧ b nr = false

end Mm

/-- Neither message about a swap page counted wrong has been printed. -/
def Quiet (m : Mm) : Prop := .swapSpaceBad ∉ m.printed ∧ .swapInMultiply ∉ m.printed

/-- Every swap page handed out was one of `U`, and no page table named it at that moment. -/
def HandedOk (U : ℕ → Bool) (m : Mm) : Prop :=
  ∀ h ∈ m.handed, U h.1 = true ∧ ∀ l : ℕ × ℕ, l.2 < 1024 → (h.2 l).slot? ≠ some h.1

structure Law (U : ℕ → Bool) (held : ℕ → ℕ) (m : Mm) : Prop where
  pages : Counted allPlaces Alike LOW_MEM m.highMemory m.ref m.memMap held
  slots : Exact places m.slot (m.InUse U)
  bits {b : ℕ → Bool} {nr : ℕ} : m.swapBitmap = some b → b nr = true → U nr = true
  range {nr : ℕ} : U nr = true → 1 ≤ nr ∧ nr < SWAP_BITS
  held_le (p : ℕ) : held p ≤ USED
  high_le : m.highMemory ≤ LOW_MEM + PAGING_PAGES
  dirPage {d t : ℕ} : d ∈ dirs → m.pgDir d = some t → LOW_MEM ≤ t
  taskPage {n p : ℕ} : n ∈ taskSlots → m.task n = some p → LOW_MEM ≤ p
  kernelDir {d t : ℕ} : d ∉ dirs → m.pgDir d = some t → t < LOW_MEM
  kernelSlot {l : ℕ × ℕ} : l.1 ∉ dirs → m.slot l = none
  kernelPage {e p : ℕ} : e < 0xA0 → (m.entry (0, e)).page? = some p → p < LOW_MEM
  cursor : m.dirEntry ∈ dirs
  quiet : Quiet m
  handed : HandedOk U m

variable {U : ℕ → Bool} {held : ℕ → ℕ} {m : Mm} {d t e p nr : ℕ} {l : ℕ × ℕ} {v : Pte}

theorem Law.dir_lt (h : Law U held m) (hd : d ∈ dirs) (ht : m.pgDir d = some t) :
    t < m.highMemory :=
  h.pages.lt (dir_mem_allPlaces.mpr hd) ht (h.dirPage hd ht)

/-- A page table is in the directory once. -/
theorem Law.dir_inj (h : Law U held m) (hd : d ∈ dirs) (ht : m.pgDir d = some t) {d' : ℕ}
    (ht' : m.pgDir d' = some t) : d' = d := by
  by_cases hd' : d' ∈ dirs
  · exact h.pages.alike_of (dir_mem_allPlaces.mpr hd') (dir_mem_allPlaces.mpr hd) ht' ht
      (h.dirPage hd ht)
  · exact absurd (h.kernelDir hd' ht') (h.dirPage hd ht).not_gt

theorem entry_of_dir (ht : m.pgDir d = some t) (e : ℕ) : m.entry (d, e) = m.table t e := by
  simp [Mm.entry, ht]

theorem entry_of_no_dir (ht : m.pgDir l.1 = none) : m.entry l = .none := by
  simp [Mm.entry, ht]

/-- A store into a page table is a store at one address. -/
theorem entry_setEntry (hinj : ∀ d', m.pgDir d' = some t → d' = d) (ht : m.pgDir d = some t)
    (e : ℕ) (v : Pte) : (m.setEntry t e v).entry = update m.entry (d, e) v := by
  ext1 l
  rcases eq_or_ne l (d, e) with rfl | hne
  · rw [update_self]
    simp [Mm.entry, Mm.setEntry, ht]
  · rw [update_of_ne hne]
    unfold Mm.entry Mm.setEntry
    cases hl : m.pgDir l.1 with
    | none => rfl
    | some t' =>
      simp only
      rcases eq_or_ne t' t with rfl | htt
      · have hle : l.2 ≠ e := fun he => hne (Prod.ext (hinj _ hl) he)
        rw [update_self, update_of_ne hle]
      · rw [update_of_ne htt]

theorem Law.entry_setEntry (h : Law U held m) (hd : d ∈ dirs) (ht : m.pgDir d = some t) (e : ℕ)
    (v : Pte) : (m.setEntry t e v).entry = update m.entry (d, e) v :=
  Paging.entry_setEntry (fun _ ht' => h.dir_inj hd ht ht') ht e v

theorem ref_of_entry {m m' : Mm} (he : m'.entry = update m.entry l v) (hd : m'.pgDir = m.pgDir)
    (ht : m'.task = m.task) : m'.ref = update m.ref (.entry l) v.page? := by
  ext1 i
  cases i with
  | entry l' =>
    rcases eq_or_ne l' l with rfl | hne
    · simp [Mm.ref, he]
    · rw [update_of_ne (by simpa using hne)]
      simp [Mm.ref, he, hne]
  | dir d => simp [Mm.ref, hd]
  | task n => simp [Mm.ref, ht]

theorem slot_of_entry {m m' : Mm} (he : m'.entry = update m.entry l v) :
    m'.slot = update m.slot l v.slot? := by
  ext1 l'
  rcases eq_or_ne l' l with rfl | hne
  · simp [Mm.slot, he]
  · simp [Mm.slot, he, hne]

theorem ref_entry (m : Mm) (l : ℕ × ℕ) : m.ref (.entry l) = (m.entry l).page? := rfl

/-- A state that differs in one entry, a page-table entry of a task, and in the counts and bits
that go with it. -/
theorem Law.store (h : Law U held m) {m' : Mm} {held' : ℕ → ℕ} (hl : l ∈ places)
    (hentry : m'.entry = update m.entry l v) (hdir : m'.pgDir = m.pgDir)
    (htask : m'.task = m.task) (hhigh : m'.highMemory = m.highMemory)
    (hcur : m'.dirEntry = m.dirEntry)
    (hpages : Counted allPlaces Alike LOW_MEM m.highMemory (update m.ref (.entry l) v.page?)
      m'.memMap held')
    (hslots : Exact places (update m.slot l v.slot?) (m'.InUse U))
    (hbits : ∀ {b nr}, m'.swapBitmap = some b → b nr = true → U nr = true)
    (hheld : ∀ p, held' p ≤ USED) (hquiet : Quiet m') (hhanded : HandedOk U m') :
    Law U held' m' where
  pages := by
    rw [ref_of_entry hentry hdir htask, hhigh]
    exact hpages
  slots := by
    rw [slot_of_entry hentry]
    exact hslots
  bits := hbits
  range := h.range
  held_le := hheld
  high_le := hhigh ▸ h.high_le
  dirPage hd ht := h.dirPage hd (hdir ▸ ht)
  taskPage hn hp := h.taskPage hn (htask ▸ hp)
  kernelDir hd ht := h.kernelDir hd (hdir ▸ ht)
  kernelSlot {l'} hl' := by
    have hne : l' ≠ l := fun e => hl' (e ▸ (mem_places.mp hl).1)
    rw [slot_of_entry hentry, update_of_ne hne]
    exact h.kernelSlot hl'
  kernelPage {e q} he hq := by
    have hne : (0, e) ≠ l := fun heq => by
      have hd := mem_dirs.mp (mem_places.mp hl).1
      simp [← heq] at hd
    rw [hentry, update_of_ne hne] at hq
    exact h.kernelPage he hq
  cursor := hcur ▸ h.cursor
  quiet := hquiet
  handed := hhanded

theorem inUse_iff {b : ℕ → Bool} (hb : m.swapBitmap = some b) :
    m.InUse U nr ↔ U nr = true ∧ b nr = false := by
  simp [Mm.InUse, hb]

/-- The swap pages in use once one has been handed out. -/
theorem inUse_of_clear {m' : Mm} {b : ℕ → Bool} (hb : m.swapBitmap = some b) (hU : U nr = true)
    (hb' : m'.swapBitmap = some (update b nr false)) (x : ℕ) :
    (x = nr ∨ m.InUse U x) ↔ m'.InUse U x := by
  rw [inUse_iff hb, inUse_iff hb']
  rcases eq_or_ne x nr with rfl | hne <;> simp_all

/-- The swap pages in use once one has been freed. -/
theorem inUse_of_set {m' : Mm} {b : ℕ → Bool} (hb : m.swapBitmap = some b)
    (hb' : m'.swapBitmap = some (update b nr true)) (x : ℕ) :
    (x ≠ nr ∧ m.InUse U x) ↔ m'.InUse U x := by
  rw [inUse_iff hb, inUse_iff hb']
  rcases eq_or_ne x nr with rfl | hne <;> simp_all

theorem inUse_congr {m m' : Mm} (hb : m'.swapBitmap = m.swapBitmap) (x : ℕ) :
    m.InUse U x ↔ m'.InUse U x := by
  rw [Mm.InUse, Mm.InUse, hb]

/-- What a state needs to keep the law when no place and no count changes. -/
theorem Law.of_same (h : Law U held m) {m' : Mm} (hentry : m'.entry = m.entry)
    (hdir : m'.pgDir = m.pgDir) (htask : m'.task = m.task) (hhigh : m'.highMemory = m.highMemory)
    (hmap : m'.memMap = m.memMap) (hbits : m'.swapBitmap = m.swapBitmap)
    (hcur : m'.dirEntry ∈ dirs) (hquiet : Quiet m') (hhanded : HandedOk U m') :
    Law U held m' := by
  have href : m'.ref = m.ref := by
    ext1 i
    cases i <;> simp [Mm.ref, hentry, hdir, htask]
  have hslot : m'.slot = m.slot := by
    ext1 l
    simp [Mm.slot, hentry]
  exact {
    pages := by
      rw [href, hhigh, hmap]
      exact h.pages
    slots := by
      rw [hslot]
      exact h.slots.congr (inUse_congr hbits)
    bits := fun hb => h.bits (hbits ▸ hb)
    range := h.range
    held_le := h.held_le
    high_le := hhigh ▸ h.high_le
    dirPage := fun hd ht => h.dirPage hd (hdir ▸ ht)
    taskPage := fun hn hp => h.taskPage hn (htask ▸ hp)
    kernelDir := fun hd ht => h.kernelDir hd (hdir ▸ ht)
    kernelSlot := fun hl => hslot ▸ h.kernelSlot hl
    kernelPage := fun he hq => h.kernelPage he (hentry ▸ hq)
    cursor := hcur
    quiet := hquiet
    handed := hhanded }

end Linux012.Paging
