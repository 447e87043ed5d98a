import Linux012.Mm.Slots

/-! # A fork that fails

A fork that runs out of memory leaves nothing of the child behind, with every count and every
swap page as it should be. What the parent reads is unchanged where each page that is not marked
dirty holds what a page fault would bring in. `un_wp_page` makes pages that do not.
-/

namespace Linux012.Paging

open Function Refs Runs Mm

variable {U : ℕ → Bool} {held : ℕ → ℕ} {m m' : Mm} {nr cur : ℕ} {image : ℕ × ℕ → Bytes}

/-- Nothing is left of the child `nr`, and the pages and swap pages are accounted for. -/
structure Undone (U : ℕ → Bool) (held : ℕ → ℕ) (nr : ℕ) (m : Mm) : Prop where
  task : m.task nr = none
  dirs {d : ℕ} : d / TASK_DIRS = nr → m.pgDir d = none
  fresh {p : ℕ} : p ∈ m.fresh → m.memMap p = 0
  count {p : ℕ} : LOW_MEM ≤ p → p < m.highMemory → m.memMap p = refs allPlaces m.ref p + held p
  slots (s : ℕ) : m.InUse U s → ∃! l, l ∈ places ∧ m.entry l = .swapped s

theorem Law.undone (h : Law U held m) (ht : m.task nr = none)
    (hd : ∀ {d}, d / TASK_DIRS = nr → m.pgDir d = none) (hf : ∀ {p}, p ∈ m.fresh → m.memMap p = 0) :
    Undone U held nr m where
  task := ht
  dirs := hd
  fresh := hf
  count := h.pages.count_eq
  slots s hs := by
    obtain ⟨l, hl, he⟩ := h.slots.place hs
    refine ⟨l, ⟨hl, Pte.slot?_eq_some.mp he⟩, fun l' ⟨hl', he'⟩ => ?_⟩
    exact h.slots.inj hl' hl (Pte.slot?_eq_some.mpr he') he

/-- A failed fork leaves nothing of the child, and the parent reads what it read before where its
pages that are not dirty hold what `do_no_page` brings in. -/
theorem failed_fork_undone (h : Law U held m) (hr : Regions m) (hn : nr ∈ taskSlots)
    (hfree : m.task nr = none) (hcur : cur < NR_TASKS) (hne : cur ≠ nr)
    (hclean : ∀ l, User l → l.1 / TASK_DIRS = cur → m.Clean image l)
    (hrun : m.copyProcess nr cur = some (m', false)) :
    Undone U held nr m' ∧
      ∀ l, User l → l.1 / TASK_DIRS = cur → m'.view image l = m.view image l := by
  obtain ⟨m₁, r, hrun', hlaw, -, hforked⟩ := copyProcess_spec h hr hn hfree hcur hne
  rw [hrun] at hrun'
  cases hrun'
  refine ⟨hlaw.undone (hforked.task rfl) (hforked.none rfl) (hforked.fresh rfl), fun l hl hd => ?_⟩
  exact (hforked.keeps image l hl (hd ▸ hne) (hclean l hl hd)).1

theorem copyProcess_of_failed {p : ℕ} {m₁ m₂ m₃ m₄ : Mm}
    (hget : ({ m with fresh := [] } : Mm).getFreePage = some (m₁, some p))
    (hm₂ : m₂ = { m₁.setTask nr (some p) with
      limit := update m₁.limit nr (m₁.limit cur)
      fresh := [p] })
    (hmem : m₂.copyMem nr cur = some (m₃, false))
    (hfree : (m₃.setTask nr none).freePage p = some m₄) :
    m.copyProcess nr cur = some (m₄, false) := by
  subst hm₂
  have hmem' := hmem
  unfold copyProcess
  simp only [hget, Option.bind_some]
  exact (congrArg (Option.bind · _) hmem').trans (by simp only [Option.bind_some, hfree, Option.map_some])

section Single

/-- One free page. -/
def single₀ : Mm := boot 0x100 0x101 fun _ _ => 0

/-- The page is the structure of task 1. -/
def single₁ : Mm :=
  { (single₀.take 0x100).setTask 1 (some 0x100) with
    limit := update single₀.limit 1 (single₀.limit 0)
    fresh := [0x100] }

theorem single_fork : ∃ m', single₀.copyProcess 1 0 = some (m', false) := by
  have hget : ({ single₀ with fresh := [] } : Mm).getFreePage = some (single₀.take 0x100, some 0x100) :=
    getFreePage_of_free (by decide +kernel) (by decide)
  have hstuck : Stuck single₁ := by
    intro l hl p rw dirty he
    have hd := (mem_dirs.mp (mem_places.mp hl).1).1
    have hno : single₁.entry l = .none := entry_of_no_dir (if_neg (by omega))
    rw [hno] at he
    cases he
  have hfull : ∀ p, single₁.memMap p ≠ 0 := by
    intro p
    change update single₀.memMap 0x100 1 p ≠ 0
    rcases eq_or_ne p 0x100 with rfl | hne
    · simp
    · rw [update_of_ne hne]
      simp only [single₀, boot]
      rw [if_neg (by omega)]
      decide
  obtain ⟨d, e, hfail⟩ := getFreePage_stuck hstuck (mem_dirs.mpr (by decide)) hfull
  have hcopy : single₁.copyPageTables (0 * TASK_DIRS) (1 * TASK_DIRS) 1 =
      some ((moveTo single₁ d e).print .outOfSwapMemory, false) := by
    have hto : single₁.pgDir 16 = none := rfl
    have hfrom : single₁.pgDir 0 = some 1 := rfl
    change copyDirs 0xA0 (0 + 1) 0 16 single₁ = _
    unfold copyDirs
    rw [hto, hfrom]
    simp only [Option.isSome_none, Bool.false_eq_true, if_false, hfail, Option.bind_some]
  have hmem : single₁.copyMem 1 0 = some ((moveTo single₁ d e).print .outOfSwapMemory, false) := by
    unfold copyMem
    change (single₁.copyPageTables (0 * TASK_DIRS) (1 * TASK_DIRS) 1).bind _ = _
    rw [hcopy]
    rfl
  exact ⟨_, copyProcess_of_failed hget rfl hmem
    (freePage_eq (by decide) (by decide : 0x100 < 0x101) (by decide : single₁.memMap 0x100 ≠ 0))⟩

theorem failed_fork_undone_single : ∃ m', single₀.copyProcess 1 0 = some (m', false) ∧
    m'.task 1 = none ∧ m'.pgDir 16 = none ∧
      ∀ e < 0xA0, m'.view (fun _ _ => 0) (0, e) = single₀.view (fun _ _ => 0) (0, e) := by
  obtain ⟨m', hrun⟩ := single_fork
  have hlaw : Law noSwap single₀.memMap single₀ := boot_law _ (by decide)
  have hclean : ∀ l, User l → l.1 / TASK_DIRS = 0 → single₀.Clean (fun _ _ => 0) l :=
    fun _ _ _ _ _ _ _ => rfl
  obtain ⟨hundone, hview⟩ := failed_fork_undone hlaw (boot_consistent _ (by decide)).2
    (mem_taskSlots.mpr (by decide)) rfl (by decide) (by decide) hclean hrun
  exact ⟨m', hrun, hundone.task, hundone.dirs (by decide), fun e he => hview (0, e) (Or.inr ⟨rfl, he⟩) (Nat.zero_div _)⟩

end Single

/-- The next entry for `swap_out` maps a page that is not dirty: it is dropped. -/
theorem swapOut_drop {t p : ℕ} {rw : Bool} (hn : m.nextEntry < 1024)
    (ht : m.pgDir m.dirEntry = some t) (he : m.table t m.nextEntry = .page p rw false)
    (hlo : LOW_MEM ≤ p) (hhi : p < LOW_MEM + PAGING_PAGES) (hhigh : p < m.highMemory)
    (h0 : m.memMap p ≠ 0) :
    m.swapOut = some (((moveTo m m.dirEntry (m.nextEntry + 1)).setEntry t m.nextEntry .none).setCount
      p (m.memMap p - 1), true) := by
  have hseek : m.seekDir (VM_PAGES / 1024) m.dirEntry = (m.dirEntry, VM_PAGES / 1024) := by
    change m.seekDir (1007 + 1) m.dirEntry = _
    unfold seekDir
    rw [ht]
    rfl
  have hadv : ∀ c, m.advance c = (moveTo m m.dirEntry (m.nextEntry + 1), some c) := fun c => by
    unfold advance
    rw [if_pos hn]
    rfl
  have hfree : ((moveTo m m.dirEntry (m.nextEntry + 1)).setEntry t m.nextEntry .none).freePage p =
      some (((moveTo m m.dirEntry (m.nextEntry + 1)).setEntry t m.nextEntry .none).setCount p
        (m.memMap p - 1)) := freePage_eq hlo hhigh h0
  have htry : (moveTo m m.dirEntry (m.nextEntry + 1)).tryToSwapOut t (m.nextEntry + 1 - 1) =
      some (((moveTo m m.dirEntry (m.nextEntry + 1)).setEntry t m.nextEntry .none).setCount p
        (m.memMap p - 1), true) := by
    unfold tryToSwapOut
    rw [Nat.add_sub_cancel]
    have he' : (moveTo m m.dirEntry (m.nextEntry + 1)).table t m.nextEntry = .page p rw false := he
    rw [he']
    simp only [not_lt.mpr hlo, not_le.mpr hhi, or_self, if_false, hfree, Option.map_some]
    rfl
  unfold swapOut
  rw [hseek]
  change sweep (1032191 + 1) (1032191 + 1) m = _
  unfold sweep
  rw [hadv]
  have ht' : (moveTo m m.dirEntry (m.nextEntry + 1)).pgDir
      (moveTo m m.dirEntry (m.nextEntry + 1)).dirEntry = some t := ht
  simp only [ht']
  exact congrArg (Option.bind · _) htry

section Stale

/-- Six free pages. -/
def stale₀ : Mm := boot 0x100 0x106 fun _ _ => 0

/-- Task 1 in the page 0x100, with the page table 0x101. -/
def stale₁ : Mm := (((stale₀.take 0x100).setTask 1 (some 0x100)).take 0x101).setDir 16 (some 0x101)

/-- The page 0x102 at its first address, and task 2 in 0x103 with the page table 0x104. -/
def stale₂ : Mm :=
  ((((stale₁.take 0x102).setEntry 0x101 0 (.page 0x102 true false)).take 0x103).setTask 2
    (some 0x103) |>.take 0x104).setDir 32 (some 0x104)

/-- Both tasks share the page, which has been written. -/
def stale₃ : Mm :=
  { (((stale₂.setEntry 0x101 0 (.page 0x102 false true)).setEntry 0x104 0
      (.page 0x102 false true)).incCount 0x102).setBytes 0x102 fun _ => 42 with
    limit := fun _ => 1 }

/-- `write_verify` has given task 1 a page of its own, which is not marked dirty. -/
def stale₄ : Mm :=
  (((stale₃.take 0x105).setCount 0x102 1).setBytes 0x105 fun _ => 42).setEntry 0x101 0
    (.page 0x105 true false)

theorem stale₃_verify : stale₃.writeVerify (16, 0) = some (stale₄, true) := by
  have hget : stale₃.getFreePage = some (stale₃.take 0x105, some 0x105) :=
    getFreePage_of_free (by decide +kernel) (by decide)
  have hdir : stale₃.pgDir 16 = some 0x101 := rfl
  have hentry : stale₃.table 0x101 0 = .page 0x102 false true := rfl
  have hcount : stale₃.memMap 0x102 = 2 := rfl
  unfold writeVerify
  simp only [hdir, hentry]
  unfold unWpPage
  simp only [hentry, hcount, hget]
  rfl

theorem stale₃_law : Law noSwap stale₀.memMap stale₃ := by
  have hdir : ∀ d, 16 ≤ d → d < 1024 → d ∈ dirs := fun d h h' => mem_dirs.mpr ⟨h, h'⟩
  have htask : ∀ n, 1 ≤ n → n < 64 → n ∈ taskSlots := fun n h h' => mem_taskSlots.mpr ⟨h, h'⟩
  have h₀ : Law noSwap stale₀.memMap stale₀ := boot_law _ (by decide)
  have h₁ := (h₀.take (p := 0x100) le_rfl (by decide) rfl).setTask_some rfl
    (htask 1 (by decide) (by decide)) rfl rfl le_rfl (by decide)
  have h₂ : Law noSwap stale₀.memMap stale₁ :=
    (h₁.take (p := 0x101) (by decide) (by decide) rfl).addDir rfl
      (hdir 16 (by decide) (by decide)) rfl rfl rfl (by decide) (by decide)
  have h₃ := (h₂.take (p := 0x102) (by decide) (by decide) rfl).fill rfl (l := (16, 0)) (t := 0x101)
    (mem_places.mpr ⟨hdir 16 (by decide) (by decide), by decide⟩) rfl rfl rfl (by decide)
    (by decide) true false
  have h₄ := (h₃.take (p := 0x103) (by decide) (by decide) rfl).setTask_some rfl
    (htask 2 (by decide) (by decide)) rfl rfl (by decide) (by decide)
  have h₅ : Law noSwap stale₀.memMap stale₂ :=
    (h₄.take (p := 0x104) (by decide) (by decide) rfl).addDir rfl
      (hdir 32 (by decide) (by decide)) rfl rfl rfl (by decide) (by decide)
  have h₆ := h₅.reflag (l := (16, 0)) (t := 0x101) (p := 0x102)
    (mem_places.mpr ⟨hdir 16 (by decide) (by decide), by decide⟩) rfl rfl false true
  have h32 : (32, 0) ∈ places := mem_places.mpr ⟨hdir 32 (by decide) (by decide), by decide⟩
  have h₇ := h₆.share (l := (16, 0)) (t := 0x104) (p := 0x102)
    (mem_places.mpr ⟨hdir 16 (by decide) (by decide), by decide⟩) h32 rfl rfl rfl rfl rfl (by decide)
    false true
  exact h₇.of_same rfl rfl rfl rfl rfl rfl h₇.cursor h₇.quiet h₇.handed

theorem stale₃_dirs {d : ℕ} (hd : 4 ≤ d) (h16 : d ≠ 16) (h32 : d ≠ 32) : stale₃.pgDir d = none := by
  change update (update (boot 0x100 0x106 fun _ _ => 0).pgDir 16 (some 0x101)) 32 (some 0x104) d = none
  rw [update_of_ne h32, update_of_ne h16]
  exact if_neg (not_lt.mpr hd)

theorem stale₃_regions : Regions stale₃ := by
  refine ⟨fun _ => (by decide : 1 ≤ TASK_DIRS), le_rfl, fun {n d} hn ht hd => ?_, fun {n d} hn hd hlim => ?_⟩
  · have h1 : n ≠ 1 := fun e => by subst e; cases ht
    have h2 : n ≠ 2 := fun e => by subst e; cases ht
    have hpos := (mem_taskSlots.mp hn).1
    simp only [TASK_DIRS] at hd
    exact stale₃_dirs (by omega) (by omega) (by omega)
  · have hpos := (mem_taskSlots.mp hn).1
    have hlim' : 1 ≤ d % 16 := hlim
    simp only [TASK_DIRS] at hd
    exact stale₃_dirs (by omega) (by omega) (by omega)

/-- Nothing is brought in from a file. -/
def noImage : ℕ × ℕ → Bytes := fun _ _ => 0

theorem stale₃_entry {l : ℕ × ℕ} (hl : l ∈ places) :
    stale₃.entry l = .none ∨ stale₃.entry l = .page 0x102 false true := by
  have hd := (mem_dirs.mp (mem_places.mp hl).1).1
  by_cases h16 : l.1 = 16
  · rw [show l = (16, l.2) from Prod.ext h16 rfl, entry_of_dir (t := 0x101) rfl]
    rcases eq_or_ne l.2 0 with h0 | hne
    · exact Or.inr (by rw [h0]; rfl)
    · left
      simp [stale₃, stale₂, stale₁, stale₀, setEntry, incCount, setCount, setBytes, setDir, setTask,
        take, boot, hne]
  by_cases h32 : l.1 = 32
  · rw [show l = (32, l.2) from Prod.ext h32 rfl, entry_of_dir (t := 0x104) rfl]
    rcases eq_or_ne l.2 0 with h0 | hne
    · exact Or.inr (by rw [h0]; rfl)
    · left
      simp [stale₃, stale₂, stale₁, stale₀, setEntry, incCount, setCount, setBytes, setDir, setTask,
        take, boot, hne]
  · exact Or.inl (entry_of_no_dir (stale₃_dirs (by omega) h16 h32))

theorem stale₃_clean (l : ℕ × ℕ) (hl : User l) : stale₃.Clean noImage l := by
  intro p rw he hlo
  rcases hl with hl | ⟨hd, hl⟩
  · rcases stale₃_entry hl with hno | hpage
    · rw [hno] at he
      cases he
    · rw [hpage] at he
      cases he
  · obtain ⟨d, e⟩ := l
    obtain rfl : d = 0 := hd
    exact absurd (stale₃_law.kernelPage hl (by simp [he])) hlo.not_gt

theorem getFreePage_retry {p : ℕ} {m₁ : Mm} (hfull : m.lastFree PAGING_PAGES = none)
    (hout : m.swapOut = some (m₁, true)) (hp : m₁.lastFree PAGING_PAGES = some p)
    (hhi : p < m₁.highMemory) : m.getFreePage = some (m₁.take p, some p) := by
  change getFreePageIn (1032191 + 1 + 1) m = _
  unfold getFreePageIn
  rw [hfull]
  simp only [hout, Option.bind_some]
  unfold getFreePageIn
  rw [hp]
  exact if_neg hhi.not_ge

/-- The fork has dropped the page for the structure of the child. -/
def stale₅ : Mm :=
  (((moveTo { stale₄ with fresh := [] } 16 1).setEntry 0x101 0 .none).setCount 0x105 0).take 0x105

theorem stale₄_full (p : ℕ) : stale₄.memMap p ≠ 0 := by
  have h₀ : stale₀.memMap p = if 0x100 ≤ p ∧ p < 0x106 then 0 else USED := rfl
  simp only [stale₄, stale₃, stale₂, stale₁, setEntry, incCount, setCount, setBytes, setDir, setTask,
    take, update_apply]
  split_ifs
  all_goals simp_all
  omega

theorem stale₄_getFreePage :
    ({ stale₄ with fresh := [] } : Mm).getFreePage = some (stale₅, some 0x105) := by
  have hout := swapOut_drop (m := { stale₄ with fresh := [] }) (t := 0x101) (p := 0x105)
    (by decide) rfl rfl (by decide) (by decide) (by decide) (by decide)
  exact getFreePage_retry (lastFree_full stale₄_full _) hout (by decide +kernel) (by decide)

/-- The child is in its slot. -/
def stale₆ : Mm :=
  { stale₅.setTask 3 (some 0x105) with
    limit := update stale₅.limit 3 (stale₅.limit 1)
    fresh := [0x105] }

theorem stale₆_stuck : Stuck stale₆ := by
  intro l hl p rw dirty he
  have hentry : stale₆.entry l = .none ∨ stale₆.entry l = .page 0x102 false true := by
    have hd := (mem_dirs.mp (mem_places.mp hl).1).1
    by_cases h16 : l.1 = 16
    · rw [show l = (16, l.2) from Prod.ext h16 rfl, entry_of_dir (t := 0x101) rfl]
      left
      simp [stale₆, stale₅, stale₄, stale₃, stale₂, stale₁, stale₀, setEntry, incCount, setCount,
        setBytes, setDir, setTask, take, boot, moveTo]
    by_cases h32 : l.1 = 32
    · rw [show l = (32, l.2) from Prod.ext h32 rfl, entry_of_dir (t := 0x104) rfl]
      rcases eq_or_ne l.2 0 with h0 | hne
      · exact Or.inr (by rw [h0]; rfl)
      · left
        simp [stale₆, stale₅, stale₄, stale₃, stale₂, stale₁, stale₀, setEntry, incCount, setCount,
          setBytes, setDir, setTask, take, boot, moveTo, hne]
    · have hno : stale₃.pgDir l.1 = none := stale₃_dirs (by omega) h16 h32
      exact Or.inl (entry_of_no_dir hno)
  rcases hentry with hno | hpage
  · rw [hno] at he
    cases he
  · rw [hpage] at he
    cases he
    exact Or.inr ⟨rfl, rfl⟩

theorem stale₆_full (p : ℕ) : stale₆.memMap p ≠ 0 := by
  change update (update stale₄.memMap 0x105 0) 0x105 1 p ≠ 0
  rcases eq_or_ne p 0x105 with rfl | hne
  · simp
  · rw [update_of_ne hne, update_of_ne hne]
    exact stale₄_full p

/-- The state after the fork, with the cursors of `swap_out` at `d` and `e`. -/
def stale₇ (d e : ℕ) : Mm :=
  (((moveTo stale₆ d e).print .outOfSwapMemory).setTask 3 none).setCount 0x105 0

theorem stale₄_fork : ∃ d e, stale₄.copyProcess 3 1 = some (stale₇ d e, false) := by
  obtain ⟨d, e, hstuck⟩ := getFreePage_stuck stale₆_stuck (mem_dirs.mpr (by decide)) stale₆_full
  have hcopy : stale₆.copyPageTables (1 * TASK_DIRS) (3 * TASK_DIRS) 1 =
      some ((moveTo stale₆ d e).print .outOfSwapMemory, false) := by
    have hto : stale₆.pgDir 48 = none := rfl
    have hfrom : stale₆.pgDir 16 = some 0x101 := rfl
    change copyDirs 1024 (0 + 1) 16 48 stale₆ = _
    unfold copyDirs
    rw [hto, hfrom]
    simp only [Option.isSome_none, Bool.false_eq_true, if_false, hstuck, Option.bind_some]
  have hmem : stale₆.copyMem 3 1 = some ((moveTo stale₆ d e).print .outOfSwapMemory, false) := by
    unfold copyMem
    change (stale₆.copyPageTables (1 * TASK_DIRS) (3 * TASK_DIRS) 1).bind _ = _
    rw [hcopy]
    rfl
  have hcount : stale₆.memMap 0x105 = 1 := rfl
  have hfree : (((moveTo stale₆ d e).print .outOfSwapMemory).setTask 3 none).freePage 0x105 =
      some (stale₇ d e) := by
    refine (freePage_eq (by decide) (by decide : 0x105 < 0x106) ?_).trans ?_
    · change stale₆.memMap 0x105 ≠ 0
      rw [hcount]
      decide
    · change some (Mm.setCount _ 0x105 (stale₆.memMap 0x105 - 1)) = _
      rw [hcount]
      rfl
  exact ⟨d, e, copyProcess_of_failed stale₄_getFreePage rfl hmem hfree⟩

/-- A page that `un_wp_page` has made for a task is not marked dirty. The fork that fails drops it,
and the task reads zeros. -/
theorem failed_fork_loses_page : Consistent noSwap stale₃ ∧ (∀ l, User l → stale₃.Clean noImage l) ∧
    stale₃.writeVerify (16, 0) = some (stale₄, true) ∧
    ∃ m', stale₄.copyProcess 3 1 = some (m', false) ∧ stale₄.view noImage (16, 0) 0 = 42 ∧
      m'.view noImage (16, 0) 0 = 0 := by
  obtain ⟨d, e, hfork⟩ := stale₄_fork
  have hentry : (stale₇ d e).entry (16, 0) = .none := entry_of_dir (t := 0x101) rfl 0
  refine ⟨⟨⟨_, stale₃_law⟩, stale₃_regions⟩, stale₃_clean, stale₃_verify, stale₇ d e, hfork,
    by decide +kernel, ?_⟩
  rw [view, hentry]
  rfl

end Stale

end Linux012.Paging
