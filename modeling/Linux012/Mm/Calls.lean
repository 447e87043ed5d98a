import Linux012.Mm.Copy

/-! # Fork, exit and page faults

Every call keeps the law of the pages and swap pages, and the tables of a task stay within its
limit.
-/

namespace Linux012.Paging

open Function Refs Mm

variable {U : ℕ → Bool} {held : ℕ → ℕ} {m m' : Mm} {d t e p n nr cur k : ℕ} {l : ℕ × ℕ}
  {image : ℕ × ℕ → Bytes}

/-- The tables of a task are within its limit, and an empty slot of `task` has none. -/
structure Regions (m : Mm) : Prop where
  limit_le (n : ℕ) : m.limit n ≤ TASK_DIRS
  limit_zero : m.limit 0 ≤ 1
  empty {n d : ℕ} : n ∈ taskSlots → m.task n = none → d / TASK_DIRS = n → m.pgDir d = none
  beyond {n d : ℕ} : n ∈ taskSlots → d / TASK_DIRS = n → m.limit n ≤ d % TASK_DIRS →
    m.pgDir d = none

theorem Regions.of_sheds {T : ℕ → Prop} (h : Regions m) (hs : Sheds T m m') : Regions m' where
  limit_le n := hs.limit ▸ h.limit_le n
  limit_zero := hs.limit ▸ h.limit_zero
  empty {n d} hn ht hd := by
    rcases hs.pgDir d with he | ⟨-, hnone⟩
    · rw [he]
      exact h.empty hn (hs.task ▸ ht) hd
    · exact hnone
  beyond {n d} hn hd hlim := by
    rcases hs.pgDir d with he | ⟨-, hnone⟩
    · rw [he]
      exact h.beyond hn hd (hs.limit ▸ hlim)
    · exact hnone

theorem Regions.of_evicts (h : Regions m) (hev : Evicts m m') : Regions m' where
  limit_le n := hev.limit ▸ h.limit_le n
  limit_zero := hev.limit ▸ h.limit_zero
  empty hn ht hd := hev.pgDir ▸ h.empty hn (hev.task ▸ ht) hd
  beyond hn hd hlim := hev.pgDir ▸ h.beyond hn hd (hev.limit ▸ hlim)

/-- The addresses of a task within its limit. -/
def Owns (m : Mm) (n : ℕ) (l : ℕ × ℕ) : Prop :=
  l.1 / TASK_DIRS = n ∧ l.1 % TASK_DIRS < m.limit n ∧ User l

section Task

theorem Law.setTask_none (h : Law U held m) (hn : n ∈ taskSlots) (ht : m.task n = some p) :
    Law U held ((m.setTask n none).setCount p (m.memMap p - 1)) := by
  have hlo := h.taskPage hn ht
  have hpages := h.pages.lose (task_mem_allPlaces.mpr hn) ht hlo
  exact {
    pages := by
      apply hpages.congr
      intro i _
      cases i with
      | entry l => simp [ref, setTask, setCount, entry]
      | dir d => simp [ref, setTask, setCount]
      | task n' =>
        rcases eq_or_ne n' n with rfl | hne
        · simp [ref, setTask, setCount]
        · simp [ref, setTask, setCount, hne]
    slots := h.slots
    bits := h.bits
    range := h.range
    held_le := h.held_le
    high_le := h.high_le
    dirPage := h.dirPage
    taskPage := fun hn' ht' => h.taskPage hn' (eq_some_of_update_none ht').2
    kernelDir := h.kernelDir
    kernelSlot := h.kernelSlot
    kernelPage := h.kernelPage
    cursor := h.cursor
    quiet := h.quiet
    handed := h.handed }

theorem Law.setTask_some (h : Law U (update held p 1) m) (hh : held p = 0) (hn : n ∈ taskSlots)
    (ht : m.task n = none) (h1 : m.memMap p = 1) (hlo : LOW_MEM ≤ p) (hhi : p < m.highMemory) :
    Law U held (m.setTask n (some p)) := by
  have hheld : update (update held p 1) p 0 = held := by
    rw [update_idem, ← hh, update_eq_self]
  have hpages := h.pages.gain (.refl _) (task_mem_allPlaces.mpr hn) ht hlo hhi h1 (update_self ..)
  rw [hheld] at hpages
  exact {
    pages := by
      apply hpages.congr
      intro i _
      cases i with
      | entry l => simp [ref, setTask, entry]
      | dir d => simp [ref, setTask]
      | task n' =>
        rcases eq_or_ne n' n with rfl | hne
        · simp [ref, setTask]
        · simp [ref, setTask, hne]
    slots := h.slots
    bits := h.bits
    range := h.range
    held_le := fun q => by
      rcases eq_or_ne q p with rfl | hne
      · simp [hh]
      · have hle := h.held_le q
        rwa [update_of_ne hne] at hle
    high_le := h.high_le
    dirPage := h.dirPage
    taskPage := fun {n' q} hn' hq => by
      change update m.task n (some p) n' = some q at hq
      rcases eq_or_ne n' n with rfl | hne
      · rw [update_self] at hq
        exact Option.some.inj hq ▸ hlo
      · rw [update_of_ne hne] at hq
        exact h.taskPage hn' hq
    kernelDir := h.kernelDir
    kernelSlot := h.kernelSlot
    kernelPage := h.kernelPage
    cursor := h.cursor
    quiet := h.quiet
    handed := h.handed }

end Task

/-- What `copy_mem` has done for the child `nr` of `cur`; where it fails, the child has no table
and the pages of its tables are free. -/
structure MemCopied (nr cur : ℕ) (m m' : Mm) (r : Bool) : Prop where
  task : m'.task = m.task
  limit : m'.limit = m.limit
  pgDir {d : ℕ} : ¬ (d / TASK_DIRS = nr ∧ d % TASK_DIRS < m.limit cur) → m'.pgDir d = m.pgDir d
  keeps (image : ℕ × ℕ → Bytes) (l : ℕ × ℕ) : User l → l.1 / TASK_DIRS ≠ nr → Keeps image l m m'
  none {d : ℕ} : r = false → d / TASK_DIRS = nr → m'.pgDir d = none
  fresh {p : ℕ} : r = false → p ∈ m'.fresh → p ∈ m.fresh ∨ m'.memMap p = 0

theorem copyMem_spec (h : Law U held m) (hr : Regions m) (hn : nr ∈ taskSlots)
    (hcur : cur < NR_TASKS) (hne : cur ≠ nr)
    (hnone : ∀ d, d / TASK_DIRS = nr → m.pgDir d = none) :
    ∃ m' r, m.copyMem nr cur = some (m', r) ∧ Law U held m' ∧ MemCopied nr cur m m' r := by
  obtain ⟨hn1, hn2⟩ := mem_taskSlots.mp hn
  have hlim : m.limit cur ≤ 16 := hr.limit_le cur
  have hcur' : cur < 64 := hcur
  have hregion : ∀ {i}, nr * 16 ≤ i ∧ i < nr * 16 + m.limit cur ↔
      i / 16 = nr ∧ i % 16 < m.limit cur := fun {i} => by omega
  have hu : ∀ j i, j < m.limit cur → i < (if cur * TASK_DIRS = 0 then 0xA0 else 1024) →
      User (cur * TASK_DIRS + j, i) := by
    intro j i hj hi
    rcases Nat.eq_zero_or_pos cur with rfl | hpos
    · have hzero := hr.limit_zero
      rw [Nat.zero_mul, if_pos rfl] at hi
      exact Or.inr ⟨by simp only; omega, hi⟩
    · have hne0 : cur * TASK_DIRS ≠ 0 := by simp only [TASK_DIRS]; omega
      rw [if_neg hne0] at hi
      refine Or.inl (mem_places.mpr ⟨mem_dirs.mpr ?_, hi⟩)
      simp only [TASK_DIRS]
      omega
  obtain ⟨m₁, r, hrun, hlaw, hcop⟩ := copyDirs_spec (cur * 16) (nr * 16)
    (k := m.limit cur) h (by omega) (by omega) (by omega) (by omega) hu
    fun i hi hi' => hnone i (by simp only [TASK_DIRS]; omega)
  unfold copyMem copyPageTables
  simp only [TASK_DIRS, hrun, Option.bind_some]
  cases r with
  | true =>
    refine ⟨m₁, true, rfl, hlaw, hcop.task, hcop.limit, fun hd => hcop.pgDir fun hi => ?_,
      fun image l hl hd => hcop.keeps image l hl fun hi => ?_, nofun, nofun⟩
    · exact hd (hregion.mp hi)
    · exact hd (hregion.mp hi).1
  | false =>
    obtain ⟨m', hrun', hlaw', hshed, hfreed, hzero⟩ := freePageTables_spec (d := nr * 16)
      (k := m.limit cur) hlaw (by omega) (by omega)
    refine ⟨m', false, by simp only [hrun', Option.map_some], hlaw', hshed.task.trans hcop.task,
      hshed.limit.trans hcop.limit, fun {d} hd => ?_, fun image l hl hd => ?_, fun {d} _ hd => ?_,
      fun {p} _ hp => ?_⟩
    · rcases hshed.pgDir d with he | ⟨hi, -⟩
      · rw [he]
        exact hcop.pgDir fun hi => hd (hregion.mp hi)
      · exact absurd (hregion.mp hi) hd
    · have hout : ¬ (nr * 16 ≤ l.1 ∧ l.1 < nr * 16 + m.limit cur) := fun hi =>
        hd (hregion.mp hi).1
      exact (hcop.keeps image l hl hout).trans (hshed.keeps image l hl hout)
    · by_cases hi : nr * 16 ≤ d ∧ d < nr * 16 + m.limit cur
      · exact hfreed d hi.1 hi.2
      · rcases hshed.pgDir d with he | ⟨-, hno⟩
        · rw [he, hcop.pgDir hi]
          exact hnone d hd
        · exact hno
    · rw [hshed.fresh] at hp
      rcases hcop.fresh hp with hp | ⟨hh, d, hi, hd⟩
      · exact Or.inl hp
      · exact Or.inr (hzero d p hi.1 hi.2 hd hh)

/-- What `copy_process` has done for the child `nr` of `cur`. -/
structure Forked (nr cur : ℕ) (m m' : Mm) (r : Bool) : Prop where
  keeps (image : ℕ × ℕ → Bytes) (l : ℕ × ℕ) : User l → l.1 / TASK_DIRS ≠ nr → Keeps image l m m'
  task : r = false → m'.task nr = none
  none {d : ℕ} : r = false → d / TASK_DIRS = nr → m'.pgDir d = none
  fresh {p : ℕ} : r = false → p ∈ m'.fresh → m'.memMap p = 0

/-- The structure of a task is in a page of its own. -/
theorem Law.task_count (h : Law U held m) (hn : n ∈ taskSlots) (ht : m.task n = some p)
    (hh : held p = 0) : m.memMap p - 1 = 0 := by
  have hlo := h.taskPage hn ht
  have hlt := h.pages.lt (task_mem_allPlaces.mpr hn) ht hlo
  have hsum := h.pages.count_eq hlo hlt
  have honly : ∀ i ∈ allPlaces, m.ref i = some p → i = .task n := fun i hi hp =>
    (h.pages.alike_of hi (task_mem_allPlaces.mpr hn) hp ht hlo).eq_task
  have hone : refs allPlaces m.ref p ≤ ({n} : Finset ℕ).card := by
    apply refs_le_card fun _ => n
    · exact fun _ _ _ => Finset.mem_singleton_self n
    · exact fun i hi j hj hp hq _ => (honly i hi hp).trans (honly j hj hq).symm
  rw [Finset.card_singleton] at hone
  omega

theorem copyProcess_spec (h : Law U held m) (hr : Regions m) (hn : nr ∈ taskSlots)
    (hfree : m.task nr = none) (hcur : cur < NR_TASKS) (hne : cur ≠ nr) :
    ∃ m' r, m.copyProcess nr cur = some (m', r) ∧ Law U held m' ∧ Regions m' ∧
      Forked nr cur m m' r := by
  have h₀ : Law U held { m with fresh := [] } :=
    h.of_same rfl rfl rfl rfl rfl rfl h.cursor h.quiet h.handed
  have hr₀ : Regions { m with fresh := [] } := ⟨hr.limit_le, hr.limit_zero, hr.empty, hr.beyond⟩
  have hkeep₀ : ∀ image l, Keeps image l m { m with fresh := [] } := fun image l =>
    .of_same rfl (fun _ _ => rfl) fun _ _ _ _ => rfl
  obtain ⟨m₁, r, hrun₁, hres⟩ := getFreePage_spec h₀
  unfold copyProcess
  simp only [hrun₁, Option.bind_some]
  cases r with
  | none =>
    obtain ⟨hev, hlaw⟩ := hres
    refine ⟨m₁, false, rfl, hlaw, hr₀.of_evicts hev,
      fun image l hl _ => (hkeep₀ image l).trans (hev.keeps image l hl), fun _ => ?_,
      fun {d} _ hd => ?_, fun {p} _ hp => ?_⟩
    · rw [hev.task]
      exact hfree
    · rw [hev.pgDir]
      exact hr.empty hn hfree hd
    · rw [hev.fresh] at hp
      cases hp
  | some p =>
    obtain ⟨hev, hlaw₁, hh, h1, hlo, hhi, -⟩ := hres.spec
    have hfree₁ : m₁.task nr = none := by
      rw [hev.task]
      exact hfree
    have hlaw₂ := hlaw₁.setTask_some hh hn hfree₁ h1 hlo hhi
    have hr₁ : Regions m₁ := hr₀.of_evicts hev
    let m₂ : Mm := { m₁.setTask nr (some p) with
      limit := update m₁.limit nr (m₁.limit cur)
      fresh := [p] }
    have hlaw₃ : Law U held m₂ :=
      hlaw₂.of_same rfl rfl rfl rfl rfl rfl hlaw₂.cursor hlaw₂.quiet hlaw₂.handed
    have hempty : ∀ d, d / TASK_DIRS = nr → m₂.pgDir d = none := fun d hd =>
      hr₁.empty hn hfree₁ hd
    have hr₂ : Regions m₂ := by
      refine ⟨fun n => ?_, ?_, fun {n d} hn' ht hd => ?_, fun {n d} hn' hd hlim => ?_⟩
      · change update m₁.limit nr (m₁.limit cur) n ≤ TASK_DIRS
        rcases eq_or_ne n nr with rfl | hne'
        · rw [update_self]
          exact hr₁.limit_le cur
        · rw [update_of_ne hne']
          exact hr₁.limit_le n
      · have hne0 : 0 ≠ nr := by
          have := (mem_taskSlots.mp hn).1
          omega
        change update m₁.limit nr (m₁.limit cur) 0 ≤ 1
        rw [update_of_ne hne0]
        exact hr₁.limit_zero
      · have hne' : n ≠ nr := by
          rintro rfl
          change update m₁.task n (some p) n = none at ht
          rw [update_self] at ht
          cases ht
        change update m₁.task nr (some p) n = none at ht
        rw [update_of_ne hne'] at ht
        exact hr₁.empty hn' ht hd
      · rcases eq_or_ne n nr with rfl | hne'
        · exact hempty d hd
        · change update m₁.limit nr (m₁.limit cur) n ≤ d % TASK_DIRS at hlim
          rw [update_of_ne hne'] at hlim
          exact hr₁.beyond hn' hd hlim
    have hkeep₂ : ∀ image l, User l → Keeps image l m m₂ := fun image l hl =>
      ((hkeep₀ image l).trans (hev.keeps image l hl)).trans
        (.of_same rfl (fun _ _ => rfl) fun _ _ _ _ => rfl)
    have hlimcur : m₂.limit cur = m₁.limit cur := update_of_ne hne ..
    obtain ⟨m₃, r, hrun₃, hlaw₃', hmem⟩ := copyMem_spec hlaw₃ hr₂ hn hcur hne hempty
    cases r with
    | true =>
      refine ⟨m₃, true, congrArg (Option.bind · _) hrun₃, hlaw₃', ?_, fun image l hl hd =>
        (hkeep₂ image l hl).trans (hmem.keeps image l hl hd), by simp, by simp, by simp⟩
      refine ⟨fun n => hmem.limit ▸ hr₂.limit_le n, hmem.limit ▸ hr₂.limit_zero,
        fun {n d} hn' ht hd => ?_, fun {n d} hn' hd hlim => ?_⟩
      · rw [hmem.task] at ht
        have hne' : n ≠ nr := by
          rintro rfl
          change update m₁.task n (some p) n = none at ht
          rw [update_self] at ht
          cases ht
        rw [hmem.pgDir fun hi => hne' (hd.symm.trans hi.1)]
        exact hr₂.empty hn' ht hd
      · rw [hmem.limit] at hlim
        by_cases hi : d / TASK_DIRS = nr ∧ d % TASK_DIRS < m₂.limit cur
        · obtain rfl : n = nr := hd.symm.trans hi.1
          have hself : m₂.limit n = m₁.limit cur := update_self ..
          omega
        · rw [hmem.pgDir hi]
          exact hr₂.beyond hn' hd hlim
    | false =>
      have ht₃ : m₃.task nr = some p := by
        rw [hmem.task]
        exact update_self ..
      have hlo' := hlaw₃'.taskPage hn ht₃
      have hpos := hlaw₃'.count_pos (task_mem_allPlaces.mpr hn) ht₃ hlo'
      have hlt := hlaw₃'.pages.lt (task_mem_allPlaces.mpr hn) ht₃ hlo'
      have hfreed : (m₃.setTask nr none).freePage p =
          some ((m₃.setTask nr none).setCount p (m₃.memMap p - 1)) := freePage_eq hlo' hlt hpos
      refine ⟨(m₃.setTask nr none).setCount p (m₃.memMap p - 1), false,
        (congrArg (Option.bind · _) hrun₃).trans (congrArg (Option.map (·, false)) hfreed),
        hlaw₃'.setTask_none hn ht₃, ?_, ?_, ?_, ?_, ?_⟩
      · refine ⟨fun n => hmem.limit ▸ hr₂.limit_le n, hmem.limit ▸ hr₂.limit_zero,
          fun {n d} hn' ht hd => ?_, fun {n d} hn' hd hlim => ?_⟩
        · rcases eq_or_ne n nr with rfl | hne'
          · exact hmem.none rfl hd
          · change update m₃.task nr none n = none at ht
            rw [update_of_ne hne', hmem.task] at ht
            refine (hmem.pgDir fun hi => hne' (hd.symm.trans hi.1)).trans ?_
            exact hr₂.empty hn' ht hd
        · change m₃.limit n ≤ d % TASK_DIRS at hlim
          rw [hmem.limit] at hlim
          rcases eq_or_ne n nr with rfl | hne'
          · exact hmem.none rfl hd
          · refine (hmem.pgDir fun hi => hne' (hd.symm.trans hi.1)).trans ?_
            exact hr₂.beyond hn' hd hlim
      · intro image l hl hd
        refine ((hkeep₂ image l hl).trans (hmem.keeps image l hl hd)).trans ?_
        exact .of_same rfl (fun _ _ => rfl) fun _ _ _ _ => rfl
      · exact fun _ => update_self ..
      · exact fun {d} _ hd => hmem.none rfl hd
      · intro q _ hq
        change update m₃.memMap p (m₃.memMap p - 1) q = 0
        rcases eq_or_ne q p with rfl | hqp
        · rw [update_self]
          exact hlaw₃'.task_count hn ht₃ hh
        · rw [update_of_ne hqp]
          rcases hmem.fresh rfl hq with hq' | h0
          · exact absurd (List.mem_singleton.mp hq') hqp
          · exact h0

section Exit

theorem freeTask_spec (h : Law U held m) (hr : Regions m) (hn : n ∈ taskSlots) :
    ∃ m', m.freePageTables (n * TASK_DIRS) (m.limit n) = some m' ∧ Law U held m' ∧ Regions m' ∧
      m'.task = m.task ∧ m'.limit = m.limit ∧ ∀ d, d / TASK_DIRS = n → m'.pgDir d = none := by
  obtain ⟨hn1, hn2⟩ := mem_taskSlots.mp hn
  have hlim : m.limit n ≤ 16 := hr.limit_le n
  obtain ⟨m', hrun, hlaw, hshed, hfreed, -⟩ :=
    freePageTables_spec (d := n * TASK_DIRS) (k := m.limit n) h
      (by simp only [TASK_DIRS]; omega) (by simp only [TASK_DIRS]; omega)
  refine ⟨m', hrun, hlaw, hr.of_sheds hshed, hshed.task, hshed.limit, fun d hd => ?_⟩
  by_cases hin : d % TASK_DIRS < m.limit n
  · exact hfreed d (by simp only [TASK_DIRS] at *; omega) (by simp only [TASK_DIRS] at *; omega)
  · have hbeyond := (hr.of_sheds hshed).beyond hn hd
    rw [hshed.limit] at hbeyond
    exact hbeyond (not_lt.mp hin)

theorem exec_spec (h : Law U held m) (hr : Regions m) (hn : n ∈ taskSlots) :
    ∃ m', m.exec n = some m' ∧ Law U held m' ∧ Regions m' := by
  obtain ⟨m', hrun, hlaw, hr', htask, -, hempty⟩ := freeTask_spec h hr hn
  unfold exec
  rw [hrun]
  refine ⟨_, rfl, hlaw.of_same rfl rfl rfl rfl rfl rfl hlaw.cursor hlaw.quiet hlaw.handed,
    fun i => ?_, ?_, hr'.empty, fun {i d} hi hd hlim => ?_⟩
  · change update m'.limit n TASK_DIRS i ≤ TASK_DIRS
    rcases eq_or_ne i n with rfl | hne
    · rw [update_self]
    · rw [update_of_ne hne]
      exact hr'.limit_le i
  · have hne0 : 0 ≠ n := by
      have := (mem_taskSlots.mp hn).1
      omega
    change update m'.limit n TASK_DIRS 0 ≤ 1
    rw [update_of_ne hne0]
    exact hr'.limit_zero
  · rcases eq_or_ne i n with rfl | hne
    · exact hempty d hd
    · change update m'.limit n TASK_DIRS i ≤ d % TASK_DIRS at hlim
      rw [update_of_ne hne] at hlim
      exact hr'.beyond hi hd hlim

theorem exit_spec (h : Law U held m) (hr : Regions m) (hn : n ∈ taskSlots) (ht : m.task n = some p) :
    ∃ m', m.exit n = some m' ∧ Law U held m' ∧ Regions m' := by
  obtain ⟨m₁, hrun, hlaw, hr', htask, -, hempty⟩ := freeTask_spec h hr hn
  have ht' : m₁.task n = some p := by rw [htask, ht]
  have hlo := hlaw.taskPage hn ht'
  have hfreed : (m₁.setTask n none).freePage p =
      some ((m₁.setTask n none).setCount p (m₁.memMap p - 1)) :=
    freePage_eq hlo (hlaw.pages.lt (task_mem_allPlaces.mpr hn) ht' hlo)
      (hlaw.count_pos (task_mem_allPlaces.mpr hn) ht' hlo)
  unfold exit
  simp only [ht, hrun, Option.bind_some, hfreed]
  refine ⟨_, rfl, hlaw.setTask_none hn ht', hr'.limit_le, hr'.limit_zero, fun {i d} hi ht'' hd => ?_,
    hr'.beyond⟩
  rcases eq_or_ne i n with rfl | hne
  · exact hempty d hd
  · change update m₁.task n none i = none at ht''
    rw [update_of_ne hne] at ht''
    exact hr'.empty hi ht'' hd

end Exit

section Fault

/-- The only holder of a page puts it into an empty entry. -/
theorem Law.fill (h : Law U (update held p 1) m) (hh : held p = 0) (hl : l ∈ places)
    (ht : m.pgDir l.1 = some t) (he : m.entry l = .none) (h1 : m.memMap p = 1) (hlo : LOW_MEM ≤ p)
    (hhi : p < m.highMemory) (rw dirty : Bool) :
    Law U held (m.setEntry t l.2 (.page p rw dirty)) := by
  have hslot : m.slot l = none := by simp [slot, he]
  have hpage : m.ref (.entry l) = none := by simp [ref, he]
  have hheld : update (update held p 1) p 0 = held := by
    rw [update_idem, ← hh, update_eq_self]
  refine h.store hl (h.entry_setEntry (mem_places.mp hl).1 ht l.2 _) rfl rfl rfl rfl ?_ ?_
    h.bits (fun q => ?_) h.quiet h.handed
  · have hgain := h.pages.gain (.refl _) (entry_mem_allPlaces.mpr hl) hpage hlo hhi h1 (update_self ..)
    rw [hheld] at hgain
    exact hgain
  · rw [Pte.slot?_page, ← hslot, update_eq_self]
    exact h.slots
  · rcases eq_or_ne q p with rfl | hne
    · simp [hh]
    · have hle := h.held_le q
      rwa [update_of_ne hne] at hle

/-- A page that no place refers to is still referred to by none after swapping out. -/
theorem Law.evicts_count (h : Law U (update held p 1) m) (h1 : m.memMap p = 1)
    (hlo : LOW_MEM ≤ p) (hhi : p < m.highMemory) (hev : Evicts m m')
    (h' : Law U (update held p 1) m') : m'.memMap p = 1 := by
  have hle : m.memMap p ≤ update held p 1 p := by rw [h1, update_self]
  have hzero : refs allPlaces m'.ref p = 0 := by
    apply refs_eq_zero_iff.mpr
    intro i hi hp
    refine h.pages.unreferred hlo hle hi ?_
    cases i with
    | entry l =>
      rcases hev.entry l with he | ⟨-, hno⟩
      · rwa [ref, he] at hp
      · rw [ref, hno] at hp
        cases hp
    | dir d => rwa [ref, hev.pgDir] at hp
    | task n => rwa [ref, hev.task] at hp
  have hsum := h'.pages.count_eq hlo (hev.highMemory ▸ hhi)
  rw [hzero, update_self] at hsum
  omega

theorem putPage_spec (h : Law U (update held p 1) m) (hh : held p = 0) (hl : l ∈ places)
    (he : m.entry l = .none) (h1 : m.memMap p = 1) (hlo : LOW_MEM ≤ p) (hhi : p < m.highMemory)
    (dirty : Bool) :
    ∃ m' r, m.putPage p l dirty = some (m', r) ∧ (r = true → Law U held m') ∧
      (r = false → Law U (update held p 1) m' ∧ m'.memMap p = 1 ∧ p < m'.highMemory) ∧
      m'.task = m.task ∧ m'.limit = m.limit ∧ ∀ d, d ≠ l.1 → m'.pgDir d = m.pgDir d := by
  unfold putPage
  rw [if_neg (by omega)]
  simp only [h1, ne_eq, not_true_eq_false, if_false]
  cases ht : m.pgDir l.1 with
  | some t =>
    exact ⟨_, true, rfl, fun _ => h.fill hh hl ht he h1 hlo hhi true dirty, nofun, rfl, rfl,
      fun _ _ => rfl⟩
  | none =>
    obtain ⟨m₁, r, hrun, hres⟩ := getFreePage_spec h
    simp only [hrun, Option.map_some]
    cases r with
    | none =>
      obtain ⟨hev, hlaw⟩ := hres
      exact ⟨m₁, false, rfl, nofun, fun _ => ⟨hlaw, h.evicts_count h1 hlo hhi hev hlaw,
        hev.highMemory ▸ hhi⟩, hev.task, hev.limit, fun _ _ => by rw [hev.pgDir]⟩
    | some t =>
      obtain ⟨m₀, hev₀, hlaw₀, hlot, hhit, h0, rfl⟩ := hres
      have hres' : Got U (update held p 1) m (m₀.take t) t := ⟨m₀, hev₀, hlaw₀, hlot, hhit, h0, rfl⟩
      obtain ⟨hev, hlaw, hht, h1t, -, -, hempty⟩ := hres'.spec
      have hnone : (m₀.take t).pgDir l.1 = none := by rw [hev.pgDir, ht]
      have hlaw₁ := hlaw.addDir hht (mem_places.mp hl).1 hnone hempty h1t hlot hhit
      have hp₀ := h.evicts_count h1 hlo hhi hev₀ hlaw₀
      have hne : p ≠ t := by
        rintro rfl
        omega
      have hp₁ : (m₀.take t).memMap p = 1 := (update_of_ne hne ..).trans hp₀
      have he₁ : ((m₀.take t).setDir l.1 (some t)).entry l = .none :=
        (entry_of_dir (update_self ..) l.2).trans (congrFun hempty l.2)
      refine ⟨_, true, rfl, fun _ => hlaw₁.fill hh hl (update_self ..) he₁ hp₁ hlo
        (hev.highMemory ▸ hhi) true dirty, nofun, hev.task, hev.limit, fun d hd => ?_⟩
      change update (m₀.take t).pgDir l.1 (some t) d = m.pgDir d
      rw [update_of_ne hd, hev.pgDir]

/-- A holder gives back a page that nothing else uses. -/
theorem Law.giveBack (h : Law U (update held p 1) m) (hh : held p = 0) (h1 : m.memMap p = 1)
    (hlo : LOW_MEM ≤ p) (hhi : p < m.highMemory) : Law U held (m.setCount p 0) :=
  { h with
    pages := by
      have hback := h.pages.giveBack hlo hhi h1 (update_self ..)
      rw [update_idem, ← hh, update_eq_self, hh] at hback
      exact hback
    held_le := fun q => by
      rcases eq_or_ne q p with rfl | hne
      · simp [hh]
      · have hle := h.held_le q
        rwa [update_of_ne hne] at hle }

theorem getEmptyPage_spec (h : Law U held m) (hr : Regions m) (hl : l ∈ places)
    (he : m.entry l = .none) (hlim : l.1 % TASK_DIRS < m.limit (l.1 / TASK_DIRS))
    (ht : m.task (l.1 / TASK_DIRS) ≠ none) :
    ∃ m' r, m.getEmptyPage l = some (m', r) ∧ Law U held m' ∧ Regions m' := by
  have hregions : ∀ {m'}, m'.task = m.task → m'.limit = m.limit →
      (∀ d, d ≠ l.1 → m'.pgDir d = m.pgDir d) → Regions m' := by
    intro m' htask hlimit hdir
    refine ⟨fun n => hlimit ▸ hr.limit_le n, hlimit ▸ hr.limit_zero, fun {n d} hn ht' hd => ?_,
      fun {n d} hn hd hlim' => ?_⟩
    · rw [htask] at ht'
      have hne : d ≠ l.1 := fun e => ht (by rw [← e, hd, ht'])
      rw [hdir d hne]
      exact hr.empty hn ht' hd
    · rw [hlimit] at hlim'
      have hne : d ≠ l.1 := by
        rintro rfl
        rw [hd] at hlim
        omega
      rw [hdir d hne]
      exact hr.beyond hn hd hlim'
  obtain ⟨m₁, r, hrun, hres⟩ := getFreePage_spec h
  unfold getEmptyPage
  simp only [hrun, Option.bind_some]
  cases r with
  | none =>
    obtain ⟨hev, hlaw⟩ := hres
    exact ⟨m₁, false, rfl, hlaw, hr.of_evicts hev⟩
  | some p =>
    obtain ⟨hev, hlaw, hh, h1, hlo, hhi, -⟩ := hres.spec
    have he₁ : m₁.entry l = .none := (hev.entry_eq (by simp [he])).trans he
    obtain ⟨m₂, r, hrun₂, htrue, hfalse, htask, hlimit, hdir⟩ :=
      putPage_spec hlaw hh hl he₁ h1 hlo hhi false
    have hr₂ : Regions m₂ := hregions (htask.trans hev.task) (hlimit.trans hev.limit) fun d hd => by
      rw [hdir d hd, hev.pgDir]
    simp only [hrun₂, Option.bind_some]
    cases r with
    | true => exact ⟨m₂, true, rfl, htrue rfl, hr₂⟩
    | false =>
      obtain ⟨hlaw₂, h1', hhi'⟩ := hfalse rfl
      have hfreed := freePage_eq hlo hhi' (by omega : m₂.memMap p ≠ 0)
      simp only [hfreed, Option.map_some, h1']
      exact ⟨_, false, rfl, hlaw₂.giveBack hh h1' hlo hhi',
        hr₂.limit_le, hr₂.limit_zero, hr₂.empty, hr₂.beyond⟩

theorem store_spec (h : Law U held m) (hr : Regions m) (hl : l ∈ places) {b : Bytes}
    (hrun : m.store l b = some m') : Law U held m' ∧ Regions m' := by
  unfold store at hrun
  cases ht : m.pgDir l.1 with
  | none => simp [ht] at hrun
  | some t =>
    have htab : m.entry l = m.table t l.2 := entry_of_dir ht l.2
    rw [ht] at hrun
    simp only at hrun
    split at hrun
    · next p rw hp =>
      obtain rfl := Option.some.inj hrun
      have hlaw := h.reflag hl ht (p := p) (by rw [htab, hp]; rfl) true true
      exact ⟨hlaw.of_same rfl rfl rfl rfl rfl rfl hlaw.cursor hlaw.quiet hlaw.handed,
        hr.limit_le, hr.limit_zero, hr.empty, hr.beyond⟩
    · cases hrun

end Fault

end Linux012.Paging
