import Linux012.Lib.Runs
import Linux012.Mm.Calls

/-! # Swap pages

Once `init_swapping` has accepted a bit map, every swap page handed out is one of the device and
is named by no page table, and each swap page in use is named by exactly one entry, whatever
sequence of calls follows.
-/

namespace Linux012.Paging

open Function Refs Runs Mm

variable {U : ℕ → Bool} {held : ℕ → ℕ} {m m' : Mm} {p n dev size nr : ℕ}

/-- Without a bit map no page table names a swap page. -/
def noSwap : ℕ → Bool := fun _ => false

section Init

theorem badBits_spec (h : m.badBits p size = false) (nr : ℕ) (hlt : nr < SWAP_BITS)
    (hbit : m.bitAt p nr = true) : 1 ≤ nr ∧ nr < size := by
  unfold badBits at h
  rw [Bool.or_eq_false_iff, List.any_eq_false] at h
  obtain ⟨hzero, hrest⟩ := h
  constructor
  · rcases Nat.eq_zero_or_pos nr with rfl | hpos
    · rw [hzero] at hbit
      cases hbit
    · exact hpos
  · by_contra hge
    have hmem : nr ∈ List.range' size (max 1 (SWAP_BITS - size)) :=
      List.mem_range'_1.mpr ⟨by omega, by omega⟩
    exact hrest nr hmem hbit

theorem Law.bits_eq (h : Law noSwap held m) {b : ℕ → Bool} (hb : m.swapBitmap = some b) :
    b = noSwap := by
  ext1 nr
  cases hnr : b nr with
  | false => rfl
  | true => exact (h.bits hb hnr).symm

theorem Law.reject (h : Law noSwap (update held p 1) m) (hh : held p = 0) (h1 : m.memMap p = 1)
    (hlo : LOW_MEM ≤ p) (hhi : p < m.highMemory) (hrun : m.freePage p = some m') :
    Law noSwap held m' := by
  rw [freePage_eq hlo hhi (by omega), h1] at hrun
  obtain rfl := Option.some.inj hrun
  exact h.giveBack hh h1 hlo hhi

theorem Law.accept (h : Law noSwap held m) {b : ℕ → Bool}
    (hrange : ∀ nr, b nr = true → 1 ≤ nr ∧ nr < SWAP_BITS) :
    Law b held { m with swapBitmap := some b } where
  pages := h.pages
  slots := h.slots.congr fun nr => by simp [InUse, noSwap]
  bits hb hnr := Option.some.inj hb ▸ hnr
  range := hrange _
  held_le := h.held_le
  high_le := h.high_le
  dirPage := h.dirPage
  taskPage := h.taskPage
  kernelDir := h.kernelDir
  kernelSlot := h.kernelSlot
  kernelPage := h.kernelPage
  cursor := h.cursor
  quiet := h.quiet
  handed x hx := absurd (h.handed x hx).1 (by simp [noSwap])

theorem Regions.of_same (h : Regions m) (hdir : m'.pgDir = m.pgDir) (htask : m'.task = m.task)
    (hlimit : m'.limit = m.limit) : Regions m' where
  limit_le n := hlimit ▸ h.limit_le n
  limit_zero := hlimit ▸ h.limit_zero
  empty hn ht hd := hdir ▸ h.empty hn (htask ▸ ht) hd
  beyond hn hd hlim := hdir ▸ h.beyond hn hd (hlimit ▸ hlim)

/-- A bit map has been accepted. -/
structure Accepted (b : ℕ → Bool) (size : ℕ) (m : Mm) : Prop where
  law : ∃ held, Law b held m
  regions : Regions m
  bits {nr : ℕ} : b nr = true → 1 ≤ nr ∧ nr < size

theorem Law.rejected (h : Law noSwap held m) (hr : Regions m) {b : ℕ → Bool}
    (hb : m.swapBitmap = some b) : Accepted b size m := by
  obtain rfl := h.bits_eq hb
  exact ⟨⟨held, h⟩, hr, nofun⟩

theorem Law.freed (h : Law noSwap (update held p 1) m) (hr : Regions m) (hh : held p = 0)
    (h1 : m.memMap p = 1) (hlo : LOW_MEM ≤ p) (hhi : p < m.highMemory)
    (hrun : m.freePage p = some m') {b : ℕ → Bool} (hb : m'.swapBitmap = some b) :
    Accepted b size m' := by
  have hlaw := h.reject hh h1 hlo hhi hrun
  rw [freePage_eq hlo hhi (by omega)] at hrun
  obtain rfl := Option.some.inj hrun
  exact hlaw.rejected (hr.of_same rfl rfl rfl) hb

theorem initSwapping_spec (h : Law noSwap held m) (hr : Regions m)
    {blocks : Option ℕ} (hrun : m.initSwapping dev blocks = some m') {b : ℕ → Bool}
    (hb : m'.swapBitmap = some b) : Accepted b (swapSize (blocks.getD 0)) m' := by
  unfold initSwapping at hrun
  split_ifs at hrun with hdev
  · obtain rfl := Option.some.inj hrun
    exact h.rejected hr hb
  obtain - | blocks := blocks
  · obtain rfl := Option.some.inj hrun
    exact (h.print (by simp) (by simp)).rejected (hr.of_same rfl rfl rfl) hb
  simp only at hrun
  split_ifs at hrun with hzero hsmall
  · obtain rfl := Option.some.inj hrun
    exact h.rejected hr hb
  · obtain rfl := Option.some.inj hrun
    exact (h.print (by simp) (by simp)).rejected (hr.of_same rfl rfl rfl) hb
  obtain ⟨m₁, r, hget, hres⟩ := getFreePage_spec h
  simp only [hget, Option.bind_some] at hrun
  cases r with
  | none =>
    obtain ⟨hev, hlaw⟩ := hres
    obtain rfl := Option.some.inj hrun
    exact (hlaw.print (by simp) (by simp)).rejected ((hr.of_evicts hev).of_same rfl rfl rfl) hb
  | some p =>
    obtain ⟨hev, hlaw, hh, h1, hlo, hhi, -⟩ := hres.spec
    have hr₁ := hr.of_evicts hev
    -- the bit map is read into the page, which no entry maps
    have hlaw₂ : ∀ f, Law noSwap (update held p 1) (m₁.setBytes p f) := fun f =>
      hlaw.of_same rfl rfl rfl rfl rfl rfl hlaw.cursor hlaw.quiet hlaw.handed
    simp only at hrun
    split_ifs at hrun with hsig hbad hfree
    · exact ((hlaw₂ _).print (by simp) (by simp)).freed (hr₁.of_same rfl rfl rfl) hh h1 hlo hhi hrun hb
    · have hlaw₃ : ∀ f g, Law noSwap (update held p 1) ((m₁.setBytes p f).setBytes p g) := fun f g =>
        (hlaw₂ f).of_same rfl rfl rfl rfl rfl rfl hlaw.cursor hlaw.quiet hlaw.handed
      exact ((hlaw₃ _ _).print (by simp) (by simp)).freed (hr₁.of_same rfl rfl rfl) hh h1 hlo hhi hrun hb
    · have hlaw₃ : ∀ f g, Law noSwap (update held p 1) ((m₁.setBytes p f).setBytes p g) := fun f g =>
        (hlaw₂ f).of_same rfl rfl rfl rfl rfl rfl hlaw.cursor hlaw.quiet hlaw.handed
      exact (hlaw₃ _ _).freed (hr₁.of_same rfl rfl rfl) hh h1 hlo hhi hrun hb
    · obtain rfl := Option.some.inj hrun
      obtain rfl := Option.some.inj hb
      have hok := badBits_spec (Bool.not_eq_true _ ▸ hbad)
      have hlaw₃ : ∀ f g, Law noSwap (update held p 1) ((m₁.setBytes p f).setBytes p g) := fun f g =>
        (hlaw₂ f).of_same rfl rfl rfl rfl rfl rfl hlaw.cursor hlaw.quiet hlaw.handed
      refine ⟨⟨_, ((hlaw₃ _ _).print (by simp) (by simp)).accept fun nr hnr => ?_⟩,
        hr₁.of_same rfl rfl rfl, fun {nr} hnr => ?_⟩
      · rw [Bool.and_eq_true, decide_eq_true_eq] at hnr
        exact ⟨(hok nr hnr.1 hnr.2).1, hnr.1⟩
      · rw [Bool.and_eq_true, decide_eq_true_eq] at hnr
        exact hok nr hnr.1 hnr.2

end Init

/-- A call of a task. -/
inductive Call
  | fork (cur : ℕ)
  | exit (n : ℕ)
  | exec (n : ℕ)
  | uselib (n : ℕ)
  | swapOut
  | swapIn (l : ℕ × ℕ)
  | emptyPage (l : ℕ × ℕ)
  | store (l : ℕ × ℕ) (b : Bytes)

/-- A task that can make a call. -/
def Live (m : Mm) (n : ℕ) : Prop := 1 ≤ n ∧ n < NR_TASKS ∧ m.task n ≠ none

instance (m : Mm) (n : ℕ) : Decidable (Live m n) := inferInstanceAs (Decidable (_ ∧ _ ∧ _))

/-- The address is one of a task, within its limit. -/
def Within (m : Mm) (l : ℕ × ℕ) : Prop :=
  Live m (l.1 / TASK_DIRS) ∧ l.1 % TASK_DIRS < m.limit (l.1 / TASK_DIRS) ∧ l.2 < 1024

instance (m : Mm) (l : ℕ × ℕ) : Decidable (Within m l) := inferInstanceAs (Decidable (_ ∧ _ ∧ _))

/-- A call that is completed. `free_page_tables` is the one of `do_exit`, `do_execve` and
`sys_uselib`, and `emptyPage` is `do_no_page` for an address without a page. -/
def step : Call → Mm → Option Mm
  | .fork cur, m =>
    if cur = 0 ∨ Live m cur then
      match m.findSlot with
      | none => some m
      | some nr => (m.copyProcess nr cur).map (·.1)
    else none
  | .exit n, m => if Live m n then m.exit n else none
  | .exec n, m => if Live m n then m.exec n else none
  | .uselib n, m =>
    if Live m n then m.freePageTables (n * TASK_DIRS + (TASK_DIRS - 1)) 1 else none
  | .swapOut, m => m.swapOut.map (·.1)
  | .swapIn l, m =>
    if Within m l then (m.pgDir l.1).bind fun t => (m.swapIn t l.2).map (·.1) else none
  | .emptyPage l, m =>
    if Within m l ∧ m.entry l = .none then (m.getEmptyPage l).map (·.1) else none
  | .store l b, m => if Within m l then m.store l b else none

/-- The pages and the swap pages are accounted for. -/
def Consistent (U : ℕ → Bool) (m : Mm) : Prop := (∃ held, Law U held m) ∧ Regions m

theorem Within.mem_places {l : ℕ × ℕ} (h : Within m l) : l ∈ places := by
  obtain ⟨⟨h1, h2, -⟩, -, he⟩ := h
  refine Paging.mem_places.mpr ⟨mem_dirs.mpr ?_, he⟩
  simp only [TASK_DIRS, NR_TASKS] at h1 h2
  omega

theorem Live.mem_taskSlots (h : Live m n) : n ∈ taskSlots := Paging.mem_taskSlots.mpr ⟨h.1, h.2.1⟩

theorem findSlot_spec (h : m.findSlot = some nr) : nr ∈ taskSlots ∧ m.task nr = none := by
  unfold findSlot at h
  have hmem := List.mem_range'_1.mp (List.mem_of_find?_eq_some h)
  have hfree := List.find?_some h
  simp only [NR_TASKS] at hmem
  exact ⟨mem_taskSlots.mpr (by omega), of_decide_eq_true hfree⟩

/-- Every call keeps the accounts. -/
theorem step_keeps {c : Call} (h : Consistent U m) (hstep : step c m = some m') :
    Consistent U m' := by
  obtain ⟨⟨held, hlaw⟩, hr⟩ := h
  cases c with
  | fork cur =>
    simp only [step] at hstep
    split_ifs at hstep with hlive
    cases hslot : m.findSlot with
    | none =>
      simp only [hslot] at hstep
      obtain rfl := Option.some.inj hstep
      exact ⟨⟨held, hlaw⟩, hr⟩
    | some nr =>
      obtain ⟨hn, hfree⟩ := findSlot_spec hslot
      have hn1 := (mem_taskSlots.mp hn).1
      have hcur : cur < NR_TASKS ∧ cur ≠ nr := by
        rcases hlive with rfl | ⟨-, hlt, hsome⟩
        · exact ⟨by decide, by omega⟩
        · refine ⟨hlt, ?_⟩
          rintro rfl
          exact hsome hfree
      obtain ⟨m₁, r, hrun, hlaw', hr', -⟩ := copyProcess_spec hlaw hr hn hfree hcur.1 hcur.2
      simp only [hslot, hrun, Option.map_some] at hstep
      obtain rfl := Option.some.inj hstep
      exact ⟨⟨held, hlaw'⟩, hr'⟩
  | exit n =>
    simp only [step] at hstep
    split_ifs at hstep with hlive
    obtain ⟨p, hp⟩ := Option.ne_none_iff_exists'.mp hlive.2.2
    obtain ⟨m₁, hrun, hlaw', hr'⟩ := exit_spec hlaw hr hlive.mem_taskSlots hp
    obtain rfl := Option.some.inj (hrun.symm.trans hstep)
    exact ⟨⟨held, hlaw'⟩, hr'⟩
  | exec n =>
    simp only [step] at hstep
    split_ifs at hstep with hlive
    obtain ⟨m₁, hrun, hlaw', hr'⟩ := exec_spec hlaw hr hlive.mem_taskSlots
    obtain rfl := Option.some.inj (hrun.symm.trans hstep)
    exact ⟨⟨held, hlaw'⟩, hr'⟩
  | uselib n =>
    simp only [step] at hstep
    split_ifs at hstep with hlive
    obtain ⟨h1, h2, -⟩ := hlive
    simp only [TASK_DIRS, NR_TASKS] at hstep h2
    obtain ⟨m₁, hrun, hlaw', hshed, -⟩ :=
      freePageTables_spec (d := n * 16 + 15) (k := 1) hlaw (by omega) (by omega)
    obtain rfl := Option.some.inj (hrun.symm.trans hstep)
    exact ⟨⟨held, hlaw'⟩, hr.of_sheds hshed⟩
  | swapOut =>
    obtain ⟨m₁, r, hrun, hlaw', hev, -⟩ := swapOut_spec hlaw
    simp only [step, hrun, Option.map_some] at hstep
    obtain rfl := Option.some.inj hstep
    exact ⟨⟨held, hlaw'⟩, hr.of_evicts hev⟩
  | swapIn l =>
    simp only [step] at hstep
    split_ifs at hstep with hin
    obtain ⟨t, ht, hstep⟩ := Option.bind_eq_some_iff.mp hstep
    obtain ⟨m₁, r, hrun, hlaw', hdirs⟩ := swapIn_spec hlaw hin.mem_places ht
    simp only [hrun, Option.map_some] at hstep
    obtain rfl := Option.some.inj hstep
    exact ⟨⟨held, hlaw'⟩, hr.of_same hdirs.pgDir hdirs.task hdirs.limit⟩
  | emptyPage l =>
    simp only [step] at hstep
    split_ifs at hstep with hin
    obtain ⟨hin, he⟩ := hin
    obtain ⟨m₁, r, hrun, hlaw', hr'⟩ :=
      getEmptyPage_spec hlaw hr hin.mem_places he hin.2.1 hin.1.2.2
    simp only [hrun, Option.map_some] at hstep
    obtain rfl := Option.some.inj hstep
    exact ⟨⟨held, hlaw'⟩, hr'⟩
  | store l b =>
    simp only [step] at hstep
    split_ifs at hstep with hin
    obtain ⟨hlaw', hr'⟩ := store_spec hlaw hr hin.mem_places hstep
    exact ⟨⟨held, hlaw'⟩, hr'⟩

theorem run_keeps {ok : Mm → Call → Prop} (h : Consistent U m) (hrun : Run step ok m m') :
    Consistent U m' :=
  hrun.invariant h fun _ _ _ hI _ hstep => step_keeps hI hstep

/-- Memory after `mem_init`: the pages from `start` to `high` are free, and task 0 has the page
tables at the pages 1 to 4, which map physical memory. -/
def boot (start high : ℕ) (swapDev : ℕ → Bytes) : Mm where
  highMemory := high
  memMap p := if start ≤ p ∧ p < high then 0 else USED
  pgDir d := if d < 4 then some (d + 1) else none
  table t e := if 1 ≤ t ∧ t < 5 then .page ((t - 1) * 1024 + e) true false else .none
  bytes _ _ := 0
  swapBitmap := none
  swapDev := swapDev
  dirEntry := FIRST_VM_DIR
  nextEntry := 0
  task _ := none
  limit n := if n = 0 then 1 else 0
  printed := []
  handed := []
  fresh := []

theorem boot_entry {start high : ℕ} {swapDev : ℕ → Bytes} {l : ℕ × ℕ} (hl : l.1 ∈ dirs) :
    (boot start high swapDev).entry l = .none := by
  have hd := mem_dirs.mp hl
  exact entry_of_no_dir (if_neg (by omega))

/-- The pages in use after `mem_init` are no one's that is counted. -/
theorem boot_law {start high : ℕ} (swapDev : ℕ → Bytes) (hhigh : high ≤ LOW_MEM + PAGING_PAGES) :
    Law noSwap (boot start high swapDev).memMap (boot start high swapDev) := by
  have href : ∀ i ∈ allPlaces, (boot start high swapDev).ref i = none := by
    intro i hi
    cases i with
    | entry l =>
      rw [entry_mem_allPlaces] at hi
      rw [ref, boot_entry (mem_places.mp hi).1]
      rfl
    | dir d =>
      rw [dir_mem_allPlaces, mem_dirs] at hi
      exact if_neg (by omega)
    | task n => rfl
  have hslot : ∀ l ∈ places, (boot start high swapDev).slot l = none := by
    intro l hl
    rw [slot, boot_entry (mem_places.mp hl).1]
    rfl
  have hkernel : ∀ l : ℕ × ℕ, l.1 < 4 →
      (boot start high swapDev).entry l = .page (l.1 * 1024 + l.2) true false := by
    intro l hl
    have hdir : (boot start high swapDev).pgDir l.1 = some (l.1 + 1) := if_pos hl
    refine (entry_of_dir (d := l.1) hdir l.2).trans ?_
    exact if_pos (by omega)
  exact {
    pages := by
      refine ⟨fun {p} _ _ => ?_, fun hi hp => ?_, fun hi _ hp => ?_, fun {p} hp => ?_⟩
      · rw [refs_eq_zero_iff.mpr fun i hi => by simp [href i hi], Nat.zero_add]
      · simp [href _ hi] at hp
      · simp [href _ hi] at hp
      · have hhi : high ≤ p := hp
        have hused : (boot start high swapDev).memMap p = USED := if_neg (by omega)
        simp [hused]
    slots := by
      refine ⟨fun hl hs => ?_, fun hu => ?_, fun hl _ hs => ?_⟩
      · simp [hslot _ hl] at hs
      · simp [InUse, noSwap] at hu
      · simp [hslot _ hl] at hs
    bits := fun h => by cases h
    range := fun h => by cases h
    held_le := fun p => by
      simp only [boot]
      split_ifs <;> simp
    high_le := hhigh
    dirPage := fun {d t} hd ht => by
      rw [mem_dirs] at hd
      simp only [boot] at ht
      rw [if_neg (by omega)] at ht
      cases ht
    taskPage := fun _ h => by cases h
    kernelDir := fun {d t} _ ht => by
      simp only [boot] at ht
      split_ifs at ht with hd
      obtain rfl := Option.some.inj ht
      simp only [LOW_MEM]
      omega
    kernelSlot := fun {l} _ => by
      by_cases hd : l.1 < 4
      · rw [slot, hkernel l hd]
        rfl
      · rw [slot, entry_of_no_dir (if_neg hd)]
        rfl
    kernelPage := fun {e p} he hp => by
      rw [hkernel (0, e) (by simp)] at hp
      simp only [Pte.page?_page, Option.some.injEq] at hp
      simp only [LOW_MEM]
      omega
    cursor := mem_dirs.mpr ⟨le_rfl, by simp [boot, FIRST_VM_DIR]⟩
    quiet := ⟨List.not_mem_nil, List.not_mem_nil⟩
    handed := fun _ hm => absurd hm List.not_mem_nil }

theorem boot_consistent {start high : ℕ} (swapDev : ℕ → Bytes)
    (hhigh : high ≤ LOW_MEM + PAGING_PAGES) : Consistent noSwap (boot start high swapDev) := by
  refine ⟨⟨_, boot_law swapDev hhigh⟩, fun n => ?_, le_rfl, fun {n d} hn _ hd => ?_,
    fun {n d} hn hd _ => ?_⟩
  · simp only [boot, TASK_DIRS]
    split_ifs <;> omega
  · have hpos := (mem_taskSlots.mp hn).1
    simp only [TASK_DIRS] at hd
    exact if_neg (by omega)
  · have hpos := (mem_taskSlots.mp hn).1
    simp only [TASK_DIRS] at hd
    exact if_neg (by omega)

/-- Once a bit map has been accepted, every swap page handed out is one of the device and is
named by no page table, each one in use is named by exactly one entry, and neither message about
a wrong count is printed. -/
theorem swap_pages_accounted {blocks : Option ℕ} {m₀ m₁ : Mm} {b : ℕ → Bool}
    (h₀ : Consistent noSwap m₀) (hinit : m₀.initSwapping dev blocks = some m₁)
    (hb : m₁.swapBitmap = some b) (hrun : Run step Always m₁ m) :
    (∀ h ∈ m.handed, (1 ≤ h.1 ∧ h.1 < swapSize (blocks.getD 0)) ∧
        ∀ l : ℕ × ℕ, l.2 < 1024 → h.2 l ≠ .swapped h.1) ∧
      (∀ nr, m.InUse b nr ↔ ∃ l : ℕ × ℕ, l.2 < 1024 ∧ m.entry l = .swapped nr) ∧
      (∀ nr (l l' : ℕ × ℕ), l.2 < 1024 → l'.2 < 1024 → m.entry l = .swapped nr →
        m.entry l' = .swapped nr → l = l') ∧
      .swapSpaceBad ∉ m.printed ∧ .swapInMultiply ∉ m.printed := by
  obtain ⟨⟨held, hlaw₀⟩, hr₀⟩ := h₀
  have hacc := initSwapping_spec hlaw₀ hr₀ hinit hb
  obtain ⟨⟨held', hlaw⟩, -⟩ := run_keeps ⟨hacc.law, hacc.regions⟩ hrun
  have hplace : ∀ {l : ℕ × ℕ} {nr}, l.2 < 1024 → m.entry l = .swapped nr →
      l ∈ places ∧ m.slot l = some nr := by
    intro l nr hl he
    have hs : m.slot l = some nr := by simp [slot, he]
    refine ⟨mem_places.mpr ⟨?_, hl⟩, hs⟩
    by_contra hd
    simp [hlaw.kernelSlot hd] at hs
  refine ⟨fun h hh => ?_, fun nr => ⟨fun hu => ?_, ?_⟩, ?_, hlaw.quiet⟩
  · obtain ⟨hU, hno⟩ := hlaw.handed h hh
    refine ⟨hacc.bits hU, fun l hl he => hno l hl ?_⟩
    simp [he]
  · obtain ⟨l, hl, hs⟩ := hlaw.slots.place hu
    exact ⟨l, (mem_places.mp hl).2, Pte.slot?_eq_some.mp hs⟩
  · rintro ⟨l, hl, he⟩
    obtain ⟨hmem, hs⟩ := hplace hl he
    exact hlaw.slots.used_of hmem hs
  · intro nr l l' hl hl' he he'
    obtain ⟨hmem, hs⟩ := hplace hl he
    obtain ⟨hmem', hs'⟩ := hplace hl' he'
    exact hlaw.slots.inj hmem hmem' hs hs'

theorem getFreePage_of_free (hp : m.lastFree PAGING_PAGES = some p) (hhi : p < m.highMemory) :
    m.getFreePage = some (m.take p, some p) := by
  unfold getFreePage getFreePageIn
  rw [hp]
  exact if_neg hhi.not_ge

/-- The page `p` holds the first page of the swap device, without the signature. -/
def readBitMap (m : Mm) (p : ℕ) : Mm :=
  (m.readSwapPage 0 p).setBytes p fun i =>
    if 4086 ≤ i ∧ i < 4096 then 0 else (m.readSwapPage 0 p).bytes p i

theorem initSwapping_accepts {blocks j : ℕ} {m₁ : Mm} (hdev : dev ≠ 0) (hblocks : 100 ≤ blocks)
    (hget : m.getFreePage = some (m₁, some p))
    (hsig : (List.range 10).map (fun i => (m₁.readSwapPage 0 p).bytes p (4086 + i)) = signature)
    (hbad : (readBitMap m₁ p).badBits p (swapSize blocks) = false)
    (hj : (List.range' 1 (swapSize blocks - 1)).countP ((readBitMap m₁ p).bitAt p) = j)
    (hj0 : j ≠ 0) :
    m.initSwapping dev (some blocks) = some { (readBitMap m₁ p).print (.deviceOk j) with
      swapBitmap := some fun nr => decide (nr < SWAP_BITS) && (readBitMap m₁ p).bitAt p nr } := by
  unfold initSwapping
  rw [if_neg hdev]
  simp only
  rw [if_neg (by omega), if_neg (by omega), hget]
  simp only [Option.bind_some, hsig, ne_eq, not_true_eq_false, if_false]
  have hbad' := hbad
  have hj' := hj
  unfold readBitMap at hbad' hj'
  rw [hbad', hj']
  simp only [Bool.false_eq_true, if_false, if_neg hj0]
  rfl

/-- The first page of a swap device of 100 blocks where the swap page 1 is free. -/
def swapHeader : Bytes := fun i =>
  if i = 0 then 2 else if i < 4086 then 0 else signature.getD (i - 4086) 0

/-- Five free pages and a swap device. -/
def bareBoot : Mm := boot 0x100 0x105 fun _ => swapHeader

/-- The last of the pages holds the bit map. -/
def swapBoot : Mm :=
  { (readBitMap (bareBoot.take 0x104) 0x104).print (.deviceOk 1) with
    swapBitmap := some fun nr =>
      decide (nr < SWAP_BITS) && (readBitMap (bareBoot.take 0x104) 0x104).bitAt 0x104 nr }

theorem swapBoot_accepted : bareBoot.initSwapping 0x301 (some 100) = some swapBoot := by
  have hget : bareBoot.getFreePage = some (bareBoot.take 0x104, some 0x104) :=
    getFreePage_of_free (by decide +kernel) (by decide)
  apply initSwapping_accepts (by decide) le_rfl hget (by decide +kernel) _ (by decide +kernel)
    (by decide)
  unfold badBits
  rw [Bool.or_eq_false_iff, List.any_eq_false]
  refine ⟨by decide +kernel, fun nr hnr => ?_⟩
  have hlt := List.mem_range'_1.mp hnr
  simp only [swapSize, SWAP_BITS] at hlt
  have hdiv : nr / SWAP_BITS = 0 := by simp only [SWAP_BITS]; omega
  have hmod : nr % SWAP_BITS = nr := by simp only [SWAP_BITS]; omega
  have hzero : (if 4086 ≤ nr / 8 ∧ nr / 8 < 4096 then 0 else swapHeader (nr / 8)) = 0 := by
    split_ifs with h
    · rfl
    · rw [swapHeader, if_neg (by omega), if_pos (by omega)]
  simp [bitAt, hdiv, hmod, readBitMap, setBytes, readSwapPage, bareBoot, boot, take, hzero]

/-- A task with a page that is written, and then swapped out. -/
def swapCalls : List Call :=
  [.fork 0, .emptyPage (16, 0xA0), .store (16, 0xA0) fun _ => 7, .swapOut]

def swapRun : Mm := (runList step swapCalls swapBoot).get (by decide +kernel)

theorem swap_pages_accounted_one :
    (∀ h ∈ swapRun.handed, (1 ≤ h.1 ∧ h.1 < swapSize 100) ∧
      ∀ l : ℕ × ℕ, l.2 < 1024 → h.2 l ≠ .swapped h.1) ∧ swapRun.entry (16, 0xA0) = .swapped 1 := by
  have hrun : Run step Always swapBoot swapRun := .of_runList_get _
  obtain ⟨hhanded, -⟩ :=
    swap_pages_accounted (boot_consistent _ (by decide)) swapBoot_accepted rfl hrun
  exact ⟨hhanded, by decide +kernel⟩

end Linux012.Paging
