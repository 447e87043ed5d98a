import Linux012.Mm.Touch

/-! # Each task reads what it wrote

The tasks share pages, give them to the swap device and get them back, and bring them in from their files; but
what a task reads at an address is what it wrote there last, or what its parent had there when it was forked, or
what its file has. This is so as long as the write that `do_wp_page` was called for follows at once, and a page is
free whenever `un_wp_page` or `try_to_share` asks for one.
-/

namespace Linux012.Paging

open Function Refs Runs Mm

variable {U : ℕ → Bool} {held : ℕ → ℕ} {m m' : Mm} {t p n nr cur : ℕ} {l l' : ℕ × ℕ} {r : Bool} {b : Bytes}

/-! ## What a task reads -/

/-- The address of the task `n` at the same offset -/
def atTask (n : ℕ) (l : ℕ × ℕ) : ℕ × ℕ := (n * TASK_DIRS + l.1 % TASK_DIRS, l.2)

/-- `image` is what `do_no_page` brings in at an address that has no page, and `mem` what the task has there:
what it wrote last, or what it began with. -/
structure Tasks where
  mm : Mm
  image : ℕ × ℕ → Bytes
  mem : ℕ × ℕ → Bytes

/-- An address of a task that runs, or of task 0 -/
def Mapped (m : Mm) (l : ℕ × ℕ) : Prop := Within m l ∨ l.1 = 0 ∧ l.2 < 0xA0

/-- What is read at an address is what the task has there. -/
def Tasks.Reads (s : Tasks) (l : ℕ × ℕ) : Prop := s.mm.Clean s.image l ∧ s.mm.view s.image l = s.mem l

structure Private (U : ℕ → Bool) (s : Tasks) : Prop where
  consistent : Consistent U s.mm
  sole : Sole s.mm
  reads {l : ℕ × ℕ} : Mapped s.mm l → s.Reads l

theorem Mapped.user (h : Mapped m l) : User l := h.imp Within.mem_places id

variable {s s' : Tasks}

/-- Nothing changes for the tasks. -/
theorem Private.of_keeps {V : ℕ → Bool} (h : Private U s) (hc : Consistent V m') (hs : Sole m')
    (hm : ∀ l, Mapped m' l → Mapped s.mm l ∧ Keeps s.image l s.mm m') : Private V { s with mm := m' } where
  consistent := hc
  sole := hs
  reads {l} hl := by
    obtain ⟨hl', hk⟩ := hm l hl
    obtain ⟨hclean, hview⟩ := h.reads hl'
    obtain ⟨hv, hc'⟩ := hk hclean
    exact ⟨hc', hv.trans hview⟩

theorem Mapped.of_same (h : Mapped m' l) (htask : m'.task = m.task) (hlimit : m'.limit = m.limit) : Mapped m l := by
  rcases h with ⟨⟨h1, h2, h3⟩, hlim, he⟩ | h
  · exact .inl ⟨⟨h1, h2, htask ▸ h3⟩, hlimit ▸ hlim, he⟩
  · exact .inr h

theorem Private.of_evicts {V : ℕ → Bool} (h : Private U s) (hc : Consistent V m') (hev : Evicts s.mm m') :
    Private V { s with mm := m' } :=
  h.of_keeps hc (h.sole.of_shrinks hev.shrinks) fun l hl =>
    have hl' := hl.of_same hev.task hev.limit
    ⟨hl', hev.keeps s.image l hl'.user⟩

/-! ## The tasks -/

/-- A call or a fault of a task. `free_page_tables` is the one of `do_exit`, `do_execve` and `sys_uselib`, and the
last two map another file. -/
inductive Event
  | fork (cur : ℕ)
  | exit (n : ℕ)
  | exec (n : ℕ) (file : ℕ × ℕ → Bytes)
  | uselib (n : ℕ) (file : ℕ → Bytes)
  | swapOut
  | swapIn (l : ℕ × ℕ)
  | fault (l : ℕ × ℕ)
  | share (l l' : ℕ × ℕ)
  | write (l : ℕ × ℕ) (b : Bytes)

namespace Tasks

/-- The child has the file of its parent, and what its parent has in the entries that are copied. -/
def forked (s : Tasks) (nr cur : ℕ) (m : Mm) : Tasks where
  mm := m
  image l := if l.1 / TASK_DIRS = nr then s.image (atTask cur l) else s.image l
  mem l :=
    if l.1 / TASK_DIRS = nr then
      if l.2 < copiedEntries cur then s.mem (atTask cur l) else s.image (atTask cur l)
    else s.mem l

/-- The task begins with what its file has. -/
def execed (s : Tasks) (n : ℕ) (file : ℕ × ℕ → Bytes) (m : Mm) : Tasks where
  mm := m
  image l := if l.1 / TASK_DIRS = n then file (l.1 % TASK_DIRS, l.2) else s.image l
  mem l := if l.1 / TASK_DIRS = n then file (l.1 % TASK_DIRS, l.2) else s.mem l

/-- The last 4 MB of the task begin with what the library has. -/
def linked (s : Tasks) (n : ℕ) (file : ℕ → Bytes) (m : Mm) : Tasks where
  mm := m
  image l := if l.1 = n * TASK_DIRS + (TASK_DIRS - 1) then file l.2 else s.image l
  mem l := if l.1 = n * TASK_DIRS + (TASK_DIRS - 1) then file l.2 else s.mem l

def step : Event → Tasks → Option Tasks
  | .fork cur, s =>
    if cur = 0 ∨ Live s.mm cur then
      match s.mm.findSlot with
      | none => some s
      | some nr => (s.mm.copyProcess nr cur).map fun
        | (m, true) => s.forked nr cur m
        | (m, false) => { s with mm := m }
    else none
  | .exit n, s => if Live s.mm n then (s.mm.exit n).map fun m => { s with mm := m } else none
  | .exec n file, s => if Live s.mm n then (s.mm.exec n).map (s.execed n file) else none
  | .uselib n file, s =>
    if Live s.mm n then (s.mm.freePageTables (n * TASK_DIRS + (TASK_DIRS - 1)) 1).map (s.linked n file) else none
  | .swapOut, s => s.mm.swapOut.map fun x => { s with mm := x.1 }
  | .swapIn l, s =>
    if Within s.mm l then
      (s.mm.pgDir l.1).bind fun t => (s.mm.swapIn t l.2).map fun x => { s with mm := x.1 }
    else none
  | .fault l, s =>
    if Within s.mm l ∧ s.mm.entry l = .none then
      (s.mm.filePage l (s.image l)).map fun x => { s with mm := x.1 }
    else none
  | .share l l', s =>
    if Within s.mm l ∧ s.mm.entry l = .none ∧ Live s.mm (l'.1 / TASK_DIRS) ∧ l'.1 / TASK_DIRS ≠ l.1 / TASK_DIRS ∧
        l'.1 % TASK_DIRS = l.1 % TASK_DIRS ∧ l'.2 = l.2 then
      (s.mm.tryToShare l l').map fun x => { s with mm := x.1 }
    else none
  | .write l b, s =>
    if Within s.mm l then
      (s.mm.write l b).map fun x => { s with mm := x.1, mem := if x.2 then update s.mem l b else s.mem }
    else none

/-- `un_wp_page` and `try_to_share` do not sleep, and two tasks share the pages of the same file. -/
def Sound (s : Tasks) : Event → Prop
  | .write l _ => CanCopy s.mm l
  | .share l l' => s.image l = s.image l' ∧ (s.mm.pgDir l.1 = none → HasFree s.mm)
  | _ => True

end Tasks

/-- The tables of a task are given back. -/
theorem freeTask_sheds (h : Law U held m) (hr : Regions m) (hn : n ∈ taskSlots)
    (hrun : m.freePageTables (n * TASK_DIRS) (m.limit n) = some m') : Sheds (· / TASK_DIRS = n) m m' := by
  obtain ⟨hn1, hn2⟩ := mem_taskSlots.mp hn
  have hlim : m.limit n ≤ 16 := hr.limit_le n
  obtain ⟨_, hrun', -, hshed, -⟩ := freePageTables_spec (d := n * TASK_DIRS) (k := m.limit n) h
    (by simp only [TASK_DIRS]; omega) (by simp only [TASK_DIRS]; omega)
  obtain rfl := Option.some.inj (hrun'.symm.trans hrun)
  exact hshed.mono fun d hd => by simp only [TASK_DIRS] at *; omega

theorem Mapped.within (h : Mapped m l) (hn : n ∈ taskSlots) (hd : l.1 / TASK_DIRS = n) : Within m l := by
  have hpos := (mem_taskSlots.mp hn).1
  rcases h with h | ⟨h0, -⟩
  · exact h
  · rw [h0, Nat.zero_div] at hd
    omega

/-- The task at the address `l` is as before. -/
theorem Mapped.of_task (h : Mapped m' l) (htask : m'.task (l.1 / TASK_DIRS) = m.task (l.1 / TASK_DIRS))
    (hlimit : m'.limit (l.1 / TASK_DIRS) = m.limit (l.1 / TASK_DIRS)) : Mapped m l := by
  rcases h with ⟨⟨h1, h2, h3⟩, hlim, he⟩ | h
  · exact .inl ⟨⟨h1, h2, htask ▸ h3⟩, hlimit ▸ hlim, he⟩
  · exact .inr h

/-- Nothing changes for the other tasks, and `n` begins with its file. -/
theorem Private.of_sheds {T : ℕ → Prop} (h : Private U s) (hc : Consistent U s'.mm) (hs : Sole s'.mm)
    (hm : ∀ l, Mapped s'.mm l → ¬ T l.1 → Mapped s.mm l ∧ Keeps s.image l s.mm s'.mm ∧ s'.image l = s.image l ∧
      s'.mem l = s.mem l)
    (hT : ∀ l, Mapped s'.mm l → T l.1 → s'.Reads l) : Private U s' where
  consistent := hc
  sole := hs
  reads {l} hl := by
    by_cases ht : T l.1
    · exact hT l hl ht
    · obtain ⟨hl', hk, himage, hmem⟩ := hm l hl ht
      obtain ⟨hclean, hview⟩ := h.reads hl'
      obtain ⟨hv, hc'⟩ := hk hclean
      refine ⟨fun p rw he hlo => (hc' p rw he hlo).trans himage.symm, ?_⟩
      rw [hmem, ← hview, ← hv]
      unfold view
      rw [himage]

theorem Tasks.Reads.of_none (he : s.mm.entry l = .none) (h : s.image l = s.mem l) : s.Reads l :=
  ⟨clean_none he, (view_none he).trans h⟩

section Steps

variable {s s' : Tasks}

theorem exit_private (h : Private U s) (hlive : Live s.mm n) (hrun : s.mm.exit n = some m') :
    Private U { s with mm := m' } := by
  obtain ⟨⟨held, hlaw⟩, hr⟩ := h.consistent
  have hn := hlive.mem_taskSlots
  obtain ⟨p, hp⟩ := Option.ne_none_iff_exists'.mp hlive.2.2
  obtain ⟨_, hrun', hlaw', hr'⟩ := exit_spec hlaw hr hn hp
  obtain rfl := Option.some.inj (hrun.symm.trans hrun')
  unfold exit at hrun
  simp only [hp] at hrun
  obtain ⟨m₁, hrun₁, hrun⟩ := Option.bind_eq_some_iff.mp hrun
  have hshed := freeTask_sheds hlaw hr hn hrun₁
  have hentry := freePage_entry hrun
  have hsame : m'.task = update m₁.task n none ∧ m'.limit = m₁.limit := by
    unfold freePage at hrun
    split_ifs at hrun <;> obtain rfl := Option.some.inj hrun <;> exact ⟨rfl, rfl⟩
  have hgone (l : ℕ × ℕ) (hl : Mapped m' l) : l.1 / TASK_DIRS ≠ n := by
    intro hd
    refine (hl.within hn hd).1.2.2 ?_
    rw [hd, hsame.1, update_self]
  refine h.of_sheds (T := (· / TASK_DIRS = n)) ⟨⟨held, hlaw'⟩, hr'⟩
    ((h.sole.of_shrinks (freePageTables_shrinks hrun₁)).of_entry hentry) (fun l hl hne => ?_)
    fun l hl hd => absurd hd (hgone l hl)
  have hl' : Mapped s.mm l := hl.of_task (by rw [hsame.1, update_of_ne (hgone l hl), hshed.task])
    (by rw [hsame.2, hshed.limit])
  refine ⟨hl', ?_, rfl, rfl⟩
  exact ((hshed.keeps s.image l hl'.user hne).trans (.of_same rfl (fun _ _ => rfl) fun _ _ _ _ => rfl)).trans
    (freePage_keeps hrun s.image l)

theorem exec_private (h : Private U s) (hlive : Live s.mm n) (file : ℕ × ℕ → Bytes) (hrun : s.mm.exec n = some m') :
    Private U (s.execed n file m') := by
  obtain ⟨⟨held, hlaw⟩, hr⟩ := h.consistent
  have hn := hlive.mem_taskSlots
  obtain ⟨_, hrun', hlaw', hr'⟩ := exec_spec hlaw hr hn
  obtain rfl := Option.some.inj (hrun.symm.trans hrun')
  obtain ⟨m₁, hrun₁, rfl⟩ := Option.map_eq_some_iff.mp hrun
  have hshed := freeTask_sheds hlaw hr hn hrun₁
  obtain ⟨_, hrun₁', -, -, -, -, hempty⟩ := freeTask_spec hlaw hr hn
  obtain rfl := Option.some.inj (hrun₁.symm.trans hrun₁')
  refine h.of_sheds (T := (· / TASK_DIRS = n)) ⟨⟨held, hlaw'⟩, hr'⟩
    ((h.sole.of_shrinks (freePageTables_shrinks hrun₁)).of_entry rfl) (fun l hl hne => ?_) fun l hl hd => ?_
  · have hl' : Mapped s.mm l := hl.of_task (congrFun hshed.task _)
      ((update_of_ne hne ..).trans (congrFun hshed.limit _))
    refine ⟨hl', ?_, if_neg hne, if_neg hne⟩
    exact (hshed.keeps s.image l hl'.user hne).trans (.of_same rfl (fun _ _ => rfl) fun _ _ _ _ => rfl)
  · apply Tasks.Reads.of_none
    · exact entry_of_no_dir (hempty l.1 hd)
    · exact (if_pos hd).trans (if_pos hd).symm

theorem uselib_private (h : Private U s) (hlive : Live s.mm n) (file : ℕ → Bytes)
    (hrun : s.mm.freePageTables (n * TASK_DIRS + (TASK_DIRS - 1)) 1 = some m') :
    Private U (s.linked n file m') := by
  obtain ⟨⟨held, hlaw⟩, hr⟩ := h.consistent
  obtain ⟨h1, h2, -⟩ := hlive
  simp only [NR_TASKS] at h2
  obtain ⟨_, hrun', hlaw', hshed, hempty, -⟩ :=
    freePageTables_spec (d := n * TASK_DIRS + (TASK_DIRS - 1)) (k := 1) hlaw (by simp only [TASK_DIRS]; omega)
      (by simp only [TASK_DIRS]; omega)
  obtain rfl := Option.some.inj (hrun.symm.trans hrun')
  have hshed' : Sheds (· = n * TASK_DIRS + (TASK_DIRS - 1)) s.mm m' := hshed.mono fun d hd => by omega
  refine h.of_sheds (T := (· = n * TASK_DIRS + (TASK_DIRS - 1))) ⟨⟨held, hlaw'⟩, hr.of_sheds hshed⟩
    (h.sole.of_shrinks (freePageTables_shrinks hrun)) (fun l hl hne => ?_) fun l hl hd => ?_
  · have hl' : Mapped s.mm l := hl.of_same hshed.task hshed.limit
    exact ⟨hl', hshed'.keeps s.image l hl'.user hne, if_neg hne, if_neg hne⟩
  · apply Tasks.Reads.of_none
    · exact entry_of_no_dir (hempty l.1 (by omega) (by omega))
    · exact (if_pos hd).trans (if_pos hd).symm

theorem swapIn_private (h : Private U s) (hin : Within s.mm l) (ht : s.mm.pgDir l.1 = some t)
    (hrun : s.mm.swapIn t l.2 = some (m', r)) : Private U { s with mm := m' } := by
  obtain ⟨⟨held, hlaw⟩, hr⟩ := h.consistent
  obtain ⟨_, _, hrun', hlaw', hdirs⟩ := swapIn_spec hlaw hin.mem_places ht
  obtain ⟨rfl, rfl⟩ := Prod.mk.inj (Option.some.inj (hrun.symm.trans hrun'))
  obtain ⟨hsole, hkeep⟩ := swapIn_keeps hlaw hin.mem_places ht hrun
  refine h.of_keeps ⟨⟨held, hlaw'⟩, hr.of_same hdirs.pgDir hdirs.task hdirs.limit⟩ (hsole h.sole) fun a ha => ?_
  have ha' := ha.of_same hdirs.task hdirs.limit
  exact ⟨ha', hkeep s.image a ha'.user⟩

theorem fault_private (h : Private U s) (hin : Within s.mm l) (he : s.mm.entry l = .none)
    (hrun : s.mm.filePage l (s.image l) = some (m', r)) : Private U { s with mm := m' } := by
  obtain ⟨⟨held, hlaw⟩, hr⟩ := h.consistent
  obtain ⟨_, _, hrun', hlaw', hr', htask, hlimit, hsole, hkeep⟩ := filePage_spec hlaw hr hin he (s.image l)
  obtain ⟨rfl, rfl⟩ := Prod.mk.inj (Option.some.inj (hrun.symm.trans hrun'))
  refine h.of_keeps ⟨⟨held, hlaw'⟩, hr'⟩ (hsole h.sole) fun a ha => ?_
  have ha' := ha.of_same htask hlimit
  exact ⟨ha', hkeep s.image a ha'.user rfl⟩

theorem mem_places_of_live (hlive : Live m (l.1 / TASK_DIRS)) (hl : l.2 < 1024) : l ∈ places := by
  obtain ⟨h1, h2, -⟩ := hlive
  refine mem_places.mpr ⟨mem_dirs.mpr ?_, hl⟩
  simp only [TASK_DIRS, NR_TASKS] at h1 h2
  omega

theorem Private.clean (h : Private U s) (hin : l ∈ places) (ht : s.mm.pgDir l.1 ≠ none) : s.mm.Clean s.image l := by
  obtain ⟨-, hr⟩ := h.consistent
  obtain ⟨hd, he⟩ := mem_places.mp hin
  rw [mem_dirs] at hd
  have hn : l.1 / TASK_DIRS ∈ taskSlots := mem_taskSlots.mpr (by simp only [TASK_DIRS]; omega)
  refine (h.reads (.inl ⟨⟨(mem_taskSlots.mp hn).1, (mem_taskSlots.mp hn).2, fun hnone => ?_⟩, ?_, he⟩)).1
  · exact ht (hr.empty hn hnone rfl)
  · by_contra hge
    exact ht (hr.beyond hn rfl (not_lt.mp hge))

theorem share_private (h : Private U s) (hin : Within s.mm l) (he : s.mm.entry l = .none)
    (hlive : Live s.mm (l'.1 / TASK_DIRS)) (hne : l'.1 / TASK_DIRS ≠ l.1 / TASK_DIRS)
    (hmod : l'.1 % TASK_DIRS = l.1 % TASK_DIRS) (hsnd : l'.2 = l.2) (hok : s.Sound (.share l l'))
    (hrun : s.mm.tryToShare l l' = some (m', r)) : Private U { s with mm := m' } := by
  obtain ⟨⟨held, hlaw⟩, hr⟩ := h.consistent
  obtain ⟨himage, hfree⟩ := hok
  have hl' : l' ∈ places := mem_places_of_live hlive (hsnd ▸ hin.2.2)
  have hdir : l'.1 ≠ l.1 := fun e => hne (by rw [e])
  have hshared := tryToShare_spec hlaw hin.mem_places hl' hmod hsnd hdir he hfree hrun
  have hclean : s.mm.Clean s.image l' := by
    cases hf : s.mm.pgDir l'.1 with
    | none => exact clean_none (entry_of_no_dir hf)
    | some ft => exact h.clean hl' (by simp [hf])
  refine h.of_keeps ⟨⟨held, hshared.law⟩, ?_⟩ (hshared.sole h.sole) fun a ha => ?_
  · exact hr.of_dir hin.2.1 hin.1.2.2 hshared.task hshared.limit fun d hd => hshared.dir_of_ne hd
  · have ha' := ha.of_same hshared.task hshared.limit
    exact ⟨ha', hshared.keeps s.image a ha'.user himage hclean⟩

theorem write_private (h : Private U s) (hin : Within s.mm l) (hcan : CanCopy s.mm l)
    (hrun : s.mm.write l b = some (m', r)) :
    Private U { s with mm := m', mem := if r then update s.mem l b else s.mem } := by
  obtain ⟨⟨held, hlaw⟩, hr⟩ := h.consistent
  obtain ⟨⟨m₁, r₁⟩, hrun₁, hrun₂⟩ := Option.bind_eq_some_iff.mp hrun
  obtain ⟨rfl, -⟩ := writeVerify_touches hlaw h.sole hin.mem_places hcan hrun₁
  obtain ⟨_, -, heq⟩ := Option.map_eq_some_iff.mp hrun₂
  obtain ⟨-, rfl⟩ := Prod.mk.inj heq
  obtain ⟨htouch, hr', p, he, hb⟩ := write_touches hlaw hr h.sole hin.mem_places hcan hrun
  refine ⟨⟨⟨held, htouch.law⟩, hr'⟩, htouch.sole, fun {a} ha => ?_⟩
  change m'.Clean s.image a ∧ m'.view s.image a = update s.mem l b a
  rcases eq_or_ne a l with rfl | hne
  · rw [update_self]
    constructor
    · intro q rw hq _
      rw [he] at hq
      cases hq
    · rw [view, he, ← hb]
  · obtain ⟨hclean, hview⟩ := h.reads (ha.of_same htouch.task htouch.limit)
    obtain ⟨hv, hc'⟩ := htouch.keeps s.image a (ha.of_same htouch.task htouch.limit).user hne hclean
    rw [update_of_ne hne]
    exact ⟨hc', hv.trans hview⟩

/-- The entries that are copied are addresses of the parent. -/
theorem mapped_of_copied (hr : Regions m) (hcur : cur = 0 ∨ Live m cur) {j i : ℕ} (hj : j < m.limit cur)
    (hi : i < copiedEntries cur) : Mapped m (cur * TASK_DIRS + j, i) := by
  have hlim : m.limit cur ≤ 16 := hr.limit_le cur
  have hzero := hr.limit_zero
  rcases hcur with rfl | hlive
  · exact .inr ⟨by simp only; omega, hi⟩
  · have hd : (cur * TASK_DIRS + j) / TASK_DIRS = cur := by simp only [TASK_DIRS]; omega
    have hm : (cur * TASK_DIRS + j) % TASK_DIRS = j := by simp only [TASK_DIRS]; omega
    unfold copiedEntries at hi
    rw [if_neg (by have := hlive.1; omega)] at hi
    exact .inl ⟨hd.symm ▸ hlive, by simp only [hd, hm, hj], hi⟩

theorem fork_private (h : Private U s) (hcur : cur = 0 ∨ Live s.mm cur) (hslot : s.mm.findSlot = some nr)
    (hrun : s.mm.copyProcess nr cur = some (m', r)) :
    Private U (if r then s.forked nr cur m' else { s with mm := m' }) := by
  obtain ⟨⟨held, hlaw⟩, hr⟩ := h.consistent
  obtain ⟨hn, hfree⟩ := findSlot_spec hslot
  obtain ⟨hn1, hn2⟩ := mem_taskSlots.mp hn
  have hlt : cur < NR_TASKS ∧ cur ≠ nr := by
    rcases hcur with rfl | ⟨-, hlt, hsome⟩
    · exact ⟨by decide, by omega⟩
    · refine ⟨hlt, ?_⟩
      rintro rfl
      exact hsome hfree
  obtain ⟨_, _, hrun', hlaw', hr', hforked⟩ := copyProcess_spec hlaw hr hn hfree hlt.1 hlt.2
  obtain ⟨rfl, rfl⟩ := Prod.mk.inj (Option.some.inj (hrun.symm.trans hrun'))
  obtain ⟨hinherits, henters⟩ := copyProcess_inherits hlaw hr hn hfree hlt.1 hlt.2 hrun
  have hother (a : ℕ × ℕ) (ha : Mapped m' a) (hne : a.1 / TASK_DIRS ≠ nr) : Mapped s.mm a :=
    ha.of_task (henters.task hne) (henters.limit_of_ne hne)
  cases r with
  | false =>
    refine h.of_keeps ⟨⟨held, hlaw'⟩, hr'⟩ (hinherits.sole h.sole) fun a ha => ?_
    have hne : a.1 / TASK_DIRS ≠ nr := fun e => (ha.within hn e).1.2.2 (by rw [e, hforked.task rfl])
    have ha' := hother a ha hne
    exact ⟨ha', hforked.keeps s.image a ha'.user hne⟩
  | true =>
    refine h.of_sheds (T := (· / TASK_DIRS = nr)) ⟨⟨held, hlaw'⟩, hr'⟩ (hinherits.sole h.sole)
      (fun a ha hne => ?_) fun a ha hd => ?_
    · have ha' := hother a ha hne
      exact ⟨ha', hforked.keeps s.image a ha'.user hne, if_neg hne, if_neg hne⟩
    · obtain ⟨-, hlim, he⟩ := ha.within hn hd
      change a.1 % TASK_DIRS < m'.limit (a.1 / TASK_DIRS) at hlim
      rw [hd, henters.limit rfl] at hlim
      have ha' : a = (nr * TASK_DIRS + a.1 % TASK_DIRS, a.2) := by
        ext
        · simp only [TASK_DIRS] at *
          omega
        · rfl
      have hle : s.mm.limit cur ≤ 16 := hr.limit_le cur
      have hin (j : ℕ) (hj : j < s.mm.limit cur) :
          (nr * TASK_DIRS + j) / TASK_DIRS = nr ∧ (cur * TASK_DIRS + j) / TASK_DIRS ≠ nr ∧
            (nr * TASK_DIRS + j) % TASK_DIRS = j := by
        have hne := hlt.2
        simp only [TASK_DIRS]
        omega
      -- the file of the parent is the same whether the child has it or not
      have himage (j : ℕ) (hj : j < s.mm.limit cur) (i : ℕ) :
          (s.forked nr cur m').image (cur * TASK_DIRS + j, i) = s.image (cur * TASK_DIRS + j, i) :=
        if_neg (hin j hj).2.1
      have hchild (j : ℕ) (hj : j < s.mm.limit cur) (i : ℕ) :
          (s.forked nr cur m').image (nr * TASK_DIRS + j, i) = s.image (cur * TASK_DIRS + j, i) := by
        obtain ⟨hd, -, hm⟩ := hin j hj
        refine (if_pos hd).trans (congrArg s.image ?_)
        rw [atTask, hm]
      have hreads (j : ℕ) (hj : j < s.mm.limit cur) (i : ℕ) (hi : i < copiedEntries cur) :=
        h.reads (mapped_of_copied hr hcur hj hi)
      obtain ⟨hview, hclean⟩ := hinherits.child (s.forked nr cur m').image rfl
        (fun j hj i => (hchild j hj i).trans (himage j hj i).symm)
        (fun j hj i hi p rw hq hlo => ((hreads j hj i hi).1 p rw hq hlo).trans (himage j hj i).symm)
        (a.1 % TASK_DIRS) hlim a.2 he
      rw [← ha'] at hview hclean
      refine ⟨hclean, hview.trans ?_⟩
      change _ = if a.1 / TASK_DIRS = nr then _ else _
      rw [if_pos hd]
      refine if_ctx_congr Iff.rfl (fun hi => ?_) fun hi => ?_
      · rw [atTask, ← (hreads _ hlim _ hi).2]
        unfold view
        rw [himage _ hlim]
      · exact if_pos hd

/-- Every event keeps what the tasks read. -/
theorem step_private {e : Event} (h : Private U s) (hok : s.Sound e) (hstep : s.step e = some s') : Private U s' := by
  cases e with
  | fork cur =>
    simp only [Tasks.step] at hstep
    split_ifs at hstep with hcur
    cases hslot : s.mm.findSlot with
    | none =>
      simp only [hslot] at hstep
      obtain rfl := Option.some.inj hstep
      exact h
    | some nr =>
      simp only [hslot] at hstep
      obtain ⟨⟨m', r⟩, hrun, rfl⟩ := Option.map_eq_some_iff.mp hstep
      have hforked := fork_private h hcur hslot hrun
      cases r <;> exact hforked
  | exit n =>
    simp only [Tasks.step] at hstep
    split_ifs at hstep with hlive
    obtain ⟨m', hrun, rfl⟩ := Option.map_eq_some_iff.mp hstep
    exact exit_private h hlive hrun
  | exec n file =>
    simp only [Tasks.step] at hstep
    split_ifs at hstep with hlive
    obtain ⟨m', hrun, rfl⟩ := Option.map_eq_some_iff.mp hstep
    exact exec_private h hlive file hrun
  | uselib n file =>
    simp only [Tasks.step] at hstep
    split_ifs at hstep with hlive
    obtain ⟨m', hrun, rfl⟩ := Option.map_eq_some_iff.mp hstep
    exact uselib_private h hlive file hrun
  | swapOut =>
    obtain ⟨⟨m', r⟩, hrun, rfl⟩ := Option.map_eq_some_iff.mp hstep
    obtain ⟨⟨held, hlaw⟩, hr⟩ := h.consistent
    obtain ⟨_, _, hrun', hlaw', hev, -⟩ := swapOut_spec hlaw
    obtain ⟨rfl, rfl⟩ := Prod.mk.inj (Option.some.inj (hrun.symm.trans hrun'))
    exact h.of_evicts ⟨⟨held, hlaw'⟩, hr.of_evicts hev⟩ hev
  | swapIn l =>
    simp only [Tasks.step] at hstep
    split_ifs at hstep with hin
    obtain ⟨t, ht, hstep⟩ := Option.bind_eq_some_iff.mp hstep
    obtain ⟨⟨m', r⟩, hrun, rfl⟩ := Option.map_eq_some_iff.mp hstep
    exact swapIn_private h hin ht hrun
  | fault l =>
    simp only [Tasks.step] at hstep
    split_ifs at hstep with hin
    obtain ⟨⟨m', r⟩, hrun, rfl⟩ := Option.map_eq_some_iff.mp hstep
    exact fault_private h hin.1 hin.2 hrun
  | share l l' =>
    simp only [Tasks.step] at hstep
    split_ifs at hstep with hin
    obtain ⟨hin, he, hlive, hne, hmod, hsnd⟩ := hin
    obtain ⟨⟨m', r⟩, hrun, rfl⟩ := Option.map_eq_some_iff.mp hstep
    exact share_private h hin he hlive hne hmod hsnd hok hrun
  | write l b =>
    simp only [Tasks.step] at hstep
    split_ifs at hstep with hin
    obtain ⟨⟨m', r⟩, hrun, rfl⟩ := Option.map_eq_some_iff.mp hstep
    exact write_private h hin hok hrun

end Steps

theorem run_private {s s' : Tasks} (h : Private U s) (hrun : Run Tasks.step Tasks.Sound s s') : Private U s' :=
  hrun.invariant h fun _ _ _ hI hok hstep => step_private hI hok hstep

/-! ## From the start -/

theorem setBytes_evicts (h : Law U held m) (hlo : LOW_MEM ≤ p) (hc : m.memMap p ≤ held p) (b : Bytes) :
    Evicts m (m.setBytes p b) where
  pgDir := rfl
  task := rfl
  limit := rfl
  fresh := rfl
  highMemory := rfl
  entry _ := .inl rfl
  keeps image l hl := by
    refine .of_same rfl (fun _ _ => rfl) fun q _ _ hq => update_of_ne ?_ ..
    rintro rfl
    exact h.unmapped hl hlo hc (by rw [hq, Pte.page?_page])

theorem freePage_evicts (h : m.freePage p = some m') : Evicts m m' := by
  have hkeep := freePage_keeps h
  have hentry := freePage_entry h
  unfold freePage at h
  split_ifs at h <;> obtain rfl := Option.some.inj h <;>
    exact ⟨rfl, rfl, rfl, rfl, rfl, fun l => .inl (congrFun hentry l), fun image l _ => hkeep image l⟩

theorem Mm.Evicts.bitmap (h : Evicts m m') (bits : Option (ℕ → Bool)) : Evicts m { m' with swapBitmap := bits } :=
  ⟨h.pgDir, h.task, h.limit, h.fresh, h.highMemory, h.entry, h.keeps⟩

/-- `init_swapping` changes nothing that a task reads. -/
theorem initSwapping_evicts (h : Law noSwap held m) {dev : ℕ} {blocks : Option ℕ}
    (hrun : m.initSwapping dev blocks = some m') : Evicts m m' := by
  have hprint (msg : Message) (hx : some (m.print msg) = some m') : Evicts m m' := by
    obtain rfl := Option.some.inj hx
    exact print_evicts m msg
  have hsame (hx : some m = some m') : Evicts m m' := by
    obtain rfl := Option.some.inj hx
    exact .refl m
  unfold initSwapping at hrun
  split_ifs at hrun with hdev
  · exact hsame hrun
  obtain - | blocks := blocks
  · exact hprint _ hrun
  simp only at hrun
  split_ifs at hrun with hzero hsmall
  · exact hsame hrun
  · exact hprint _ hrun
  obtain ⟨m₁, r, hget, hres⟩ := getFreePage_spec h
  simp only [hget, Option.bind_some] at hrun
  cases r with
  | none =>
    obtain rfl := Option.some.inj hrun
    exact hres.1.trans (print_evicts ..)
  | some p =>
    obtain ⟨hev, hlaw, -, h1, hlo, -, -⟩ := hres.spec
    have hheld (m₂ : Mm) (hm : m₂.memMap = m₁.memMap) : m₂.memMap p ≤ update held p 1 p := by
      rw [hm, h1, update_self]
    have hlaw₂ (f : Bytes) : Law noSwap (update held p 1) (m₁.setBytes p f) :=
      hlaw.of_same rfl rfl rfl rfl rfl rfl hlaw.cursor hlaw.quiet hlaw.handed
    have hev₂ (f : Bytes) : Evicts m (m₁.setBytes p f) := hev.trans (setBytes_evicts hlaw hlo (hheld m₁ rfl) f)
    have hev₃ (f g : Bytes) : Evicts m ((m₁.setBytes p f).setBytes p g) :=
      (hev₂ f).trans (setBytes_evicts (hlaw₂ f) hlo (hheld _ rfl) g)
    simp only at hrun
    split_ifs at hrun with hsig hbad hfree
    · exact ((hev₂ _).trans (print_evicts ..)).trans (freePage_evicts hrun)
    · exact ((hev₃ _ _).trans (print_evicts ..)).trans (freePage_evicts hrun)
    · exact (hev₃ _ _).trans (freePage_evicts hrun)
    · obtain rfl := Option.some.inj hrun
      exact ((hev₃ _ _).trans (print_evicts ..)).bitmap _

/-- The tasks before the first fork: task 0 has physical memory. -/
def Tasks.start (m : Mm) (file : ℕ × ℕ → Bytes) : Tasks := ⟨m, file, m.view file⟩

theorem start_private {start high : ℕ} (swapDev : ℕ → Bytes) (hhigh : high ≤ LOW_MEM + PAGING_PAGES)
    (file : ℕ × ℕ → Bytes) : Private noSwap (.start (boot start high swapDev) file) where
  consistent := boot_consistent swapDev hhigh
  sole l hl p dirty he := by
    change (boot start high swapDev).entry l = _ at he
    rw [boot_entry (mem_places.mp hl).1] at he
    cases he
  reads {l} hl := by
    refine ⟨fun p rw he hlo => ?_, rfl⟩
    rcases hl with ⟨⟨-, -, hnone⟩, -⟩ | ⟨h0, he0⟩
    · exact absurd rfl hnone
    · obtain ⟨d, e⟩ := l
      obtain rfl : d = 0 := h0
      have hp : ((boot start high swapDev).entry (0, e)).page? = some p := (congrArg Pte.page? he).trans rfl
      exact absurd ((boot_law swapDev hhigh).kernelPage he0 hp) hlo.not_gt

/-- A task reads what it has, and a page that it can write is read nowhere else. -/
def Tasks.Isolated (s : Tasks) : Prop :=
  ∀ l, Mapped s.mm l → s.mm.view s.image l = s.mem l ∧
    (Within s.mm l → ∀ p dirty, s.mm.entry l = .page p true dirty →
      ∀ l', Mapped s.mm l' → l' ≠ l → (s.mm.entry l').page? ≠ some p)

theorem Private.isolated (h : Private U s) : s.Isolated := by
  obtain ⟨⟨held, hlaw⟩, -⟩ := h.consistent
  intro l hl
  exact ⟨(h.reads hl).2, fun hin p dirty he l' hl' hne => h.sole.unmapped hlaw hin.mem_places he hl'.user hne⟩

/-- From the start of the kernel, before and after `init_swapping`, the tasks are isolated. -/
theorem tasks_isolated {start high dev : ℕ} {swapDev : ℕ → Bytes} {file : ℕ × ℕ → Bytes} {blocks : Option ℕ}
    {s s' : Tasks} {m₁ : Mm} {bits : ℕ → Bool} (hhigh : high ≤ LOW_MEM + PAGING_PAGES)
    (hrun : Run Tasks.step Tasks.Sound (.start (boot start high swapDev) file) s)
    (hinit : s.mm.initSwapping dev blocks = some m₁) (hbits : m₁.swapBitmap = some bits)
    (hrun' : Run Tasks.step Tasks.Sound { s with mm := m₁ } s') : s.Isolated ∧ s'.Isolated := by
  have hbefore := run_private (start_private swapDev hhigh file) hrun
  obtain ⟨⟨held, hlaw⟩, hr⟩ := hbefore.consistent
  have hacc := initSwapping_spec hlaw hr hinit hbits
  have hafter := hbefore.of_evicts ⟨hacc.law, hacc.regions⟩ (initSwapping_evicts hlaw hinit)
  exact ⟨hbefore.isolated, (run_private hafter hrun').isolated⟩

/-- Task 1 is forked, writes to the memory that it shares with task 0, and the page goes to the swap device. -/
def loneStart : Tasks := .start bareBoot fun _ _ => 0

def loneForked : Tasks :=
  (runList Tasks.step [.fork 0] { loneStart with mm := swapBoot }).get (by decide +kernel)

def loneSwapped : Tasks :=
  (runList Tasks.step [.write (16, 0) fun _ => 7, .swapOut] loneForked).get (by decide +kernel)

theorem tasks_isolated_swapped : loneStart.Isolated ∧ loneSwapped.Isolated ∧
    loneSwapped.mm.entry (16, 0) = .swapped 1 ∧ loneSwapped.mem (16, 0) 0 = 7 := by
  have hsound : Each Tasks.step Tasks.Sound [.fork 0] { loneStart with mm := swapBoot } :=
    fun _ _ => ⟨trivial, trivial⟩
  have hfork : Run Tasks.step Tasks.Sound { loneStart with mm := swapBoot } loneForked :=
    .of_each hsound (Option.some_get _).symm
  have hcan : CanCopy loneForked.mm (16, 0) := fun _ _ _ => .inr ⟨0x101, by decide +kernel, by decide +kernel⟩
  have hsound' : Each Tasks.step Tasks.Sound [.write (16, 0) fun _ => 7, .swapOut] loneForked :=
    fun _ _ => ⟨hcan, fun _ _ => ⟨trivial, trivial⟩⟩
  have hwrite : Run Tasks.step Tasks.Sound loneForked loneSwapped := .of_each hsound' (Option.some_get _).symm
  have hhigh : 0x105 ≤ LOW_MEM + PAGING_PAGES := by decide
  have hstart : Run Tasks.step Tasks.Sound (.start (boot 0x100 0x105 fun _ => swapHeader) fun _ _ => 0) loneStart :=
    .refl
  obtain ⟨hstart, hswapped⟩ := tasks_isolated hhigh hstart swapBoot_accepted rfl (hfork.trans hwrite)
  exact ⟨hstart, hswapped, by decide +kernel, by decide +kernel⟩

end Linux012.Paging
