import Linux012.Mm.Inherit
import Linux012.Mm.Slots

/-! # Faults and writes

What `do_no_page`, `try_to_share`, `swap_in` and a write with its fault change for the address they are for, and that
they change nothing for the others. `un_wp_page` and `try_to_share` keep an entry of a page table in mind while they
ask for a page, so a page is to be free then.
-/

namespace Linux012.Paging

open Function Refs Mm

variable {U : ℕ → Bool} {held : ℕ → ℕ} {m m' m'' : Mm} {d t p q k : ℕ} {l l' : ℕ × ℕ}
  {image : ℕ × ℕ → Bytes} {r : Bool} {b : Bytes}

/-- `&= ~2` on an entry -/
def Pte.protect : Pte → Pte
  | none => none
  | swapped nr => if nr < 2 then none else swapped (nr / 2 * 2)
  | page p _ dirty => page p false dirty

namespace Mm

/-- `do_no_page` for a page of a file that no other task shares. The result is `false` where `oom` is called. -/
def filePage (m : Mm) (l : ℕ × ℕ) (content : Bytes) : Option (Mm × Bool) :=
  m.getFreePage.bind fun
    | (m, none) => some (m, false)
    | (m, some p) => ((m.setBytes p content).putPage p l false).bind fun
      | (m, true) => some (m, true)
      | (m, false) => (m.freePage p).map (·, false)

/-- The page table for an address in `try_to_share`, unless `oom` is called. -/
def shareTable (m : Mm) (d : ℕ) : Option (Mm × Option ℕ) :=
  match m.pgDir d with
  | some t => some (m, some t)
  | none => m.getFreePage.map fun
    | (m, none) => (m, none)
    | (m, some t) => (m.setDir d (some t), some t)

/-- `try_to_share` for the address `l` of the current task and the address `l'` of the other one. -/
def tryToShare (m : Mm) (l l' : ℕ × ℕ) : Option (Mm × Bool) :=
  match m.pgDir l'.1 with
  | none => some (m, false)
  | some from_ =>
    match m.table from_ l'.2 with
    | .page p _ false =>
      if m.highMemory ≤ p ∨ p < LOW_MEM then some (m, false)
      else (m.shareTable l.1).bind fun
        | (m, none) => some (m, false)
        | (m, some to_) =>
          if (m.table to_ l.2).page?.isSome then none
          else
            let m := m.setEntry from_ l'.2 (m.table from_ l'.2).protect
            some ((m.setEntry to_ l.2 (m.table from_ l'.2)).incCount p, true)
    | _ => some (m, false)

/-- A write of a task with the write fault that it raises. -/
def write (m : Mm) (l : ℕ × ℕ) (b : Bytes) : Option (Mm × Bool) :=
  (m.writeVerify l).bind fun
    | (m, true) => (m.store l b).map (·, true)
    | (m, false) => some (m, false)

end Mm

/-! ## The bytes of a page that is held -/

theorem freePage_bytes (h : m.freePage p = some m') : m'.bytes = m.bytes := by
  unfold freePage at h
  split_ifs at h <;> obtain rfl := Option.some.inj h <;> rfl

theorem map_true {x : Option Mm} (h : x.map (·, true) = some (m', r)) : x = some m' := by
  obtain ⟨_, hx, heq⟩ := Option.map_eq_some_iff.mp h
  obtain ⟨rfl, -⟩ := Prod.mk.inj heq
  exact hx

theorem bytes_of_some {x : Mm × Bool} (hx : some x = some (m', r)) (hm : x.1.bytes = m.bytes) :
    m'.bytes = m.bytes := by
  obtain rfl := Option.some.inj hx
  exact hm

theorem getSwapPage_bytes {x : ℕ × Mm} (h : m.getSwapPage = some x) : x.2.bytes = m.bytes := by
  obtain ⟨b, -, h⟩ := Option.bind_eq_some_iff.mp h
  obtain ⟨nr, -, rfl⟩ := Option.map_eq_some_iff.mp h
  rfl

theorem tryToSwapOut_bytes (h : m.tryToSwapOut t e = some (m', r)) : m'.bytes = m.bytes := by
  unfold tryToSwapOut at h
  split at h
  · split_ifs at h
    · exact bytes_of_some h rfl
    · exact bytes_of_some h rfl
    · split at h
      · exact bytes_of_some h rfl
      · next hget => exact (freePage_bytes (map_true h)).trans (getSwapPage_bytes hget)
    · exact freePage_bytes (m := m.setEntry t e .none) (map_true h)
  · exact bytes_of_some h rfl

theorem advance_bytes (m : Mm) (c : ℕ) : (m.advance c).1.bytes = m.bytes := by
  unfold advance
  split_ifs <;> rfl

theorem sweep_bytes {c : ℕ} (h : sweep k c m = some (m', r)) : m'.bytes = m.bytes := by
  induction k generalizing m c with
  | zero => exact bytes_of_some h rfl
  | succ k ih =>
    cases c with
    | zero => exact bytes_of_some h rfl
    | succ c =>
      have hadv := advance_bytes m c
      unfold sweep at h
      split at h
      · next m₁ h₁ =>
        rw [h₁] at hadv
        exact (bytes_of_some (m := m₁) h rfl).trans hadv
      · next m₁ c₁ h₁ =>
        rw [h₁] at hadv
        split at h
        · cases h
        · obtain ⟨⟨m₂, r₂⟩, h₂, h₃⟩ := Option.bind_eq_some_iff.mp h
          have hb₂ := (tryToSwapOut_bytes h₂).trans hadv
          cases r₂ with
          | true => exact (bytes_of_some (m := m₂) h₃ rfl).trans hb₂
          | false => exact (ih h₃).trans hb₂

theorem swapOut_bytes (h : m.swapOut = some (m', r)) : m'.bytes = m.bytes :=
  (sweep_bytes h).trans rfl

/-- `get_free_page` does not touch a page that is held. -/
theorem getFreePageIn_bytes (h : Law U (update held p 1) m) (h1 : m.memMap p = 1) (hlo : LOW_MEM ≤ p)
    (hhi : p < m.highMemory) {x : Option ℕ} (hrun : getFreePageIn k m = some (m', x)) : m'.bytes p = m.bytes p := by
  induction k generalizing m with
  | zero => cases hrun
  | succ k ih =>
    unfold getFreePageIn at hrun
    cases hq : m.lastFree PAGING_PAGES with
    | some q =>
      obtain ⟨-, h0⟩ := lastFree_spec hq
      have hq' : q < m.highMemory := by
        by_contra hge
        exact h.pages.beyond (not_lt.mp hge) h0
      simp only [hq, if_neg hq'.not_ge] at hrun
      obtain ⟨rfl, -⟩ := Prod.mk.inj (Option.some.inj hrun)
      refine update_of_ne ?_ ..
      rintro rfl
      omega
    | none =>
      obtain ⟨m₁, r₁, hrun₁, hlaw, hev, -⟩ := swapOut_spec h
      simp only [hq, hrun₁, Option.bind_some] at hrun
      cases r₁ with
      | false =>
        obtain ⟨rfl, -⟩ := Prod.mk.inj (Option.some.inj hrun)
        exact congrFun (swapOut_bytes hrun₁) p
      | true =>
        have h1' := h.evicts_count h1 hlo hhi hev hlaw
        exact (ih hlaw h1' (hev.highMemory ▸ hhi) hrun).trans (congrFun (swapOut_bytes hrun₁) p)

/-- What `swap_in` does -/
theorem swapIn_keeps (h : Law U held m) (hl : l ∈ places) (ht : m.pgDir l.1 = some t)
    (hrun : m.swapIn t l.2 = some (m', r)) :
    (Sole m → Sole m') ∧ ∀ image l', User l' → Keeps image l' m m' := by
  have htab : m.entry l = m.table t l.2 := entry_of_dir ht l.2
  have hprint (msg : Message) (hx : some (m.print msg, true) = some (m', r)) :
      (Sole m → Sole m') ∧ ∀ image l', User l' → Keeps image l' m m' := by
    obtain ⟨rfl, -⟩ := Prod.mk.inj (Option.some.inj hx)
    exact ⟨fun hs => hs.of_entry rfl, fun image l' _ => .of_same rfl (fun _ _ => rfl) fun _ _ _ _ => rfl⟩
  unfold swapIn at hrun
  cases hb : m.swapBitmap with
  | none =>
    rw [hb] at hrun
    exact hprint _ hrun
  | some b₀ =>
    rw [hb] at hrun
    cases he : m.table t l.2 with
    | none =>
      rw [he] at hrun
      exact hprint _ hrun
    | page p rw dirty =>
      rw [he] at hrun
      exact hprint _ hrun
    | swapped nr =>
      rw [he] at hrun htab
      obtain ⟨m₁, r₁, hrun₁, hres⟩ := getFreePage_spec h
      simp only [hrun₁, Option.map_some] at hrun
      cases r₁ with
      | none =>
        obtain ⟨rfl, -⟩ := Prod.mk.inj (Option.some.inj hrun)
        exact ⟨fun hs => hs.of_shrinks hres.1.shrinks, fun image l' hl' => hres.1.keeps image l' hl'⟩
      | some p =>
        obtain ⟨hev, hlaw, -, h1, hlo, -, -⟩ := hres.spec
        have ht' : m₁.pgDir l.1 = some t := hev.pgDir ▸ ht
        have he' : m₁.entry l = .swapped nr := (hev.entry_eq (by rw [htab, Pte.page?_swapped])).trans htab
        obtain ⟨-, b, hb', hnr⟩ := hlaw.inUse hl he'
        have hbit : (m₁.readSwapPage nr p).swapBitmap = some b := hb'
        simp only [hbit, hnr] at hrun
        obtain ⟨rfl, -⟩ := Prod.mk.inj (Option.some.inj hrun)
        refine ⟨fun hs => ?_, fun image l' hl' => ?_⟩
        · exact (hs.of_shrinks hev.shrinks).update_fresh (fetched_entry nr p b hlaw hl ht') hlo fun a ha =>
            hlaw.unmapped (.inl ha) hlo (by rw [h1, update_self])
        · exact (hev.keeps image l' hl').trans (fetched_keeps (b := b) hlaw hl ht' he' h1 hlo hl')

/-! ## Page faults -/

theorem freePage_keeps (h : m.freePage p = some m') (image : ℕ × ℕ → Bytes) (l : ℕ × ℕ) : Keeps image l m m' := by
  refine .of_same (congrFun (freePage_entry h) l) (fun nr _ => ?_) fun q _ _ _ => congrFun (freePage_bytes h) q
  unfold freePage at h
  split_ifs at h <;> obtain rfl := Option.some.inj h <;> rfl

/-- A page that holds what a page fault brings in is put into an empty entry. -/
theorem fill_keeps (h : Law U (update held p 1) m) (hl : l ∈ places) (ht : m.pgDir l.1 = some t)
    (he : m.entry l = .none) (h1 : m.memMap p = 1) (hlo : LOW_MEM ≤ p) :
    (Sole m → Sole (m.setEntry t l.2 (.page p true false))) ∧
      ∀ image l', User l' → image l = m.bytes p → Keeps image l' m (m.setEntry t l.2 (.page p true false)) := by
  have hentry := h.entry_setEntry (mem_places.mp hl).1 ht l.2 (.page p true false)
  refine ⟨fun hs => hs.update_fresh hentry hlo fun a ha => h.unmapped (.inl ha) hlo (by rw [h1, update_self]),
    fun image l' _ hi => ?_⟩
  rcases eq_or_ne l' l with rfl | hne
  · have he' : (m.setEntry t l'.2 (.page p true false)).entry l' = .page p true false := by rw [hentry, update_self]
    intro _
    refine ⟨?_, fun q rw hq _ => ?_⟩
    · rw [view_none he, view, he', hi]
      rfl
    · rw [he'] at hq
      cases hq
      exact hi.symm
  · refine .of_same ?_ (fun _ _ => rfl) fun _ _ _ _ => rfl
    rw [hentry, update_of_ne hne]

theorem putPage_keeps (h : Law U (update held p 1) m) (hl : l ∈ places) (he : m.entry l = .none)
    (h1 : m.memMap p = 1) (hlo : LOW_MEM ≤ p) (hhi : p < m.highMemory)
    (hrun : m.putPage p l false = some (m', r)) :
    (Sole m → Sole m') ∧ ∀ image l', User l' → image l = m.bytes p → Keeps image l' m m' := by
  unfold putPage at hrun
  rw [if_neg (by omega)] at hrun
  simp only [h1, ne_eq, not_true_eq_false, if_false] at hrun
  cases ht : m.pgDir l.1 with
  | some t =>
    simp only [ht] at hrun
    obtain ⟨rfl, -⟩ := Prod.mk.inj (Option.some.inj hrun)
    exact fill_keeps h hl ht he h1 hlo
  | none =>
    obtain ⟨m₁, r₁, hrun₁, hres⟩ := getFreePage_spec h
    have hbytes := getFreePageIn_bytes h h1 hlo hhi hrun₁
    simp only [ht, hrun₁, Option.map_some] at hrun
    cases r₁ with
    | none =>
      obtain ⟨rfl, -⟩ := Prod.mk.inj (Option.some.inj hrun)
      exact ⟨fun hs => hs.of_shrinks hres.1.shrinks, fun image l' hl' _ => hres.1.keeps image l' hl'⟩
    | some t =>
      obtain ⟨rfl, -⟩ := Prod.mk.inj (Option.some.inj hrun)
      obtain ⟨m₀, hev₀, hlaw₀, hlot, hhit, h0, rfl⟩ := hres
      have hres' : Got U (update held p 1) m (m₀.take t) t := ⟨m₀, hev₀, hlaw₀, hlot, hhit, h0, rfl⟩
      obtain ⟨hev, hlaw, hht, h1t, -, -, hempty⟩ := hres'.spec
      have hnone : (m₀.take t).pgDir l.1 = none := by rw [hev.pgDir, ht]
      have hlaw₁ := hlaw.addDir hht (mem_places.mp hl).1 hnone hempty h1t hlot hhit
      have hentry₁ : ((m₀.take t).setDir l.1 (some t)).entry = (m₀.take t).entry := entry_addDir hnone hempty
      have hp₀ := h.evicts_count h1 hlo hhi hev₀ hlaw₀
      have hne : p ≠ t := by
        rintro rfl
        omega
      have hp₁ : ((m₀.take t).setDir l.1 (some t)).memMap p = 1 := (update_of_ne hne ..).trans hp₀
      have he₁ : ((m₀.take t).setDir l.1 (some t)).entry l = .none := by
        rw [hentry₁]
        exact entry_of_no_dir hnone
      obtain ⟨hsole, hkeep⟩ := fill_keeps hlaw₁ hl (update_self ..) he₁ hp₁ hlo
      refine ⟨fun hs => hsole ((hs.of_shrinks hev.shrinks).of_entry hentry₁), fun image l' hl' hi => ?_⟩
      refine (hev.keeps image l' hl').trans (.trans ?_ (hkeep image l' hl' (hi.trans hbytes.symm)))
      exact .of_same (congrFun hentry₁ l') (fun _ _ => rfl) fun _ _ _ _ => rfl

theorem getFreePageIn_clear {x : Option ℕ} (h : getFreePageIn k m = some (m', x)) :
    ∀ p, x = some p → m'.bytes p = fun _ => 0 := by
  induction k generalizing m with
  | zero => cases h
  | succ k ih =>
    unfold getFreePageIn at h
    split at h
    · split_ifs at h
      · exact ih h
      · obtain ⟨rfl, rfl⟩ := Prod.mk.inj (Option.some.inj h)
        rintro p ⟨⟩
        exact update_self ..
    · obtain ⟨⟨m₁, r₁⟩, -, h₂⟩ := Option.bind_eq_some_iff.mp h
      cases r₁ with
      | true => exact ih h₂
      | false =>
        obtain ⟨rfl, rfl⟩ := Prod.mk.inj (Option.some.inj h₂)
        nofun

/-- `get_empty_page` is a page fault that brings in zeros. -/
theorem getEmptyPage_eq (m : Mm) (l : ℕ × ℕ) : m.getEmptyPage l = m.filePage l fun _ => 0 := by
  unfold getEmptyPage filePage
  refine Option.bind_congr fun ⟨m₁, x⟩ h => ?_
  cases x with
  | none => rfl
  | some p =>
    have hclear := getFreePageIn_clear h p rfl
    have hset : m₁.setBytes p (fun _ => 0) = m₁ := by
      unfold setBytes
      rw [← hclear, update_eq_self]
    exact congrArg (fun m₂ : Mm => (m₂.putPage p l false).bind fun
      | (m₃, true) => some (m₃, true)
      | (m₃, false) => (m₃.freePage p).map (·, false)) hset.symm

/-- The task of an address has its tables as before. -/
theorem Regions.of_dir (hr : Regions m) (hlim : l.1 % TASK_DIRS < m.limit (l.1 / TASK_DIRS))
    (ht : m.task (l.1 / TASK_DIRS) ≠ none) (htask : m'.task = m.task) (hlimit : m'.limit = m.limit)
    (hdir : ∀ d, d ≠ l.1 → m'.pgDir d = m.pgDir d) : Regions m' := by
  refine ⟨fun n => hlimit ▸ hr.limit_le n, hlimit ▸ hr.limit_zero, fun {n d} hn ht' hd => ?_,
    fun {n d} hn hd hlim' => ?_⟩
  · rw [htask] at ht'
    have hne : d ≠ l.1 := fun e => ht (by rw [← e, hd, ht'])
    rw [hdir d hne]
    exact hr.empty hn ht' hd
  · rw [hlimit] at hlim'
    have hne : d ≠ l.1 := by
      rintro rfl
      rw [hd] at hlim
      omega
    rw [hdir d hne]
    exact hr.beyond hn hd hlim'

/-- The page that `do_no_page` brings in is what is read there. -/
theorem filePage_spec (h : Law U held m) (hr : Regions m) (hl : Within m l) (he : m.entry l = .none) (b : Bytes) :
    ∃ m' r, m.filePage l b = some (m', r) ∧ Law U held m' ∧ Regions m' ∧ m'.task = m.task ∧ m'.limit = m.limit ∧
      (Sole m → Sole m') ∧ ∀ image l', User l' → image l = b → Keeps image l' m m' := by
  obtain ⟨m₁, r₁, hrun₁, hres⟩ := getFreePage_spec h
  unfold filePage
  simp only [hrun₁, Option.bind_some]
  cases r₁ with
  | none =>
    obtain ⟨hev, hlaw⟩ := hres
    exact ⟨m₁, false, rfl, hlaw, hr.of_evicts hev, hev.task, hev.limit, fun hs => hs.of_shrinks hev.shrinks,
      fun image l' hl' _ => hev.keeps image l' hl'⟩
  | some p =>
    obtain ⟨hev, hlaw, hh, h1, hlo, hhi, -⟩ := hres.spec
    have hlaw₂ : Law U (update held p 1) (m₁.setBytes p b) :=
      hlaw.of_same rfl rfl rfl rfl rfl rfl hlaw.cursor hlaw.quiet hlaw.handed
    have he₂ : (m₁.setBytes p b).entry l = .none := (hev.entry_eq (by rw [he, Pte.page?_none])).trans he
    have hkeep₂ (image : ℕ × ℕ → Bytes) (l' : ℕ × ℕ) (hl' : User l') : Keeps image l' m (m₁.setBytes p b) := by
      refine (hev.keeps image l' hl').trans (.of_same rfl (fun _ _ => rfl) fun q _ _ hq => update_of_ne ?_ ..)
      rintro rfl
      exact hlaw.unmapped hl' hlo (by rw [h1, update_self]) (by rw [hq, Pte.page?_page])
    obtain ⟨m₂, r₂, hrun₂, htrue, hfalse, htask, hlimit, hdir⟩ :=
      putPage_spec hlaw₂ hh hl.mem_places he₂ h1 hlo hhi false
    obtain ⟨hsole, hkeep⟩ := putPage_keeps hlaw₂ hl.mem_places he₂ h1 hlo hhi hrun₂
    have htask' := htask.trans hev.task
    have hlimit' := hlimit.trans hev.limit
    have hr₂ : Regions m₂ := hr.of_dir hl.2.1 hl.1.2.2 htask' hlimit' fun d hd => by
      rw [hdir d hd]
      exact congrFun hev.pgDir d
    have hsole' (hs : Sole m) : Sole m₂ := hsole ((hs.of_shrinks hev.shrinks).of_entry rfl)
    have hkeep' (image : ℕ × ℕ → Bytes) (l' : ℕ × ℕ) (hl' : User l') (hi : image l = b) : Keeps image l' m m₂ := by
      refine (hkeep₂ image l' hl').trans (hkeep image l' hl' (hi.trans ?_))
      exact (update_self p b m₁.bytes).symm
    simp only [hrun₂, Option.bind_some]
    cases r₂ with
    | true => exact ⟨m₂, true, rfl, htrue rfl, hr₂, htask', hlimit', hsole', hkeep'⟩
    | false =>
      obtain ⟨hlaw₃, h1', hhi'⟩ := hfalse rfl
      have hfreed := freePage_eq hlo hhi' (by omega : m₂.memMap p ≠ 0)
      have hback := hlaw₃.giveBack hh h1' hlo hhi'
      refine ⟨m₂.setCount p (m₂.memMap p - 1), false, congrArg (Option.map (·, false)) hfreed, by rwa [h1'],
        ⟨hr₂.limit_le, hr₂.limit_zero, hr₂.empty, hr₂.beyond⟩, htask', hlimit', fun hs => (hsole' hs).of_entry rfl,
        fun image l' hl' hi => (hkeep' image l' hl' hi).trans (freePage_keeps hfreed image l')⟩

/-! ## Writing -/

/-- A page is free. -/
def HasFree (m : Mm) : Prop := ∃ p, m.lastFree PAGING_PAGES = some p ∧ p < m.highMemory

/-- `un_wp_page` finds a page if it has to copy. -/
def CanCopy (m : Mm) (l : ℕ × ℕ) : Prop :=
  ∀ p dirty, m.entry l = .page p false dirty → LOW_MEM ≤ p ∧ m.memMap p = 1 ∨ HasFree m

/-- An entry gives up its page, whatever it is. -/
theorem Law.giveUp (h : Law U held m) (hl : l ∈ places) (ht : m.pgDir l.1 = some t) {rw dirty : Bool}
    (he : m.entry l = .page q rw dirty) :
    Law U held ((m.setEntry t l.2 .none).setCount q (if LOW_MEM ≤ q then m.memMap q - 1 else m.memMap q)) := by
  have hp : (m.entry l).page? = some q := by rw [he, Pte.page?_page]
  split_ifs with hlo
  · exact h.drop hl ht hp hlo
  · have hslot : m.slot l = none := by rw [slot, he, Pte.slot?_page]
    have hstore := h.entry_setEntry (mem_places.mp hl).1 ht l.2 .none
    have hmap : update m.memMap q (m.memMap q) = m.memMap := update_eq_self ..
    refine h.store hl hstore rfl rfl rfl rfl ?_ ?_ h.bits h.held_le h.quiet h.handed
    · change Counted _ _ _ _ _ (update m.memMap q (m.memMap q)) _
      rw [hmap]
      apply h.pages.loseLow (entry_mem_allPlaces.mpr hl)
      intro p' hp'
      rw [ref_entry, hp] at hp'
      exact Option.some.inj hp' ▸ not_le.mp hlo
    · rw [Pte.slot?_none, ← hslot, update_eq_self]
      exact h.slots

/-- Counts stay below the wrap of an `unsigned char`. -/
theorem Law.count_lt (h : Law U held m) (hl : l ∈ places) (hp : (m.entry l).page? = some q) (hlo : LOW_MEM ≤ q) :
    0 < m.memMap q ∧ m.memMap q < 256 := by
  have hsum := h.pages.count_eq hlo (h.pages.lt (entry_mem_allPlaces.mpr hl) hp hlo)
  have hle := h.refs_le hl hp hlo
  have hheld := h.held_le q
  have hpos := h.count_pos (entry_mem_allPlaces.mpr hl) hp hlo
  simp only [NR_TASKS, USED] at hle hheld
  omega

/-- `un_wp_page` where it copies the page `q` to the page `p` -/
def copied (m : Mm) (t e p q : ℕ) : Mm :=
  let m₁ := if LOW_MEM ≤ q then (m.take p).setCount q (((m.take p).memMap q + 255) % 256) else m.take p
  (m₁.setBytes p (m₁.bytes q)).setEntry t e (.page p true false)

structure Copied (U : ℕ → Bool) (held : ℕ → ℕ) (m m' : Mm) (l : ℕ × ℕ) (p q : ℕ) : Prop where
  law : Law U held m'
  entry : m'.entry = update m.entry l (.page p true false)
  bytes : m'.bytes = update m.bytes p (m.bytes q)
  swapDev : m'.swapDev = m.swapDev
  pgDir : m'.pgDir = m.pgDir
  task : m'.task = m.task
  limit : m'.limit = m.limit
  le : LOW_MEM ≤ p
  unmapped {a : ℕ × ℕ} : User a → (m.entry a).page? ≠ some p

theorem copied_spec (h : Law U held m) (hl : l ∈ places) (ht : m.pgDir l.1 = some t) {dirty : Bool}
    (he : m.entry l = .page q false dirty) (hp : m.lastFree PAGING_PAGES = some p) (hhi : p < m.highMemory) :
    Copied U held m (copied m t l.2 p q) l p q := by
  obtain ⟨hlo, h0⟩ := lastFree_spec hp
  have hgot : Got U held m (m.take p) p := ⟨m, .refl m, h, hlo, hhi, h0, rfl⟩
  obtain ⟨-, hlaw, hh, h1, -, -, -⟩ := hgot.spec
  have hentry₁ := h.entry_take hlo h0
  have he₁ : (m.take p).entry l = .page q false dirty := by rw [hentry₁, he]
  have hd := (mem_places.mp hl).1
  have hunmapped {a : ℕ × ℕ} (ha : User a) : (m.entry a).page? ≠ some p := by
    rw [← hentry₁]
    exact hlaw.unmapped ha hlo (by rw [h1, update_self])
  have hne : q ≠ p := by
    rintro rfl
    exact hunmapped (.inl hl) (by rw [he, Pte.page?_page])
  -- the law holds as if the entry had been emptied first
  let g := ((m.take p).setEntry t l.2 .none).setCount q
    (if LOW_MEM ≤ q then (m.take p).memMap q - 1 else (m.take p).memMap q)
  have hg : Law U (update held p 1) g := hlaw.giveUp hl ht he₁
  have hge : g.entry = update (m.take p).entry l .none := hlaw.entry_setEntry hd ht l.2 .none
  have hg1 : g.memMap p = 1 := (update_of_ne hne.symm ..).trans h1
  have hfill := hg.fill hh hl ht (by rw [hge, update_self]) hg1 hlo hhi true false
  have hfe : (g.setEntry t l.2 (.page p true false)).entry = update m.entry l (.page p true false) := by
    rw [hg.entry_setEntry hd ht, hge, update_idem, hentry₁]
  have hentry : (copied m t l.2 p q).entry = update m.entry l (.page p true false) := by
    rw [← hentry₁]
    unfold copied
    split_ifs <;> exact hlaw.entry_setEntry hd ht l.2 _
  have hmap : (copied m t l.2 p q).memMap = (g.setEntry t l.2 (.page p true false)).memMap := by
    change _ = update (m.take p).memMap q _
    unfold copied
    split_ifs with hq
    · obtain ⟨hpos, hlt⟩ := hlaw.count_lt hl (q := q) (by rw [he₁, Pte.page?_page]) hq
      exact congrArg (update _ q) (by omega)
    · exact (update_eq_self ..).symm
  have hbytes : (copied m t l.2 p q).bytes = update m.bytes p (m.bytes q) := by
    have htake : (m.take p).bytes q = m.bytes q := update_of_ne hne ..
    unfold copied
    split_ifs <;> exact (congrArg (update (m.take p).bytes p) htake).trans (update_idem ..)
  have hsame : (copied m t l.2 p q).pgDir = m.pgDir ∧ (copied m t l.2 p q).task = m.task ∧
      (copied m t l.2 p q).limit = m.limit ∧ (copied m t l.2 p q).swapDev = m.swapDev ∧
      (copied m t l.2 p q).highMemory = m.highMemory ∧ (copied m t l.2 p q).swapBitmap = m.swapBitmap ∧
      (copied m t l.2 p q).dirEntry = m.dirEntry ∧ (copied m t l.2 p q).printed = m.printed ∧
      (copied m t l.2 p q).handed = m.handed := by
    unfold copied
    split_ifs <;> exact ⟨rfl, rfl, rfl, rfl, rfl, rfl, rfl, rfl, rfl⟩
  obtain ⟨hdir, htask, hlimit, hdev, hhigh, hbits, hcur, hprint, hhand⟩ := hsame
  refine ⟨?_, hentry, hbytes, hdev, hdir, htask, hlimit, hlo, hunmapped⟩
  refine hfill.of_same (hentry.trans hfe.symm) hdir htask hhigh hmap hbits (hcur ▸ h.cursor) ?_ ?_
  · unfold Quiet
    rw [hprint]
    exact h.quiet
  · unfold HandedOk
    rw [hhand]
    exact h.handed

/-- The pages stay where they are, and nothing comes to be writable. -/
theorem Sole.of_pages (h : Sole m) (hp : ∀ a, (m'.entry a).page? = (m.entry a).page?)
    (hw : ∀ a q dirty, m'.entry a = .page q true dirty → ∃ dirty, m.entry a = .page q true dirty) : Sole m' := by
  intro a ha q dirty hq
  obtain ⟨dirty', hq'⟩ := hw a q dirty hq
  obtain ⟨hlo, hsole⟩ := h a ha q dirty' hq'
  exact ⟨hlo, fun b hb hbq => hsole b hb ((hp b).symm.trans hbq)⟩

/-- A page for paging that the task of an address can write is at no other address. -/
theorem Sole.unmapped (h : Sole m) (hlaw : Law U held m) (hl : l ∈ places) {dirty : Bool}
    (he : m.entry l = .page p true dirty) {a : ℕ × ℕ} (ha : User a) (hne : a ≠ l) : (m.entry a).page? ≠ some p := by
  obtain ⟨hlo, hsole⟩ := h l hl p dirty he
  intro hp
  rcases ha with ha | ⟨h0, ha⟩
  · exact hne (hsole a ha hp)
  · obtain ⟨d, e⟩ := a
    obtain rfl : d = 0 := h0
    exact absurd (hlaw.kernelPage ha hp) hlo.not_gt

/-- What a step does that leaves the addresses other than `l` alone -/
structure Touches (U : ℕ → Bool) (held : ℕ → ℕ) (l : ℕ × ℕ) (m m' : Mm) : Prop where
  law : Law U held m'
  sole : Sole m'
  pgDir : m'.pgDir = m.pgDir
  task : m'.task = m.task
  limit : m'.limit = m.limit
  keeps (image : ℕ × ℕ → Bytes) (a : ℕ × ℕ) : User a → a ≠ l → Keeps image a m m'

theorem Touches.trans (h : Touches U held l m m') (h' : Touches U held l m' m'') : Touches U held l m m'' where
  law := h'.law
  sole := h'.sole
  pgDir := h'.pgDir.trans h.pgDir
  task := h'.task.trans h.task
  limit := h'.limit.trans h.limit
  keeps image a ha hne := (h.keeps image a ha hne).trans (h'.keeps image a ha hne)

/-- `un_wp_page` makes a page that is not shared writable. -/
theorem unprotect_touches (h : Law U held m) (hs : Sole m) (hl : l ∈ places) (ht : m.pgDir l.1 = some t)
    {dirty : Bool} (he : m.entry l = .page p false dirty) (hlo : LOW_MEM ≤ p) (h1 : m.memMap p = 1) :
    Touches U held l m (m.setEntry t l.2 (.page p true dirty)) := by
  have hp : (m.entry l).page? = some p := by rw [he, Pte.page?_page]
  have hentry := h.entry_setEntry (mem_places.mp hl).1 ht l.2 (.page p true dirty)
  have hof (a : ℕ × ℕ) (ha : a ≠ l) : (m.setEntry t l.2 (.page p true dirty)).entry a = m.entry a := by
    rw [hentry, update_of_ne ha]
  have hat : (m.setEntry t l.2 (.page p true dirty)).entry l = .page p true dirty := by rw [hentry, update_self]
  -- the count says that the page is at this address only
  have honly {a : ℕ × ℕ} (ha : a ∈ places) (hap : (m.entry a).page? = some p) : a = l := by
    have heq := h.sole (entry_mem_allPlaces.mpr ha) (entry_mem_allPlaces.mpr hl) hap hp hlo h1
    injection heq
  refine ⟨h.reflag hl ht hp true dirty, ?_, rfl, rfl, rfl, fun image a _ hne => ?_⟩
  · intro a ha q dirty' hq
    rcases eq_or_ne a l with rfl | hne
    · rw [hat] at hq
      cases hq
      refine ⟨hlo, fun b hb hbq => ?_⟩
      by_contra hne
      rw [hof b hne] at hbq
      exact hne (honly hb hbq)
    · rw [hof a hne] at hq
      obtain ⟨hloq, hsole⟩ := hs a ha q dirty' hq
      refine ⟨hloq, fun b hb hbq => ?_⟩
      rcases eq_or_ne b l with rfl | hneb
      · rw [hat, Pte.page?_page] at hbq
        obtain rfl := Option.some.inj hbq
        exact absurd (honly ha (by rw [hq, Pte.page?_page])) hne
      · rw [hof b hneb] at hbq
        exact hsole b hb hbq
  · exact .of_same (hof a hne) (fun _ _ => rfl) fun _ _ _ _ => rfl

/-- `un_wp_page` copies a page that is shared. -/
theorem copied_touches (h : Law U held m) (hs : Sole m) (hl : l ∈ places) (ht : m.pgDir l.1 = some t)
    {dirty : Bool} (he : m.entry l = .page q false dirty) (hp : m.lastFree PAGING_PAGES = some p)
    (hhi : p < m.highMemory) : Touches U held l m (copied m t l.2 p q) := by
  obtain ⟨hlaw, hentry, hbytes, hdev, hdir, htask, hlimit, hlo, hunmapped⟩ := copied_spec h hl ht he hp hhi
  refine ⟨hlaw, hs.update_fresh hentry hlo fun a ha => hunmapped (.inl ha), hdir, htask, hlimit,
    fun image a ha hne => ?_⟩
  refine .of_same (by rw [hentry, update_of_ne hne]) (fun nr _ => by rw [hdev]) fun q' _ _ hq => ?_
  rw [hbytes]
  refine update_of_ne ?_ ..
  rintro rfl
  exact hunmapped ha (by rw [hq, Pte.page?_page])

theorem unWpPage_touches (h : Law U held m) (hs : Sole m) (hl : l ∈ places) (ht : m.pgDir l.1 = some t)
    {dirty : Bool} (he : m.entry l = .page q false dirty) (hcan : CanCopy m l)
    (hrun : m.unWpPage t l.2 = some (m', r)) : r = true ∧ Touches U held l m m' := by
  have htab : m.table t l.2 = .page q false dirty := (entry_of_dir ht l.2).symm.trans he
  unfold unWpPage at hrun
  simp only [htab] at hrun
  by_cases hone : LOW_MEM ≤ q ∧ m.memMap q = 1
  · rw [if_pos hone] at hrun
    obtain ⟨rfl, rfl⟩ := Prod.mk.inj (Option.some.inj hrun)
    exact ⟨rfl, unprotect_touches h hs hl ht he hone.1 hone.2⟩
  · obtain ⟨p, hp, hhi⟩ := (hcan q dirty he).resolve_left hone
    rw [if_neg hone, getFreePage_of_free hp hhi] at hrun
    change some (copied m t l.2 p q, true) = _ at hrun
    obtain ⟨rfl, rfl⟩ := Prod.mk.inj (Option.some.inj hrun)
    exact ⟨rfl, copied_touches h hs hl ht he hp hhi⟩

theorem writeVerify_touches (h : Law U held m) (hs : Sole m) (hl : l ∈ places) (hcan : CanCopy m l)
    (hrun : m.writeVerify l = some (m', r)) : r = true ∧ Touches U held l m m' := by
  have hsame (hx : some (m, true) = some (m', r)) : r = true ∧ Touches U held l m m' := by
    obtain ⟨rfl, rfl⟩ := Prod.mk.inj (Option.some.inj hx)
    exact ⟨rfl, h, hs, rfl, rfl, rfl, fun image a _ _ => .refl image a m⟩
  unfold writeVerify at hrun
  cases ht : m.pgDir l.1 with
  | none =>
    simp only [ht] at hrun
    exact hsame hrun
  | some t =>
    simp only [ht] at hrun
    split at hrun
    · next q dirty he => exact unWpPage_touches h hs hl ht ((entry_of_dir ht l.2).trans he) hcan hrun
    · exact hsame hrun

/-- What is written to a page is at its address, and at no other. -/
theorem store_touches (h : Law U held m) (hr : Regions m) (hs : Sole m) (hl : l ∈ places)
    (hrun : m.store l b = some m') :
    Touches U held l m m' ∧ Regions m' ∧ ∃ p, m'.entry l = .page p true true ∧ m'.bytes p = b := by
  obtain ⟨hlaw, hr'⟩ := store_spec h hr hl hrun
  unfold store at hrun
  cases ht : m.pgDir l.1 with
  | none =>
    rw [ht] at hrun
    cases hrun
  | some t =>
    rw [ht] at hrun
    simp only at hrun
    split at hrun
    · next p dirty hp =>
      obtain rfl := Option.some.inj hrun
      have he : m.entry l = .page p true dirty := (entry_of_dir ht l.2).trans hp
      have hentry : ((m.setEntry t l.2 (.page p true true)).setBytes p b).entry =
          update m.entry l (.page p true true) := h.entry_setEntry (mem_places.mp hl).1 ht l.2 _
      have hof {a : ℕ × ℕ} (hne : a ≠ l) :
          ((m.setEntry t l.2 (.page p true true)).setBytes p b).entry a = m.entry a := by
        rw [hentry, update_of_ne hne]
      refine ⟨⟨hlaw, hs.of_pages (fun a => ?_) fun a q dirty' hq => ?_, rfl, rfl, rfl, fun image a ha hne => ?_⟩, hr',
        p, by rw [hentry, update_self], update_self ..⟩
      · rcases eq_or_ne a l with rfl | hne
        · rw [hentry, update_self, he, Pte.page?_page, Pte.page?_page]
        · rw [hof hne]
      · rcases eq_or_ne a l with rfl | hne
        · rw [hentry, update_self] at hq
          cases hq
          exact ⟨dirty, he⟩
        · exact ⟨dirty', (hof hne).symm.trans hq⟩
      · refine .of_same (hof hne) (fun _ _ => rfl) fun q _ _ hq => update_of_ne ?_ ..
        rintro rfl
        exact hs.unmapped h hl he ha hne (by rw [hq, Pte.page?_page])
    · cases hrun

theorem write_touches (h : Law U held m) (hr : Regions m) (hs : Sole m) (hl : l ∈ places) (hcan : CanCopy m l)
    (hrun : m.write l b = some (m', r)) :
    Touches U held l m m' ∧ Regions m' ∧ ∃ p, m'.entry l = .page p true true ∧ m'.bytes p = b := by
  obtain ⟨⟨m₁, r₁⟩, hrun₁, hrun⟩ := Option.bind_eq_some_iff.mp hrun
  obtain ⟨rfl, htouch⟩ := writeVerify_touches h hs hl hcan hrun₁
  obtain ⟨htouch', hr', hwritten⟩ := store_touches htouch.law (hr.of_same htouch.pgDir htouch.task htouch.limit)
    htouch.sole hl (map_true hrun)
  exact ⟨htouch.trans htouch', hr', hwritten⟩

/-! ## Sharing -/

/-- A table is there, and nothing that is read has changed. -/
structure Tabled (U : ℕ → Bool) (held : ℕ → ℕ) (d : ℕ) (m m' : Mm) : Prop where
  law : Law U held m'
  entry : m'.entry = m.entry
  dir_of_ne {d' : ℕ} : d' ≠ d → m'.pgDir d' = m.pgDir d'
  task : m'.task = m.task
  limit : m'.limit = m.limit
  keeps (image : ℕ × ℕ → Bytes) (a : ℕ × ℕ) : User a → Keeps image a m m'

theorem shareTable_spec (h : Law U held m) (hd : d ∈ dirs) (hfree : m.pgDir d = none → HasFree m) {x : Option ℕ}
    (hrun : m.shareTable d = some (m', x)) : ∃ t, x = some t ∧ m'.pgDir d = some t ∧ Tabled U held d m m' := by
  unfold shareTable at hrun
  cases ht : m.pgDir d with
  | some t =>
    rw [ht] at hrun
    obtain ⟨rfl, rfl⟩ := Prod.mk.inj (Option.some.inj hrun)
    exact ⟨t, rfl, ht, h, rfl, fun _ => rfl, rfl, rfl, fun image a _ => .refl image a m⟩
  | none =>
    obtain ⟨p, hp, hhi⟩ := hfree ht
    obtain ⟨hlo, h0⟩ := lastFree_spec hp
    have hgot : Got U held m (m.take p) p := ⟨m, .refl m, h, hlo, hhi, h0, rfl⟩
    obtain ⟨hev, hlaw, hh, h1, -, -, hempty⟩ := hgot.spec
    rw [ht] at hrun
    simp only [getFreePage_of_free hp hhi, Option.map_some] at hrun
    obtain ⟨rfl, rfl⟩ := Prod.mk.inj (Option.some.inj hrun)
    have hnone : (m.take p).pgDir d = none := ht
    have hentry : ((m.take p).setDir d (some p)).entry = (m.take p).entry := entry_addDir hnone hempty
    refine ⟨p, rfl, update_self .., hlaw.addDir hh hd hnone hempty h1 hlo hhi, hentry.trans (h.entry_take hlo h0),
      fun hne => update_of_ne hne .., rfl, rfl, fun image a ha => ?_⟩
    exact (hev.keeps image a ha).trans (.of_same (congrFun hentry a) (fun _ _ => rfl) fun _ _ _ _ => rfl)

/-- What `try_to_share` leaves for the tasks -/
structure Shared (U : ℕ → Bool) (held : ℕ → ℕ) (l l' : ℕ × ℕ) (m m' : Mm) : Prop where
  law : Law U held m'
  sole : Sole m → Sole m'
  dir_of_ne {d : ℕ} : d ≠ l.1 → m'.pgDir d = m.pgDir d
  task : m'.task = m.task
  limit : m'.limit = m.limit
  keeps (image : ℕ × ℕ → Bytes) (a : ℕ × ℕ) : User a → image l = image l' → m.Clean image l' → Keeps image a m m'

/-- The page at `l'` is write-protected and comes to be at `l` as well. -/
theorem share_spec {ft tt : ℕ} (h : Law U held m) (hl : l ∈ places) (hl' : l' ∈ places) (hmod : l'.1 % 16 = l.1 % 16)
    (hsnd : l'.2 = l.2) (hf : m.pgDir l'.1 = some ft) (ht : m.pgDir l.1 = some tt) {rw : Bool}
    (he' : m.entry l' = .page p rw false) (he : m.entry l = .none) (hlo : LOW_MEM ≤ p) :
    Shared U held l l' m
      (((m.setEntry ft l'.2 (.page p false false)).setEntry tt l.2 (.page p false false)).incCount p) := by
  let m₁ := m.setEntry ft l'.2 (.page p false false)
  let m₂ := (m₁.setEntry tt l.2 (.page p false false)).incCount p
  have hne : l ≠ l' := by
    rintro rfl
    rw [he] at he'
    cases he'
  have hlaw₁ : Law U held m₁ := h.reflag hl' hf (by rw [he', Pte.page?_page]) false false
  have hentry₁ : m₁.entry = update m.entry l' (.page p false false) := h.entry_setEntry (mem_places.mp hl').1 hf _ _
  have hentry₂ : m₂.entry = update m₁.entry l (.page p false false) :=
    hlaw₁.entry_setEntry (mem_places.mp hl).1 ht _ _
  have hat' : m₁.entry l' = .page p false false := by rw [hentry₁, update_self]
  have hat : m₁.entry l = .none := by rw [hentry₁, update_of_ne hne, he]
  have hlaw₂ : Law U held m₂ :=
    hlaw₁.share hl' hl hmod hsnd ht (by rw [hat', Pte.page?_page]) hat hlo false false
  refine ⟨hlaw₂, fun hs => ?_, fun _ => rfl, rfl, rfl, fun image a ha himage hclean => ?_⟩
  · have hs₁ : Sole m₁ := hs.update_shared hentry₁ fun a ha dirty hq =>
      ((hs a ha p dirty hq).2 l' hl' (by rw [he', Pte.page?_page])).symm
    refine hs₁.update_shared hentry₂ fun a ha dirty hq => ?_
    -- nothing has the page writable any more
    obtain rfl := (hs₁ a ha p dirty hq).2 l' hl' (by rw [hat', Pte.page?_page])
    rw [hat'] at hq
    cases hq
  · have hkeep₁ : Keeps image a m m₁ :=
      (reflag_fills (a.1 + 1) h hl' hf he' false).keeps image a ha (Nat.ne_of_lt (Nat.lt_succ_self _))
    rcases eq_or_ne a l with rfl | hne'
    · have hat₂ : m₂.entry a = .page p false false := by rw [hentry₂, update_self]
      have hbytes : m₂.bytes p = image a := (hclean p rw he' hlo).trans himage.symm
      intro _
      refine ⟨?_, fun q rw' hq _ => ?_⟩
      · change m₂.view image a = _
        rw [view_none he, view, hat₂, ← hbytes]
      · change m₂.entry a = _ at hq
        rw [hat₂] at hq
        cases hq
        exact hbytes
    · refine hkeep₁.trans (.of_same ?_ (fun _ _ => rfl) fun _ _ _ _ => rfl)
      exact (congrFun hentry₂ a).trans (update_of_ne hne' ..)

theorem Tabled.trans (h : Tabled U held l.1 m m') (hl' : User l') (h' : Shared U held l l' m' m'') :
    Shared U held l l' m m'' where
  law := h'.law
  sole hs := h'.sole (hs.of_entry h.entry)
  dir_of_ne hne := (h'.dir_of_ne hne).trans (h.dir_of_ne hne)
  task := h'.task.trans h.task
  limit := h'.limit.trans h.limit
  keeps image a ha himage hclean :=
    (h.keeps image a ha).trans (h'.keeps image a ha himage (h.keeps image l' hl' hclean).2)

theorem tryToShare_spec (h : Law U held m) (hl : l ∈ places) (hl' : l' ∈ places) (hmod : l'.1 % 16 = l.1 % 16)
    (hsnd : l'.2 = l.2) (hne : l'.1 ≠ l.1) (he : m.entry l = .none) (hfree : m.pgDir l.1 = none → HasFree m)
    (hrun : m.tryToShare l l' = some (m', r)) : Shared U held l l' m m' := by
  have hsame (hx : some (m, false) = some (m', r)) : Shared U held l l' m m' := by
    obtain ⟨rfl, -⟩ := Prod.mk.inj (Option.some.inj hx)
    exact ⟨h, id, fun _ => rfl, rfl, rfl, fun image a _ _ _ => .refl image a m⟩
  unfold tryToShare at hrun
  cases hf : m.pgDir l'.1 with
  | none =>
    rw [hf] at hrun
    exact hsame hrun
  | some ft =>
    rw [hf] at hrun
    simp only at hrun
    split at hrun
    · next p rw hp =>
      have he' : m.entry l' = .page p rw false := (entry_of_dir hf l'.2).trans hp
      split_ifs at hrun with hout
      · exact hsame hrun
      · obtain ⟨⟨m₁, x⟩, hrun₁, hrun⟩ := Option.bind_eq_some_iff.mp hrun
        obtain ⟨tt, rfl, ht, htabled⟩ := shareTable_spec h (mem_places.mp hl).1 hfree hrun₁
        have hlo : LOW_MEM ≤ p := by omega
        have hf₁ : m₁.pgDir l'.1 = some ft := (htabled.dir_of_ne hne).trans hf
        have he₁' : m₁.entry l' = .page p rw false := (congrFun htabled.entry l').trans he'
        have he₁ : m₁.entry l = .none := (congrFun htabled.entry l).trans he
        have htab' : m₁.table ft l'.2 = .page p rw false := (entry_of_dir hf₁ l'.2).symm.trans he₁'
        have htab : m₁.table tt l.2 = .none := (entry_of_dir ht l.2).symm.trans he₁
        have hnew : (m₁.setEntry ft l'.2 (.page p false false)).table ft l'.2 = .page p false false := by
          simp [setEntry]
        simp only [htab, htab', Pte.page?_none, Option.isSome_none, Bool.false_eq_true, if_false, Pte.protect,
          hnew] at hrun
        obtain ⟨rfl, -⟩ := Prod.mk.inj (Option.some.inj hrun)
        have hshared := share_spec htabled.law hl hl' hmod hsnd hf₁ ht he₁' he₁ hlo
        exact htabled.trans (.inl hl') hshared
    · exact hsame hrun

end Linux012.Paging
