import Linux012.BlkDrv.Requests
import Linux012.Mm.Basic
import Linux012.Lib.Index

/-! # Errors of the swap device

`swap_in`, `copy_page_tables` and `try_to_swap_out` wait in `ll_rw_page` for the transfer of a page,
which tells them nothing of its outcome. `sound_throughout_iff`: all goes well in a run exactly when
no transfer of a page fails in it.
-/

namespace Linux012.SwapIo

open Function Runs Requests Paging
open scoped Index

/-- A page moved between a swap page and memory -/
structure Transfer where
  cmd : ℤ
  nr : ℕ
  page : ℕ
  deriving DecidableEq

/-- Where a task is. `page` is there once `get_free_page` has returned. -/
inductive Frame
  | swapIn (e nr : ℕ) (page : Option ℕ)
  | copy (src dst nr : ℕ) (page : Option ℕ)
  | swapOut (e nr page : ℕ)
  deriving DecidableEq

/-- What a task wants of `ll_rw_page`; none while it is in `get_free_page`. -/
def Frame.transfer : Frame → Option Transfer
  | .swapIn _ nr page => page.map (Transfer.mk READ nr)
  | .copy _ _ nr page => page.map (Transfer.mk READ nr)
  | .swapOut _ nr page => some ⟨WRITE, nr, page⟩

/-- A task in `ll_rw_page` looks for a free request, sleeps until its request is ended, or goes on. -/
inductive Phase
  | asking
  | asleep
  | awake
  deriving DecidableEq

/-- The requests of the swap device with `waiting` and `buffer`, the entries of the page tables,
`mem_map`, the swap bit map and the tasks. Not in the source: the last transfer of each task with its
outcome, whether `bh->b_blocknr` has been read through NULL, and what tasks have done on their
transfers, with the outcome. -/
structure State where
  blk : Blk
  waiting : Slot → Option ℕ
  buffer : Slot → ℕ
  table : ℕ → Pte
  memMap : ℕ → ℕ
  swapBitmap : Option (ℕ → Bool)
  frames : ℕ → List Frame
  phase : ℕ → Phase
  last : ℕ → Option (Transfer × Bool)
  nullRead : Bool
  acted : List (Transfer × Option (Transfer × Bool))

namespace State

def setTask (s : State) (t : ℕ) (fs : List Frame) (ph : Phase) : State :=
  { s with frames := update s.frames t fs, phase := update s.phase t ph }

/-- The task is not in one of the functions, or it is in `get_free_page`. -/
def mayCall (s : State) (t : ℕ) : Bool :=
  match s.frames t with
  | [] => true
  | f :: _ => f.transfer.isNone

/-- `swap_in` up to `get_free_page` -/
def swapIn (s : State) (t e : ℕ) : Option State :=
  match s.frames t, s.swapBitmap, s.table e with
  | [], some _, .swapped nr => if nr = 0 then none else some (s.setTask t [.swapIn e nr none] .asking)
  | _, _, _ => none

/-- `copy_page_tables` at an entry with a swap page, up to `get_free_page` -/
def copy (s : State) (t src dst : ℕ) : Option State :=
  match s.frames t, s.table src with
  | [], .swapped nr => some (s.setTask t [.copy src dst nr none] .asking)
  | _, _ => none

/-- `try_to_swap_out` up to `write_swap_page`; a page that is not dirty is dropped at once. -/
def swapOut (s : State) (t e : ℕ) : Option State :=
  match s.table e with
  | .page p _ dirty =>
    if !s.mayCall t ∨ p < LOW_MEM ∨ LOW_MEM + PAGING_PAGES ≤ p then none
    else if dirty then
      if s.memMap p ≠ 1 then none
      else s.swapBitmap.bind fun b => (Mm.findSwapPage b (SWAP_BITS - 1) 1).map fun nr =>
        { s.setTask t (.swapOut e nr p :: s.frames t) .asking with
          table := update s.table e (.swapped nr)
          swapBitmap := some (update b nr false) }
    else some { s with
      table := update s.table e .none
      memMap := update s.memMap p (s.memMap p - 1) }
  | _ => none

/-- `get_free_page` returns a page. -/
def gotPage (s : State) (t p : ℕ) : Option State :=
  match s.frames t with
  | .swapIn e nr none :: fs => some { s.setTask t (.swapIn e nr (some p) :: fs) .asking with
      memMap := update s.memMap p 1 }
  | .copy src dst nr none :: fs => some { s.setTask t (.copy src dst nr (some p) :: fs) .asking with
      memMap := update s.memMap p 1 }
  | _ => none

/-- `get_free_page` returns 0: `swap_in` ends the task, `copy_page_tables` returns. -/
def noPage (s : State) (t : ℕ) : Option State :=
  match s.frames t with
  | .swapIn _ _ none :: fs => some (s.setTask t fs .asking)
  | .copy _ _ _ none :: fs => some (s.setTask t fs .asking)
  | _ => none

/-- `ll_rw_page` with a free request, up to `schedule` -/
def llRwPage (dev : ℤ) (s : State) (t : ℕ) (req : Slot) : Option State :=
  match s.frames t with
  | [] => none
  | f :: fs =>
    f.transfer.bind fun tr =>
      if s.phase t = .asking then
        (s.blk.llRwPage req tr.cmd dev tr.nr).map fun blk =>
          { s.setTask t (f :: fs) .asleep with
            blk
            waiting := update s.waiting req (some t)
            buffer := update s.buffer req tr.page }
      else none

/-- `make_request` for a buffer -/
def makeRequest (s : State) (req : Slot) (rw bDev : ℤ) (bBlocknr bh : ℕ) : Option State :=
  (s.blk.makeRequest req rw bDev bBlocknr bh).map fun blk =>
    { s with blk, waiting := update s.waiting req none }

/-- `end_request`, which wakes the task that waits -/
def endRequest (s : State) (uptodate : Bool) : Option State :=
  s.blk.currentRequest.bind fun c =>
    (s.blk.endRequest uptodate).map fun blk =>
      let r := s.blk.request c
      let s := { s with blk, nullRead := s.nullRead || (!uptodate && r.bh.isNone) }
      match s.waiting c with
      | none => s
      | some t => { s with
          phase := update s.phase t .awake
          last := update s.last t (some (⟨r.cmd, r.sector / 8, s.buffer c⟩, uptodate)) }

/-- What follows on `ll_rw_page` -/
def finish (s : State) (t : ℕ) : Option State :=
  match s.frames t with
  | [] => none
  | f :: fs =>
    f.transfer.bind fun tr =>
      if s.phase t = .awake then
        let s' := { s.setTask t fs .asking with acted := (tr, s.last t) :: s.acted }
        match f with
        | .swapIn e nr _ => some { s' with
            swapBitmap := s.swapBitmap.map fun b => update b nr true
            table := update s.table e (.page tr.page true true) }
        | .copy src dst nr _ => some { s' with
            table := update (update s.table dst (.swapped nr)) src (.page tr.page true true) }
        | .swapOut _ _ page => some { s' with memMap := update s.memMap page (s.memMap page - 1) }
      else none

end State

inductive Act
  | swapIn (t e : ℕ)
  | copy (t src dst : ℕ)
  | swapOut (t e : ℕ)
  | gotPage (t p : ℕ)
  | noPage (t : ℕ)
  | llRwPage (t : ℕ) (req : Slot)
  | lockBuffer (bh : ℕ)
  | makeRequest (req : Slot) (rw bDev : ℤ) (bBlocknr bh : ℕ)
  | endRequest (uptodate : Bool)
  | finish (t : ℕ)
  /-- The rest of the kernel changes page tables, `mem_map` and the bit map. -/
  | others (table : ℕ → Pte) (memMap : ℕ → ℕ) (swapBitmap : Option (ℕ → Bool))

/-- `dev` is `SWAP_DEV`. -/
def step (dev : ℤ) (a : Act) (s : State) : Option State :=
  match a with
  | .swapIn t e => s.swapIn t e
  | .copy t src dst => s.copy t src dst
  | .swapOut t e => s.swapOut t e
  | .gotPage t p => s.gotPage t p
  | .noPage t => s.noPage t
  | .llRwPage t req => s.llRwPage dev t req
  | .lockBuffer bh => (s.blk.lockBuffer bh).map fun blk => { s with blk }
  | .makeRequest req rw bDev bBlocknr bh => s.makeRequest req rw bDev bBlocknr bh
  | .endRequest uptodate => s.endRequest uptodate
  | .finish t => s.finish t
  | .others table memMap swapBitmap => some { s with table, memMap, swapBitmap }

/-- Nothing has been requested, and no task is in one of the functions. -/
def boot (table : ℕ → Pte) (memMap : ℕ → ℕ) (swapBitmap : Option (ℕ → Bool)) : State where
  blk := ⟨fun _ => ⟨-1, READ, 0, none⟩, fun _ => none, none, fun _ => false, fun _ => false, fun _ => false⟩
  waiting _ := none
  buffer _ := 0
  table := table
  memMap := memMap
  swapBitmap := swapBitmap
  frames _ := []
  phase _ := .asking
  last _ := none
  nullRead := false
  acted := []

/-- Pages have been installed and freed only on transfers that succeeded, and no missing buffer head
has been read. -/
structure Sound (s : State) : Prop where
  nullRead : s.nullRead = false
  acted : ∀ a ∈ s.acted, a.2 = some (a.1, true)

/-- No request for a page is ended with an error. -/
def Works (s : State) (a : Act) : Prop :=
  a = .endRequest false → ∀ c, s.blk.currentRequest = some c → (s.blk.request c).bh ≠ none

/-! ## Who waits for what -/

variable {dev : ℤ} {s s' : State} {t : ℕ} {req i j : Slot} {f : Frame} {fs : List Frame} {tr : Transfer}

/-- A request for a page belongs to a task that sleeps until it is ended. -/
structure Serves (s : State) (i : Slot) (t : ℕ) (tr : Transfer) : Prop where
  waiting : s.waiting i = some t
  phase : s.phase t = .asleep
  frame : ∃ f fs, s.frames t = f :: fs ∧ f.transfer = some tr
  cmd : (s.blk.request i).cmd = tr.cmd
  sector : (s.blk.request i).sector = tr.nr * 8
  buffer : s.buffer i = tr.page

structure Inv (q : List Slot) (s : State) : Prop where
  queued : s.blk.Queued q
  serves : ∀ i ∈ q, (s.blk.request i).bh = none → ∃ t tr, Serves s i t tr
  buffers : ∀ i ∈ q, (s.blk.request i).bh ≠ none → s.waiting i = none
  one : ∀ i ∈ q, ∀ j ∈ q, ∀ t, s.waiting i = some t → s.waiting j = some t → i = j
  awake : ∀ t f fs tr, s.frames t = f :: fs → f.transfer = some tr → s.phase t = .awake →
    s.last t = some (tr, true)
  sound : Sound s

/-- The task has no request. -/
def Free (q : List Slot) (s : State) (t : ℕ) : Prop := ∀ i ∈ q, s.waiting i ≠ some t

theorem Inv.free_of_phase {q : List Slot} (h : Inv q s) (ht : s.phase t ≠ .asleep) : Free q s t := by
  intro i hi hw
  by_cases hb : (s.blk.request i).bh = none
  · obtain ⟨t', tr, hs⟩ := h.serves i hi hb
    cases hw.symm.trans hs.waiting
    exact ht hs.phase
  · cases hw.symm.trans (h.buffers i hi hb)

theorem Inv.free_of_frames {q : List Slot} (h : Inv q s)
    (ht : ∀ f fs tr, s.frames t = f :: fs → f.transfer ≠ some tr) : Free q s t := by
  intro i hi hw
  by_cases hb : (s.blk.request i).bh = none
  · obtain ⟨t', tr, hs⟩ := h.serves i hi hb
    cases hw.symm.trans hs.waiting
    obtain ⟨f, fs, hf, htr⟩ := hs.frame
    exact ht f fs tr hf htr
  · cases hw.symm.trans (h.buffers i hi hb)

/-- A task without a request changes its place, and nothing changes for the requests. -/
theorem Inv.setTask {q : List Slot} (h : Inv q s) (hfree : Free q s t) (hblk : s'.blk = s.blk)
    (hwait : s'.waiting = s.waiting) (hbuf : s'.buffer = s.buffer)
    (hframes : ∀ u, u ≠ t → s'.frames u = s.frames u) (hphase : ∀ u, u ≠ t → s'.phase u = s.phase u)
    (hlast : s'.last = s.last) (hawake : s'.phase t ≠ .awake) (hsound : Sound s') : Inv q s' := by
  refine ⟨hblk ▸ h.queued, ?_, ?_, ?_, ?_, hsound⟩
  · intro i hi hb
    rw [hblk] at hb
    obtain ⟨u, tr, hs⟩ := h.serves i hi hb
    have hne : u ≠ t := fun he => hfree i hi (he ▸ hs.waiting)
    refine ⟨u, tr, ?_, ?_, ?_, ?_, ?_, ?_⟩
    · rw [hwait]
      exact hs.waiting
    · rw [hphase u hne]
      exact hs.phase
    · rw [hframes u hne]
      exact hs.frame
    · rw [hblk]
      exact hs.cmd
    · rw [hblk]
      exact hs.sector
    · rw [hbuf]
      exact hs.buffer
  · rw [hblk, hwait]
    exact h.buffers
  · rw [hwait]
    exact h.one
  · intro u f fs tr hf htr hp
    have hne : u ≠ t := fun he => hawake (he ▸ hp)
    rw [hframes u hne] at hf
    rw [hphase u hne] at hp
    rw [hlast]
    exact h.awake u f fs tr hf htr hp

theorem Inv.of_setTask {q : List Slot} (h : Inv q s) (hfree : Free q s t) {ph : Phase}
    (hph : ph ≠ .awake) : Inv q (s.setTask t fs ph) := by
  refine h.setTask (t := t) hfree rfl rfl rfl (fun u hu => update_of_ne hu _ _)
    (fun u hu => update_of_ne hu _ _) rfl ?_ ⟨h.sound.nullRead, h.sound.acted⟩
  unfold State.setTask
  dsimp only
  rw [update_self]
  exact hph

/-- The tables are of no concern to the requests. -/
theorem Inv.tables {q : List Slot} (h : Inv q s) (table : ℕ → Pte) (memMap : ℕ → ℕ)
    (swapBitmap : Option (ℕ → Bool)) : Inv q { s with table, memMap, swapBitmap } :=
  ⟨h.queued, fun i hi hb => by
    obtain ⟨u, tr, hs⟩ := h.serves i hi hb
    exact ⟨u, tr, hs.waiting, hs.phase, hs.frame, hs.cmd, hs.sector, hs.buffer⟩,
    h.buffers, h.one, h.awake, h.sound.nullRead, h.sound.acted⟩

/-! ## The calls -/

variable {q : List Slot}

theorem free_of_nil (h : Inv q s) (ht : s.frames t = []) : Free q s t :=
  h.free_of_frames fun f fs tr hf => by
    rw [ht] at hf
    cases hf

theorem free_of_transfer (h : Inv q s) (ht : s.frames t = f :: fs) (hf : f.transfer = none) :
    Free q s t := h.free_of_frames fun f' fs' tr hf' htr => by
  cases ht.symm.trans hf'
  cases hf.symm.trans htr

theorem Inv.swapIn (h : Inv q s) {e : ℕ} (hs : s.swapIn t e = some s') : Inv q s' := by
  unfold State.swapIn at hs
  split at hs
  · rename_i hf _ _
    split_ifs at hs
    cases hs
    exact h.of_setTask (free_of_nil h hf) nofun
  · cases hs

theorem Inv.copy (h : Inv q s) {src dst : ℕ} (hs : s.copy t src dst = some s') : Inv q s' := by
  unfold State.copy at hs
  split at hs
  · rename_i hf _
    cases hs
    exact h.of_setTask (free_of_nil h hf) nofun
  · cases hs

theorem free_of_mayCall (h : Inv q s) (ht : s.mayCall t = true) : Free q s t := by
  unfold State.mayCall at ht
  split at ht
  · exact free_of_nil h ‹_›
  · exact free_of_transfer h ‹_› (Option.isNone_iff_eq_none.mp ht)

theorem Inv.swapOut (h : Inv q s) {e : ℕ} (hs : s.swapOut t e = some s') : Inv q s' := by
  unfold State.swapOut at hs
  split at hs
  · rename_i p _ _ _
    split_ifs at hs with hno hdirty hone
    · obtain ⟨b, -, hs⟩ := Option.bind_eq_some_iff.mp hs
      obtain ⟨nr, -, rfl⟩ := Option.map_eq_some_iff.mp hs
      have hmay : s.mayCall t = true := by
        rw [not_or] at hno
        simpa using hno.1
      have h₁ : Inv q (s.setTask t (.swapOut e nr p :: s.frames t) .asking) :=
        h.of_setTask (free_of_mayCall h hmay) nofun
      exact h₁.tables _ _ _
    · cases hs
      exact h.tables _ _ _
  · cases hs

theorem Inv.gotPage (h : Inv q s) {p : ℕ} (hs : s.gotPage t p = some s') : Inv q s' := by
  unfold State.gotPage at hs
  split at hs
  · rename_i e nr fs hf
    cases hs
    have h₁ : Inv q (s.setTask t (.swapIn e nr (some p) :: fs) .asking) :=
      h.of_setTask (free_of_transfer h hf rfl) nofun
    exact h₁.tables _ _ _
  · rename_i src dst nr fs hf
    cases hs
    have h₁ : Inv q (s.setTask t (.copy src dst nr (some p) :: fs) .asking) :=
      h.of_setTask (free_of_transfer h hf rfl) nofun
    exact h₁.tables _ _ _
  · cases hs

theorem Inv.noPage (h : Inv q s) (hs : s.noPage t = some s') : Inv q s' := by
  unfold State.noPage at hs
  split at hs
  · rename_i hf
    cases hs
    exact h.of_setTask (free_of_transfer h hf rfl) nofun
  · rename_i hf
    cases hs
    exact h.of_setTask (free_of_transfer h hf rfl) nofun
  · cases hs

/-- Requests other than a new one are as before. -/
theorem Serves.other (h : Serves s i t tr) {blk : Blk} {waiting : Slot → Option ℕ} {buffer : Slot → ℕ}
    (hr : blk.request i = s.blk.request i) (hw : waiting i = s.waiting i) (hb : buffer i = s.buffer i) :
    Serves { s with blk, waiting, buffer } i t tr := by
  refine ⟨hw.trans h.waiting, h.phase, h.frame, ?_, ?_, hb.trans h.buffer⟩
  · dsimp only
    rw [hr]
    exact h.cmd
  · dsimp only
    rw [hr]
    exact h.sector

/-- What is on the queue after a request has been put there -/
theorem mem_insert {stop : Slot → Slot → Bool} (h : i ∈ Sweep.insertAt stop req q) : i = req ∨ i ∈ q :=
  List.mem_cons.mp ((Sweep.insertAt_perm _ _ _).mem_iff.mp h)

theorem Inv.llRwPage (h : Inv q s) (hs : s.llRwPage dev t req = some s') : ∃ q, Inv q s' := by
  unfold State.llRwPage at hs
  cases hf : s.frames t with
  | nil =>
    rw [hf] at hs
    cases hs
  | cons f fs =>
    rw [hf] at hs
    obtain ⟨tr, htr, hs⟩ := Option.bind_eq_some_iff.mp hs
    split_ifs at hs with hph
    obtain ⟨blk, hblk, rfl⟩ := Option.map_eq_some_iff.mp hs
    have hfree := Blk.submit_free hblk
    obtain ⟨hreq, blk', hblk', hq, hr, -⟩ := Blk.submit_spec h.queued hfree
    cases hblk.symm.trans hblk'
    have ht : Free q s t := h.free_of_phase (by rw [hph]; exact nofun)
    have hne : ∀ i ∈ q, i ≠ req := fun i hi he => hreq (he ▸ hi)
    have hold : ∀ i ∈ q, blk.request i = s.blk.request i := fun i hi => by
      rw [hr, update_of_ne (hne i hi)]
    have hnew : blk.request req = pageInfo tr.cmd dev tr.nr := by rw [hr, update_self]
    refine ⟨_, hq, ?_, ?_, ?_, ?_, ⟨h.sound.nullRead, h.sound.acted⟩⟩
    · intro i hi hb
      rcases mem_insert hi with rfl | hi
      · refine ⟨t, tr, update_self _ _ _, update_self _ _ _, ⟨f, fs, update_self _ _ _, htr⟩, ?_, ?_,
          update_self _ _ _⟩
        · exact congrArg Request.cmd hnew
        · exact congrArg Request.sector hnew
      · have hne : i ≠ req := fun he => hreq (he ▸ hi)
        dsimp only at hb
        rw [hold i hi] at hb
        obtain ⟨u, tr', hu⟩ := h.serves i hi hb
        have hut : u ≠ t := fun he => ht i hi (he ▸ hu.waiting)
        refine ⟨u, tr', ?_, ?_, ?_, ?_, ?_, ?_⟩
        · exact (update_of_ne hne _ _).trans hu.waiting
        · exact (update_of_ne hut _ _).trans hu.phase
        · obtain ⟨f', fs', hf', htr'⟩ := hu.frame
          exact ⟨f', fs', (update_of_ne hut _ _).trans hf', htr'⟩
        · exact (congrArg Request.cmd (hold i hi)).trans hu.cmd
        · exact (congrArg Request.sector (hold i hi)).trans hu.sector
        · exact (update_of_ne hne _ _).trans hu.buffer
    · intro i hi hb
      rcases mem_insert hi with rfl | hi
      · exact absurd (congrArg Request.bh hnew) hb
      · have hne : i ≠ req := fun he => hreq (he ▸ hi)
        dsimp only at hb ⊢
        rw [hold i hi] at hb
        rw [update_of_ne hne]
        exact h.buffers i hi hb
    · intro i hi j hj u hwi hwj
      dsimp only at hwi hwj
      have hcase : ∀ k, k = req ∨ k ∈ q → update s.waiting req (some t) k = some u →
          k = req ∧ u = t ∨ k ∈ q ∧ s.waiting k = some u := by
        intro k hk hwk
        rcases hk with hk | hk
        · rw [hk, update_self] at hwk
          exact .inl ⟨hk, (Option.some.inj hwk).symm⟩
        · rw [update_of_ne (hne k hk)] at hwk
          exact .inr ⟨hk, hwk⟩
      rcases hcase i (mem_insert hi) hwi with ⟨hir, hut⟩ | ⟨hi, hwi⟩ <;>
        rcases hcase j (mem_insert hj) hwj with ⟨hjr, hut'⟩ | ⟨hj, hwj⟩
      · exact hir.trans hjr.symm
      · exact (ht j hj (hut ▸ hwj)).elim
      · exact (ht i hi (hut' ▸ hwi)).elim
      · exact h.one i hi j hj u hwi hwj
    · intro u g gs tr' hg htr' hp
      have hne : u ≠ t := by
        rintro rfl
        exact absurd ((update_self _ _ _).symm.trans hp) nofun
      exact h.awake u g gs tr' ((update_of_ne hne _ _).symm.trans hg) htr'
        ((update_of_ne hne _ _).symm.trans hp)

theorem Inv.makeRequest (h : Inv q s) {rw bDev : ℤ} {bBlocknr bh : ℕ}
    (hs : s.makeRequest req rw bDev bBlocknr bh = some s') : ∃ q, Inv q s' := by
  unfold State.makeRequest at hs
  obtain ⟨blk, hblk, rfl⟩ := Option.map_eq_some_iff.mp hs
  unfold Blk.makeRequest at hblk
  split_ifs at hblk
  have hfree := Blk.submit_free hblk
  obtain ⟨hreq, blk', hblk', hq, hr, -⟩ := Blk.submit_spec h.queued hfree
  cases hblk.symm.trans hblk'
  have hne : ∀ i ∈ q, i ≠ req := fun i hi he => hreq (he ▸ hi)
  have hold : ∀ i ∈ q, blk.request i = s.blk.request i := fun i hi => by
    rw [hr, update_of_ne (hne i hi)]
  have hnew : blk.request req = bufferInfo rw bDev bBlocknr bh := by rw [hr, update_self]
  refine ⟨_, hq, ?_, ?_, ?_, h.awake, ⟨h.sound.nullRead, h.sound.acted⟩⟩
  · intro i hi hb
    rcases mem_insert hi with rfl | hi
    · cases (congrArg Request.bh hnew).symm.trans hb
    · dsimp only at hb
      rw [hold i hi] at hb
      obtain ⟨u, tr, hu⟩ := h.serves i hi hb
      exact ⟨u, tr, hu.other (hold i hi) (update_of_ne (hne i hi) _ _) rfl⟩
  · intro i hi hb
    rcases mem_insert hi with rfl | hi
    · exact update_self _ _ _
    · dsimp only at hb ⊢
      rw [hold i hi] at hb
      rw [update_of_ne (hne i hi)]
      exact h.buffers i hi hb
  · intro i hi j hj u hwi hwj
    dsimp only at hwi hwj
    have hold : ∀ k, k = req ∨ k ∈ q → update s.waiting req none k = some u →
        k ∈ q ∧ s.waiting k = some u := by
      intro k hk hwk
      rcases hk with hk | hk
      · rw [hk, update_self] at hwk
        cases hwk
      · rw [update_of_ne (hne k hk)] at hwk
        exact ⟨hk, hwk⟩
    obtain ⟨hi, hwi⟩ := hold i (mem_insert hi) hwi
    obtain ⟨hj, hwj⟩ := hold j (mem_insert hj) hwj
    exact h.one i hi j hj u hwi hwj

theorem Inv.lockBuffer (h : Inv q s) {bh : ℕ} {blk : Blk} (hs : s.blk.lockBuffer bh = some blk) :
    Inv q { s with blk } := by
  unfold Blk.lockBuffer at hs
  split_ifs at hs
  cases hs
  exact ⟨⟨h.queued.path, h.queued.nodup, h.queued.used⟩,
    fun i hi hb => by
      obtain ⟨u, tr, hu⟩ := h.serves i hi hb
      exact ⟨u, tr, hu.waiting, hu.phase, hu.frame, hu.cmd, hu.sector, hu.buffer⟩,
    h.buffers, h.one, h.awake, h.sound.nullRead, h.sound.acted⟩

/-- The task that waits for the request is woken, and a buffer request has none. -/
theorem Inv.endRequest {u : Bool} (h : Inv q s) (hw : Works s (.endRequest u))
    (hs : s.endRequest u = some s') : ∃ q, Inv q s' := by
  unfold State.endRequest at hs
  obtain ⟨c, hc, hs⟩ := Option.bind_eq_some_iff.mp hs
  obtain ⟨blk, hblk, rfl⟩ := Option.map_eq_some_iff.mp hs
  obtain ⟨c', l, rfl, hc', hl, hr⟩ := Blk.endRequest_spec h.queued hblk
  cases hc.symm.trans hc'
  obtain ⟨hcl, -⟩ := List.nodup_cons.mp h.queued.nodup
  have hmem : ∀ i ∈ l, i ∈ c :: l := fun i => List.mem_cons_of_mem c
  have hold : ∀ i ∈ l, blk.request i = s.blk.request i := fun i hi => hr i fun he => hcl (he ▸ hi)
  have hread : (s.nullRead || (!u && (s.blk.request c).bh.isNone)) = false := by
    rw [h.sound.nullRead, Bool.false_or]
    cases u with
    | true => rfl
    | false => simpa using Option.ne_none_iff_isSome.mp (hw rfl c hc)
  have hserves : ∀ i ∈ l, (blk.request i).bh = none →
      ∃ t tr, s.waiting c ≠ some t ∧ Serves { s with blk } i t tr := by
    intro i hi hb
    rw [hold i hi] at hb
    obtain ⟨t, tr, ht⟩ := h.serves i (hmem i hi) hb
    refine ⟨t, tr, fun hct => hcl ?_, ht.other (hold i hi) rfl rfl⟩
    cases h.one c List.mem_cons_self i (hmem i hi) t hct ht.waiting
    exact hi
  have hbuffers : ∀ i ∈ l, (blk.request i).bh ≠ none → s.waiting i = none := fun i hi hb =>
    h.buffers i (hmem i hi) (hold i hi ▸ hb)
  have hone : ∀ i ∈ l, ∀ j ∈ l, ∀ t, s.waiting i = some t → s.waiting j = some t → i = j :=
    fun i hi j hj => h.one i (hmem i hi) j (hmem j hj)
  refine ⟨l, ?_⟩
  dsimp only
  split
  · refine ⟨hl, fun i hi hb => ?_, hbuffers, hone, h.awake, hread, h.sound.acted⟩
    obtain ⟨t, tr, -, ht⟩ := hserves i hi hb
    exact ⟨t, tr, ht.waiting, ht.phase, ht.frame, ht.cmd, ht.sector, ht.buffer⟩
  · rename_i t hct
    have hpage : (s.blk.request c).bh = none := by
      by_contra hb
      cases hct.symm.trans (h.buffers c List.mem_cons_self hb)
    have hu : u = true := by
      by_contra hu
      rw [Bool.not_eq_true] at hu
      exact hw (congrArg _ hu) c hc hpage
    obtain ⟨t', tr, ht⟩ := h.serves c List.mem_cons_self hpage
    cases hct.symm.trans ht.waiting
    refine ⟨hl, fun i hi hb => ?_, hbuffers, hone, ?_, hread, h.sound.acted⟩
    · obtain ⟨t', tr', hct', ht'⟩ := hserves i hi hb
      have hne : t' ≠ t := fun he => hct' (he ▸ hct)
      exact ⟨t', tr', ht'.waiting, (update_of_ne hne _ _).trans ht'.phase, ht'.frame, ht'.cmd,
        ht'.sector, ht'.buffer⟩
    · intro t' f fs tr' hf htr hp
      by_cases he : t' = t
      · subst he
        obtain ⟨f', fs', hf', htr'⟩ := ht.frame
        cases hf'.symm.trans hf
        cases htr'.symm.trans htr
        refine (update_self _ _ _).trans ?_
        rw [ht.cmd, ht.sector, ht.buffer, Nat.mul_div_cancel _ (by decide), hu]
      · exact (update_of_ne he _ _).trans (h.awake t' f fs tr' hf htr
          ((update_of_ne he _ _).symm.trans hp))

theorem Inv.finish (h : Inv q s) (hs : s.finish t = some s') : Inv q s' := by
  unfold State.finish at hs
  cases hf : s.frames t with
  | nil =>
    rw [hf] at hs
    cases hs
  | cons f fs =>
    rw [hf] at hs
    obtain ⟨tr, htr, hs⟩ := Option.bind_eq_some_iff.mp hs
    split_ifs at hs with hph
    have ht : Free q s t := h.free_of_phase (by rw [hph]; exact nofun)
    have hlast : s.last t = some (tr, true) := h.awake t f fs tr hf htr hph
    have hacted : ∀ a ∈ (tr, s.last t) :: s.acted, a.2 = some (a.1, true) := by
      intro a ha
      rcases List.mem_cons.mp ha with rfl | ha
      · exact hlast
      · exact h.sound.acted a ha
    have hmoved : Inv q (s.setTask t fs .asking) := h.of_setTask ht nofun
    have h₁ : Inv q { s.setTask t fs .asking with acted := (tr, s.last t) :: s.acted } :=
      ⟨hmoved.queued, fun i hi hb => by
        obtain ⟨u, tr', hu⟩ := hmoved.serves i hi hb
        exact ⟨u, tr', hu.waiting, hu.phase, hu.frame, hu.cmd, hu.sector, hu.buffer⟩,
        hmoved.buffers, hmoved.one, hmoved.awake, hmoved.sound.nullRead, hacted⟩
    cases f with
    | swapIn e nr page =>
      cases hs
      exact h₁.tables _ _ _
    | copy src dst nr page =>
      cases hs
      exact h₁.tables _ _ _
    | swapOut e nr page =>
      cases hs
      exact h₁.tables _ _ _

/-! ## Every run -/

theorem Inv.step {a : Act} (h : Inv q s) (hw : Works s a) (hs : step dev a s = some s') :
    ∃ q, Inv q s' := by
  cases a with
  | swapIn t e => exact ⟨q, h.swapIn hs⟩
  | copy t src dst => exact ⟨q, h.copy hs⟩
  | swapOut t e => exact ⟨q, h.swapOut hs⟩
  | gotPage t p => exact ⟨q, h.gotPage hs⟩
  | noPage t => exact ⟨q, h.noPage hs⟩
  | llRwPage t req => exact h.llRwPage hs
  | lockBuffer bh =>
    obtain ⟨blk, hblk, rfl⟩ := Option.map_eq_some_iff.mp hs
    exact ⟨q, h.lockBuffer hblk⟩
  | makeRequest req rw bDev bBlocknr bh => exact h.makeRequest hs
  | endRequest uptodate => exact h.endRequest hw hs
  | finish t => exact ⟨q, h.finish hs⟩
  | others table memMap swapBitmap =>
    cases hs
    exact ⟨q, h.tables _ _ _⟩

theorem inv_boot (table : ℕ → Pte) (memMap : ℕ → ℕ) (swapBitmap : Option (ℕ → Bool)) :
    Inv [] (boot table memMap swapBitmap) :=
  ⟨⟨Links.path_nil.mpr rfl, List.nodup_nil, nofun⟩, nofun, nofun, nofun, nofun, rfl, nofun⟩

/-- A failed transfer of a page is seen at once: its buffer head is read, and there is none. -/
theorem not_sound {a : Act} (hs : step dev a s = some s') (hw : ¬ Works s a) : ¬ Sound s' := by
  unfold Works at hw
  push Not at hw
  obtain ⟨rfl, c, hc, hb⟩ := hw
  obtain ⟨c', hc', hs⟩ := Option.bind_eq_some_iff.mp hs
  cases hc.symm.trans hc'
  obtain ⟨blk, -, rfl⟩ := Option.map_eq_some_iff.mp hs
  intro h
  have hread := h.nullRead
  dsimp only at hread
  rw [hb] at hread
  split at hread <;> simp at hread

/-- Pages are installed and freed on successful transfers only, and no missing buffer head is read,
exactly when no request for a page is ended with an error. -/
theorem sound_throughout_iff (dev : ℤ) (acts : List Act) (table : ℕ → Pte) (memMap : ℕ → ℕ)
    (swapBitmap : Option (ℕ → Bool)) :
    Throughout (step dev) Sound acts (boot table memMap swapBitmap) ↔
      Each (step dev) Works acts (boot table memMap swapBitmap) := by
  apply throughout_iff_each (I := fun s => ∃ q, Inv q s)
  · rintro s ⟨q, h⟩
    exact h.sound
  · rintro s a s' ⟨q, h⟩ hw hs
    exact h.step hw hs
  · rintro s a s' - hs h
    by_contra hw
    exact not_sound hs hw h
  · exact ⟨[], inv_boot table memMap swapBitmap⟩

/-- The disk fails to read swap page 5. -/
def failedRead : List Act :=
  [.swapIn 0 0, .gotPage 0 300, .llRwPage 0 31, .endRequest false, .finish 0]

/-- The disk fails to write the page at entry 0. -/
def failedWrite : List Act := [.swapOut 0 0, .llRwPage 0 31, .endRequest false, .finish 0]

def afterRead : State :=
  (runList (step 0x304) failedRead
    (boot (fun _ => .swapped 5) (fun _ => 0) (some fun _ => false))).get (by decide +kernel)

def afterWrite : State :=
  (runList (step 0x304) failedWrite
    (boot (fun _ => .page 300 true true) (fun _ => 1) (some fun _ => true))).get (by decide +kernel)

/-- What was in the page is installed as what swap page 5 holds, and a dirty page that is nowhere on
the disk is freed. -/
theorem failed_not_sound :
    (afterRead.table 0 = .page 300 true true ∧ afterRead.nullRead = true ∧
      afterRead.acted = [(⟨READ, 5, 300⟩, some (⟨READ, 5, 300⟩, false))]) ∧
    (afterWrite.memMap 300 = 0 ∧ afterWrite.nullRead = true ∧
      afterWrite.acted = [(⟨WRITE, 1, 300⟩, some (⟨WRITE, 1, 300⟩, false))]) ∧
    ¬ Sound afterRead ∧ ¬ Sound afterWrite := by
  have hread : afterRead.nullRead = true := by decide +kernel
  have hwrite : afterWrite.nullRead = true := by decide +kernel
  refine ⟨⟨by decide +kernel, hread, by decide +kernel⟩,
    ⟨by decide +kernel, hwrite, by decide +kernel⟩, fun h => ?_, fun h => ?_⟩
  · exact Bool.noConfusion (hread.symm.trans h.nullRead)
  · exact Bool.noConfusion (hwrite.symm.trans h.nullRead)

end Linux012.SwapIo
