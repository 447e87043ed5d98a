import Linux012.Lib.Paths
import Linux012.Lib.Sweep
import Linux012.Lib.Runs

/-! # The request queue of a block device

`add_request` links a request into the list of a device, `end_request` takes the
finished one off its head. Both run with interrupts off. The request table is read
through `request`, the links of the list through `next`.
-/

namespace Linux012.Requests

open Function Links Sweep Runs

abbrev NR_REQUEST : ℕ := 32

abbrev Slot := Fin NR_REQUEST
abbrev Bh := ℕ

def READ : ℤ := 0
def WRITE : ℤ := 1

/-- The request-struct without its link; a negative `dev` marks it as free. -/
structure Request where
  dev : ℤ
  cmd : ℤ
  sector : ℕ
  bh : Option Bh

/-- Reads go before writes, then by device and sector. -/
def inOrder (s1 s2 : Request) : Prop :=
  s1.cmd < s2.cmd ∨ (s1.cmd = s2.cmd ∧
    (s1.dev < s2.dev ∨ (s1.dev = s2.dev ∧ s1.sector < s2.sector)))

instance : DecidableRel inOrder := fun _ _ => by unfold inOrder; infer_instance

theorem inOrder.trans {a b c : Request} (h : inOrder a b) (h' : inOrder b c) : inOrder a c := by
  unfold inOrder at *; omega

/-- Requests with different commands, devices or sectors are ordered one way or the other. -/
theorem inOrder.of_not {a b : Request} (h : ¬ inOrder a b)
    (hne : (a.cmd, a.dev, a.sector) ≠ (b.cmd, b.dev, b.sector)) : inOrder b a := by
  simp only [ne_eq, Prod.mk.injEq] at hne
  unfold inOrder at *; omega

/-- What `make_request` fills in to transfer a block. -/
def bufferInfo (rw bDev : ℤ) (bBlocknr : ℕ) (bh : Bh) : Request where
  dev := bDev
  cmd := rw
  sector := bBlocknr * 2
  bh := some bh

/-- What `ll_rw_page` fills in to transfer a page. -/
def pageInfo (rw dev : ℤ) (page : ℕ) : Request where
  dev := dev
  cmd := rw
  sector := page * 8
  bh := none

/-- The two requests are in order. -/
def before (request : Slot → Request) (i j : Slot) : Prop := inOrder (request i) (request j)

instance (request : Slot → Request) : DecidableRel (before request) := fun _ _ =>
  inferInstanceAs (Decidable (inOrder _ _))

/-- The test of the insertion loop between two neighbours of the list. -/
def stops (request : Slot → Request) (req tmp nx : Slot) : Bool :=
  match (request req).bh with
  | none => (request nx).bh.isSome
  | some _ => elevator (before request) req tmp nx

/-- The requests, the queue of one device, and the flags of the buffers they transfer. -/
structure Blk where
  request : Slot → Request
  next : Slot → Option Slot
  currentRequest : Option Slot
  bDirt : Bh → Bool
  bUptodate : Bh → Bool
  bLock : Bh → Bool

namespace Blk

variable (s : Blk)

/-- The loop that looks for the request behind which `req` goes. -/
def place (req : Slot) : ℕ → Slot → Option Slot
  | 0, _ => none
  | k + 1, tmp =>
    match s.next tmp with
    | none => some tmp
    | some nx => if stops s.request req tmp nx then some tmp else place req k nx

def setDirt (b : Option Bh) (v : Bool) : Blk :=
  match b with
  | none => s
  | some b => { s with bDirt := update s.bDirt b v }

/-- Link the request in behind `tmp`. -/
def link (req tmp : Slot) : Blk :=
  { s with next := update (update s.next req (s.next tmp)) tmp (some req) }

/-- The request function that is started on an idle device ends its requests later. -/
def addRequest (req : Slot) : Option Blk :=
  let s := ({ s with next := update s.next req none } : Blk).setDirt (s.request req).bh false
  match s.currentRequest with
  | none => some { s with currentRequest := some req }
  | some tmp => (s.place req NR_REQUEST tmp).map (s.link req)

/-- Fill up the request-info of a free request and add it to the queue. -/
def submit (req : Slot) (r : Request) : Option Blk :=
  if (s.request req).dev < 0 ∧ 0 ≤ r.dev ∧ (r.cmd = READ ∨ r.cmd = WRITE) then
    ({ s with request := update s.request req r } : Blk).addRequest req
  else none

/-- The end of `make_request`, with the buffer locked and a free request found. -/
def makeRequest (req : Slot) (rw : ℤ) (bDev : ℤ) (bBlocknr : ℕ) (bh : Bh) : Option Blk :=
  if s.bLock bh then
    s.submit req (bufferInfo rw bDev bBlocknr bh)
  else none

def llRwPage (req : Slot) (rw : ℤ) (dev : ℤ) (page : ℕ) : Option Blk :=
  s.submit req (pageInfo rw dev page)

def lockBuffer (bh : Bh) : Option Blk :=
  if s.bLock bh then none else some { s with bLock := update s.bLock bh true }

def endRequest (uptodate : Bool) : Option Blk :=
  match s.currentRequest with
  | none => none
  | some c =>
    let r := s.request c
    some { s with
      bUptodate := match r.bh with
        | none => s.bUptodate
        | some b => update s.bUptodate b uptodate
      bLock := match r.bh with
        | none => s.bLock
        | some b => update s.bLock b false
      request := update s.request c { r with dev := -1 }
      currentRequest := s.next c }

/-- The requests on the list, from the running one on. -/
def queue : List Slot := walk s.next NR_REQUEST s.currentRequest

/-! ## What the calls do to the list -/

variable {s s' : Blk} {q : List Slot} {req c : Slot}

/-- The list of the device goes through the given requests, all of them in use. -/
structure Queued (s : Blk) (q : List Slot) : Prop where
  path : Path s.next s.currentRequest q
  nodup : q.Nodup
  used : ∀ i ∈ q, 0 ≤ (s.request i).dev

theorem Queued.length_le (h : s.Queued q) : q.length ≤ NR_REQUEST := by
  simpa using h.nodup.length_le_card

theorem Queued.queue_eq (h : s.Queued q) : s.queue = q := h.path.walk_eq h.length_le

theorem place_spec (req : Slot) {k : ℕ} {t : Slot} {l : List Slot}
    (h : Path s.next (some t) (t :: l))
    (hk : l.length < k) :
    ∃ l₁ x l₂, t :: l = l₁ ++ x :: l₂ ∧ s.place req k t = some x ∧
      insertAt (stops s.request req) req (t :: l) = l₁ ++ x :: req :: l₂ := by
  induction l generalizing t k with
  | nil =>
    obtain ⟨k, rfl⟩ := Nat.exists_eq_add_of_lt hk
    refine ⟨[], t, [], rfl, ?_, rfl⟩
    simp [place, path_nil.mp h.2]
  | cons y l ih =>
    obtain ⟨k, rfl⟩ : ∃ j, k = j + 1 := ⟨k - 1, by omega⟩
    have hn : s.next t = some y := h.2.1
    simp only [place, hn]
    by_cases hstop : stops s.request req t y
    · exact ⟨[], t, y :: l, rfl, if_pos hstop, by rw [insertAt_cons_cons, if_pos hstop]; rfl⟩
    · have hp : Path s.next (some y) (y :: l) := by rw [← hn]; exact h.2
      obtain ⟨l₁, x, l₂, heq, hx, hins⟩ := ih (k := k) hp (by simpa using hk)
      refine ⟨t :: l₁, x, l₂, by rw [heq]; rfl, (if_neg hstop).trans hx, ?_⟩
      rw [insertAt_cons_cons, if_neg hstop, hins]
      rfl

@[simp] theorem setDirt_request (b : Option Bh) (v : Bool) : (s.setDirt b v).request = s.request := by
  cases b <;> rfl

@[simp] theorem setDirt_next (b : Option Bh) (v : Bool) : (s.setDirt b v).next = s.next := by
  cases b <;> rfl

@[simp] theorem setDirt_currentRequest (b : Option Bh) (v : Bool) :
    (s.setDirt b v).currentRequest = s.currentRequest := by
  cases b <;> rfl

/-- `add_request` always returns, with the request in its place on the list. -/
theorem addRequest_spec (h : s.Queued q) (hq : req ∉ q) (hdev : 0 ≤ (s.request req).dev) :
    ∃ s', s.addRequest req = some s' ∧ s'.Queued (insertAt (stops s.request req) req q) ∧
      s'.request = s.request ∧ ∀ c, s.currentRequest = some c → s'.currentRequest = some c := by
  set s₁ := ({ s with next := update s.next req none } : Blk).setDirt (s.request req).bh false
    with hs₁
  have hreq : s₁.request = s.request := setDirt_request ..
  have hnext : s₁.next = update s.next req none := setDirt_next ..
  have hcur : s₁.currentRequest = s.currentRequest := setDirt_currentRequest ..
  have hpath : Path s₁.next s₁.currentRequest q := by
    rw [hcur]
    refine h.path.congr fun i hi => ?_
    have hne : i ≠ req := fun e => hq (e ▸ hi)
    rw [hnext, update_of_ne hne]
  have hmem : ∀ i ∈ insertAt (stops s.request req) req q, 0 ≤ (s.request i).dev := by
    intro i hi
    rcases List.mem_cons.mp ((insertAt_perm _ _ _).mem_iff.mp hi) with rfl | hi
    · exact hdev
    · exact h.used i hi
  have hnodup : (insertAt (stops s.request req) req q).Nodup :=
    (insertAt_perm _ _ _).nodup_iff.mpr (List.nodup_cons.mpr ⟨hq, h.nodup⟩)
  cases q with
  | nil =>
    have hnone : s₁.currentRequest = none := hpath
    have hnone' : s.currentRequest = none := hcur.symm.trans hnone
    refine ⟨{ s₁ with currentRequest := some req }, by simp only [addRequest, ← hs₁, hnone],
      ⟨?_, hnodup, by simpa only [hreq] using hmem⟩, hreq, fun c hc => by simp [hnone'] at hc⟩
    exact ⟨rfl, by simp [hnext]⟩
  | cons t l =>
    have ht : s₁.currentRequest = some t := hpath.1
    have hlen := h.length_le
    obtain ⟨l₁, x, l₂, heq, hx, hins⟩ := place_spec req (k := NR_REQUEST)
      (ht ▸ hpath) (by simpa using hlen)
    rw [hreq] at hins
    rw [heq] at hpath hq
    refine ⟨s₁.link req x, by simp only [addRequest, ← hs₁, ht, hx, Option.map_some],
      ⟨?_, hnodup, by simpa only [link, hreq] using hmem⟩, hreq, fun c hc => hcur.trans hc⟩
    rw [hins]
    exact hpath.insert (heq ▸ h.nodup) hq

/-- What a filled request adds to the queue. -/
theorem submit_spec {r : Request} (h : s.Queued q)
    (hfree : (s.request req).dev < 0 ∧ 0 ≤ r.dev ∧ (r.cmd = READ ∨ r.cmd = WRITE)) :
    req ∉ q ∧ ∃ s', s.submit req r = some s' ∧
      s'.Queued (insertAt (stops (update s.request req r) req) req q) ∧
      s'.request = update s.request req r ∧
      ∀ c, s.currentRequest = some c → s'.currentRequest = some c := by
  have hq : req ∉ q := fun hm => absurd (h.used req hm) (not_le.mpr hfree.1)
  have hfill : ({ s with request := update s.request req r } : Blk).Queued q :=
    ⟨h.path, h.nodup, fun i hi => by
      have hne : i ≠ req := fun e => hq (e ▸ hi)
      dsimp only
      rw [update_of_ne hne]
      exact h.used i hi⟩
  obtain ⟨s', hs', hq', hr, hc⟩ := addRequest_spec hfill hq (by
    dsimp only
    rw [update_self]
    exact hfree.2.1)
  exact ⟨hq, s', by rw [submit, if_pos hfree, hs'], hq', hr, hc⟩

theorem submit_free {r : Request} (h : s.submit req r = some s') :
    (s.request req).dev < 0 ∧ 0 ≤ r.dev ∧ (r.cmd = READ ∨ r.cmd = WRITE) := by
  by_contra hn
  rw [submit, if_neg hn] at h
  cases h

/-- `end_request` takes the head off the list. -/
theorem endRequest_spec {u : Bool} (h : s.Queued q) (he : s.endRequest u = some s') :
    ∃ c l, q = c :: l ∧ s.currentRequest = some c ∧ s'.Queued l ∧
      ∀ i ≠ c, s'.request i = s.request i := by
  cases q with
  | nil =>
    rw [endRequest, path_nil.mp h.path] at he
    cases he
  | cons c l =>
    obtain ⟨hc, hp⟩ := h.path
    obtain ⟨hcl, hl⟩ := List.nodup_cons.mp h.nodup
    simp only [endRequest, hc, Option.some.injEq] at he
    subst he
    refine ⟨c, l, rfl, hc, ⟨hp, hl, fun i hi => ?_⟩, fun i hi => update_of_ne hi ..⟩
    have hne : i ≠ c := fun e => hcl (e ▸ hi)
    dsimp only
    rw [update_of_ne hne]
    exact h.used i (List.mem_cons_of_mem _ hi)

end Blk

end Linux012.Requests
