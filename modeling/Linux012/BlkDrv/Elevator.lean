import Linux012.BlkDrv.Requests

/-! # The elevator

The calls of `add_request` and `end_request` on one device, in any order. With buffer
requests of distinct keys the list is one ascending sweep followed by another.
-/

namespace Linux012.Requests

open Function Links Sweep Runs

/-- A device, and its requests that have not ended in the order of their arrival. -/
structure Sys where
  blk : Blk
  pending : List Slot

inductive Act
  | lockBuffer (bh : Bh)
  | makeRequest (req : Slot) (rw bDev : ℤ) (bBlocknr : ℕ) (bh : Bh)
  | llRwPage (req : Slot) (rw dev : ℤ) (page : ℕ)
  | endRequest (uptodate : Bool)

def step (a : Act) (s : Sys) : Option Sys :=
  match a with
  | .lockBuffer bh => (s.blk.lockBuffer bh).map fun b => { s with blk := b }
  | .makeRequest req rw bDev bBlocknr bh =>
    (s.blk.makeRequest req rw bDev bBlocknr bh).map fun b => ⟨b, s.pending ++ [req]⟩
  | .llRwPage req rw dev page =>
    (s.blk.llRwPage req rw dev page).map fun b => ⟨b, s.pending ++ [req]⟩
  | .endRequest uptodate =>
    (s.blk.endRequest uptodate).bind fun b =>
      s.blk.currentRequest.map fun c => ⟨b, s.pending.erase c⟩

/-- No request is in use. -/
def idle (next : Slot → Option Slot) (bDirt bUptodate bLock : Bh → Bool) : Sys where
  blk := {
    request := fun _ => { dev := -1, cmd := READ, sector := 0, bh := none }
    next := next
    currentRequest := none
    bDirt := bDirt
    bUptodate := bUptodate
    bLock := bLock }
  pending := []

/-- What a step adds to the list or takes off it. -/
inductive Moves (s s' : Sys) : Act → Prop
  | lock {bh : Bh} : s' = { s with blk := { s.blk with bLock := update s.blk.bLock bh true } } →
      Moves s s' (.lockBuffer bh)
  | buffer {req : Slot} {rw bDev : ℤ} {bBlocknr : ℕ} {bh : Bh} :
      s.blk.submit req (bufferInfo rw bDev bBlocknr bh) =
        some s'.blk → s'.pending = s.pending ++ [req] →
      Moves s s' (.makeRequest req rw bDev bBlocknr bh)
  | page {req : Slot} {rw dev : ℤ} {page : ℕ} :
      s.blk.submit req (pageInfo rw dev page) = some s'.blk →
      s'.pending = s.pending ++ [req] → Moves s s' (.llRwPage req rw dev page)
  | done {uptodate : Bool} {c : Slot} : s.blk.currentRequest = some c →
      s.blk.endRequest uptodate = some s'.blk → s'.pending = s.pending.erase c →
      Moves s s' (.endRequest uptodate)

theorem step_moves {a : Act} {s s' : Sys} (h : step a s = some s') : Moves s s' a := by
  cases a with
  | lockBuffer bh =>
    obtain ⟨b, hb, rfl⟩ := Option.map_eq_some_iff.mp h
    rw [Blk.lockBuffer] at hb
    split_ifs at hb
    exact .lock (by rw [← Option.some.inj hb])
  | makeRequest req rw bDev bBlocknr bh =>
    obtain ⟨b, hb, rfl⟩ := Option.map_eq_some_iff.mp h
    rw [Blk.makeRequest] at hb
    split_ifs at hb
    exact .buffer hb rfl
  | llRwPage req rw dev page =>
    obtain ⟨b, hb, rfl⟩ := Option.map_eq_some_iff.mp h
    exact .page hb rfl
  | endRequest uptodate =>
    obtain ⟨b, hb, h⟩ := Option.bind_eq_some_iff.mp h
    obtain ⟨c, hc, rfl⟩ := Option.map_eq_some_iff.mp h
    exact .done hc hb rfl

/-- The list holds the pending requests, each once. -/
structure Held (s : Sys) (q : List Slot) : Prop where
  queued : s.blk.Queued q
  perm : q.Perm s.pending

theorem Held.idle {next : Slot → Option Slot} {bDirt bUptodate bLock : Bh → Bool} :
    Held (idle next bDirt bUptodate bLock) [] :=
  ⟨⟨rfl, List.nodup_nil, by simp⟩, .refl _⟩

theorem Held.nodup {s : Sys} {q : List Slot} (h : Held s q) : s.pending.Nodup :=
  h.perm.nodup_iff.mp h.queued.nodup

/-- The list after a step, and what stays of the requests on it. -/
theorem Held.submit {s s' : Sys} {q : List Slot} {req : Slot} {r : Request} (h : Held s q)
    (hs : s.blk.submit req r = some s'.blk) (hp : s'.pending = s.pending ++ [req]) :
    req ∉ q ∧ Held s' (insertAt (stops (update s.blk.request req r) req) req q) ∧
      s'.blk.request = update s.blk.request req r ∧
      ∀ c, s.blk.currentRequest = some c → s'.blk.currentRequest = some c := by
  obtain ⟨hq, b, hb, hqueued, hr, hc⟩ := Blk.submit_spec h.queued (Blk.submit_free hs)
  obtain rfl := Option.some.inj (hb.symm.trans hs)
  refine ⟨hq, ⟨hqueued, ?_⟩, hr, hc⟩
  rw [hp]
  exact (insertAt_perm _ _ _).trans ((h.perm.cons req).trans (List.perm_append_singleton _ _).symm)

theorem Held.done {s s' : Sys} {q : List Slot} {c : Slot} {u : Bool} (h : Held s q)
    (hc : s.blk.currentRequest = some c) (hs : s.blk.endRequest u = some s'.blk)
    (hp : s'.pending = s.pending.erase c) :
    ∃ l, q = c :: l ∧ Held s' l ∧ ∀ i ≠ c, s'.blk.request i = s.blk.request i := by
  obtain ⟨c', l, rfl, hc', hl, hr⟩ := Blk.endRequest_spec h.queued hs
  obtain rfl := Option.some.inj (hc.symm.trans hc')
  refine ⟨l, rfl, ⟨hl, ?_⟩, hr⟩
  rw [hp]
  simpa using h.perm.erase c

theorem Held.after {s s' : Sys} {a : Act} {q : List Slot} (h : Held s q)
    (hs : step a s = some s') : ∃ q', Held s' q' := by
  cases step_moves hs with
  | lock hs' => exact ⟨q, hs' ▸ ⟨⟨h.queued.path, h.queued.nodup, h.queued.used⟩, h.perm⟩⟩
  | buffer hb hp => exact ⟨_, (h.submit hb hp).2.1⟩
  | page hb hp => exact ⟨_, (h.submit hb hp).2.1⟩
  | done hc hb hp =>
    obtain ⟨l, -, hl, -⟩ := h.done hc hb hp
    exact ⟨l, hl⟩

/-! ## Sweeps -/

/-- The added request is a buffer request whose key no pending request has. -/
def Distinct (s : Sys) : Act → Prop
  | .makeRequest _ rw bDev bBlocknr _ => ∀ i ∈ s.pending,
      ((s.blk.request i).cmd, (s.blk.request i).dev, (s.blk.request i).sector) ≠
        (rw, bDev, bBlocknr * 2)
  | .llRwPage .. => False
  | _ => True

instance : ∀ s a, Decidable (Distinct s a)
  | s, .makeRequest .. => inferInstanceAs (Decidable (∀ i ∈ s.pending, _ ≠ _))
  | _, .llRwPage .. => .isFalse id
  | _, .lockBuffer _ => .isTrue trivial
  | _, .endRequest _ => .isTrue trivial

theorem before_update {request : Slot → Request} {req i j : Slot} {r : Request} (hi : i ≠ req)
    (hj : j ≠ req) : before (update request req r) i j ↔ before request i j := by
  rw [before, before, update_of_ne hi, update_of_ne hj]

theorem descents_update {request : Slot → Request} {req : Slot} {r : Request} {q : List Slot}
    (hq : req ∉ q) :
    descents (before (update request req r)) q = descents (before request) q :=
  descents_congr _ fun _ hi _ hj =>
    before_update (fun e => hq (e ▸ hi)) fun e => hq (e ▸ hj)

/-- The elevator keeps the list in at most two sweeps. -/
theorem Held.sweeps {s s' : Sys} {a : Act} {q : List Slot} (h : Held s q)
    (hd : descents (before s.blk.request) q ≤ 1) (ha : Distinct s a)
    (hs : step a s = some s') :
    ∃ q', Held s' q' ∧ descents (before s'.blk.request) q' ≤ 1 := by
  cases step_moves hs with
  | lock hs' =>
    subst hs'
    exact ⟨q, ⟨⟨h.queued.path, h.queued.nodup, h.queued.used⟩, h.perm⟩, hd⟩
  | @buffer req rw bDev bBlocknr bh hb hp =>
    obtain ⟨hq, hq', hr, -⟩ := h.submit hb hp
    refine ⟨_, hq', ?_⟩
    rw [hr]
    set request' := update s.blk.request req
      (bufferInfo rw bDev bBlocknr bh) with hreq'
    have hstop : stops request' req = elevator (before request') req := by
      funext t y
      simp [stops, hreq', bufferInfo]
    rw [hstop]
    cases q with
    | nil => simp [insertAt]
    | cons t l =>
      refine descents_insertAt_le _ (fun _ _ _ => inOrder.trans) ?_ fun y hy hn =>
        inOrder.of_not hn ?_
      · rwa [descents_update hq]
      · have hyq : y ∈ t :: l := List.mem_cons_of_mem _ hy
        have hyr : y ≠ req := fun e => hq (e ▸ hyq)
        rw [hreq', update_self, update_of_ne hyr]
        exact (ha y (h.perm.mem_iff.mp hyq)).symm
  | page => exact ha.elim
  | done hc hb hp =>
    obtain ⟨l, rfl, hl, hr⟩ := h.done hc hb hp
    refine ⟨l, hl, ?_⟩
    have hcl := (List.nodup_cons.mp h.queued.nodup).1
    have heq : descents (before s'.blk.request) l = descents (before s.blk.request) l :=
      descents_congr _ fun i hi j hj => by
        rw [before, before, hr i fun e => hcl (e ▸ hi), hr j fun e => hcl (e ▸ hj)]
    rw [heq]
    exact (descents_tail_le (before s.blk.request)).trans hd

/-- In every run with distinct keys the list holds exactly the requests that have not ended,
in at most two sweeps, and the running request stays at its head. -/
theorem elevator_queue {next : Slot → Option Slot} {bDirt bUptodate bLock : Bh → Bool} {s : Sys}
    (h : Run step Distinct (idle next bDirt bUptodate bLock) s) :
    Path s.blk.next s.blk.currentRequest s.blk.queue ∧ s.blk.queue.Nodup ∧
      s.blk.queue.Perm s.pending ∧ descents (before s.blk.request) s.blk.queue ≤ 1 ∧
      (∀ a s' c, step a s = some s' → (∀ u, a ≠ .endRequest u) →
        s.blk.currentRequest = some c → s'.blk.currentRequest = some c) ∧
      ∀ req rw bDev bBlocknr bh, (s.blk.request req).dev < 0 → 0 ≤ bDev →
        rw = READ ∨ rw = WRITE → s.blk.bLock bh = true →
        (step (.makeRequest req rw bDev bBlocknr bh) s).isSome := by
  have hinv : ∃ q, Held s q ∧ descents (before s.blk.request) q ≤ 1 :=
    h.invariant (I := fun s => ∃ q, Held s q ∧ descents (before s.blk.request) q ≤ 1)
      ⟨[], .idle, by simp⟩ fun s a s' ⟨q, hq, hd⟩ ha hs => hq.sweeps hd ha hs
  obtain ⟨q, hq, hd⟩ := hinv
  rw [hq.queued.queue_eq]
  refine ⟨hq.queued.path, hq.queued.nodup, hq.perm, hd, ?_, ?_⟩
  · intro a s' c hs ha hc
    cases step_moves hs with
    | lock hs' => rw [hs', hc]
    | buffer hb hp => exact (hq.submit hb hp).2.2.2 c hc
    | page hb hp => exact (hq.submit hb hp).2.2.2 c hc
    | done => exact absurd rfl (ha _)
  · intro req rw bDev bBlocknr bh hfree hdev hrw hlock
    obtain ⟨-, b, hb, -⟩ := Blk.submit_spec
      (r := bufferInfo rw bDev bBlocknr bh) hq.queued
      ⟨hfree, hdev, hrw⟩
    simp [step, Blk.makeRequest, hlock, hb]

section Examples

/-- An idle device with clean buffers, of which the second is then modified. -/
def quiet : Sys := idle (fun _ => none) (fun b => b = 1) (fun _ => false) fun _ => false

/-- Two blocks are read and one is written in between. -/
def threeActs : List Act :=
  [.lockBuffer 0, .lockBuffer 1, .lockBuffer 2, .makeRequest 31 READ 769 10 0,
    .makeRequest 20 WRITE 769 5 1, .makeRequest 30 READ 769 3 2]

def three : Sys := (runList step threeActs quiet).get (by decide +kernel)

theorem elevator_queue_three : descents (before three.blk.request) three.blk.queue ≤ 1 :=
  (elevator_queue (.of_each (by decide +kernel : Each step Distinct threeActs quiet)
    (Option.some_get _).symm)).2.2.2.1

end Examples

end Linux012.Requests
