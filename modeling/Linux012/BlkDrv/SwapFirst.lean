import Mathlib.Data.List.Nodup
import Linux012.BlkDrv.Elevator
import Linux012.Lib.Index

/-! # Swap requests

`add_request` promises that swap requests go before others in the order they appear. It
puts a swap request in front of the first waiting buffer request, but a buffer request
is placed by the elevator alone, also in front of swap requests.
-/

namespace Linux012.Requests

open Function Links Sweep Runs
open scoped Index

/-! ## Placement by kind -/

section

variable {α : Type*} {stop : α → α → Bool} {swap : α → Bool} {x t : α} {l : List α}

/-- No other request waits ahead of a swap request. -/
def Ahead (swap : α → Bool) (l : List α) : Prop := l.Pairwise fun i j => swap j → swap i

theorem pairwise_of_right {R : α → α → Prop} (h : ∀ j ∈ l, ∀ i, R i j) : l.Pairwise R := by
  induction l with
  | nil => exact .nil
  | cons x l ih =>
    exact .cons (fun j hj => h j (List.mem_cons_of_mem _ hj) x)
      (ih fun j hj => h j (List.mem_cons_of_mem _ hj))

theorem ahead_cons_of_not (ht : ¬ swap t) : Ahead swap (t :: l) ↔ ∀ j ∈ l, ¬ swap j := by
  constructor
  · intro h j hj hs
    exact ht ((List.pairwise_cons.mp h).1 j hj hs)
  · intro h
    exact List.pairwise_cons.mpr ⟨fun j hj hs => absurd hs (h j hj),
      pairwise_of_right fun j hj _ hs => absurd hs (h j hj)⟩

/-- An insertion keeps the other kind behind the swap requests exactly when it does not
stop in front of one. -/
theorem ahead_insertAt_iff (hx : ¬ swap x) (hl : Ahead swap l) :
    Ahead swap (insertAt stop x (t :: l)).tail ↔
      (t :: l).IsChain fun a b => swap b → ¬ stop a b := by
  induction l generalizing t with
  | nil => simp [insertAt, Ahead]
  | cons y l ih =>
    have hyl := (List.pairwise_cons.mp hl).1
    rw [insertAt_cons_cons, List.isChain_cons_cons]
    by_cases hstop : stop t y
    · rw [if_pos hstop, List.tail_cons, ahead_cons_of_not hx]
      constructor
      · intro h
        exact ⟨fun hy => absurd hy (h y List.mem_cons_self),
          (pairwise_of_right fun j hj _ hs => absurd hs (h j hj)).isChain⟩
      · rintro ⟨hy, -⟩ j hj hs
        have hy : ¬ swap y := fun hs => hy hs hstop
        rcases List.mem_cons.mp hj with rfl | hj
        · exact hy hs
        · exact hy (hyl j hj hs)
    · obtain ⟨l', hl'⟩ := insertAt_eq_cons (x := x) (t := y) (l := l)
      have hperm : l'.Perm (x :: l) := by
        have h := insertAt_perm stop x (y :: l)
        rw [hl'] at h
        exact (h.trans (.swap y x l)).cons_inv
      have hmem : ∀ j ∈ l', swap j → swap y := by
        intro j hj hs
        rcases List.mem_cons.mp (hperm.mem_iff.mp hj) with rfl | hj
        · exact absurd hs hx
        · exact hyl j hj hs
      have hrec := ih (t := y) (List.pairwise_cons.mp hl).2
      rw [hl', List.tail_cons] at hrec
      rw [if_neg hstop, List.tail_cons, hl', Ahead, List.pairwise_cons]
      constructor
      · rintro ⟨-, h⟩
        exact ⟨fun _ => hstop, hrec.mp h⟩
      · rintro ⟨-, h⟩
        exact ⟨hmem, hrec.mpr h⟩

/-- A swap request is put in front of the first request of the other kind. -/
theorem ahead_insertAt_swap (hstop : ∀ a b, stop a b = !swap b) (hx : swap x)
    (hl : Ahead swap l) : Ahead swap (insertAt stop x (t :: l)).tail := by
  induction l generalizing t with
  | nil => simp [insertAt, Ahead]
  | cons y l ih =>
    rw [insertAt_cons_cons]
    by_cases hy : swap y
    · obtain ⟨l', hl'⟩ := insertAt_eq_cons (x := x) (t := y) (l := l)
      have hrec := ih (t := y) (List.pairwise_cons.mp hl).2
      rw [hl', List.tail_cons] at hrec
      rw [if_neg (by simp [hstop, hy]), List.tail_cons, hl']
      exact List.pairwise_cons.mpr ⟨fun _ _ _ => hy, hrec⟩
    · rw [if_pos (by simp [hstop, hy]), List.tail_cons]
      exact List.pairwise_cons.mpr ⟨fun _ _ _ => hx, hl⟩

theorem filter_insertAt_of_not (hx : ¬ swap x) :
    ∀ l : List α, (insertAt stop x l).filter swap = l.filter swap
  | [] => by simp [insertAt, hx]
  | [t] => by simp [insertAt, hx, List.filter_cons]
  | t :: y :: l => by
    rw [insertAt_cons_cons]
    split_ifs
    · simp [List.filter_cons, hx]
    · rw [List.filter_cons, filter_insertAt_of_not hx (y :: l), ← List.filter_cons]

/-- A swap request is put behind the other swap requests. -/
theorem filter_insertAt_swap (hstop : ∀ a b, stop a b = !swap b) (hx : swap x)
    (hl : Ahead swap l) :
    (insertAt stop x (t :: l)).filter swap = (t :: l).filter swap ++ [x] := by
  induction l generalizing t with
  | nil => by_cases ht : swap t <;> simp [insertAt, hx, ht]
  | cons y l ih =>
    rw [insertAt_cons_cons]
    by_cases hy : swap y
    · rw [if_neg (by simp [hstop, hy]), List.filter_cons, ih (List.pairwise_cons.mp hl).2,
        List.filter_cons (x := t)]
      split_ifs <;> simp
    · have hnone : ∀ j ∈ l, ¬ swap j := (ahead_cons_of_not hy).mp hl
      have hnil : l.filter swap = [] := List.filter_eq_nil_iff.mpr hnone
      rw [if_pos (by simp [hstop, hy])]
      by_cases ht : swap t <;> simp [hx, hy, hnil, ht]

end

/-! ## Runs -/

variable {s s' : Sys} {a : Act} {q : List Slot}

/-- A request to swap a page, which has no buffer. -/
def isSwap (request : Slot → Request) (i : Slot) : Bool := (request i).bh.isNone

/-- The swap requests are on the list in the order they appeared, and no waiting buffer
request is ahead of a waiting swap request. In particular a later swap request for the
same pages is behind an earlier one. -/
structure SwapFirst (s : Sys) : Prop where
  fifo : s.blk.queue.filter (isSwap s.blk.request) = s.pending.filter (isSwap s.blk.request)
  ahead : s.blk.queue.tail.Pairwise fun i j => isSwap s.blk.request j → isSwap s.blk.request i
  follows : ∀ i j, isSwap s.blk.request i → isSwap s.blk.request j →
    [i, j].Sublist s.pending → [i, j].Sublist s.blk.queue

/-- The elevator does not place the added buffer request in front of a swap request. -/
def Behind (s : Sys) : Act → Prop
  | .makeRequest _ rw bDev bBlocknr bh =>
    let r := bufferInfo rw bDev bBlocknr bh
    s.blk.queue.IsChain fun tmp nx => isSwap s.blk.request nx →
      ¬ ((inOrder (s.blk.request tmp) r ∨ ¬ inOrder (s.blk.request tmp) (s.blk.request nx)) ∧
        inOrder r (s.blk.request nx))
  | _ => True

theorem SwapFirst.of_fifo
    (hf : s.blk.queue.filter (isSwap s.blk.request) = s.pending.filter (isSwap s.blk.request))
    (ha : Ahead (isSwap s.blk.request) s.blk.queue.tail) : SwapFirst s := by
  refine ⟨hf, ha, fun i j hi hj hij => ?_⟩
  have h : [i, j] = [i, j].filter (isSwap s.blk.request) := by simp [hi, hj]
  rw [h]
  exact (hf ▸ hij.filter _).trans List.filter_sublist

theorem filter_isSwap_congr {request request' : Slot → Request} {l : List Slot}
    (h : ∀ i ∈ l, request' i = request i) :
    l.filter (isSwap request') = l.filter (isSwap request) :=
  List.filter_congr fun i hi => by rw [isSwap, isSwap, h i hi]

theorem Ahead.congr_isSwap {request request' : Slot → Request} {l : List Slot}
    (h : Ahead (isSwap request) l) (hr : ∀ i ∈ l, request' i = request i) :
    Ahead (isSwap request') l := by
  refine List.Pairwise.imp_of_mem (fun hi hj hij hs => ?_) h
  rw [isSwap, hr _ hj] at hs
  rw [isSwap, hr _ hi]
  exact hij hs

theorem update_of_not_mem {request : Slot → Request} {req : Slot} {r : Request} {l : List Slot}
    (h : req ∉ l) : ∀ i ∈ l, update request req r i = request i := fun i hi => by
  have hne : i ≠ req := fun e => h (e ▸ hi)
  rw [update_of_ne hne]

/-- The swap requests on the list and those pending, before the added one. -/
theorem Held.fifo_filled {req : Slot} {r : Request} (h : Held s q) (hq : req ∉ q)
    (hs : SwapFirst s) :
    q.filter (isSwap (update s.blk.request req r)) =
      s.pending.filter (isSwap (update s.blk.request req r)) := by
  have hp : req ∉ s.pending := fun hm => hq (h.perm.mem_iff.mpr hm)
  rw [filter_isSwap_congr (update_of_not_mem hq), filter_isSwap_congr (update_of_not_mem hp),
    ← h.queued.queue_eq]
  exact hs.fifo

theorem Held.ahead_filled {req : Slot} {r : Request} (h : Held s q) (hq : req ∉ q)
    (hs : SwapFirst s) : Ahead (isSwap (update s.blk.request req r)) q.tail := by
  have ha : Ahead (isSwap s.blk.request) q.tail := by
    rw [← h.queued.queue_eq]
    exact hs.ahead
  exact ha.congr_isSwap (update_of_not_mem fun hm => hq (List.mem_of_mem_tail hm))

theorem stops_buffer {request : Slot → Request} {req i j : Slot} {rw bDev : ℤ} {bBlocknr : ℕ}
    {bh : Bh} (hi : i ≠ req) (hj : j ≠ req) :
    stops (update request req (bufferInfo rw bDev bBlocknr bh)) req i j ↔
      (inOrder (request i) (bufferInfo rw bDev bBlocknr bh) ∨
        ¬ inOrder (request i) (request j)) ∧
      inOrder (bufferInfo rw bDev bBlocknr bh) (request j) := by
  have hbh : (bufferInfo rw bDev bBlocknr bh).bh = some bh := rfl
  simp only [stops, update_self, hbh, elevator, before, update_of_ne hi, update_of_ne hj,
    decide_eq_true_eq]

/-- A buffer request keeps the swap requests first exactly when it is placed behind them. -/
theorem Held.swapFirst_buffer {req : Slot} {rw bDev : ℤ} {bBlocknr : ℕ} {bh : Bh} (h : Held s q)
    (hs : SwapFirst s)
    (hb : s.blk.submit req (bufferInfo rw bDev bBlocknr bh) =
      some s'.blk) (hp : s'.pending = s.pending ++ [req]) :
    SwapFirst s' ↔ Behind s (.makeRequest req rw bDev bBlocknr bh) := by
  obtain ⟨hq, hq', hr, -⟩ := h.submit hb hp
  have hfifo := h.fifo_filled (r := bufferInfo rw bDev bBlocknr bh) hq hs
  have hahead := h.ahead_filled (r := bufferInfo rw bDev bBlocknr bh) hq hs
  set request' := update s.blk.request req
    (bufferInfo rw bDev bBlocknr bh) with hreq'
  have hnot : ¬ isSwap request' req := by simp [isSwap, hreq', bufferInfo]
  have hfifo' : s'.blk.queue.filter (isSwap s'.blk.request) =
      s'.pending.filter (isSwap s'.blk.request) := by
    rw [hq'.queued.queue_eq, hr, hp, filter_insertAt_of_not hnot, hfifo, List.filter_append,
      List.filter_cons_of_neg hnot, List.filter_nil, List.append_nil]
  have hiff : Ahead (isSwap request') (insertAt (stops request' req) req q).tail ↔
      Behind s (.makeRequest req rw bDev bBlocknr bh) := by
    rw [Behind, h.queued.queue_eq]
    cases q with
    | nil => simp [insertAt, Ahead]
    | cons t l =>
      rw [ahead_insertAt_iff (l := l) hnot hahead]
      have hmem : ∀ i ∈ t :: l, isSwap request' i = isSwap s.blk.request i := fun i hi => by
        rw [isSwap, isSwap, hreq', update_of_not_mem hq i hi]
      have hstop : ∀ a ∈ t :: l, ∀ b ∈ t :: l, stops request' req a b ↔ _ := fun a ha b hb =>
        stops_buffer (fun e => hq (e ▸ ha)) fun e => hq (e ▸ hb)
      constructor
      · refine fun hc => hc.imp_of_mem_imp fun a b ha hb hab hs => ?_
        rw [← hmem b hb] at hs
        exact fun hfit => hab hs ((hstop a ha b hb).mpr hfit)
      · refine fun hc => hc.imp_of_mem_imp fun a b ha hb hab hs => ?_
        rw [hmem b hb] at hs
        exact fun hst => hab hs ((hstop a ha b hb).mp hst)
  refine ⟨fun hs' => hiff.mp ?_, fun hbeh => .of_fifo hfifo' ?_⟩
  · have := hs'.ahead
    rwa [hq'.queued.queue_eq, hr] at this
  · rw [hq'.queued.queue_eq, hr]
    exact hiff.mpr hbeh

/-- A swap request is placed in its order. -/
theorem Held.swapFirst_page {req : Slot} {rw dev : ℤ} {page : ℕ} (h : Held s q)
    (hs : SwapFirst s)
    (hb : s.blk.submit req (pageInfo rw dev page) =
      some s'.blk) (hp : s'.pending = s.pending ++ [req]) : SwapFirst s' := by
  obtain ⟨hq, hq', hr, -⟩ := h.submit hb hp
  have hfifo := h.fifo_filled (r := pageInfo rw dev page) hq hs
  have hahead := h.ahead_filled (r := pageInfo rw dev page) hq hs
  set request' := update s.blk.request req
    (pageInfo rw dev page) with hreq'
  have hswap : isSwap request' req := by simp [isSwap, hreq', pageInfo]
  have hstop : ∀ a b, stops request' req a b = !isSwap request' b := by
    intro a b
    simp [stops, isSwap, hreq', pageInfo, ← Option.not_isSome]
  refine .of_fifo ?_ ?_
  · rw [hq'.queued.queue_eq, hr, hp, List.filter_append, ← hfifo]
    cases q with
    | nil => simp [insertAt]
    | cons t l =>
      rw [filter_insertAt_swap (l := l) hstop hswap hahead]
      simp [hswap]
  · rw [hq'.queued.queue_eq, hr]
    cases q with
    | nil => simp [insertAt, Ahead]
    | cons t l => exact ahead_insertAt_swap (l := l) hstop hswap hahead

theorem Held.swapFirst_done {c : Slot} {u : Bool} (h : Held s q) (hs : SwapFirst s)
    (hc : s.blk.currentRequest = some c) (hb : s.blk.endRequest u = some s'.blk)
    (hp : s'.pending = s.pending.erase c) : SwapFirst s' := by
  obtain ⟨l, rfl, hl, hr⟩ := h.done hc hb hp
  have hcl := (List.nodup_cons.mp h.queued.nodup).1
  have hrl : ∀ i ∈ l, s'.blk.request i = s.blk.request i := fun i hi =>
    hr i fun e => hcl (e ▸ hi)
  have hrp : ∀ i ∈ s.pending.erase c, s'.blk.request i = s.blk.request i := fun i hi =>
    hr i fun e => h.nodup.not_mem_erase (e ▸ hi)
  have hfifo := hs.fifo
  have hahead := hs.ahead
  rw [h.queued.queue_eq] at hfifo hahead
  refine .of_fifo ?_ ?_
  · rw [hl.queued.queue_eq, hp, filter_isSwap_congr hrl, filter_isSwap_congr hrp,
      h.nodup.erase_eq_filter, List.filter_comm, ← hfifo, List.filter_comm]
    have hfilter : (c :: l).filter (fun i => i != c) = l := by
      rw [List.filter_cons_of_neg (by simp), List.filter_eq_self]
      intro i hi
      have hne : i ≠ c := fun e => hcl (e ▸ hi)
      simpa using hne
    rw [hfilter]
  · rw [hl.queued.queue_eq]
    refine Ahead.congr_isSwap (List.Pairwise.sublist (List.tail_sublist l) hahead) ?_
    exact fun i hi => hrl i (List.mem_of_mem_tail hi)

/-- One call keeps the swap requests first, unless the elevator places a buffer request in
front of one. -/
theorem Held.swapFirst_iff (h : Held s q) (hs : SwapFirst s) (hstep : step a s = some s') :
    SwapFirst s' ↔ Behind s a := by
  cases step_moves hstep with
  | lock hs' =>
    subst hs'
    exact iff_of_true ⟨hs.fifo, hs.ahead, hs.follows⟩ trivial
  | buffer hb hp => exact h.swapFirst_buffer hs hb hp
  | page hb hp => exact iff_of_true (h.swapFirst_page hs hb hp) trivial
  | done hc hb hp => exact iff_of_true (h.swapFirst_done hs hc hb hp) trivial

/-- In a run of any calls the swap requests stay first and in order exactly when no buffer
request finds its place by the elevator in front of a waiting swap request. -/
theorem swap_first (next : Slot → Option Slot) (bDirt bUptodate bLock : Bh → Bool)
    (as : List Act) :
    Throughout step SwapFirst as (idle next bDirt bUptodate bLock) ↔
      Each step Behind as (idle next bDirt bUptodate bLock) := by
  refine throughout_iff_each (I := fun s => (∃ q, Held s q) ∧ SwapFirst s) (fun _ h => h.2)
    ?_ ?_ ⟨⟨[], .idle⟩, ?_⟩
  · rintro s a s' ⟨⟨q, hq⟩, hP⟩ ha hs
    exact ⟨hq.after hs, (hq.swapFirst_iff hP hs).mpr ha⟩
  · rintro s a s' ⟨⟨q, hq⟩, hP⟩ hs
    exact (hq.swapFirst_iff hP hs).mp
  · have hq : (idle next bDirt bUptodate bLock).blk.queue = [] := Held.idle.queued.queue_eq
    refine .of_fifo ?_ ?_ <;> rw [hq]
    · rfl
    · exact .nil

section Examples

/-- While a block is read, a page is to be swapped out, another block is to be read, and the
page is to be swapped in again. -/
def overtakingActs : List Act :=
  [.lockBuffer 0, .lockBuffer 1, .makeRequest 31 READ 769 10 0, .llRwPage 30 WRITE 769 100,
    .makeRequest 29 READ 769 20 1, .llRwPage 28 READ 769 100]

def overtaking : Sys := (runList step overtakingActs quiet).get (by decide +kernel)

/-- The page is read before it is written. -/
theorem read_overtakes_write : Run step Always quiet overtaking ∧ ¬ SwapFirst overtaking ∧
    overtaking.pending = [31, 30, 29, 28] ∧ overtaking.blk.queue = [31, 28, 29, 30] := by
  have hq : overtaking.blk.queue = [31, 28, 29, 30] := by decide +kernel
  refine ⟨.of_runList_get _, fun h => ?_, by decide +kernel, hq⟩
  have hsub := h.follows 30 28 (by decide +kernel) (by decide +kernel) (by decide +kernel)
  rw [hq] at hsub
  exact absurd hsub (by decide)

end Examples

end Linux012.Requests
