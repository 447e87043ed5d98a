import Linux012.Fs.Buffer.Integrity

/-! # Locks, requests and contents

A locked buffer has one owner, a request or a task that looks for an empty one. What is
stored into a buffer stays marked dirty until a write request has picked it up, so a
clean unlocked buffer agrees with the disk.
-/

namespace Linux012.Buffer

open Function Cache Coop

variable {D : Type*} {c c' : Cache D} {f g : Frame} {nx : Next Frame Value Panic} {b bh i : ℕ}
  {locks locks' : ℕ → ℕ}

/-- What an entry of the request array has locked. -/
def requestLocks (b : ℕ) : Option Request → ℕ
  | none => 0
  | some r => one b r.bh

/-- How many requests are about the buffer `b`. -/
def slots (c : Cache D) (b : ℕ) : ℕ :=
  ∑ i ∈ Finset.range NR_REQUEST, requestLocks b (c.request i)

/-- The request `r` agrees with its buffer, and a read is about a buffer that is not valid. -/
structure Request.Ok (c : Cache D) (r : Request) : Prop where
  dev : r.dev = c.dev r.bh
  block : r.block = c.blk r.bh
  cmd : r.cmd = .read ∨ r.cmd = .write
  read : r.cmd = .read → (c.heads r.bh).bUptodate = false

/-- Locks have one owner, and contents that are not dirty are on their way to the disk or there.
`locks` counts the tasks that have locked a buffer. -/
structure Sound (c : Cache D) (locks : ℕ → ℕ) : Prop where
  lock : ∀ b, slots c b + locks b = (c.heads b).bLock.toNat
  bound : ∀ i, NR_REQUEST ≤ i → c.request i = none
  unkeyed : ∀ b, c.nrBuffers ≤ b → c.dev b = 0
  request : ∀ i r, c.request i = some r → r.Ok c
  valid : ∀ b, (c.heads b).bDirt = true → (c.heads b).bUptodate = true
  dirty : ∀ b, (c.heads b).bDirt = true → (c.heads b).stored = true
  pending : ∀ b, (c.heads b).stored = true → (c.heads b).bDirt = true ∨
    ∃ i r, c.request i = some r ∧ r.cmd = .write ∧ r.bh = b
  onDisk : ∀ b, c.dev b ≠ 0 → (c.heads b).stored = false → (c.heads b).bUptodate = true →
    (c.heads b).bData = c.disk (c.dev b) (c.blk b)

namespace Sound

variable {r : Request}

theorem lt_of_request (h : Sound c locks) (hr : c.request i = some r) : i < NR_REQUEST := by
  by_contra hi
  rw [h.bound i (Nat.le_of_not_lt hi)] at hr
  cases hr

theorem slots_pos (h : Sound c locks) (hr : c.request i = some r) : 1 ≤ slots c r.bh := by
  have := Sums.single_le (Finset.mem_range.mpr (h.lt_of_request hr))
    fun i => requestLocks r.bh (c.request i)
  simpa [slots, hr, requestLocks] using this

/-- The buffer of a request is locked, and no task has locked it. -/
theorem locked (h : Sound c locks) (hr : c.request i = some r) :
    (c.heads r.bh).bLock = true ∧ locks r.bh = 0 := by
  have h₁ := h.lock r.bh
  have h₂ := h.slots_pos hr
  cases hl : (c.heads r.bh).bLock <;> simp only [hl, Bool.toNat_false, Bool.toNat_true] at h₁
  · omega
  · exact ⟨rfl, by omega⟩

/-- A buffer has at most one request. -/
theorem request_unique (h : Sound c locks) {j : ℕ} {r' : Request} (hr : c.request i = some r)
    (hr' : c.request j = some r') (hb : r.bh = r'.bh) : i = j := by
  by_contra hij
  have hle := Sums.add_le (Finset.mem_range.mpr (h.lt_of_request hr))
    (Finset.mem_range.mpr (h.lt_of_request hr')) hij fun i => requestLocks r.bh (c.request i)
  change _ ≤ slots c r.bh at hle
  have h₁ : requestLocks r.bh (c.request i) = 1 := by rw [hr]; exact one_self
  have h₂ : requestLocks r.bh (c.request j) = 1 := by rw [hr', hb]; exact one_self
  have hl := h.lock r.bh
  have := Bool.toNat_le (c.heads r.bh).bLock
  omega

/-- A task that has locked a buffer is its only owner. -/
theorem of_locks (h : Sound c locks) (hl : 0 < locks b) :
    (c.heads b).bLock = true ∧ ∀ i r, c.request i = some r → r.bh ≠ b := by
  have h₁ := h.lock b
  constructor
  · cases hb : (c.heads b).bLock
    · simp only [hb, Bool.toNat_false] at h₁; omega
    · rfl
  · rintro i r hr rfl
    have := (h.locked hr).2
    omega

/-- An unlocked buffer that is not dirty is on the disk. -/
theorem clean (h : Sound c locks) (hl : (c.heads b).bLock = false)
    (hd : (c.heads b).bDirt = false) : (c.heads b).stored = false := by
  cases hs : (c.heads b).stored
  · rfl
  · rcases h.pending b hs with hd' | ⟨i, r, hr, -, rfl⟩
    · rw [hd] at hd'; cases hd'
    · have := (h.locked hr).1
      rw [hl] at this; cases this

/-! ## Effects of tasks -/

/-- Only `b_count` and links change. -/
theorem congr (h : Sound c locks) (hn : c'.nrBuffers = c.nrBuffers) (hr : c'.request = c.request)
    (hd : c'.disk = c.disk) (hb : ∀ b, ((c'.heads b).bData, (c'.heads b).bBlocknr,
      (c'.heads b).bDev, (c'.heads b).bUptodate, (c'.heads b).bDirt, (c'.heads b).bLock,
      (c'.heads b).stored) = ((c.heads b).bData, (c.heads b).bBlocknr,
      (c.heads b).bDev, (c.heads b).bUptodate, (c.heads b).bDirt, (c.heads b).bLock,
      (c.heads b).stored)) : Sound c' locks := by
  simp only [Prod.mk.injEq] at hb
  have hdev : c'.dev = c.dev := funext fun b => (hb b).2.2.1
  have hblk : c'.blk = c.blk := funext fun b => (hb b).2.1
  constructor
  · intro b; rw [(hb b).2.2.2.2.2.1, ← h.lock b]; simp only [slots, hr]
  · rw [hr]; exact h.bound
  · rw [hn, hdev]; exact h.unkeyed
  · intro i r hi
    have := h.request i r (hr ▸ hi)
    exact ⟨by rw [hdev]; exact this.dev, by rw [hblk]; exact this.block, this.cmd,
      fun hc => by rw [(hb r.bh).2.2.2.1]; exact this.read hc⟩
  · intro b; rw [(hb b).2.2.2.1, (hb b).2.2.2.2.1]; exact h.valid b
  · intro b; rw [(hb b).2.2.2.2.1, (hb b).2.2.2.2.2.2]; exact h.dirty b
  · intro b; rw [(hb b).2.2.2.2.1, (hb b).2.2.2.2.2.2, hr]; exact h.pending b
  · intro b; rw [(hb b).1, (hb b).2.2.2.1, (hb b).2.2.2.2.2.2, hdev, hblk, hd]; exact h.onDisk b

theorem store (h : Sound c locks) (data : D)
    (hg : (c.heads bh).bUptodate = true ∨ (c.heads bh).bLock = false) :
    Sound (c.upd bh fun b =>
      { b with bData := data, bUptodate := true, bDirt := true, stored := true }) locks := by
  set c' := c.upd bh fun b =>
    { b with bData := data, bUptodate := true, bDirt := true, stored := true } with hc'
  have hother : ∀ b, b ≠ bh → c'.heads b = c.heads b := fun b hb => heads_upd_of_ne _ hb
  have hdev : c'.dev = c.dev := funext (field_upd BufferHead.bDev rfl)
  have hblk : c'.blk = c.blk := funext (field_upd BufferHead.bBlocknr rfl)
  have hlock : ∀ b, (c'.heads b).bLock = (c.heads b).bLock := field_upd BufferHead.bLock rfl
  constructor
  · intro b; rw [hlock b]; exact h.lock b
  · exact h.bound
  · rw [hdev]; exact h.unkeyed
  · intro i r hi
    have hok := h.request i r hi
    refine ⟨by rw [hdev]; exact hok.dev, by rw [hblk]; exact hok.block, hok.cmd, fun hc => ?_⟩
    by_cases hb : r.bh = bh
    · -- the buffer of a read is locked and not valid
      rw [← hb, hok.read hc, (h.locked hi).1] at hg
      simp at hg
    · rw [hother _ hb]; exact hok.read hc
  · intro b hb
    by_cases hbb : b = bh
    · rw [hbb, hc', heads_upd_self]
    · rw [hother b hbb] at hb ⊢; exact h.valid b hb
  · intro b hb
    by_cases hbb : b = bh
    · rw [hbb, hc', heads_upd_self]
    · rw [hother b hbb] at hb ⊢; exact h.dirty b hb
  · intro b hb
    by_cases hbb : b = bh
    · left; rw [hbb, hc', heads_upd_self]
    · rw [hother b hbb] at hb ⊢; exact h.pending b hb
  · intro b hd hs hu
    by_cases hbb : b = bh
    · rw [hbb, hc', heads_upd_self] at hs; cases hs
    · rw [hdev] at hd ⊢
      rw [hother b hbb] at hs hu ⊢
      rw [hblk]; exact h.onDisk b hd hs hu

theorem rekey (h : Sound c locks) {d : Dev} {block : BlockNr} (hbh : bh < c.nrBuffers)
    (hl : (c.heads bh).bLock = false)
    (hc : SameContents (c.upd bh fun b => b.fresh d block) c') : Sound c' locks := by
  refine .congr (c := c.upd bh fun b => b.fresh d block) ?_ hc.nrBuffers hc.request hc.disk
    fun b => ?_
  · have hother : ∀ b, b ≠ bh → (c.upd bh fun b => b.fresh d block).heads b = c.heads b :=
      fun b hb => heads_upd_of_ne _ hb
    constructor
    · intro b
      rw [field_upd BufferHead.bLock rfl b]; exact h.lock b
    · exact h.bound
    · intro b hb
      have hbb : b ≠ bh := by change c.nrBuffers ≤ b at hb; omega
      rw [Cache.dev, hother b hbb]; exact h.unkeyed b hb
    · intro i r hi
      have hok := h.request i r hi
      have hb : r.bh ≠ bh := fun e => by
        have := (h.locked hi).1
        rw [e, hl] at this; cases this
      refine ⟨?_, ?_, hok.cmd, fun hc => ?_⟩
      · rw [Cache.dev, hother _ hb]; exact hok.dev
      · rw [Cache.blk, hother _ hb]; exact hok.block
      · rw [hother _ hb]; exact hok.read hc
    all_goals intro b
    all_goals by_cases hbb : b = bh
    any_goals (rw [hbb, heads_upd_self]; simp [BufferHead.fresh])
    · rw [hother b hbb]; exact h.valid b
    · rw [hother b hbb]; exact h.dirty b
    · rw [hother b hbb]; exact h.pending b
    · simp only [Cache.dev, Cache.blk, hother b hbb]; exact h.onDisk b
  · have := hc.heads b
    simp only [BufferHead.bare, BufferHead.mk.injEq] at this
    simp [this]

/-- Only `b_lock` of one buffer and the tasks that have locked it change. -/
theorem setLock (h : Sound c locks) (v : Bool) (hbh : slots c bh + locks' bh = v.toNat)
    (hother : ∀ b, b ≠ bh → locks' b = locks b) :
    Sound (c.upd bh fun b => { b with bLock := v }) locks' := by
  set c' := c.upd bh fun b => { b with bLock := v } with hc'
  have hdev : c'.dev = c.dev := funext (field_upd BufferHead.bDev rfl)
  have hblk : c'.blk = c.blk := funext (field_upd BufferHead.bBlocknr rfl)
  have hup : ∀ b, (c'.heads b).bUptodate = (c.heads b).bUptodate :=
    field_upd BufferHead.bUptodate rfl
  have hdirt : ∀ b, (c'.heads b).bDirt = (c.heads b).bDirt := field_upd BufferHead.bDirt rfl
  have hst : ∀ b, (c'.heads b).stored = (c.heads b).stored := field_upd BufferHead.stored rfl
  have hdata : ∀ b, (c'.heads b).bData = (c.heads b).bData := field_upd BufferHead.bData rfl
  constructor
  · intro b
    change slots c b + _ = _
    by_cases hbb : b = bh
    · rw [hbb, hc', heads_upd_self]; exact hbh
    · rw [hc', heads_upd_of_ne _ hbb, hother b hbb]; exact h.lock b
  · exact h.bound
  · rw [hdev]; exact h.unkeyed
  · intro i r hi
    have hok := h.request i r hi
    exact ⟨by rw [hdev]; exact hok.dev, by rw [hblk]; exact hok.block, hok.cmd,
      fun hc => by rw [hup]; exact hok.read hc⟩
  · intro b; rw [hup, hdirt]; exact h.valid b
  · intro b; rw [hst, hdirt]; exact h.dirty b
  · intro b; rw [hst, hdirt]; exact h.pending b
  · intro b; rw [hdev, hblk, hup, hst, hdata]; exact h.onDisk b

theorem lockBuffer (h : Sound c locks) (hl : (c.heads bh).bLock = false)
    (hlocks : ∀ b, locks' b = locks b + one b bh) :
    Sound (c.upd bh fun b => { b with bLock := true }) locks' := by
  refine h.setLock true ?_ fun b hb => by rw [hlocks, one_of_ne (Ne.symm hb)]; rfl
  have hb := h.lock bh
  rw [hl, Bool.toNat_false] at hb
  rw [hlocks, one_self, Bool.toNat_true]
  omega

theorem unlockBuffer (h : Sound c locks) (hlocks : ∀ b, locks' b + one b bh = locks b) :
    Sound (unlockBuffer c bh) locks' := by
  refine h.setLock false ?_ fun b hb => by rw [← hlocks, one_of_ne (Ne.symm hb)]; rfl
  have hb := h.lock bh
  have hone := hlocks bh
  have := Bool.toNat_le (c.heads bh).bLock
  rw [one_self] at hone
  rw [Bool.toNat_false]
  omega

theorem slots_update (hi : i < NR_REQUEST) (v : Option Request) (heads : ℕ → BufferHead D)
    (disk : Dev → BlockNr → D) (b : ℕ) :
    slots { c with heads := heads, request := update c.request i v, disk := disk } b +
      requestLocks b (c.request i) = slots c b + requestLocks b v :=
  Sums.sum_update_add (Finset.mem_range.mpr hi) c.request v (requestLocks b)

theorem heads_addRequest {rw : Rw} : (Buffer.addRequest c i rw bh).heads =
    (c.upd bh fun b => { b with bDirt := false }).heads := rfl

/-- The task that has locked a buffer hands the lock to a request. -/
theorem addRequest (h : Sound c locks) {rw : Rw} (hi : i < NR_REQUEST) (hnone : c.request i = none)
    (hlocks : ∀ b, locks' b + one b bh = locks b) (hrw : rw = .read ∨ rw = .write)
    (hread : rw = .read → (c.heads bh).bUptodate = false) :
    Sound (addRequest c i rw bh) locks' := by
  set c' := Buffer.addRequest c i rw bh with hc'
  obtain ⟨hlocked, hfree⟩ := h.of_locks (b := bh) (by have := hlocks bh; rw [one_self] at this; omega)
  have hheads : c'.heads = _ := heads_addRequest
  have hother : ∀ b, b ≠ bh → c'.heads b = c.heads b := fun b hb => by
    rw [hheads, heads_upd_of_ne _ hb]
  have hself : c'.heads bh = { c.heads bh with bDirt := false } := by rw [hheads, heads_upd_self]
  have hdev : c'.dev = c.dev := funext fun b => by
    rw [Cache.dev, hheads]; exact field_upd BufferHead.bDev rfl b
  have hblk : c'.blk = c.blk := funext fun b => by
    rw [Cache.blk, hheads]; exact field_upd BufferHead.bBlocknr rfl b
  have hup : ∀ b, (c'.heads b).bUptodate = (c.heads b).bUptodate := by
    rw [hheads]; exact field_upd BufferHead.bUptodate rfl
  have hst : ∀ b, (c'.heads b).stored = (c.heads b).stored := by
    rw [hheads]; exact field_upd BufferHead.stored rfl
  have hlb : ∀ b, (c'.heads b).bLock = (c.heads b).bLock := by
    rw [hheads]; exact field_upd BufferHead.bLock rfl
  have hdb : ∀ b, (c'.heads b).bData = (c.heads b).bData := by
    rw [hheads]; exact field_upd BufferHead.bData rfl
  have hreq : ∀ j, j ≠ i → c'.request j = c.request j := fun j hj => update_of_ne hj _ _
  have hnew : c'.request i = some ⟨c.dev bh, rw, c.blk bh, bh⟩ := update_self ..
  constructor
  · intro b
    have hs := slots_update hi (some ⟨c.dev bh, rw, c.blk bh, bh⟩) c'.heads c.disk b (c := c)
    rw [hnone] at hs
    simp only [requestLocks, Nat.add_zero] at hs
    rw [hlb, ← h.lock b, ← hlocks b]
    change slots c' b = _ at hs
    omega
  · intro j hj
    rw [hreq j (by omega)]; exact h.bound j hj
  · rw [hdev]; exact h.unkeyed
  · intro j r hj
    by_cases hji : j = i
    · rw [hji, hnew] at hj
      obtain rfl := Option.some.inj hj
      exact ⟨by rw [hdev], by rw [hblk], hrw, fun hr => by rw [hup]; exact hread hr⟩
    · rw [hreq j hji] at hj
      have hok := h.request j r hj
      exact ⟨by rw [hdev]; exact hok.dev, by rw [hblk]; exact hok.block, hok.cmd,
        fun hr => by rw [hup]; exact hok.read hr⟩
  · intro b hb
    by_cases hbb : b = bh
    · rw [hbb, hself] at hb; cases hb
    · rw [hother b hbb] at hb ⊢; exact h.valid b hb
  · intro b hb
    by_cases hbb : b = bh
    · rw [hbb, hself] at hb; cases hb
    · rw [hother b hbb] at hb ⊢; exact h.dirty b hb
  · intro b hb
    rw [hst] at hb
    by_cases hbb : b = bh
    · subst hbb
      -- no request was about the buffer, so it was dirty and valid
      have hd : (c.heads b).bDirt = true := by
        rcases h.pending b hb with hd | ⟨j, r, hj, -, hjb⟩
        · exact hd
        · exact absurd hjb (hfree j r hj)
      refine .inr ⟨i, _, hnew, hrw.resolve_left fun hr => ?_, rfl⟩
      have hv := h.valid b hd
      rw [hread hr] at hv; cases hv
    · rw [hother b hbb]
      rcases h.pending b hb with hd | ⟨j, r, hj, hr⟩
      · exact .inl hd
      · refine .inr ⟨j, r, ?_, hr⟩
        rw [hreq j (by rintro rfl; rw [hnone] at hj; cases hj)]; exact hj
  · intro b; rw [hdev, hblk, hup, hst, hdb]; exact h.onDisk b

/-! ## The end of a request -/

/-- The end of the request `r` unlocks its buffer and leaves `f` there and `disk'` on the disk. -/
theorem endTransfer (h : Sound c locks) (hr : c.request i = some r)
    (f : BufferHead D → BufferHead D) (disk' : Dev → BlockNr → D)
    (hlock : ∀ b, (f b).bLock = false)
    (hkey : ∀ b, ((f b).bDev, (f b).bBlocknr) = (b.bDev, b.bBlocknr))
    (hvalid : (f (c.heads r.bh)).bDirt = true → (f (c.heads r.bh)).bUptodate = true)
    (hdirty : (f (c.heads r.bh)).bDirt = true ↔ (f (c.heads r.bh)).stored = true)
    (hdisk : (f (c.heads r.bh)).stored = false → (f (c.heads r.bh)).bUptodate = true →
      (f (c.heads r.bh)).bData = disk' (c.dev r.bh) (c.blk r.bh))
    (hrest : ∀ b, b ≠ r.bh → c.dev b ≠ 0 →
      disk' (c.dev b) (c.blk b) = c.disk (c.dev b) (c.blk b)) :
    Sound { c.upd r.bh f with request := update c.request i none, disk := disk' } locks := by
  set c' : Cache D :=
    { c.upd r.bh f with request := update c.request i none, disk := disk' } with hc'
  have hheads : c'.heads = (c.upd r.bh f).heads := rfl
  have hother : ∀ b, b ≠ r.bh → c'.heads b = c.heads b := fun b hb => by
    rw [hheads, heads_upd_of_ne _ hb]
  have hself : c'.heads r.bh = f (c.heads r.bh) := by rw [hheads, heads_upd_self]
  have hdev : c'.dev = c.dev := funext fun b => by
    rw [Cache.dev, hheads]; exact field_upd BufferHead.bDev (Prod.ext_iff.mp (hkey _)).1 b
  have hblk : c'.blk = c.blk := funext fun b => by
    rw [Cache.blk, hheads]; exact field_upd BufferHead.bBlocknr (Prod.ext_iff.mp (hkey _)).2 b
  have hreq : ∀ j r', c'.request j = some r' → j ≠ i ∧ c.request j = some r' := by
    intro j r' hj
    by_cases hji : j = i
    · rw [hji, show c'.request i = none from update_self ..] at hj; cases hj
    · rw [show c'.request j = c.request j from update_of_ne hji _ _] at hj
      exact ⟨hji, hj⟩
  constructor
  · intro b
    have hs := slots_update (h.lt_of_request hr) none c'.heads disk' b (c := c)
    rw [hr] at hs
    change slots c' b + one b r.bh = slots c b + 0 at hs
    have hb := h.lock b
    by_cases hbb : b = r.bh
    · subst hbb
      have := (h.locked hr).2
      rw [hself, hlock, Bool.toNat_false]
      rw [one_self] at hs
      have := Bool.toNat_le (c.heads r.bh).bLock
      omega
    · rw [one_of_ne (Ne.symm hbb)] at hs
      rw [hother b hbb, ← hb]
      omega
  · intro j hj
    have hji : j ≠ i := fun e => by
      have := h.lt_of_request hr
      omega
    rw [show c'.request j = c.request j from update_of_ne hji _ _]; exact h.bound j hj
  · rw [hdev]; exact h.unkeyed
  · intro j r' hj
    obtain ⟨hji, hj⟩ := hreq j r' hj
    have hok := h.request j r' hj
    have hbb : r'.bh ≠ r.bh := fun e => hji (h.request_unique hj hr e)
    exact ⟨by rw [hdev]; exact hok.dev, by rw [hblk]; exact hok.block, hok.cmd,
      fun hc => by rw [hother _ hbb]; exact hok.read hc⟩
  · intro b hb
    by_cases hbb : b = r.bh
    · rw [hbb, hself] at hb ⊢; exact hvalid hb
    · rw [hother b hbb] at hb ⊢; exact h.valid b hb
  · intro b hb
    by_cases hbb : b = r.bh
    · rw [hbb, hself] at hb ⊢; exact hdirty.mp hb
    · rw [hother b hbb] at hb ⊢; exact h.dirty b hb
  · intro b hb
    by_cases hbb : b = r.bh
    · rw [hbb, hself] at hb ⊢; exact .inl (hdirty.mpr hb)
    · rw [hother b hbb] at hb ⊢
      rcases h.pending b hb with hd | ⟨j, r', hj, hw, rfl⟩
      · exact .inl hd
      · have hji : j ≠ i := fun e => by
          rw [e, hr] at hj
          exact hbb (by rw [Option.some.inj hj])
        exact .inr ⟨j, r', by rw [show c'.request j = c.request j from update_of_ne hji _ _]; exact hj,
          hw, rfl⟩
  · intro b hd hs hu
    rw [hdev] at hd ⊢
    rw [hblk]
    by_cases hbb : b = r.bh
    · subst hbb
      rw [hself] at hs hu ⊢
      exact hdisk hs hu
    · rw [hother b hbb] at hs hu ⊢
      rw [h.onDisk b hd hs hu]
      exact (hrest b hbb hd).symm

theorem endRequest (h : Sound c locks) (hc : Unique c) {e : EndRequest D}
    (he : endRequest e c = some c') : Sound c' locks := by
  obtain ⟨r, hr, he⟩ := Option.bind_eq_some_iff.mp he
  have hok := h.request _ _ hr
  rcases hok.cmd with hcmd | hcmd
  · simp only [hcmd, Option.some.injEq] at he
    subst he
    -- a buffer that is being read is not dirty, and nothing was stored into it
    have hu := hok.read hcmd
    have hd : (c.heads r.bh).bDirt = false := by
      cases hd : (c.heads r.bh).bDirt
      · rfl
      · rw [h.valid _ hd] at hu; cases hu
    have hs : (c.heads r.bh).stored = false := by
      cases hs : (c.heads r.bh).stored
      · rfl
      · rcases h.pending _ hs with hd' | ⟨j, r', hj, hw, hb⟩
        · rw [hd] at hd'; cases hd'
        · rw [h.request_unique hj hr hb, hr] at hj
          rw [← Option.some.inj hj, hcmd] at hw; cases hw
    refine h.endTransfer hr
      (fun b => { b with
        bData := if e.uptodate then c.disk r.dev r.block else e.data,
        bUptodate := e.uptodate, bLock := false })
      c.disk (fun _ => rfl) (fun _ => rfl) ?_ ?_ ?_ fun _ _ _ => rfl
    · simp [hd]
    · simp [hd, hs]
    · intro _ hu
      simp only at hu
      simp only [hu, if_true, hok.dev, hok.block]
  · simp only [hcmd, Option.some.injEq] at he
    subst he
    refine h.endTransfer hr
      (fun b => { b with bUptodate := true, bLock := false, stored := b.stored && b.bDirt })
      (writeDisk c r.dev r.block _).disk (fun _ => rfl) (fun _ => rfl) (fun _ => rfl) ?_ ?_ ?_
    · simp only [Bool.and_eq_true]
      exact ⟨fun hd => ⟨h.dirty _ hd, hd⟩, And.right⟩
    · simp only [Bool.and_eq_false_iff]
      intro hs _
      have hd : (c.heads r.bh).bDirt = false := by
        cases hd : (c.heads r.bh).bDirt
        · rfl
        · rcases hs with hs | hs
          · rw [h.dirty _ hd] at hs; cases hs
          · rw [hd] at hs; cases hs
      simp [writeDisk, hok.dev, hok.block, hd]
    · intro b hb hd
      -- another buffer has another key
      have hne : ¬ (c.dev b = r.dev ∧ c.blk b = r.block) := fun hk => by
        rw [hok.dev, hok.block] at hk
        have hlt : ∀ j, c.dev j ≠ 0 → j < c.nrBuffers := fun j hj =>
          Nat.lt_of_not_le fun hle => hj (h.unkeyed j hle)
        exact hb (hc b (hlt b hd) r.bh (hlt _ (hk.1 ▸ hd)) hd hk.1 hk.2)
      by_cases hdv : c.dev b = r.dev
      · have hbk : c.blk b ≠ r.block := fun e => hne ⟨hdv, e⟩
        simp [writeDisk, hdv, update_of_ne hbk]
      · simp [writeDisk, update_of_ne hdv]

end Sound

end Linux012.Buffer
