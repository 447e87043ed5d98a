import Linux012.Fs.Buffer.Lookup

/-! # What a piece of code does to the cache

Every piece of code of a task has one of eight effects. Frames hold references to
buffers and, while they look for an empty request, the lock of one.
-/

namespace Linux012.Buffer

open Function Cache Coop

variable {D : Type*} {c c' : Cache D} {d : Dev} {block : BlockNr} {bh : ℕ} {f g : Frame}
  {nx nx' : Next Frame Value Panic}

/-- `1` at the buffer itself. -/
def one (b bh : ℕ) : ℕ := if bh = b then 1 else 0

@[simp] theorem one_self : one bh bh = 1 := if_pos rfl

theorem one_of_ne {b : ℕ} (h : bh ≠ b) : one b bh = 0 := if_neg h

/-- The references to the buffer `b` that a frame holds. -/
def Frame.refs (b : ℕ) : Frame → ℕ
  | .code held => held.count b
  | .getHashTableWait _ _ bh => one b bh
  | .getblkHash _ _ bh => one b bh
  | .brelse bh => one b bh
  | .breadRead bh => one b bh
  | .breadWait bh => one b bh
  | .breadPage _ _ got => got.count (some b)
  | .breadPageGot _ _ got => got.count (some b)
  | .breadPageRead _ _ got bh => got.count (some b) + one b bh
  | .breadPageCopy got => got.count (some b)
  | .breadaRead _ _ bh => one b bh
  | .breadaRest _ _ bh => one b bh
  | .breadaRestGot _ _ bh => one b bh
  | .breadaAhead _ _ bh tmp => one b bh + one b tmp
  | .breadaDrop _ _ bh tmp => one b bh + one b tmp
  | _ => 0

/-- A returned buffer comes with a reference. -/
def Value.refs (b : ℕ) : Value → ℕ
  | none => 0
  | some bh => one b bh

/-- A frame that has locked the buffer `b` for a request it has not placed yet. -/
def Frame.locks (b : ℕ) : Frame → ℕ
  | .findRequest _ _ bh => one b bh
  | _ => 0

theorem refs_resume {b : ℕ} {v : Value} (h : resume f v = some g) :
    g.refs b = f.refs b + Value.refs b v := by
  cases f <;> cases v <;> simp only [resume, reduceCtorEq, Option.some.injEq] at h <;> subst h <;>
    simp [Frame.refs, Value.refs, one, List.count_cons]

theorem locks_resume {b : ℕ} {v : Value} (h : resume f v = some g) :
    g.locks b = f.locks b + 0 := by
  cases f <;> cases v <;> simp only [resume, reduceCtorEq, Option.some.injEq] at h <;> subst h <;>
    simp [Frame.locks]

/-- Where the frames that carry a promise come from: a buffer chosen by `getblk`, and the
command of a request. -/
def Arises (c : Cache D) (f : Frame) : Frame → Prop
  | .getblkWait _ _ bh =>
    (∃ d b, f = .getblkWait d b bh) ∨ scanFree c c.nrBuffers c.freeList none = some bh
  | .lockBuffer rw _ _ => rw = .read ∨ rw = .write
  | .findRequest rw ahead bh => f = .findRequest rw ahead bh
  | _ => True

/-- The frames and the value left by a piece of code account for what the frame held. -/
structure Passes (c : Cache D) (f : Frame) (nx : Next Frame Value Panic)
    (plus minus : ℕ → ℕ) : Prop where
  refs : ∀ b, nx.weight (Frame.refs b) (Value.refs b) + minus b = f.refs b + plus b
  locks : ∀ b, nx.weight (Frame.locks b) (fun _ => 0) = f.locks b
  arises : ∀ g ∈ nx.frames, Arises c f g

inductive Effect (c : Cache D) : Frame → Cache D → Next Frame Value Panic → Prop
  | quiet {f : Frame} {nx : Next Frame Value Panic} : Passes c f nx 0 0 → Effect c f c nx
  | panic {f : Frame} (q : Panic) : Effect c f c (.panic q)
  | take {f : Frame} {nx : Next Frame Value Panic} {d : Dev} {block : BlockNr} {bh : ℕ} :
      findBuffer c d block = some bh → Passes c f nx (one · bh) 0 → Effect c f (incCount c bh) nx
  | release {f : Frame} {nx : Next Frame Value Panic} {bh : ℕ} : Passes c f nx 0 (one · bh) →
      Effect c f (decCount c bh) nx
  | store {f : Frame} {nx : Next Frame Value Panic} {bh : ℕ} (data : D) :
      (c.heads bh).bUptodate = true ∨ (c.heads bh).bLock = false → 0 < f.refs bh →
      Passes c f nx 0 0 →
      Effect c f (c.upd bh fun b =>
        { b with bData := data, bUptodate := true, bDirt := true, stored := true }) nx
  | rekey {c' : Cache D} {d : Dev} {block : BlockNr} {bh : ℕ} : (c.heads bh).bLock = false →
      (c.heads bh).bCount = 0 → (c.heads bh).bDirt = false → findBuffer c d block = none →
      rekey c d block bh = some c' → Effect c (.getblkWait d block bh) c' (.ret (some bh))
  | lock {rw : Rw} {ahead : Bool} {bh : ℕ} : (c.heads bh).bLock = false →
      (rw = .read → (c.heads bh).bUptodate = false) →
      Effect c (.lockBuffer rw ahead bh) (c.upd bh fun b => { b with bLock := true })
        (.goto (.findRequest rw ahead bh))
  | request {rw : Rw} {ahead : Bool} {bh i : ℕ} : i < NR_REQUEST → c.request i = none →
      Effect c (.findRequest rw ahead bh) (addRequest c i rw bh) (.ret none)
  | unlock {rw : Rw} {ahead : Bool} {bh : ℕ} :
      Effect c (.findRequest rw ahead bh) (unlockBuffer c bh) (.ret none)

/-! ## The pieces -/

theorem effect_quiet (hr : ∀ b, nx.weight (Frame.refs b) (Value.refs b) = f.refs b)
    (hl : ∀ b, nx.weight (Frame.locks b) (fun _ => 0) = f.locks b)
    (ha : ∀ g ∈ nx.frames, Arises c f g) (h : (c, nx) = (c', nx')) : Effect c f c' nx' := by
  obtain ⟨rfl, rfl⟩ := Prod.mk.inj h
  exact .quiet ⟨fun b => by simpa using hr b, hl, ha⟩

theorem effect_waitOnBuffer {self : Frame} {go : Piece D} (hself : Arises c self self)
    (hgo : go = (c', nx) → Effect c self c' nx) (h : waitOnBuffer c bh self go = (c', nx)) :
    Effect c self c' nx := by
  unfold waitOnBuffer at h
  split_ifs at h
  · exact effect_quiet (fun _ => rfl) (fun _ => rfl) (by simpa [Next.frames] using hself) h
  · exact hgo h

theorem effect_takeFree (h : takeFree c d block bh = (c', nx)) :
    Effect c (.getblkWait d block bh) c' nx := by
  have hself : Arises c (.getblkWait d block bh) (.getblkWait d block bh) := .inl ⟨d, block, rfl⟩
  unfold takeFree waitOnBuffer at h
  split_ifs at h with hl hc hd hf
  · exact effect_quiet (fun _ => rfl) (fun _ => rfl) (by simpa [Next.frames] using hself) h
  · exact effect_quiet (fun _ => rfl) (fun _ => rfl) (by simp [Next.frames, Arises]) h
  · exact effect_quiet (fun _ => rfl) (fun _ => rfl) (by simp [Next.frames, Arises]) h
  · exact effect_quiet (fun _ => rfl) (fun _ => rfl) (by simp [Next.frames, Arises]) h
  · split at h <;> rename_i hr <;> obtain ⟨rfl, rfl⟩ := Prod.mk.inj h
    · exact .panic _
    · exact .rekey (by simpa using hl) (by simpa using hc) (by simpa using hd) (by simpa using hf) hr

theorem effect_recheck {self again : Frame} (h : recheck c d block bh self again = (c', nx))
    (hself : Arises c self self) (hagain : Arises c self again)
    (hr : ∀ b, self.refs b = one b bh ∧ again.refs b = 0)
    (hl : ∀ b, self.locks b = 0 ∧ again.locks b = 0) : Effect c self c' nx := by
  refine effect_waitOnBuffer hself (fun h => ?_) h
  split_ifs at h
  · exact effect_quiet (fun b => by simp [Next.weight, Value.refs, hr])
      (fun b => by simp [Next.weight, hl]) (by simp [Next.frames]) h
  · obtain ⟨rfl, rfl⟩ := Prod.mk.inj h
    exact .release ⟨fun b => by simp [Next.weight, hr], fun b => by simp [Next.weight, hl],
      by simpa [Next.frames] using hagain⟩

theorem effect_lookup {wait : ℕ → Frame} (h : lookup c d block wait nx' = (c', nx))
    (hwait : ∀ i, Arises c f (wait i))
    (hr : ∀ i b, f.refs b = 0 ∧ (wait i).refs b = one b i)
    (hl : ∀ i b, f.locks b = 0 ∧ (wait i).locks b = 0)
    (hnull : Effect c f c nx') : Effect c f c' nx := by
  unfold lookup at h
  split at h
  · obtain ⟨rfl, rfl⟩ := Prod.mk.inj h; exact hnull
  · rename_i i hf
    obtain ⟨rfl, rfl⟩ := Prod.mk.inj h
    refine .take hf ⟨fun b => ?_, fun b => ?_, by simpa [Next.frames] using hwait i⟩
    · simp [Next.weight, hr i]
    · simp [Next.weight, hl i]

theorem effect_llRwBlock {rw : Rw} (h : llRwBlock c rw bh = (c', nx)) :
    Effect c (.llRwBlock rw bh) c' nx := by
  cases rw <;> unfold llRwBlock at h <;> dsimp only at h <;> split_ifs at h <;>
    exact effect_quiet (fun _ => rfl) (fun _ => rfl) (by simp [Next.frames, Arises]) h

/-- Locking and unlocking an unlocked buffer changes nothing. -/
theorem unlockBuffer_lock (hl : (c.heads bh).bLock = false) :
    unlockBuffer (c.upd bh fun b => { b with bLock := true }) bh = c := by
  have : update c.heads bh { c.heads bh with bLock := false } = c.heads := by
    rw [← hl]; exact update_eq_self bh c.heads
  simp [unlockBuffer, upd, this]

theorem effect_lockBuffer {rw : Rw} {ahead : Bool} (hrw : rw = .read ∨ rw = .write)
    (h : lockBuffer c rw ahead bh = (c', nx)) : Effect c (.lockBuffer rw ahead bh) c' nx := by
  unfold lockBuffer waitOnBuffer at h
  split_ifs at h with hl
  · exact effect_quiet (fun _ => rfl) (fun _ => rfl) (by simpa [Next.frames, Arises] using hrw) h
  · have hl : (c.heads bh).bLock = false := by simpa using hl
    dsimp only at h
    split_ifs at h with hno
    · rw [unlockBuffer_lock hl] at h
      exact effect_quiet (fun _ => rfl) (fun _ => rfl) (by simp [Next.frames]) h
    · obtain ⟨rfl, rfl⟩ := Prod.mk.inj h
      refine .lock hl fun hread => ?_
      simpa [hread] using hno

theorem freeRequest_spec {i lim : ℕ} (h : freeRequest c lim = some i) :
    i < lim ∧ c.request i = none := by
  induction lim with
  | zero => cases h
  | succ k ih =>
    rw [freeRequest] at h
    split_ifs at h with hk
    · obtain rfl := Option.some.inj h; exact ⟨Nat.lt_succ_self _, hk⟩
    · exact ⟨(ih h).1.trans (Nat.lt_succ_self _), (ih h).2⟩

theorem requestLimit_le (rw : Rw) : requestLimit rw ≤ NR_REQUEST := by cases rw <;> decide

theorem effect_findRequest {rw : Rw} {ahead : Bool} (h : findRequest c rw ahead bh = (c', nx)) :
    Effect c (.findRequest rw ahead bh) c' nx := by
  unfold findRequest at h
  split at h
  · rename_i i hi
    obtain ⟨rfl, rfl⟩ := Prod.mk.inj h
    exact .request ((freeRequest_spec hi).1.trans_le (requestLimit_le rw)) (freeRequest_spec hi).2
  · split_ifs at h
    · obtain ⟨rfl, rfl⟩ := Prod.mk.inj h
      exact .unlock
    · exact effect_quiet (fun _ => rfl) (fun _ => rfl) (by simp [Next.frames, Arises]) h

theorem effect_syncDev {again : Bool} {i : ℕ} (h : syncDev c d again i = (c', nx)) :
    Effect c (.syncDev d again i) c' nx := by
  unfold syncDev at h
  split_ifs at h <;>
    exact effect_quiet (fun _ => rfl) (fun _ => rfl) (by simp [Next.frames, Arises]) h

theorem effect_syncDevWait {again : Bool} {i : ℕ} (h : syncDevWait c d again i = (c', nx)) :
    Effect c (.syncDevWait d again i) c' nx := by
  refine effect_waitOnBuffer trivial (fun h => ?_) h
  split_ifs at h <;>
    exact effect_quiet (fun _ => rfl) (fun _ => rfl) (by simp [Next.frames, Arises]) h

theorem effect_code {held : List ℕ} {ch : Choice D} (h : execCode c held ch = some (c', nx)) :
    Effect c (.code held) c' nx := by
  cases ch with
  | brelse bh =>
    simp only [execCode] at h
    split_ifs at h with hm
    refine effect_quiet (fun b => ?_) (fun _ => rfl) (by simp [Next.frames, Arises])
      (Option.some.inj h)
    have hpos := List.count_pos_iff.mpr hm
    by_cases hb : bh = b
    · subst hb
      simp only [Next.weight, Frame.refs, List.count_erase_self, one_self]
      omega
    · simp [Next.weight, Frame.refs, List.count_erase_of_ne (Ne.symm hb), one_of_ne hb]
  | store bh data =>
    simp only [execCode] at h
    split_ifs at h with hm
    obtain ⟨rfl, rfl⟩ := Prod.mk.inj (Option.some.inj h)
    refine .store data (by simpa using hm.2) (List.count_pos_iff.mpr hm.1)
      ⟨fun _ => rfl, fun _ => rfl, by simp [Next.frames, Arises]⟩
  | done =>
    simp only [execCode] at h
    split_ifs at h with hheld
    refine effect_quiet (fun b => ?_) (fun _ => rfl) (by simp [Next.frames]) (Option.some.inj h)
    simp [Next.weight, Frame.refs, Value.refs, hheld]
  | _ =>
    exact effect_quiet (fun b => by simp [Next.weight, Frame.refs]) (fun _ => rfl)
      (by simp [Next.frames, Arises]) (Option.some.inj h)

/-- Everything an uninterrupted piece of code can do. -/
theorem exec_effect {ch : Choice D} (hf : Arises c f f) (h : exec c ch f = some (c', nx)) :
    Effect c f c' nx := by
  cases f with
  | code held => exact effect_code h
  | getHashTable d block =>
    refine effect_lookup (Option.some.inj h) (fun _ => trivial) (fun _ _ => ⟨rfl, rfl⟩)
      (fun _ _ => ⟨rfl, rfl⟩) ?_
    exact effect_quiet (fun _ => rfl) (fun _ => rfl) (by simp [Next.frames]) rfl
  | getHashTableWait d block bh =>
    exact effect_recheck (Option.some.inj h) trivial trivial (fun _ => ⟨rfl, rfl⟩)
      fun _ => ⟨rfl, rfl⟩
  | getblk d block =>
    refine effect_lookup (Option.some.inj h) (fun _ => trivial) (fun _ _ => ⟨rfl, rfl⟩)
      (fun _ _ => ⟨rfl, rfl⟩) ?_
    exact effect_quiet (fun _ => rfl) (fun _ => rfl) (by simp [Next.frames, Arises]) rfl
  | getblkHash d block bh =>
    exact effect_recheck (Option.some.inj h) trivial trivial (fun _ => ⟨rfl, rfl⟩)
      fun _ => ⟨rfl, rfl⟩
  | getblkScan d block =>
    simp only [exec, Option.some.injEq] at h
    split at h <;> rename_i hs
    · exact effect_quiet (fun _ => rfl) (fun _ => rfl) (by simp [Next.frames, Arises]) h
    · exact effect_quiet (fun _ => rfl) (fun _ => rfl) (by simp [Next.frames, Arises, hs]) h
  | getblkWait d block bh => exact effect_takeFree (Option.some.inj h)
  | getblkNull =>
    obtain ⟨rfl, rfl⟩ := Prod.mk.inj (Option.some.inj h)
    exact .panic _
  | brelse bh =>
    refine effect_waitOnBuffer trivial (fun h => ?_) (Option.some.inj h)
    split_ifs at h <;> obtain ⟨rfl, rfl⟩ := Prod.mk.inj h
    · exact .panic _
    · exact .release ⟨fun b => by simp [Next.weight, Value.refs, Frame.refs], fun _ => rfl,
        by simp [Next.frames]⟩
  | breadWait bh =>
    refine effect_waitOnBuffer trivial (fun h => ?_) (Option.some.inj h)
    split_ifs at h <;>
      exact effect_quiet (fun b => by simp [Next.weight, Value.refs, Frame.refs]) (fun _ => rfl)
        (by simp [Next.frames, Arises]) h
  | breadPageCopy got =>
    rcases got with _ | ⟨_ | bh, got⟩
    · exact effect_quiet (fun _ => rfl) (fun _ => rfl) (by simp [Next.frames]) (Option.some.inj h)
    · exact effect_quiet (fun b => by simp [Next.weight, Frame.refs]) (fun _ => rfl)
        (by simp [Next.frames, Arises]) (Option.some.inj h)
    · refine effect_waitOnBuffer trivial (fun h => ?_) (Option.some.inj h)
      exact effect_quiet (fun b => by simp [Next.weight, Frame.refs, List.count_cons, one])
        (fun _ => rfl) (by simp [Next.frames, Arises]) h
  | breadPage d todo got =>
    cases todo with
    | nil =>
      exact effect_quiet (fun _ => rfl) (fun _ => rfl) (by simp [Next.frames, Arises])
        (Option.some.inj h)
    | cons b todo =>
      simp only [exec, Option.some.injEq] at h
      split_ifs at h <;>
        exact effect_quiet (fun b => by simp [Next.weight, Frame.refs]) (fun _ => rfl)
          (by simp [Next.frames, Arises]) h
  | breadPageRead d todo got bh =>
    simp only [exec, Option.some.injEq] at h
    split_ifs at h <;>
      exact effect_quiet
        (fun b => by simp [Next.weight, Frame.refs, List.count_cons, one])
        (fun _ => rfl) (by simp [Next.frames, Arises]) h
  | breadaRest d rest bh =>
    cases rest with
    | nil =>
      exact effect_quiet (fun _ => rfl) (fun _ => rfl) (by simp [Next.frames, Arises])
        (Option.some.inj h)
    | cons first rest =>
      exact effect_quiet (fun b => by simp [Next.weight, Frame.refs]) (fun _ => rfl)
        (by simp [Next.frames, Arises]) (Option.some.inj h)
  | breadaDrop d rest bh tmp =>
    obtain ⟨rfl, rfl⟩ := Prod.mk.inj (Option.some.inj h)
    exact .release ⟨fun b => by simp [Next.weight, Frame.refs], fun _ => rfl,
      by simp [Next.frames, Arises]⟩
  | syncDev d again i => exact effect_syncDev (Option.some.inj h)
  | syncDevWait d again i => exact effect_syncDevWait (Option.some.inj h)
  | llRwBlock rw bh => exact effect_llRwBlock (Option.some.inj h)
  | lockBuffer rw ahead bh => exact effect_lockBuffer hf (Option.some.inj h)
  | findRequest rw ahead bh => exact effect_findRequest (Option.some.inj h)
  | bread | breada | returnNull =>
    exact effect_quiet (fun b => by simp [Next.weight, Frame.refs, Value.refs]) (fun _ => rfl)
      (by simp [Next.frames, Arises]) (Option.some.inj h)
  | breadGot | breadPageGot | breadaGot | breadaRestGot => cases h
  | breadRead | breadaRead | breadaAhead =>
    simp only [exec, Option.some.injEq] at h
    split_ifs at h <;>
      exact effect_quiet (fun b => by simp [Next.weight, Frame.refs, Value.refs]) (fun _ => rfl)
        (by simp [Next.frames, Arises]) h

end Linux012.Buffer
