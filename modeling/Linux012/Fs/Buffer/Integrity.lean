import Linux012.Fs.Buffer.Effect

/-! # The representation invariant along every run

No interleaving of the tasks and of finished requests breaks the queues of the cache.
-/

namespace Linux012.Buffer

open Function Cache Coop Runs

variable {D : Type*} {c c' : Cache D} {f g : Frame} {nx : Next Frame Value Panic}

/-- What holds of a frame as long as the number of buffers stays the same. -/
def Frame.Ok (c : Cache D) : Frame → Prop
  | .getblkWait _ _ bh => bh < c.nrBuffers
  | .lockBuffer rw _ _ => rw = .read ∨ rw = .write
  | .findRequest rw _ _ => rw = .read ∨ rw = .write
  | _ => True

theorem Frame.Ok.congr (hn : c'.nrBuffers = c.nrBuffers) (h : f.Ok c) : f.Ok c' := by
  cases f <;> simp only [Frame.Ok, hn] at h ⊢ <;> exact h

theorem Frame.Ok.arises (h : f.Ok c) : Arises c f f := by
  cases f with
  | getblkWait d b bh => exact .inl ⟨d, b, rfl⟩
  | lockBuffer => exact h
  | findRequest => rfl
  | _ => trivial

theorem RepInv.ok_of_arises (hc : RepInv c) (hf : f.Ok c) (h : Arises c f g) : g.Ok c := by
  cases g with
  | getblkWait d b bh =>
    rcases h with ⟨d, b, rfl⟩ | h
    · exact hf
    · exact hc.scanFree_lt h
  | lockBuffer => exact h
  | findRequest =>
    change f = _ at h
    subst h; exact hf
  | _ => trivial

theorem Frame.Ok.resume {v : Value} (h : f.Ok c) (hr : resume f v = some g) : g.Ok c := by
  cases f <;> cases v <;> simp only [Buffer.resume, reduceCtorEq, Option.some.injEq] at hr <;>
    subst hr <;> exact h

/-- A piece of code keeps the queues; `getblk` has looked for the new key once more. -/
theorem Effect.repInv (h : Effect c f c' nx) (hc : RepInv c) (htwo : 2 ≤ c.nrBuffers)
    (hf : f.Ok c) :
    RepInv c' ∧ c'.nrBuffers = c.nrBuffers ∧ ∀ g ∈ nx.frames, g.Ok c' := by
  have same : ∀ {c'' : Cache D}, SameQueues c c'' →
      (∀ g ∈ nx.frames, Arises c f g) →
      RepInv c'' ∧ c''.nrBuffers = c.nrBuffers ∧ ∀ g ∈ nx.frames, g.Ok c'' := fun hq ha =>
    ⟨hq.repInv hc, hq.nrBuffers, fun g hg => (hc.ok_of_arises hf (ha g hg)).congr hq.nrBuffers⟩
  cases h with
  | quiet hp => exact same (.refl c) hp.arises
  | panic q => exact ⟨hc, rfl, by simp [Next.frames]⟩
  | take _ hp => exact same sameQueues_incCount hp.arises
  | release hp => exact same sameQueues_decCount hp.arises
  | store data _ _ hp => exact same (.upd _ _ _ (fun _ => rfl) fun _ => rfl) hp.arises
  | rekey _ _ _ hfind hrun =>
    obtain ⟨c₁, hrun₁, hinv, hsame⟩ := hc.rekey htwo hf hfind
    obtain rfl : c₁ = c' := Option.some.inj (hrun₁.symm.trans hrun)
    exact ⟨hinv, hsame.nrBuffers, by simp [Next.frames]⟩
  | lock hl hr =>
    refine ⟨SameQueues.repInv (.upd _ _ _ (fun _ => rfl) fun _ => rfl) hc, rfl, fun g hg => ?_⟩
    obtain rfl := List.mem_singleton.mp hg
    exact hf
  | request _ _ => exact same sameQueues_addRequest (by simp [Next.frames])
  | unlock => exact same sameQueues_unlockBuffer (by simp [Next.frames])

variable {n : ℕ} {s s' : State n (Cache D) Frame Panic}

/-- The queues are complete and every frame is about buffers of the cache. -/
abbrev Intact (s : State n (Cache D) Frame Panic) : Prop :=
  Holds (fun c => RepInv c ∧ 2 ≤ c.nrBuffers) (fun c f => f.Ok c) s

theorem Intact.enter (hi : Intact s) {t : Fin n} {fs fs' : List Frame}
    (hst : s.stack t = f :: fs) (heff : Effect s.shared f c' nx)
    (he : (program D n).Enters fs nx fs') (cpu : Option (Fin n)) :
    Intact { s with shared := c', stack := update s.stack t fs', cpu := cpu } := by
  have hf := hi.frames t f (hst ▸ List.mem_cons_self)
  obtain ⟨hinv, hn, hnew⟩ := heff.repInv hi.shared.1 hi.shared.2 hf
  exact Holds.enter (fun _ _ => True) hi hst he ⟨hinv, hn ▸ hi.shared.2⟩
    (fun g _ hg => hg.congr hn) hnew (fun _ _ => trivial) (fun _ _ _ hf _ hr => hf.resume hr) cpu

theorem Intact.endRequest {e : EndRequest D} (hi : Intact s)
    (he : endRequest e s.shared = some c') : Intact { s with shared := c' } := by
  have hq := sameQueues_endRequest he
  exact ⟨⟨hq.repInv hi.shared.1, hq.nrBuffers ▸ hi.shared.2⟩,
    fun t g hg => (hi.frames t g hg).congr hq.nrBuffers⟩

theorem Intact.step {a : Act n (Choice D) (EndRequest D)} (hi : Intact s)
    (hs : (program D n).step a s = some s') : Intact s' := by
  obtain ⟨-, ⟨t, ch, f, fs, c', nx, -, -, hst, hx, ⟨q, -, rfl⟩ | ⟨fs', cpu', he, rfl⟩⟩ |
    ⟨-, rfl⟩ | ⟨e, c', -, hx, rfl⟩⟩ := Program.step_cases hs
  · exact ⟨hi.shared, hi.frames⟩
  · exact hi.enter hst (exec_effect (hi.frames t f (hst ▸ List.mem_cons_self)).arises hx) he cpu'
  · exact ⟨hi.shared, hi.frames⟩
  · exact hi.endRequest hx

theorem intact_initial {c : Cache D} (hc : RepInv c) (htwo : 2 ≤ c.nrBuffers) :
    Intact (initial n c) :=
  ⟨⟨hc, htwo⟩, by simp [initial, Frame.Ok]⟩

/-- In every state that tasks can reach from a fresh cache, keys are unique, `find_buffer` finds
every head that has a device, and the queues are complete. -/
theorem cache_integrity (n startBuffer bufferEnd : ℕ) (junk : Junk D) (requestFn : ℕ → Bool)
    (disk : Dev → BlockNr → D)
    (htwo : 2 ≤ (bufferInit startBuffer bufferEnd junk requestFn disk).nrBuffers)
    (s : State n (Cache D) Frame Panic)
    (h : Run (program D n).step Always
      (initial n (bufferInit startBuffer bufferEnd junk requestFn disk)) s) :
    RepInv s.shared ∧ ∀ i < s.shared.nrBuffers, s.shared.dev i ≠ 0 →
      findBuffer s.shared (s.shared.dev i) (s.shared.blk i) = some i := by
  have hinit := repInv_bufferInit startBuffer bufferEnd junk requestFn disk htwo
  have hs : Intact s := h.invariant (intact_initial hinit htwo) fun _ _ _ hi _ hs => hi.step hs
  exact ⟨hs.shared.1, fun i hi hd => hs.shared.1.findBuffer_self hi hd⟩

/-- A fresh cache of two buffers. -/
def twoBuffers : Cache Unit :=
  bufferInit 0 (2 * (BLOCK_SIZE + sizeofBufferHead)) ⟨fun _ => (), fun _ => 0⟩ (fun _ => false)
    fun _ _ => ()

/-- The steps of `getblk` when the block is not in the cache and a buffer is free. -/
def getblkSteps (dev : Dev) (block : BlockNr) : List (Act 1 (Choice D) (EndRequest D)) :=
  [.run 0 (.getblk dev block), .run 0 .done, .run 0 .done, .run 0 .done]

/-- A task has asked for one block and holds it. -/
def oneHeld : State 1 (Cache Unit) Frame Panic :=
  (runList (program Unit 1).step (getblkSteps 0x300 1) (initial 1 twoBuffers)).get (by decide)

theorem cache_integrity_oneHeld :
    oneHeld.shared.dev 0 = 0x300 ∧ RepInv oneHeld.shared ∧
      ∀ i < oneHeld.shared.nrBuffers, oneHeld.shared.dev i ≠ 0 →
        findBuffer oneHeld.shared (oneHeld.shared.dev i) (oneHeld.shared.blk i) = some i :=
  ⟨by decide, cache_integrity 1 0 _ _ _ _ (show 2 ≤ twoBuffers.nrBuffers by decide) oneHeld
    (.of_runList_get _)⟩

end Linux012.Buffer
