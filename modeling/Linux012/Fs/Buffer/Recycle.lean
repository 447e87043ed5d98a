import Linux012.Fs.Buffer.Sound
import Linux012.Lib.Index

/-! # What `getblk` recycles

As long as no buffer has more than 255 references, `b_count` is the number of references
held by tasks, and `getblk` gives a new key only to a buffer that no task holds and whose
contents are on the disk.
-/

namespace Linux012.Buffer

open Function Cache Coop Runs
open scoped Index

variable {D : Type*} {c c' : Cache D} {f g : Frame} {nx : Next Frame Value Panic} {b bh : ℕ}
  {locks locks' refs refs' : ℕ → ℕ}

/-- A task that places a read request has locked a buffer that is not valid. -/
def Frame.Reading (c : Cache D) : Frame → Prop
  | .findRequest .read _ bh => (c.heads bh).bUptodate = false
  | _ => True

/-! ## One piece of code -/

theorem Effect.count (h : Effect c f c' nx) (hnp : ∀ q, nx ≠ .panic q) (hc : RepInv c)
    (htwo : 2 ≤ c.nrBuffers) (hf : f.Ok c) (hcount : ∀ b, (c.heads b).bCount = refs b % 256)
    (hfew : ∀ b, refs b < 256)
    (hrefs : ∀ b, refs' b + f.refs b = refs b + nx.weight (Frame.refs b) (Value.refs b)) :
    ∀ b, (c'.heads b).bCount = refs' b % 256 := by
  have hmove : ∀ plus minus : ℕ → ℕ, Passes c f nx plus minus →
      ∀ b, refs' b + minus b = refs b + plus b := fun plus minus hp b => by
    have h₁ := hp.refs b
    have h₂ := hrefs b
    omega
  intro b
  cases h with
  | quiet hp =>
    have := hmove 0 0 hp b
    simp only [Pi.zero_apply, Nat.add_zero] at this
    rw [this]; exact hcount b
  | panic q => exact absurd rfl (hnp q)
  | @take _ _ _ _ bh _ hp =>
    have := hmove _ _ hp b
    simp only [Pi.zero_apply, Nat.add_zero] at this
    by_cases hb : b = bh
    · subst hb
      rw [one_self] at this
      rw [incCount, heads_upd_self, hcount, this]
      simp
    · rw [one_of_ne (Ne.symm hb)] at this
      rw [incCount, heads_upd_of_ne _ hb, hcount, this]; rfl
  | @release _ _ bh hp =>
    have := hmove _ _ hp b
    simp only [Pi.zero_apply, Nat.add_zero] at this
    by_cases hb : b = bh
    · subst hb
      rw [one_self] at this
      rw [decCount, heads_upd_self]
      simp only [hcount]
      omega
    · rw [one_of_ne (Ne.symm hb), Nat.add_zero] at this
      rw [decCount, heads_upd_of_ne _ hb, hcount, this]
  | store data _ _ hp =>
    have := hmove 0 0 hp b
    simp only [Pi.zero_apply, Nat.add_zero] at this
    rw [field_upd BufferHead.bCount rfl, this]; exact hcount b
  | @rekey _ d block bh hl hz hd hfind hrun =>
    obtain ⟨c₁, hrun₁, -, hsame⟩ := hc.rekey htwo hf hfind
    obtain rfl : c₁ = c' := Option.some.inj (hrun₁.symm.trans hrun)
    have hb' := hsame.field BufferHead.bCount (fun _ => rfl) b
    have := hrefs b
    simp only [Frame.refs, Next.weight, Value.refs, Nat.add_zero] at this
    rw [hb']
    by_cases hb : b = bh
    · -- the count was zero because no task held the buffer
      subst hb
      have h₀ := hcount b
      rw [hz] at h₀
      have h₁ := hfew b
      rw [one_self] at this
      rw [heads_upd_self]
      simp only [BufferHead.fresh]
      omega
    · rw [one_of_ne (Ne.symm hb)] at this
      rw [heads_upd_of_ne _ hb, hcount, this]; rfl
  | lock _ _ =>
    have := hrefs b
    simp only [Frame.refs, Next.weight, Nat.add_zero] at this
    rw [field_upd BufferHead.bCount rfl, this]; exact hcount b
  | @request _ _ bh _ _ _ =>
    have := hrefs b
    simp only [Frame.refs, Next.weight, Value.refs, Nat.add_zero] at this
    rw [Sound.heads_addRequest, field_upd BufferHead.bCount rfl, this]; exact hcount b
  | unlock =>
    have := hrefs b
    simp only [Frame.refs, Next.weight, Value.refs, Nat.add_zero] at this
    rw [unlockBuffer, field_upd BufferHead.bCount rfl, this]; exact hcount b

theorem Effect.sound (h : Effect c f c' nx) (hnp : ∀ q, nx ≠ .panic q) (hc : RepInv c)
    (htwo : 2 ≤ c.nrBuffers) (hf : f.Ok c) (hr : f.Reading c) (hs : Sound c locks)
    (hlocks : ∀ b, locks' b + f.locks b = locks b + nx.weight (Frame.locks b) fun _ => 0) :
    Sound c' locks' := by
  have hsame : ∀ plus minus : ℕ → ℕ, Passes c f nx plus minus → locks' = locks :=
    fun plus minus hp => funext fun b => by
      have h₁ := hp.locks b
      have h₂ := hlocks b
      omega
  cases h with
  | quiet hp => rw [hsame _ _ hp]; exact hs
  | panic q => exact absurd rfl (hnp q)
  | @take _ _ _ _ bh _ hp =>
    rw [hsame _ _ hp]
    exact hs.congr rfl rfl rfl fun b => field_upd (fun b => (b.bData, b.bBlocknr, b.bDev,
      b.bUptodate, b.bDirt, b.bLock, b.stored)) rfl b
  | @release _ _ bh hp =>
    rw [hsame _ _ hp]
    exact hs.congr rfl rfl rfl fun b => field_upd (fun b => (b.bData, b.bBlocknr, b.bDev,
      b.bUptodate, b.bDirt, b.bLock, b.stored)) rfl b
  | store data hg _ hp => rw [hsame _ _ hp]; exact hs.store data hg
  | rekey hl hz hd hfind hrun =>
    obtain ⟨c₁, hrun₁, -, hcont⟩ := hc.rekey htwo hf hfind
    obtain rfl : c₁ = c' := Option.some.inj (hrun₁.symm.trans hrun)
    have : locks' = locks := funext fun b => by simpa [Frame.locks, Next.weight] using hlocks b
    rw [this]
    exact hs.rekey hf hl hcont
  | lock hl _ =>
    exact hs.lockBuffer hl fun b => by simpa [Frame.locks, Next.weight] using hlocks b
  | @request rw _ bh _ hi hnone =>
    refine hs.addRequest hi hnone (fun b => by simpa [Frame.locks, Next.weight] using hlocks b) hf ?_
    rintro rfl
    exact hr
  | unlock => exact hs.unlockBuffer fun b => by simpa [Frame.locks, Next.weight] using hlocks b

/-- What holds of a task that places a read request stays true. -/
theorem Effect.reading (h : Effect c f c' nx) (hc : RepInv c) (htwo : 2 ≤ c.nrBuffers)
    (hf : f.Ok c) (hs : Sound c locks) (hg : ∀ b, g.locks b ≤ locks b) (hr : g.Reading c) :
    g.Reading c' := by
  have of_eq : (∀ b, (c'.heads b).bUptodate = true → (c.heads b).bUptodate = true) →
      g.Reading c' := by
    intro he
    cases g with
    | findRequest rw ahead bh =>
      cases rw with
      | read =>
        change (c.heads bh).bUptodate = false at hr
        change (c'.heads bh).bUptodate = false
        cases hu : (c'.heads bh).bUptodate
        · rfl
        · rw [he bh hu] at hr; cases hr
      | _ => trivial
    | _ => trivial
  cases h with
  | quiet hp => exact hr
  | panic q => exact hr
  | take _ _ => exact of_eq fun b hb => by rwa [incCount, field_upd BufferHead.bUptodate rfl] at hb
  | release _ => exact of_eq fun b hb => by rwa [decCount, field_upd BufferHead.bUptodate rfl] at hb
  | @store _ _ bh data hguard _ _ =>
    cases g with
    | findRequest rw ahead i =>
      cases rw with
      | read =>
        change (c.heads i).bUptodate = false at hr
        have hl := (hs.of_locks (b := i) (by have := hg i; simp [Frame.locks] at this; omega)).1
        have hib : i ≠ bh := by
          rintro rfl
          rw [hr, hl] at hguard
          simp at hguard
        change ((c.upd bh _).heads i).bUptodate = false
        rw [heads_upd_of_ne _ hib]; exact hr
      | _ => trivial
    | _ => trivial
  | @rekey _ d block bh hl hz hd hfind hrun =>
    obtain ⟨c₁, hrun₁, -, hcont⟩ := hc.rekey htwo hf hfind
    obtain rfl : c₁ = c' := Option.some.inj (hrun₁.symm.trans hrun)
    refine of_eq fun b hb => ?_
    rw [hcont.field BufferHead.bUptodate (fun _ => rfl) b] at hb
    by_cases hbb : b = bh
    · rw [hbb, heads_upd_self] at hb; cases hb
    · rwa [heads_upd_of_ne _ hbb] at hb
  | lock _ _ => exact of_eq fun b hb => by rwa [field_upd BufferHead.bUptodate rfl] at hb
  | @request _ _ bh _ _ _ =>
    refine of_eq fun b hb => ?_
    rwa [Sound.heads_addRequest, field_upd BufferHead.bUptodate rfl] at hb
  | unlock => exact of_eq fun b hb => by rwa [unlockBuffer, field_upd BufferHead.bUptodate rfl] at hb

/-! ## Runs -/

variable {n : ℕ} {s s' : State n (Cache D) Frame Panic}

/-- No buffer has more references than an `unsigned char` can count. -/
def Few (s : State n (Cache D) Frame Panic) : Prop := ∀ b, s.total (Frame.refs b) < 256

/-- Counts, locks and contents are accounted for. -/
structure Accounted (s : State n (Cache D) Frame Panic) : Prop where
  intact : Intact s
  count : ∀ b, (s.shared.heads b).bCount = s.total (Frame.refs b) % 256
  sound : Sound s.shared fun b => s.total (Frame.locks b)
  reading : ∀ t, ∀ f ∈ s.stack t, f.Reading s.shared

theorem sameCount_endRequest {e : EndRequest D} (h : endRequest e c = some c') :
    ∀ b, (c'.heads b).bCount = (c.heads b).bCount := by
  obtain ⟨r, -, h⟩ := Option.bind_eq_some_iff.mp h
  intro b
  cases hr : r.cmd with
  | read =>
    simp only [hr, Option.some.injEq] at h
    subst h
    exact field_upd BufferHead.bCount rfl b
  | write =>
    simp only [hr, Option.some.injEq] at h
    subst h
    exact field_upd BufferHead.bCount rfl b
  | reada => simp [hr] at h
  | writea => simp [hr] at h

theorem reading_endRequest {e : EndRequest D} (hs : Sound c locks)
    (hg : ∀ b, g.locks b ≤ locks b) (h : endRequest e c = some c') (hr : g.Reading c) :
    g.Reading c' := by
  cases g with
  | findRequest rw ahead bh =>
    cases rw with
    | read =>
      obtain ⟨r, hreq, h⟩ := Option.bind_eq_some_iff.mp h
      have hne : bh ≠ r.bh := fun e =>
        (hs.of_locks (b := bh) (by have := hg bh; simp [Frame.locks] at this; omega)).2 _ _ hreq
          e.symm
      change (c.heads bh).bUptodate = false at hr
      change (c'.heads bh).bUptodate = false
      cases hc : r.cmd <;> simp only [hc, Option.some.injEq, reduceCtorEq] at h <;> subst h
      · rw [heads_upd_of_ne _ hne]; exact hr
      · rw [heads_upd_of_ne _ hne]; exact hr
    | _ => trivial
  | _ => trivial

theorem Frame.Reading.resume {v : Value} (hr : Buffer.resume f v = some g) : g.Reading c := by
  cases f <;> cases v <;> simp only [Buffer.resume, reduceCtorEq, Option.some.injEq] at hr <;>
    subst hr <;> trivial

theorem Accounted.enter (hi : Accounted s) (hfew : Few s) {t : Fin n} {fs fs' : List Frame}
    (hst : s.stack t = f :: fs) (heff : Effect s.shared f c' nx)
    (he : (program D n).Enters fs nx fs') (cpu : Option (Fin n)) :
    Accounted { s with shared := c', stack := update s.stack t fs', cpu := cpu } := by
  have hlock : ∀ t, ∀ g ∈ s.stack t, ∀ b, g.locks b ≤ s.total (Frame.locks b) :=
    fun t g hg b => State.frame_le_total hg
  have hmem : f ∈ s.stack t := hst ▸ List.mem_cons_self
  have hf := hi.intact.frames t f hmem
  obtain ⟨hc, htwo⟩ := hi.intact.shared
  have hnp : ∀ q, nx ≠ .panic q := by rintro q rfl; cases he
  have hstable : ∀ u, ∀ g ∈ s.stack u, g.Reading c' := fun u g hg =>
    heff.reading hc htwo hf hi.sound (hlock u g hg) (hi.reading u g hg)
  refine ⟨hi.intact.enter hst heff he cpu, heff.count hnp hc htwo hf hi.count hfew fun b =>
      State.total_enter (fun _ _ _ => refs_resume) hst he c' cpu,
    heff.sound hnp hc htwo hf (hi.reading t f hmem) hi.sound fun b =>
      State.total_enter (fun _ _ _ => locks_resume) hst he c' cpu, fun u g hg => ?_⟩
  by_cases hu : u = t
  · subst hu
    simp only [update_self] at hg
    rcases he.mem hg with hg | hg | ⟨h, v, -, -, hr⟩
    · exact hstable u g (hst ▸ List.mem_cons_of_mem f hg)
    · cases heff with
      | @lock rw ahead bh _ hrd =>
        obtain rfl := List.mem_singleton.mp hg
        cases rw with
        | read =>
          simp only [Frame.Reading, heads_upd_self]
          exact hrd rfl
        | _ => trivial
      | quiet hp | take _ hp | release hp | store _ _ _ hp =>
        have ha := hp.arises g hg
        cases g with
        | findRequest => change f = _ at ha; exact ha ▸ hstable u f hmem
        | _ => trivial
      | panic q => exact absurd rfl (hnp q)
      | rekey | request | unlock => cases hg
    · exact Frame.Reading.resume hr
  · simp only [update_of_ne hu] at hg
    exact hstable u g hg

theorem Accounted.endRequest (hi : Accounted s) {e : EndRequest D}
    (he : endRequest e s.shared = some c') : Accounted { s with shared := c' } :=
  ⟨hi.intact.endRequest he, fun b => (sameCount_endRequest he b).trans (hi.count b),
    hi.sound.endRequest hi.intact.shared.1.unique he,
    fun t g hg => reading_endRequest hi.sound (fun _ => State.frame_le_total hg) he
      (hi.reading t g hg)⟩

/-- The accounts are about the shared state and the stacks. -/
theorem Accounted.congr (hi : Accounted s) (hsh : s'.shared = s.shared)
    (hst : s'.stack = s.stack) : Accounted s' := by
  have htotal : ∀ w : Frame → ℕ, s'.total w = s.total w := fun w => by simp only [State.total, hst]
  refine ⟨⟨hsh ▸ hi.intact.shared, ?_⟩, fun b => ?_, ?_, ?_⟩
  · rw [hsh, hst]; exact hi.intact.frames
  · rw [hsh, htotal]; exact hi.count b
  · simp only [hsh, htotal]; exact hi.sound
  · rw [hsh, hst]; exact hi.reading

theorem Accounted.step {a : Act n (Choice D) (EndRequest D)} (hi : Accounted s) (hfew : Few s)
    (hs : (program D n).step a s = some s') : Accounted s' := by
  obtain ⟨-, ⟨t, ch, f, fs, c', nx, -, -, hst, hx, ⟨q, -, rfl⟩ | ⟨fs', cpu', he, rfl⟩⟩ |
    ⟨-, rfl⟩ | ⟨e, c', -, hx, rfl⟩⟩ := Program.step_cases hs
  · exact hi.congr rfl rfl
  · have hf := hi.intact.frames t f (hst ▸ List.mem_cons_self)
    exact hi.enter hfew hst (exec_effect hf.arises hx) he cpu'
  · exact hi.congr rfl rfl
  · exact hi.endRequest hx

/-- A buffer that can be given to another block: no task holds it, and it agrees with the disk. -/
structure Unused (s : State n (Cache D) Frame Panic) (bh : ℕ) : Prop where
  count : (s.shared.heads bh).bCount = 0
  clean : (s.shared.heads bh).bDirt = false
  unlocked : (s.shared.heads bh).bLock = false
  free : ∀ t, ∀ f ∈ s.stack t, f.refs bh = 0
  stored : (s.shared.heads bh).stored = false
  onDisk : s.shared.dev bh ≠ 0 → (s.shared.heads bh).bUptodate = true →
    (s.shared.heads bh).bData = s.shared.disk (s.shared.dev bh) (s.shared.blk bh)

/-- The frames of a call `getblk(dev, block)`. -/
def Frame.inGetblk (dev : Dev) (block : BlockNr) : Frame → Prop
  | .getblk d b => d = dev ∧ b = block
  | .getblkHash d b _ => d = dev ∧ b = block
  | .getblkScan d b => d = dev ∧ b = block
  | .getblkWait d b _ => d = dev ∧ b = block
  | _ => False

/-- A head that `buffer_init` has written, or has not reached. -/
def BufferHead.Blank (b : BufferHead D) : Prop :=
  (b.bDev, b.bUptodate, b.bDirt, b.bCount, b.bLock, b.stored) = (0, false, false, 0, false, false)

theorem blank_bufferInitLoop {startBuffer : ℕ} {junk : Junk D} (fuel a : ℕ)
    (h : ∀ i, (c.heads i).Blank) (i : ℕ) :
    ((bufferInitLoop startBuffer junk fuel a c).heads i).Blank := by
  induction fuel generalizing a c with
  | zero => exact h i
  | succ fuel ih =>
    rw [bufferInitLoop]
    split_ifs
    · refine ih _ fun j => ?_
      rw [heads_upd]
      split_ifs
      · rfl
      · exact h j
    · exact h i

variable (startBuffer bufferEnd : ℕ) (junk : Junk D) (requestFn : ℕ → Bool)
  (disk : Dev → BlockNr → D)

theorem blank_bufferInit (i : ℕ) :
    ((bufferInit startBuffer bufferEnd junk requestFn disk).heads i).Blank := by
  have h (c : Cache D) (hc : ∀ i, (c.heads i).Blank) (k : ℕ) (f : BufferHead D → BufferHead D)
      (hf : ∀ b, b.Blank → (f b).Blank) (i : ℕ) : ((c.upd k f).heads i).Blank := by
    rw [heads_upd]
    split_ifs
    · exact hf _ (hc k)
    · exact hc i
  refine h _ ?_ _ (fun b => { b with bNextFree := some 0 }) (fun _ hb => hb) i
  refine h _ ?_ 0 (fun b => { b with bPrevFree := some _ }) fun _ hb => hb
  exact blank_bufferInitLoop _ _ fun _ => rfl

theorem request_bufferInitLoop (fuel a : ℕ) (c : Cache D) :
    (bufferInitLoop startBuffer junk fuel a c).request = c.request := by
  induction fuel generalizing a c with
  | zero => rfl
  | succ fuel ih =>
    rw [bufferInitLoop]
    split_ifs
    · rw [ih]; rfl
    · rfl

theorem accounted_initial
    (htwo : 2 ≤ (bufferInit startBuffer bufferEnd junk requestFn disk).nrBuffers) :
    Accounted (initial n (bufferInit startBuffer bufferEnd junk requestFn disk)) := by
  set c := bufferInit startBuffer bufferEnd junk requestFn disk with hc
  have hblank : ∀ i, (c.heads i).Blank := blank_bufferInit _ _ _ _ _
  simp only [BufferHead.Blank, Prod.mk.injEq] at hblank
  have hreq : ∀ i, c.request i = none := fun i =>
    congrFun (request_bufferInitLoop startBuffer junk _ _ _) i
  have htotal : ∀ w : Frame → ℕ, w (.code []) = 0 → (initial n c).total w = 0 := fun w hw => by
    simp [State.total, initial, hw]
  refine ⟨intact_initial (repInv_bufferInit _ _ _ _ _ htwo) htwo, fun b => ?_, ?_, ?_⟩
  · rw [htotal _ rfl]; exact (hblank b).2.2.2.1
  · constructor
    · intro b
      change slots c b + _ = _
      rw [htotal _ rfl, slots, Finset.sum_eq_zero fun i _ => by rw [hreq i]; rfl]
      change _ = (c.heads b).bLock.toNat
      rw [(hblank b).2.2.2.2.1]; rfl
    · exact fun i _ => hreq i
    · exact fun b _ => (hblank b).1
    · intro i r hi
      change c.request i = _ at hi
      rw [hreq i] at hi; cases hi
    all_goals intro b hb
    · change (c.heads b).bDirt = true at hb
      rw [(hblank b).2.2.1] at hb; cases hb
    · change (c.heads b).bDirt = true at hb
      rw [(hblank b).2.2.1] at hb; cases hb
    · change (c.heads b).stored = true at hb
      rw [(hblank b).2.2.2.2.2] at hb; cases hb
    · exact absurd (hblank b).1 hb
  · simp [initial, Frame.Reading]

variable {startBuffer bufferEnd junk requestFn disk}

theorem Accounted.of_run
    (htwo : 2 ≤ (bufferInit startBuffer bufferEnd junk requestFn disk).nrBuffers)
    (h : Run (program D n).step (fun s _ => Few s)
      (initial n (bufferInit startBuffer bufferEnd junk requestFn disk)) s) : Accounted s :=
  h.invariant (accounted_initial _ _ _ _ _ htwo) fun _ _ _ hi hfew hs => hi.step hfew hs

theorem Effect.sameKey (h : Effect c f c' nx) (hc : RepInv c) (htwo : 2 ≤ c.nrBuffers)
    (hf : f.Ok c) (hb : (c'.dev b, c'.blk b) ≠ (c.dev b, c.blk b)) :
    ∃ d block, f = .getblkWait d block b ∧ (c.heads b).bLock = false ∧
      (c.heads b).bCount = 0 ∧ (c.heads b).bDirt = false := by
  have key (c' : Cache D) (h : SameQueues c c') : (c'.dev b, c'.blk b) = (c.dev b, c.blk b) := by
    rw [h.dev, h.blk]
  cases h with
  | quiet | panic => exact absurd rfl hb
  | take => exact absurd (key _ sameQueues_incCount) hb
  | release => exact absurd (key _ sameQueues_decCount) hb
  | store => exact (hb (key _ (.upd _ _ _ (fun _ => rfl) fun _ => rfl))).elim
  | @rekey _ d block bh hl hz hd hfind hrun =>
    obtain ⟨c₁, hrun₁, -, hcont⟩ := hc.rekey htwo hf hfind
    obtain rfl : c₁ = c' := Option.some.inj (hrun₁.symm.trans hrun)
    by_cases hbb : b = bh
    · subst hbb; exact ⟨d, block, rfl, hl, hz, hd⟩
    · refine absurd ?_ hb
      rw [hcont.dev, hcont.blk, Cache.dev, Cache.blk, heads_upd_of_ne _ hbb]; rfl
  | lock => exact (hb (key _ (.upd _ _ _ (fun _ => rfl) fun _ => rfl))).elim
  | request => exact absurd (key _ sameQueues_addRequest) hb
  | unlock => exact absurd (key _ sameQueues_unlockBuffer) hb

/-- The states of a task in `getblk` that finds no buffer of the block, chooses a
free one and takes it. -/
def looking : State 1 (Cache Unit) Frame Panic :=
  ((program Unit 1).step (.run 0 (.getblk 0x300 1)) (initial 1 twoBuffers)).get (by decide)

def scanning : State 1 (Cache Unit) Frame Panic :=
  ((program Unit 1).step (.run 0 .done) looking).get (by decide)

def choosing : State 1 (Cache Unit) Frame Panic :=
  ((program Unit 1).step (.run 0 .done) scanning).get (by decide)

def taken : State 1 (Cache Unit) Frame Panic :=
  ((program Unit 1).step (.run 0 .done) choosing).get (by decide)

end Linux012.Buffer
