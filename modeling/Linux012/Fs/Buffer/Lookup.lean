import Linux012.Fs.Buffer.Queues
import Linux012.Fs.Buffer.Tasks

/-! # Lookup, re-keying and initialisation

Under the representation invariant `find_buffer` finds exactly the heads that have a
device, re-keying a buffer keeps the invariant, and a fresh cache satisfies it.
-/

namespace Linux012.Buffer

open Function Links Cache

variable {D : Type*} {c c' : Cache D} {i j bh : ℕ} {d : Dev} {block : BlockNr}

/-! ## Steps that leave keys and links alone -/

/-- The caches have the same keys, links and queue heads. -/
structure SameQueues (c c' : Cache D) : Prop where
  next : c'.next = c.next
  prev : c'.prev = c.prev
  nextFree : c'.nextFree = c.nextFree
  prevFree : c'.prevFree = c.prevFree
  dev : c'.dev = c.dev
  blk : c'.blk = c.blk
  nrBuffers : c'.nrBuffers = c.nrBuffers
  hashTable : c'.hashTable = c.hashTable
  freeList : c'.freeList = c.freeList

namespace SameQueues

theorem refl (c : Cache D) : SameQueues c c := ⟨rfl, rfl, rfl, rfl, rfl, rfl, rfl, rfl, rfl⟩

theorem trans {c'' : Cache D} (h : SameQueues c c') (h' : SameQueues c' c'') :
    SameQueues c c'' :=
  ⟨h'.next.trans h.next, h'.prev.trans h.prev, h'.nextFree.trans h.nextFree,
    h'.prevFree.trans h.prevFree, h'.dev.trans h.dev, h'.blk.trans h.blk,
    h'.nrBuffers.trans h.nrBuffers, h'.hashTable.trans h.hashTable, h'.freeList.trans h.freeList⟩

theorem upd (c : Cache D) (i : ℕ) (f : BufferHead D → BufferHead D)
    (hl : ∀ b, ((f b).bNext, (f b).bPrev, (f b).bNextFree, (f b).bPrevFree) =
      (b.bNext, b.bPrev, b.bNextFree, b.bPrevFree))
    (hk : ∀ b, ((f b).bDev, (f b).bBlocknr) = (b.bDev, b.bBlocknr)) :
    SameQueues c (c.upd i f) where
  next := funext (field_upd BufferHead.bNext (Prod.ext_iff.mp (hl _)).1)
  prev := funext (field_upd BufferHead.bPrev (Prod.ext_iff.mp (Prod.ext_iff.mp (hl _)).2).1)
  nextFree := funext (field_upd BufferHead.bNextFree
    (Prod.ext_iff.mp (Prod.ext_iff.mp (Prod.ext_iff.mp (hl _)).2).2).1)
  prevFree := funext (field_upd BufferHead.bPrevFree
    (Prod.ext_iff.mp (Prod.ext_iff.mp (Prod.ext_iff.mp (hl _)).2).2).2)
  dev := funext (field_upd BufferHead.bDev (Prod.ext_iff.mp (hk _)).1)
  blk := funext (field_upd BufferHead.bBlocknr (Prod.ext_iff.mp (hk _)).2)
  nrBuffers := rfl
  hashTable := rfl
  freeList := rfl

theorem repInv (h : SameQueues c c') (hi : RepInv c) : RepInv c' := by
  refine ⟨?_, ?_, ?_, ?_⟩
  · simpa only [Unique, h.nrBuffers, h.dev, h.blk] using hi.unique
  · simpa only [Hashed, h.nrBuffers, h.dev, h.blk, h.next, h.prev, h.hashTable]
      using hi.queued.chains
  · simpa only [h.nrBuffers, h.nextFree, h.prevFree, h.freeList] using hi.queued.ring
  · simpa only [h.nrBuffers, h.next, h.prev, h.dev] using hi.queued.unhashed

theorem findBuffer (h : SameQueues c c') (d : Dev) (block : BlockNr) :
    findBuffer c' d block = findBuffer c d block := by
  have hfrom : ∀ fuel hd, findFrom c' d block fuel hd = findFrom c d block fuel hd := by
    intro fuel
    induction fuel with
    | zero => intro hd; cases hd <;> rfl
    | succ fuel ih =>
      intro hd
      cases hd with
      | none => rfl
      | some tmp => simp only [findFrom, h.dev, h.blk, h.next, ih]
  rw [Buffer.findBuffer, Buffer.findBuffer, hfrom, h.nrBuffers, h.hashTable]

end SameQueues

theorem sameQueues_incCount : SameQueues c (incCount c bh) := .upd _ _ _ (fun _ => rfl) fun _ => rfl

theorem sameQueues_decCount : SameQueues c (decCount c bh) := .upd _ _ _ (fun _ => rfl) fun _ => rfl

theorem sameQueues_unlockBuffer : SameQueues c (unlockBuffer c bh) :=
  .upd _ _ _ (fun _ => rfl) fun _ => rfl

theorem sameQueues_addRequest {rw : Rw} : SameQueues c (addRequest c i rw bh) :=
  let h := SameQueues.upd c bh (fun b => { b with bDirt := false }) (fun _ => rfl) fun _ => rfl
  ⟨h.next, h.prev, h.nextFree, h.prevFree, h.dev, h.blk, h.nrBuffers, h.hashTable, h.freeList⟩

theorem sameQueues_endRequest {e : EndRequest D} (h : endRequest e c = some c') :
    SameQueues c c' := by
  obtain ⟨r, -, h⟩ := Option.bind_eq_some_iff.mp h
  set c₁ : Cache D := { c with request := update c.request e.i none } with hc₁
  have h₁ : SameQueues c c₁ := ⟨rfl, rfl, rfl, rfl, rfl, rfl, rfl, rfl, rfl⟩
  cases hr : r.cmd with
  | read =>
    simp only [hr, Option.some.injEq] at h
    subst h
    exact h₁.trans (.upd _ _ _ (fun _ => rfl) fun _ => rfl)
  | write =>
    simp only [hr, Option.some.injEq] at h
    subst h
    have h₂ (data : D) : SameQueues c₁ (writeDisk c₁ r.dev r.block data) :=
      ⟨rfl, rfl, rfl, rfl, rfl, rfl, rfl, rfl, rfl⟩
    exact h₁.trans ((h₂ _).trans (.upd _ _ _ (fun _ => rfl) fun _ => rfl))
  | reada => simp [hr] at h
  | writea => simp [hr] at h

/-! ## Lookup -/

theorem findFrom_eq_find? {l : List ℕ} {a : Option ℕ} (h : Seg c.next c.prev a l none) :
    ∀ fuel, l.length ≤ fuel → findFrom c d block fuel l.head? =
      l.find? fun i => decide (c.dev i = d ∧ c.blk i = block) := by
  induction l generalizing a with
  | nil => intro fuel _; cases fuel <;> rfl
  | cons z l ih =>
    intro fuel hf
    obtain ⟨fuel, rfl⟩ := Nat.exists_eq_succ_of_ne_zero (n := fuel) (by simp at hf; omega)
    obtain ⟨-, hn, hs⟩ := seg_cons.mp h
    rw [Option.or_none] at hn
    rw [List.head?_cons, findFrom, hn, ih hs fuel (by simpa using hf), List.find?_cons]
    by_cases hz : c.dev z = d ∧ c.blk z = block <;> simp [hz]

theorem RepInv.findBuffer_eq (h : RepInv c) (d : Dev) (block : BlockNr) :
    ∃ l : List ℕ, (∀ i, i ∈ l ↔ Hashed c (hashfn d block) i) ∧
      findBuffer c d block = l.find? fun i => decide (c.dev i = d ∧ c.blk i = block) := by
  obtain ⟨l, hc, hm⟩ := h.queued.chains _ (hashfn_lt d block)
  simp only [true_and] at hm
  refine ⟨l, hm, ?_⟩
  have hlen : l.length ≤ c.nrBuffers := by
    have hsub : l ⊆ List.range c.nrBuffers := fun i hi =>
      List.mem_range.mpr ((hm i).mp hi).1
    simpa using (hc.nodup.subperm hsub).length_le
  rw [findBuffer, hc.head, findFrom_eq_find? hc.seg _ hlen]

/-- What `find_buffer` returns has the key that was asked for. -/
theorem RepInv.key_of_findBuffer (h : RepInv c) (hf : findBuffer c d block = some i) :
    i < c.nrBuffers ∧ d ≠ 0 ∧ c.dev i = d ∧ c.blk i = block := by
  obtain ⟨l, hm, he⟩ := h.findBuffer_eq d block
  rw [he] at hf
  have hk := of_decide_eq_true (List.find?_some (p := fun i => decide _) hf)
  obtain ⟨hi, hd, -⟩ := (hm i).mp (List.mem_of_find?_eq_some hf)
  exact ⟨hi, hk.1 ▸ hd, hk⟩

theorem RepInv.findBuffer_eq_none (h : RepInv c) (hd : d ≠ 0) (hf : findBuffer c d block = none)
    (hi : i < c.nrBuffers) : ¬ (c.dev i = d ∧ c.blk i = block) := by
  rintro ⟨rfl, rfl⟩
  obtain ⟨l, hm, he⟩ := h.findBuffer_eq (c.dev i) (c.blk i)
  rw [he, List.find?_eq_none] at hf
  exact hf i ((hm i).mpr ⟨hi, hd, rfl⟩) (by simp)

/-- `find_buffer` finds every head that has a device. -/
theorem RepInv.findBuffer_self (h : RepInv c) (hi : i < c.nrBuffers) (hd : c.dev i ≠ 0) :
    findBuffer c (c.dev i) (c.blk i) = some i := by
  cases hf : findBuffer c (c.dev i) (c.blk i) with
  | none => exact absurd ⟨rfl, rfl⟩ (h.findBuffer_eq_none hd hf hi)
  | some j =>
    obtain ⟨hj, -, hdj, hbj⟩ := h.key_of_findBuffer hf
    rw [h.unique i hi j hj hd hdj.symm hbj.symm]

/-! ## Re-keying -/

/-- The buffer `bh` as `getblk` leaves it for a new block. -/
def BufferHead.fresh (b : BufferHead D) (dev : Dev) (block : BlockNr) : BufferHead D :=
  { b with
    bCount := 1, bDirt := false, bUptodate := false, bDev := dev, bBlocknr := block,
    stored := false }

theorem Queued.upd_key (h : Queued c (· ≠ bh)) (f : BufferHead D → BufferHead D) :
    Queued (c.upd bh f) (· ≠ bh) := by
  have hother : ∀ i, i ≠ bh → (c.upd bh f).heads i = c.heads i := fun i hi => heads_upd_of_ne f hi
  refine ⟨fun k hk => ?_, ?_, fun i hi hlt hd => ?_⟩
  · obtain ⟨l, hc, hm⟩ := h.chains k hk
    refine ⟨l, hc.congr (fun y hy => ?_) fun y hy => ?_, fun i => ?_⟩
    · rw [next, hother y ((hm y).mp hy).1, next]
    · rw [prev, hother y ((hm y).mp hy).1, prev]
    · rw [hm]
      refine and_congr_right fun hi => ?_
      simp only [Hashed, dev, blk, hother i hi]
      rfl
  · obtain ⟨l, hr, hm⟩ := h.ring
    refine ⟨l, ⟨hr.head, hr.cyc.congr (fun y hy => ?_) fun y hy => ?_, hr.nodup⟩, hm⟩
    · rw [nextFree, hother y ((hm y).mp hy).1, nextFree]
    · rw [prevFree, hother y ((hm y).mp hy).1, prevFree]
  · simp only [dev, next, prev, hother i hi] at hd ⊢
    exact h.unhashed i hi hlt hd

/-- Re-keying never finds the free list corrupted, and gives the buffer its new key. -/
theorem RepInv.rekey (h : RepInv c) (htwo : 2 ≤ c.nrBuffers) (hbh : bh < c.nrBuffers)
    (hf : findBuffer c d block = none) :
    ∃ c', rekey c d block bh = some c' ∧ RepInv c' ∧
      SameContents (c.upd bh fun b => b.fresh d block) c' := by
  set c₁ := c.upd bh fun b => { b with bCount := 1, bDirt := false, bUptodate := false } with hc₁
  have hq₁ : SameQueues c c₁ := .upd _ _ _ (fun _ => rfl) fun _ => rfl
  have h₁ := hq₁.repInv h
  obtain ⟨c₂, hrem, hs₂, h₂⟩ := removeFromQueues_queued h₁.queued hbh htwo
  set c₃ := c₂.upd bh fun b => { b with bDev := d, bBlocknr := block, stored := false } with hc₃
  have h₃ : Queued c₃ (· ≠ bh) := h₂.upd_key _
  have hbh₃ : bh < c₃.nrBuffers := by rw [show c₃.nrBuffers = c₂.nrBuffers from rfl, hs₂.nrBuffers]; exact hbh
  obtain ⟨hs₄, h₄⟩ := insertIntoQueues_queued h₃ hbh₃
  have hrun : Buffer.rekey c d block bh = some (insertIntoQueues c₃ bh) := by
    rw [Buffer.rekey, ← hc₁, hrem]; rfl
  have hs : SameContents (c.upd bh fun b => b.fresh d block) (insertIntoQueues c₃ bh) := by
    have hs₃ : SameContents (c.upd bh fun b => b.fresh d block) c₃ := by
      refine ⟨fun j => ?_, hs₂.nrBuffers, hs₂.request, hs₂.requestFn, hs₂.disk⟩
      have hj := hs₂.heads j
      by_cases hjb : j = bh
      · subst hjb
        rw [heads_upd_self, heads_upd_self]
        rw [hc₁, heads_upd_self] at hj
        simp only [BufferHead.bare, BufferHead.fresh, BufferHead.mk.injEq] at hj ⊢
        simp [hj]
      · rw [heads_upd_of_ne _ hjb, heads_upd_of_ne _ hjb, hj, hc₁, heads_upd_of_ne _ hjb]
    exact hs₃.trans hs₄
  refine ⟨_, hrun, ⟨?_, h₄⟩, hs⟩
  -- the new key was not in the cache
  have hkey : ∀ i, i ≠ bh → (insertIntoQueues c₃ bh).dev i = c.dev i ∧
      (insertIntoQueues c₃ bh).blk i = c.blk i := fun i hi => by
    rw [hs.dev, hs.blk]
    simp [dev, blk, heads_upd_of_ne _ hi]
  have hkb : (insertIntoQueues c₃ bh).dev bh = d ∧ (insertIntoQueues c₃ bh).blk bh = block := by
    rw [hs.dev, hs.blk]
    simp [dev, blk, BufferHead.fresh]
  intro i hi j hj hd hdij hbij
  rw [hs.nrBuffers] at hi hj
  by_cases hib : i = bh <;> by_cases hjb : j = bh
  · rw [hib, hjb]
  · subst hib
    rw [hkb.1] at hd hdij
    rw [(hkey j hjb).1] at hdij
    rw [hkb.2, (hkey j hjb).2] at hbij
    exact absurd ⟨hdij.symm, hbij.symm⟩ (h.findBuffer_eq_none hd hf hj)
  · subst hjb
    rw [(hkey i hib).1] at hd hdij
    rw [hkb.1] at hdij
    rw [hkb.2, (hkey i hib).2] at hbij
    exact absurd ⟨hdij, hbij⟩ (h.findBuffer_eq_none (hdij ▸ hd) hf hi)
  · rw [(hkey i hib).1] at hd hdij
    rw [(hkey j hjb).1] at hdij
    rw [(hkey i hib).2, (hkey j hjb).2] at hbij
    exact h.unique i hi j hj hd hdij hbij

/-! ## A fresh cache -/

/-- The heads from `0` to `h - 1` as the loop of `buffer_init` leaves them. -/
structure InitHeads (c : Cache D) : Prop where
  dev : ∀ i < c.nrBuffers, c.dev i = 0
  next : ∀ i < c.nrBuffers, c.next i = none
  prev : ∀ i < c.nrBuffers, c.prev i = none
  nextFree : ∀ i < c.nrBuffers, c.nextFree i = some (i + 1)
  prevFree : ∀ i < c.nrBuffers, c.prevFree i = some (i - 1)

theorem InitHeads.push (h : InitHeads c) {b : BufferHead D} (hd : b.bDev = 0)
    (hn : b.bNext = none) (hp : b.bPrev = none) (hnf : b.bNextFree = some (c.nrBuffers + 1))
    (hpf : b.bPrevFree = some (c.nrBuffers - 1)) :
    InitHeads { c.upd c.nrBuffers (fun _ => b) with nrBuffers := c.nrBuffers + 1 } := by
  have hold : ∀ i < c.nrBuffers,
      (c.upd c.nrBuffers fun _ => b).heads i = c.heads i := fun i hi =>
    heads_upd_of_ne _ (Nat.ne_of_lt hi)
  constructor <;> intro i hi <;> rcases Nat.lt_succ_iff_lt_or_eq.mp hi with hi | rfl
  all_goals simp only [Cache.dev, Cache.next, Cache.prev, Cache.nextFree, Cache.prevFree]
  · rw [hold i hi]; exact h.dev i hi
  · rw [heads_upd_self]; exact hd
  · rw [hold i hi]; exact h.next i hi
  · rw [heads_upd_self]; exact hn
  · rw [hold i hi]; exact h.prev i hi
  · rw [heads_upd_self]; exact hp
  · rw [hold i hi]; exact h.nextFree i hi
  · rw [heads_upd_self]; exact hnf
  · rw [hold i hi]; exact h.prevFree i hi
  · rw [heads_upd_self]; exact hpf

theorem InitHeads.loop {startBuffer : ℕ} {junk : Junk D} (fuel b : ℕ) (h : InitHeads c) :
    InitHeads (bufferInitLoop startBuffer junk fuel b c) := by
  induction fuel generalizing b c with
  | zero => exact h
  | succ fuel ih =>
    rw [bufferInitLoop]
    split_ifs
    · exact ih _ (h.push rfl rfl rfl rfl rfl)
    · exact h

/-- `buffer_init` builds complete queues. -/
theorem repInv_bufferInit (startBuffer bufferEnd : ℕ) (junk : Junk D) (requestFn : ℕ → Bool)
    (disk : Dev → BlockNr → D)
    (h : 2 ≤ (bufferInit startBuffer bufferEnd junk requestFn disk).nrBuffers) :
    RepInv (bufferInit startBuffer bufferEnd junk requestFn disk) := by
  set b₀ := if bufferEnd = 1 <<< 20 then 640 * 1024 else bufferEnd with hb₀
  set c := bufferInitLoop startBuffer junk bufferEnd b₀
    { nrBuffers := 0, heads := fun _ => emptyHead junk, hashTable := fun _ => some 0,
      freeList := 0, request := fun _ => none, requestFn := requestFn, disk := disk } with hc
  have hi : InitHeads c := InitHeads.loop _ _ (by constructor <;> intro i hi <;> cases hi)
  set c₁ := ({ c with freeList := 0 } : Cache D).upd 0 fun b =>
    { b with bPrevFree := some (c.nrBuffers - 1) } with hc₁
  set c₂ := c₁.upd (c.nrBuffers - 1) fun b => { b with bNextFree := some 0 } with hc₂
  have hinit : bufferInit startBuffer bufferEnd junk requestFn disk =
      { c₂ with hashTable := fun k => if k < NR_HASH then none else c₂.hashTable k } := rfl
  rw [hinit] at h ⊢
  change 2 ≤ c.nrBuffers at h
  have hdev : c₂.dev = c.dev := by
    funext i
    exact (field_upd BufferHead.bDev rfl i).trans (field_upd BufferHead.bDev rfl i)
  have hnext : c₂.next = c.next := by
    funext i
    exact (field_upd BufferHead.bNext rfl i).trans (field_upd BufferHead.bNext rfl i)
  have hprev : c₂.prev = c.prev := by
    funext i
    exact (field_upd BufferHead.bPrev rfl i).trans (field_upd BufferHead.bPrev rfl i)
  have hnf : ∀ i < c.nrBuffers, c₂.nextFree i =
      if i + 1 = c.nrBuffers then some 0 else some (i + 1) := by
    intro i hlt
    have h₁ : c₁.nextFree i = some (i + 1) :=
      (field_upd BufferHead.bNextFree rfl i).trans (hi.nextFree i hlt)
    by_cases hl : i = c.nrBuffers - 1
    · rw [if_pos (by omega), hl, Cache.nextFree, hc₂, heads_upd_self]
    · rw [if_neg (by omega), Cache.nextFree, hc₂, heads_upd_of_ne _ hl]; exact h₁
  have hpf : ∀ i < c.nrBuffers, c₂.prevFree i =
      if i = 0 then some (c.nrBuffers - 1) else some (i - 1) := by
    intro i hlt
    refine (field_upd BufferHead.bPrevFree rfl i).trans ?_
    by_cases hl : i = 0
    · rw [if_pos hl, hl, heads_upd_self]
    · rw [if_neg hl, heads_upd_of_ne _ hl]; exact hi.prevFree i hlt
  refine ⟨fun i hlt _ _ hd => ?_, fun k hk => ⟨[], ?_, fun i => ?_⟩,
    ⟨List.range c.nrBuffers, ⟨?_, ?_, List.nodup_range⟩, fun i => ?_⟩, fun i _ hlt _ => ?_⟩
  · exact absurd ((congrFun hdev i).trans (hi.dev i hlt)) hd
  · simp only [if_pos hk]; exact Chain.nil
  · simp only [List.not_mem_nil, true_and, false_iff]
    exact fun hh => hh.2.1 ((congrFun hdev i).trans (hi.dev i hh.1))
  · rw [List.head?_range, if_neg (by omega)]; rfl
  · exact cyc_range hnf hpf
  · exact ⟨fun hm => ⟨trivial, List.mem_range.mp hm⟩, fun hm => List.mem_range.mpr hm.2⟩
  · exact ⟨(congrFun hnext i).trans (hi.next i hlt), (congrFun hprev i).trans (hi.prev i hlt)⟩

/-! ## The scan of the free list -/

theorem continued_mem {l : List ℕ} {fuel tmp : ℕ} {best : Option ℕ}
    (ih : ∀ n, c.nextFree tmp = some n → (∀ i, best = some i → i ∈ l) →
      scanFree c fuel n best = some i → i ∈ l)
    (hb : ∀ i, best = some i → i ∈ l)
    (h : (match c.nextFree tmp with
      | none => best
      | some n => if n = c.freeList then best else scanFree c fuel n best) = some i) : i ∈ l := by
  cases hn : c.nextFree tmp with
  | none => exact hb i (by simpa [hn] using h)
  | some m =>
    simp only [hn] at h
    split_ifs at h
    · exact hb i h
    · exact ih m hn hb h

theorem scanFree_mem {l : List ℕ} {fuel tmp : ℕ} {best : Option ℕ}
    (hl : ∀ i ∈ l, ∀ j, c.nextFree i = some j → j ∈ l) (ht : tmp ∈ l)
    (hb : ∀ i, best = some i → i ∈ l) (h : scanFree c fuel tmp best = some i) : i ∈ l := by
  induction fuel generalizing tmp best with
  | zero => exact hb i h
  | succ fuel ih =>
    have hself : ∀ i, some tmp = some i → i ∈ l := fun i e => Option.some.inj e ▸ ht
    unfold scanFree at h
    dsimp only at h
    split_ifs at h
    · exact continued_mem (fun _ hn hb h => ih (hl tmp ht _ hn) hb h) hb h
    · exact hself i h
    · exact continued_mem (fun _ hn hb h => ih (hl tmp ht _ hn) hb h) hself h
    · exact continued_mem (fun _ hn hb h => ih (hl tmp ht _ hn) hb h) hb h

/-- The scan of the free list chooses a buffer of the cache. -/
theorem RepInv.scanFree_lt (h : RepInv c) {fuel : ℕ}
    (hs : scanFree c fuel c.freeList none = some i) : i < c.nrBuffers := by
  obtain ⟨l, hr, hm⟩ := h.queued.ring
  refine ((hm i).mp (scanFree_mem (fun i hi j hj => ?_) (List.mem_of_mem_head? hr.head)
    (by simp) hs)).2
  obtain ⟨-, y, hy, hn⟩ := hr.neighbours hi
  rw [hj] at hn
  exact Option.some.inj hn ▸ hy

end Linux012.Buffer
