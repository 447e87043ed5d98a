import Linux012.Lib.Links
import Linux012.Fs.Buffer.Basic

/-! # The queues of the buffer cache

Removing a buffer head from its queues and inserting it again keep every hash chain
a null-terminated doubly linked list of exactly the heads with that hash value, and
the free list one ring of all heads.
-/

namespace Linux012.Buffer

open Function Links Cache

variable {D : Type*} {c c' : Cache D} {i j bh : ℕ} {d : Dev} {block : BlockNr}

/-! ## Projections of an update -/

namespace Cache

@[simp] theorem heads_upd_self (f : BufferHead D → BufferHead D) :
    (c.upd i f).heads i = f (c.heads i) := by simp [upd]

theorem heads_upd_of_ne (f : BufferHead D → BufferHead D) (h : j ≠ i) :
    (c.upd i f).heads j = c.heads j := by simp [upd, h]

theorem heads_upd (f : BufferHead D → BufferHead D) :
    (c.upd i f).heads j = if j = i then f (c.heads i) else c.heads j := by
  split_ifs with h
  · subst h; simp
  · exact heads_upd_of_ne f h

/-- An update that keeps a field of the head keeps it of all heads. -/
theorem field_upd {β : Type*} (g : BufferHead D → β) {f : BufferHead D → BufferHead D}
    (hf : g (f (c.heads i)) = g (c.heads i)) (j : ℕ) :
    g ((c.upd i f).heads j) = g (c.heads j) := by
  rw [heads_upd]
  split_ifs with h
  · rw [h, hf]
  · rfl

variable {p v : Option ℕ} {k : ℕ}

@[simp] theorem next_setNext : (c.setNext p v).next = setAt c.next p v := by
  funext j
  cases p with
  | none => rfl
  | some p => by_cases h : j = p <;> simp [setNext, updAt, next, heads_upd, setAt, update, h]

@[simp] theorem prev_setPrev : (c.setPrev p v).prev = setAt c.prev p v := by
  funext j
  cases p with
  | none => rfl
  | some p => by_cases h : j = p <;> simp [setPrev, updAt, prev, heads_upd, setAt, update, h]

@[simp] theorem nextFree_setNextFree : (c.setNextFree p v).nextFree = setAt c.nextFree p v := by
  funext j
  cases p with
  | none => rfl
  | some p =>
    by_cases h : j = p <;> simp [setNextFree, updAt, nextFree, heads_upd, setAt, update, h]

@[simp] theorem prevFree_setPrevFree : (c.setPrevFree p v).prevFree = setAt c.prevFree p v := by
  funext j
  cases p with
  | none => rfl
  | some p =>
    by_cases h : j = p <;> simp [setPrevFree, updAt, prevFree, heads_upd, setAt, update, h]

end Cache

/-! ## Contents and links -/

/-- A buffer head without its four links. -/
def BufferHead.bare (b : BufferHead D) : BufferHead D :=
  { b with bPrev := none, bNext := none, bPrevFree := none, bNextFree := none }

/-- The caches differ in links only. -/
structure SameContents (c c' : Cache D) : Prop where
  heads : ∀ i, (c'.heads i).bare = (c.heads i).bare
  nrBuffers : c'.nrBuffers = c.nrBuffers
  request : c'.request = c.request
  requestFn : c'.requestFn = c.requestFn
  disk : c'.disk = c.disk

namespace SameContents

theorem refl (c : Cache D) : SameContents c c := ⟨fun _ => rfl, rfl, rfl, rfl, rfl⟩

theorem trans {c'' : Cache D} (h : SameContents c c') (h' : SameContents c' c'') :
    SameContents c c'' :=
  ⟨fun i => (h'.heads i).trans (h.heads i), h'.nrBuffers.trans h.nrBuffers,
    h'.request.trans h.request, h'.requestFn.trans h.requestFn, h'.disk.trans h.disk⟩

theorem field {β : Type*} (h : SameContents c c') (g : BufferHead D → β)
    (hg : ∀ b, g b.bare = g b) (i : ℕ) : g (c'.heads i) = g (c.heads i) := by
  rw [← hg, ← hg (c.heads i), h.heads i]

protected theorem dev (h : SameContents c c') : c'.dev = c.dev :=
  funext fun i => h.field BufferHead.bDev (fun _ => rfl) i

protected theorem blk (h : SameContents c c') : c'.blk = c.blk :=
  funext fun i => h.field BufferHead.bBlocknr (fun _ => rfl) i

theorem of_updAt {i : Option ℕ} {f : BufferHead D → BufferHead D}
    (hf : ∀ b, (f b).bare = b.bare) : SameContents c (c.updAt i f) := by
  cases i with
  | none => exact .refl c
  | some i => exact ⟨fun j => field_upd BufferHead.bare (hf _) j, rfl, rfl, rfl, rfl⟩

end SameContents

/-- What a store into one kind of link leaves alone. -/
structure SameLinks (c c' : Cache D) : Prop where
  contents : SameContents c c'
  hashTable : c'.hashTable = c.hashTable
  freeList : c'.freeList = c.freeList

section Store

variable (c) (p v : Option ℕ)

theorem sameLinks_updAt {f : BufferHead D → BufferHead D} (hf : ∀ b, (f b).bare = b.bare) :
    SameLinks c (c.updAt p f) := by
  refine ⟨.of_updAt hf, ?_, ?_⟩ <;> cases p <;> rfl

theorem sameLinks_setNext : SameLinks c (c.setNext p v) := sameLinks_updAt c p fun _ => rfl
theorem sameLinks_setPrev : SameLinks c (c.setPrev p v) := sameLinks_updAt c p fun _ => rfl
theorem sameLinks_setNextFree : SameLinks c (c.setNextFree p v) :=
  sameLinks_updAt c p fun _ => rfl
theorem sameLinks_setPrevFree : SameLinks c (c.setPrevFree p v) :=
  sameLinks_updAt c p fun _ => rfl

theorem field_updAt {β : Type*} (g : BufferHead D → β) {f : BufferHead D → BufferHead D}
    (hf : ∀ b, g (f b) = g b) (j : ℕ) : g ((c.updAt p f).heads j) = g (c.heads j) := by
  cases p with
  | none => rfl
  | some p => exact field_upd g (hf _) j

end Store

namespace Cache

variable {p v : Option ℕ} {k : ℕ}

@[simp] theorem next_setPrev : (c.setPrev p v).next = c.next :=
  funext (field_updAt c p BufferHead.bNext fun _ => rfl)
@[simp] theorem next_setNextFree : (c.setNextFree p v).next = c.next :=
  funext (field_updAt c p BufferHead.bNext fun _ => rfl)
@[simp] theorem next_setPrevFree : (c.setPrevFree p v).next = c.next :=
  funext (field_updAt c p BufferHead.bNext fun _ => rfl)
@[simp] theorem prev_setNext : (c.setNext p v).prev = c.prev :=
  funext (field_updAt c p BufferHead.bPrev fun _ => rfl)
@[simp] theorem prev_setNextFree : (c.setNextFree p v).prev = c.prev :=
  funext (field_updAt c p BufferHead.bPrev fun _ => rfl)
@[simp] theorem prev_setPrevFree : (c.setPrevFree p v).prev = c.prev :=
  funext (field_updAt c p BufferHead.bPrev fun _ => rfl)
@[simp] theorem nextFree_setNext : (c.setNext p v).nextFree = c.nextFree :=
  funext (field_updAt c p BufferHead.bNextFree fun _ => rfl)
@[simp] theorem nextFree_setPrev : (c.setPrev p v).nextFree = c.nextFree :=
  funext (field_updAt c p BufferHead.bNextFree fun _ => rfl)
@[simp] theorem nextFree_setPrevFree : (c.setPrevFree p v).nextFree = c.nextFree :=
  funext (field_updAt c p BufferHead.bNextFree fun _ => rfl)
@[simp] theorem prevFree_setNext : (c.setNext p v).prevFree = c.prevFree :=
  funext (field_updAt c p BufferHead.bPrevFree fun _ => rfl)
@[simp] theorem prevFree_setPrev : (c.setPrev p v).prevFree = c.prevFree :=
  funext (field_updAt c p BufferHead.bPrevFree fun _ => rfl)
@[simp] theorem prevFree_setNextFree : (c.setNextFree p v).prevFree = c.prevFree :=
  funext (field_updAt c p BufferHead.bPrevFree fun _ => rfl)

@[simp] theorem dev_setNext : (c.setNext p v).dev = c.dev := (sameLinks_setNext c p v).contents.dev
@[simp] theorem dev_setPrev : (c.setPrev p v).dev = c.dev := (sameLinks_setPrev c p v).contents.dev
@[simp] theorem dev_setNextFree : (c.setNextFree p v).dev = c.dev :=
  (sameLinks_setNextFree c p v).contents.dev
@[simp] theorem dev_setPrevFree : (c.setPrevFree p v).dev = c.dev :=
  (sameLinks_setPrevFree c p v).contents.dev
@[simp] theorem blk_setNext : (c.setNext p v).blk = c.blk := (sameLinks_setNext c p v).contents.blk
@[simp] theorem blk_setPrev : (c.setPrev p v).blk = c.blk := (sameLinks_setPrev c p v).contents.blk
@[simp] theorem blk_setNextFree : (c.setNextFree p v).blk = c.blk :=
  (sameLinks_setNextFree c p v).contents.blk
@[simp] theorem blk_setPrevFree : (c.setPrevFree p v).blk = c.blk :=
  (sameLinks_setPrevFree c p v).contents.blk
@[simp] theorem hashTable_setNext : (c.setNext p v).hashTable = c.hashTable :=
  (sameLinks_setNext c p v).hashTable
@[simp] theorem hashTable_setPrev : (c.setPrev p v).hashTable = c.hashTable :=
  (sameLinks_setPrev c p v).hashTable
@[simp] theorem hashTable_setNextFree : (c.setNextFree p v).hashTable = c.hashTable :=
  (sameLinks_setNextFree c p v).hashTable
@[simp] theorem hashTable_setPrevFree : (c.setPrevFree p v).hashTable = c.hashTable :=
  (sameLinks_setPrevFree c p v).hashTable
@[simp] theorem freeList_setNext : (c.setNext p v).freeList = c.freeList :=
  (sameLinks_setNext c p v).freeList
@[simp] theorem freeList_setPrev : (c.setPrev p v).freeList = c.freeList :=
  (sameLinks_setPrev c p v).freeList
@[simp] theorem freeList_setNextFree : (c.setNextFree p v).freeList = c.freeList :=
  (sameLinks_setNextFree c p v).freeList
@[simp] theorem freeList_setPrevFree : (c.setPrevFree p v).freeList = c.freeList :=
  (sameLinks_setPrevFree c p v).freeList

@[simp] theorem next_setHash : (c.setHash k v).next = c.next := rfl
@[simp] theorem prev_setHash : (c.setHash k v).prev = c.prev := rfl
@[simp] theorem nextFree_setHash : (c.setHash k v).nextFree = c.nextFree := rfl
@[simp] theorem prevFree_setHash : (c.setHash k v).prevFree = c.prevFree := rfl
@[simp] theorem hashTable_setHash : (c.setHash k v).hashTable = update c.hashTable k v := rfl
@[simp] theorem freeList_setHash : (c.setHash k v).freeList = c.freeList := rfl

end Cache

/-! ## The representation invariant -/

/-- The head `i` has a device and its key has the hash value `k`. -/
def Hashed (c : Cache D) (k i : ℕ) : Prop :=
  i < c.nrBuffers ∧ c.dev i ≠ 0 ∧ hashfn (c.dev i) (c.blk i) = k

/-- The queues hold exactly the heads that satisfy `p`. -/
structure Queued (c : Cache D) (p : ℕ → Prop) : Prop where
  chains : ∀ k < NR_HASH, ∃ l, Chain c.next c.prev (c.hashTable k) l ∧
    ∀ i, i ∈ l ↔ p i ∧ Hashed c k i
  ring : ∃ l, Ring c.nextFree c.prevFree c.freeList l ∧ ∀ i, i ∈ l ↔ p i ∧ i < c.nrBuffers
  unhashed : ∀ i, p i → i < c.nrBuffers → c.dev i = 0 → c.next i = none ∧ c.prev i = none

/-- No two heads hold the same block. -/
def Unique (c : Cache D) : Prop :=
  ∀ i < c.nrBuffers, ∀ j < c.nrBuffers, c.dev i ≠ 0 → c.dev i = c.dev j →
    c.blk i = c.blk j → i = j

/-- Keys are unique, every hash chain is a doubly linked list of exactly the heads with that
hash value, and the free list is one ring of all heads. -/
structure RepInv (c : Cache D) : Prop where
  unique : Unique c
  queued : Queued c fun _ => True

theorem hashfn_lt (d : Dev) (block : BlockNr) : hashfn d block < NR_HASH :=
  Nat.mod_lt _ (by decide)

/-! ## Removal -/

theorem removeFromQueues_eq {p n : ℕ} (hself : c.next bh ≠ some bh)
    (hp : c.prevFree bh = some p) (hn : c.nextFree bh = some n) :
    ∃ c', removeFromQueues c bh = some c' ∧ SameContents c c' ∧
      c'.next = setAt c.next (c.prev bh) (c.next bh) ∧
      c'.prev = setAt c.prev (c.next bh) (c.prev bh) ∧
      c'.nextFree = setAt c.nextFree (c.prevFree bh) (c.nextFree bh) ∧
      c'.prevFree = setAt c.prevFree (c.nextFree bh) (c.prevFree bh) ∧
      c'.hashTable = (if c.hashTable (hashfn (c.dev bh) (c.blk bh)) = some bh
        then update c.hashTable (hashfn (c.dev bh) (c.blk bh)) (c.next bh)
        else c.hashTable) ∧
      c'.freeList = if c.freeList = bh then n else c.freeList := by
  have hp₁ : setAt c.prev (c.next bh) (c.prev bh) bh = c.prev bh := by
    rw [setAt_apply, if_neg hself]
  have hn₁ : setAt c.next (c.prev bh) (c.next bh) bh = c.next bh := by
    rw [setAt_apply]; split_ifs <;> rfl
  have hn₂ : setAt c.nextFree (c.prevFree bh) (c.nextFree bh) bh = c.nextFree bh := by
    rw [setAt_apply]; split_ifs <;> rfl
  set c₁ := c.setPrev (c.next bh) (c.prev bh) with hc₁
  set c₂ := c₁.setNext (c₁.prev bh) (c₁.next bh) with hc₂
  have hs₂ : SameContents c c₂ :=
    (sameLinks_setPrev c _ _).contents.trans (sameLinks_setNext c₁ _ _).contents
  set c₃ := if c₂.hashTable (hashfn (c₂.dev bh) (c₂.blk bh)) = some bh
    then c₂.setHash (hashfn (c₂.dev bh) (c₂.blk bh)) (c₂.next bh) else c₂ with hc₃
  have hs₃ : SameContents c c₃ := by
    rw [hc₃]; split_ifs
    · exact ⟨hs₂.heads, hs₂.nrBuffers, hs₂.request, hs₂.requestFn, hs₂.disk⟩
    · exact hs₂
  have hlinks : c₃.next = setAt c.next (c.prev bh) (c.next bh) ∧
      c₃.prev = setAt c.prev (c.next bh) (c.prev bh) ∧
      c₃.nextFree = c.nextFree ∧ c₃.prevFree = c.prevFree ∧ c₃.freeList = c.freeList ∧
      c₃.hashTable = (if c.hashTable (hashfn (c.dev bh) (c.blk bh)) = some bh
        then update c.hashTable (hashfn (c.dev bh) (c.blk bh)) (c.next bh)
        else c.hashTable) := by
    rw [hc₃, hs₂.dev, hs₂.blk]
    split_ifs <;> simp_all
  obtain ⟨h₁, h₂, h₃, h₄, h₅, h₆⟩ := hlinks
  set c₄ := c₃.setNextFree (c₃.prevFree bh) (c₃.nextFree bh) with hc₄
  set c₅ := c₄.setPrevFree (c₄.nextFree bh) (c₄.prevFree bh) with hc₅
  have hs₅ : SameContents c c₅ :=
    (hs₃.trans (sameLinks_setNextFree c₃ _ _).contents).trans
      (sameLinks_setPrevFree c₄ _ _).contents
  have hrun : removeFromQueues c bh =
      some (if c₅.freeList = bh then { c₅ with freeList := n } else c₅) := by
    unfold removeFromQueues
    dsimp only
    rw [← hc₁, ← hc₂, ← hc₃, hc₅, hc₄, h₃, h₄, hp, hn]
  have hf₅ : c₅.freeList = c.freeList := by simp [hc₅, hc₄, h₅]
  refine ⟨_, hrun, ?_, ?_⟩
  · split_ifs
    · exact ⟨hs₅.heads, hs₅.nrBuffers, hs₅.request, hs₅.requestFn, hs₅.disk⟩
    · exact hs₅
  · have hl : c₅.next = setAt c.next (c.prev bh) (c.next bh) ∧
        c₅.prev = setAt c.prev (c.next bh) (c.prev bh) ∧
        c₅.nextFree = setAt c.nextFree (c.prevFree bh) (c.nextFree bh) ∧
        c₅.prevFree = setAt c.prevFree (c.nextFree bh) (c.prevFree bh) ∧
        c₅.hashTable = (if c.hashTable (hashfn (c.dev bh) (c.blk bh)) = some bh
          then update c.hashTable (hashfn (c.dev bh) (c.blk bh)) (c.next bh)
          else c.hashTable) := by
      simp [hc₅, hc₄, h₁, h₂, h₃, h₄, h₆, hn₂]
    obtain ⟨l₁, l₂, l₃, l₄, l₅⟩ := hl
    rw [hf₅]
    by_cases hfl : c.freeList = bh
    · simp only [if_pos hfl]; exact ⟨l₁, l₂, l₃, l₄, l₅, trivial⟩
    · simp only [if_neg hfl]; exact ⟨l₁, l₂, l₃, l₄, l₅, hf₅⟩

/-- Removing a head leaves the queues with all the others. -/
theorem removeFromQueues_queued (h : Queued c fun _ => True) (hbh : bh < c.nrBuffers)
    (htwo : 2 ≤ c.nrBuffers) :
    ∃ c', removeFromQueues c bh = some c' ∧ SameContents c c' ∧ Queued c' (· ≠ bh) := by
  obtain ⟨l, hring, hl⟩ := h.ring
  have hmem : bh ∈ l := (hl bh).mpr ⟨trivial, hbh⟩
  obtain ⟨⟨p, -, hp⟩, n, -, hn⟩ := hring.neighbours hmem
  -- the pointers of the head lead to heads on its own hash chain
  have hnear : ∀ y, c.next bh = some y ∨ c.prev bh = some y →
      Hashed c (hashfn (c.dev bh) (c.blk bh)) y ∧ c.dev bh ≠ 0 := by
    intro y hy
    by_cases hd : c.dev bh = 0
    · have := h.unhashed bh trivial hbh hd; simp [this] at hy
    · obtain ⟨l, hc, hm⟩ := h.chains _ (hashfn_lt (c.dev bh) (c.blk bh))
      have hbl : bh ∈ l := (hm bh).mpr ⟨trivial, hbh, hd, rfl⟩
      exact ⟨((hm y).mp (hy.elim (hc.next_mem hbl) (hc.prev_mem hbl))).2, hd⟩
  have hself : c.next bh ≠ some bh := fun hb => by
    have hd := (hnear bh (.inl hb)).2
    obtain ⟨l, hc, hm⟩ := h.chains _ (hashfn_lt (c.dev bh) (c.blk bh))
    exact hc.next_ne_self ((hm bh).mpr ⟨trivial, hbh, hd, rfl⟩) hb
  obtain ⟨c', hrun, hsame, hnext, hprev, hnextF, hprevF, hhash, hfree⟩ :=
    removeFromQueues_eq hself hp hn
  refine ⟨c', hrun, hsame, ?_, ?_, ?_⟩
  · intro k hk
    obtain ⟨l, hc, hm⟩ := h.chains k hk
    rw [hnext, hprev, hhash]
    by_cases hbl : bh ∈ l
    · have hkb : hashfn (c.dev bh) (c.blk bh) = k := ((hm bh).mp hbl).2.2.2
      refine ⟨l.erase bh, ?_, fun i => ?_⟩
      · convert hc.erase hbl using 1
        rw [hkb]; split_ifs <;> simp
      · rw [hc.nodup.mem_erase_iff, hm]
        simp [Hashed, hsame.dev, hsame.blk, hsame.nrBuffers]
    · -- the neighbours of the head are on another chain
      have hfar : ∀ y ∈ l, ¬ (c.next bh = some y ∨ c.prev bh = some y) := fun y hy hb => by
        obtain ⟨hash, hd⟩ := hnear y hb
        have hk' : hashfn (c.dev bh) (c.blk bh) = k :=
          hash.2.2.symm.trans ((hm y).mp hy).2.2.2
        exact hbl ((hm bh).mpr ⟨trivial, hbh, hd, hk'⟩)
      refine ⟨l, ?_, fun i => ?_⟩
      · have hhd : (if c.hashTable (hashfn (c.dev bh) (c.blk bh)) = some bh
            then update c.hashTable (hashfn (c.dev bh) (c.blk bh)) (c.next bh)
            else c.hashTable) k = c.hashTable k := by
          split_ifs with hb
          · rw [update_apply, if_neg]
            rintro rfl
            exact hbl (List.mem_of_mem_head? (hc.head ▸ hb))
          · rfl
        rw [hhd]
        refine hc.congr (fun y hy => ?_) fun y hy => ?_
        · rw [setAt_apply, if_neg fun e => hfar y hy (.inr e)]
        · rw [setAt_apply, if_neg fun e => hfar y hy (.inl e)]
      · have : i ∈ l → i ≠ bh := fun hi e => hbl (e ▸ hi)
        have hm' := hm i
        simp only [Hashed, hsame.dev, hsame.blk, hsame.nrBuffers] at hm' ⊢
        tauto
  · have hne : l.erase bh ≠ [] := by
      obtain ⟨i, hi, hib⟩ : ∃ i < c.nrBuffers, i ≠ bh := by
        by_cases hb0 : bh = 0
        · exact ⟨1, by omega, by omega⟩
        · exact ⟨0, by omega, Ne.symm hb0⟩
      exact List.ne_nil_of_mem (hring.nodup.mem_erase_iff.mpr ⟨hib, (hl i).mpr ⟨trivial, hi⟩⟩)
    refine ⟨l.erase bh, ?_, fun i => ?_⟩
    · rw [hnextF, hprevF]
      refine hring.erase hmem hne ?_
      rw [hfree, hn]; split_ifs <;> rfl
    · rw [hring.nodup.mem_erase_iff, hl, hsame.nrBuffers]
      simp
  · intro i hib hi hd
    rw [hsame.nrBuffers] at hi
    rw [hsame.dev] at hd
    have hfar : ¬ (c.next bh = some i ∨ c.prev bh = some i) := fun hb => (hnear i hb).1.2.1 hd
    rw [hnext, hprev, setAt_apply, setAt_apply, if_neg fun e => hfar (.inr e),
      if_neg fun e => hfar (.inl e)]
    exact h.unhashed i trivial hi hd

/-! ## Insertion -/

theorem insertIntoQueues_eq (hne : bh ≠ c.freeList) :
    SameContents c (insertIntoQueues c bh) ∧
      (insertIntoQueues c bh).nextFree =
        setAt (update c.nextFree bh (some c.freeList)) (c.prevFree c.freeList) (some bh) ∧
      (insertIntoQueues c bh).prevFree =
        update (update c.prevFree bh (c.prevFree c.freeList)) c.freeList (some bh) ∧
      (insertIntoQueues c bh).freeList = c.freeList ∧
      if c.dev bh = 0 then (insertIntoQueues c bh).next = update c.next bh none ∧
        (insertIntoQueues c bh).prev = update c.prev bh none ∧
        (insertIntoQueues c bh).hashTable = c.hashTable
      else (insertIntoQueues c bh).next =
          update c.next bh (c.hashTable (hashfn (c.dev bh) (c.blk bh))) ∧
        (insertIntoQueues c bh).prev = setAt (update c.prev bh none)
          (c.hashTable (hashfn (c.dev bh) (c.blk bh))) (some bh) ∧
        (insertIntoQueues c bh).hashTable =
          update c.hashTable (hashfn (c.dev bh) (c.blk bh)) (some bh) := by
  set c₁ := c.setNextFree (some bh) (some c.freeList) with hc₁
  set c₂ := c₁.setPrevFree (some bh) (c₁.prevFree c₁.freeList) with hc₂
  set c₃ := c₂.setNextFree (c₂.prevFree c₂.freeList) (some bh) with hc₃
  set c₄ := c₃.setPrevFree (some c₃.freeList) (some bh) with hc₄
  set c₅ := c₄.setPrev (some bh) none with hc₅
  set c₆ := c₅.setNext (some bh) none with hc₆
  have hs₆ : SameContents c c₆ :=
    ((((((sameLinks_setNextFree c _ _).contents.trans (sameLinks_setPrevFree c₁ _ _).contents).trans
      (sameLinks_setNextFree c₂ _ _).contents).trans (sameLinks_setPrevFree c₃ _ _).contents).trans
      (sameLinks_setPrev c₄ _ _).contents).trans (sameLinks_setNext c₅ _ _).contents)
  have hpf : c₂.prevFree c₂.freeList = c.prevFree c.freeList := by
    simp [hc₂, hc₁, setAt_apply, hne]
  have hl : c₆.nextFree =
        setAt (update c.nextFree bh (some c.freeList)) (c.prevFree c.freeList) (some bh) ∧
      c₆.prevFree = update (update c.prevFree bh (c.prevFree c.freeList)) c.freeList (some bh) ∧
      c₆.freeList = c.freeList ∧ c₆.next = update c.next bh none ∧
      c₆.prev = update c.prev bh none ∧ c₆.hashTable = c.hashTable := by
    rw [hc₆, hc₅, hc₄, hc₃, hpf]
    simp [hc₂, hc₁, setAt]
  obtain ⟨h₁, h₂, h₃, h₄, h₅, h₆⟩ := hl
  have hrun : insertIntoQueues c bh = if c₆.dev bh = 0 then c₆ else
      let k := hashfn (c₆.dev bh) (c₆.blk bh)
      let c₇ := c₆.setNext (some bh) (c₆.hashTable k)
      let c₈ := c₇.setHash k (some bh)
      c₈.setPrev (c₈.next bh) (some bh) := rfl
  rw [hrun, hs₆.dev, hs₆.blk, h₆]
  by_cases hd : c.dev bh = 0
  · simp only [if_pos hd]
    exact ⟨hs₆, h₁, h₂, h₃, h₄, h₅, h₆⟩
  · simp only [if_neg hd]
    refine ⟨?_, ?_⟩
    · set k := hashfn (c.dev bh) (c.blk bh)
      set c₇ := c₆.setNext (some bh) (c.hashTable k)
      have hs₇ : SameContents c c₇ := hs₆.trans (sameLinks_setNext c₆ _ _).contents
      have hs₈ : SameContents c (c₇.setHash k (some bh)) :=
        ⟨hs₇.heads, hs₇.nrBuffers, hs₇.request, hs₇.requestFn, hs₇.disk⟩
      exact hs₈.trans (sameLinks_setPrev _ _ _).contents
    · simp [h₁, h₂, h₃, h₄, h₅, h₆, setAt]

/-- Inserting the missing head completes the queues. -/
theorem insertIntoQueues_queued (h : Queued c (· ≠ bh)) (hbh : bh < c.nrBuffers) :
    SameContents c (insertIntoQueues c bh) ∧
      Queued (insertIntoQueues c bh) fun _ => True := by
  obtain ⟨l, hring, hl⟩ := h.ring
  have hfree : c.freeList ∈ l := List.mem_of_mem_head? hring.head
  have hne : bh ≠ c.freeList := fun e => ((hl _).mp hfree).1 e.symm
  obtain ⟨hsame, hnextF, hprevF, hfl, hhash⟩ := insertIntoQueues_eq hne
  have hbl : bh ∉ l := fun hm => ((hl bh).mp hm).1 rfl
  refine ⟨hsame, fun k hk => ?_, ⟨l ++ [bh], ?_, fun i => ?_⟩, fun i _ hi hd => ?_⟩
  · obtain ⟨lk, hc, hm⟩ := h.chains k hk
    have hbk : bh ∉ lk := fun hb => ((hm bh).mp hb).1 rfl
    have hnb : ∀ y ∈ lk, y ≠ bh := fun y hy => ((hm y).mp hy).1
    by_cases hin : c.dev bh ≠ 0 ∧ hashfn (c.dev bh) (c.blk bh) = k
    · obtain ⟨hd, hkb⟩ := hin
      rw [if_neg hd] at hhash
      obtain ⟨hnext, hprev, htab⟩ := hhash
      refine ⟨bh :: lk, ?_, fun i => ?_⟩
      · rw [htab, hkb, update_self]
        refine hc.cons hbk ?_ ?_ (fun y hy => ?_) fun y hy => ?_
        · rw [hnext, hkb, update_self]
        · rw [hprev, hkb, setAt_apply, update_self, if_neg]
          exact fun e => hbk (List.mem_of_mem_head? (hc.head ▸ e))
        · rw [hnext, update_of_ne (hnb y hy)]
        · rw [hprev, hkb, setAt_apply, update_of_ne (hnb y hy)]
      · rw [List.mem_cons, hm]
        simp only [Hashed, hsame.dev, hsame.blk, hsame.nrBuffers, true_and]
        by_cases hib : i = bh
        · subst hib; simpa [hbh, hkb] using hd
        · simp [hib]
    · -- another chain, where no pointer changes
      refine ⟨lk, ?_, fun i => ?_⟩
      · split_ifs at hhash with hd
        · obtain ⟨hnext, hprev, htab⟩ := hhash
          rw [htab]
          exact hc.congr (fun y hy => by rw [hnext, update_of_ne (hnb y hy)])
            fun y hy => by rw [hprev, update_of_ne (hnb y hy)]
        · obtain ⟨hnext, hprev, htab⟩ := hhash
          have hkb : hashfn (c.dev bh) (c.blk bh) ≠ k := fun e => hin ⟨hd, e⟩
          rw [htab, update_of_ne (Ne.symm hkb)]
          refine hc.congr (fun y hy => by rw [hnext, update_of_ne (hnb y hy)]) fun y hy => ?_
          rw [hprev, setAt_apply, update_of_ne (hnb y hy), if_neg]
          intro e
          obtain ⟨lb, hcb, hmb⟩ := h.chains _ (hashfn_lt (c.dev bh) (c.blk bh))
          have hyb : y ∈ lb := List.mem_of_mem_head? (hcb.head ▸ e)
          exact hkb (((hmb y).mp hyb).2.2.2.symm.trans ((hm y).mp hy).2.2.2)
      · rw [hm]
        simp only [Hashed, hsame.dev, hsame.blk, hsame.nrBuffers, true_and]
        constructor
        · exact And.right
        · rintro ⟨hi, hd, hk'⟩
          refine ⟨?_, hi, hd, hk'⟩
          rintro rfl
          exact hin ⟨hd, hk'⟩
  · rw [hfl]
    refine hring.append hbl ?_ ?_ (fun y hy => ?_) fun y hy => ?_
    · rw [hnextF, setAt_apply]
      split_ifs with hp
      · obtain ⟨⟨y, hy, hpy⟩, -⟩ := hring.neighbours hfree
        rw [hpy] at hp
        exact absurd (Option.some.inj hp ▸ hy) hbl
      · simp
    · rw [hprevF, update_of_ne hne, update_self]
    · have hyb : y ≠ bh := fun e => hbl (e ▸ hy)
      rw [hnextF, setAt_apply, update_of_ne hyb]
    · rw [hprevF, update_apply]
      split_ifs with hy'
      · rfl
      · have hyb : y ≠ bh := fun e => hbl (e ▸ hy)
        rw [update_of_ne hyb]
  · rw [List.mem_append, List.mem_singleton, hl, hsame.nrBuffers]
    by_cases hib : i = bh
    · subst hib; simp [hbh]
    · simp [hib]
  · rw [hsame.nrBuffers] at hi
    rw [hsame.dev] at hd
    by_cases hib : i = bh
    · subst hib
      rw [if_pos hd] at hhash
      simp [hhash]
    · have hun := h.unhashed i hib hi hd
      split_ifs at hhash with hdb
      · simp [hhash, update_of_ne hib, hun]
      · obtain ⟨hnext, hprev, -⟩ := hhash
        rw [hnext, hprev, update_of_ne hib, setAt_apply, update_of_ne hib, if_neg]
        · exact hun
        · intro e
          obtain ⟨lb, hcb, hmb⟩ := h.chains _ (hashfn_lt (c.dev bh) (c.blk bh))
          have hyb : i ∈ lb := List.mem_of_mem_head? (hcb.head ▸ e)
          exact ((hmb i).mp hyb).2.2.1 hd

end Linux012.Buffer
