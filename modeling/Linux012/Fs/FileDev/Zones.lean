import Linux012.Fs.FileDev.Basic

/-! # The zones of a file

The zone numbers of an inode and of its indirect blocks form a tree of slots. In a
well-formed inode every zone has one slot, so a new zone, which has none, changes what
the file shows nowhere.
-/

namespace Linux012.FileDev

open Function Splice

variable {fs fs' fs'' : Fs} {inode inode' inode'' : Inode} {bad : ℕ → Bool} {create : Bool}
  {b k z : ℕ}

/-! ## Words -/

theorem toNat_ofNat_word {v : ℕ} (h : v < 65536) :
    (UInt8.ofNat v).toNat + 256 * (UInt8.ofNat (v / 256)).toNat = v := by
  simp only [UInt8.toNat_ofNat']
  omega

theorem word_setWord (d : Block) {v : ℕ} (h : v < 65536) : word (setWord d k v) k = v := by
  have h₀ : setWord d k v (2 * k) = UInt8.ofNat v := splice_add (i := 0) (by simp)
  have h₁ : setWord d k v (2 * k + 1) = UInt8.ofNat (v / 256) := splice_add (i := 1) (by simp)
  rw [word, h₀, h₁, toNat_ofNat_word h]

theorem word_setWord_of_ne (d : Block) {v i : ℕ} (h : i ≠ k) :
    word (setWord d k v) i = word d i := by
  have hout : ∀ p, p / 2 = i → setWord d k v p = d p := fun p hp => by
    rcases Nat.lt_or_gt_of_ne h with hlt | hlt
    · exact splice_of_lt (by omega)
    · exact splice_of_ge (by rw [List.length_cons, List.length_singleton]; omega)
  rw [word, word, hout _ (by omega), hout _ (by omega)]

theorem word_zero : word (fun _ => 0) k = 0 := rfl

/-! ## The zone bitmap -/

/-- Bit `j` of the buffer `i` of the bitmap is set. -/
def BitSet (fs : Fs) (i j : ℕ) : Prop := ∃ m, fs.sZmap i = some m ∧ m j = true

/-- The bit of zone `z` is set. -/
def Used (fs : Fs) (z : ℕ) : Prop :=
  BitSet fs ((z + 1 - fs.sFirstdatazone) / 8192) ((z + 1 - fs.sFirstdatazone) % 8192)

/-- The bitmap of a device that `mkfs` has made: its first bit stands for no zone. -/
structure Fs.Ok (fs : Fs) : Prop where
  first : 1 ≤ fs.sFirstdatazone
  nzones : fs.sNzones ≤ 65536
  reserved : ∀ m, fs.sZmap 0 = some m → m 0 = true

theorem findFirstZero_spec {m : ℕ → Bool} {fuel j : ℕ} (h : findFirstZero m fuel k = some j) :
    m j = false ∧ k ≤ j ∧ j < k + fuel := by
  induction fuel generalizing k with
  | zero => cases h
  | succ fuel ih =>
    rw [findFirstZero] at h
    split_ifs at h with hk
    · have := ih h
      exact ⟨this.1, by omega, by omega⟩
    · obtain rfl := Option.some.inj h
      exact ⟨by simpa using hk, le_rfl, by omega⟩

theorem scanZmap_spec {fuel i j : ℕ} (h : scanZmap fs fuel k = some (i, j)) :
    ∃ m, fs.sZmap i = some m ∧ m j = false ∧ j < 8192 := by
  induction fuel generalizing k with
  | zero => cases h
  | succ fuel ih =>
    rw [scanZmap] at h
    split at h
    · rename_i j' hj
      obtain ⟨rfl, rfl⟩ := Prod.mk.inj (Option.some.inj h)
      obtain ⟨m, hm, hj⟩ := Option.bind_eq_some_iff.mp hj
      obtain ⟨hf, -, hlt⟩ := findFirstZero_spec hj
      exact ⟨m, hm, hf, by omega⟩
    · exact ih h

theorem setBit_mono {i j i' j' : ℕ} (h : BitSet fs i' j') : BitSet (setBit fs i j) i' j' := by
  obtain ⟨m, hm, ht⟩ := h
  by_cases hi : i' = i
  · subst hi
    refine ⟨update m j true, by simp [setBit, hm], ?_⟩
    rw [update_apply, ht, ite_self]
  · exact ⟨m, (update_of_ne hi ..).trans hm, ht⟩

/-- What `new_block` does: nothing but a bit, or it hands out a cleared zone that was not used. -/
structure NewBlock (fs fs' : Fs) (z : ℕ) : Prop where
  first : fs'.sFirstdatazone = fs.sFirstdatazone
  nzones : fs'.sNzones = fs.sNzones
  reserved : (∀ m, fs.sZmap 0 = some m → m 0 = true) → ∀ m, fs'.sZmap 0 = some m → m 0 = true
  mono : ∀ w, Used fs w → Used fs' w
  zone : (z = 0 ∧ fs'.blocks = fs.blocks) ∨
    (fs.sFirstdatazone ≤ z ∧ z < fs.sNzones ∧ ¬ Used fs z ∧ Used fs' z ∧
      fs'.blocks = update fs.blocks z fun _ => 0)

theorem newBlock_spec (h : fs.Ok) : NewBlock fs (newBlock fs).1 (newBlock fs).2 := by
  unfold newBlock
  split
  · exact ⟨rfl, rfl, id, fun _ => id, .inl ⟨rfl, rfl⟩⟩
  · rename_i i j hs
    obtain ⟨m, hm, hj, hlt⟩ := scanZmap_spec hs
    have hres : (∀ m, fs.sZmap 0 = some m → m 0 = true) →
        ∀ m, (setBit fs i j).sZmap 0 = some m → m 0 = true := by
      intro h₀ m' hm'
      simp only [setBit, update_apply] at hm'
      split_ifs at hm' with hi
      · subst hi
        rw [hm, Option.map_some] at hm'
        obtain rfl := Option.some.inj hm'
        rw [update_apply, h₀ m hm, ite_self]
      · exact h₀ m' hm'
    dsimp only
    split_ifs with hz
    · exact ⟨rfl, rfl, hres, fun w => setBit_mono, .inl ⟨rfl, rfl⟩⟩
    · have hfirst := h.first
      have hpos : 1 ≤ j + i * 8192 := by
        by_contra hc
        obtain ⟨rfl, rfl⟩ : j = 0 ∧ i = 0 := by omega
        rw [h.reserved m hm] at hj
        cases hj
      have hbit : j + i * 8192 + fs.sFirstdatazone - 1 + 1 - fs.sFirstdatazone = j + i * 8192 := by
        omega
      have hdiv : (j + i * 8192) / 8192 = i := by omega
      have hmod : (j + i * 8192) % 8192 = j := by omega
      have hused : ∀ fs' : Fs, fs'.sFirstdatazone = fs.sFirstdatazone →
          (Used fs' (j + i * 8192 + fs.sFirstdatazone - 1) ↔ BitSet fs' i j) := fun fs' hf => by
        rw [Used, hf, hbit, hdiv, hmod]
      have hset : BitSet (setBit fs i j) i j := ⟨update m j true, by simp [setBit, hm], update_self ..⟩
      refine ⟨rfl, rfl, hres, fun w hw => setBit_mono hw, .inr
        ⟨?_, Nat.lt_of_not_le hz, fun hu => ?_, (hused (setBit fs i j) rfl).mpr hset, rfl⟩⟩
      · change fs.sFirstdatazone ≤ j + i * 8192 + fs.sFirstdatazone - 1
        omega
      · obtain ⟨m', hm', ht⟩ := (hused fs rfl).mp hu
        obtain rfl := Option.some.inj (hm.symm.trans hm')
        rw [hj] at ht
        cases ht

theorem NewBlock.ok (h : NewBlock fs fs' z) (hok : fs.Ok) : fs'.Ok :=
  ⟨h.first ▸ hok.first, h.nzones ▸ hok.nzones, h.reserved hok.reserved⟩

/-! ## Slots -/

/-- A place for a zone number: in the inode, or in the block of another slot. -/
inductive Slot
  | root (k : ℕ)
  | entry (p : Slot) (k : ℕ)
  deriving DecidableEq

def zoneAt (fs : Fs) (inode : Inode) : Slot → ℕ
  | .root k => inode.iZone k
  | .entry p k => if zoneAt fs inode p = 0 then 0 else word (fs.blocks (zoneAt fs inode p)) k

/-- The slots of indirect blocks. -/
inductive Table : Slot → Prop
  | single : Table (.root 7)
  | double : Table (.root 8)
  | second {k : ℕ} : k < 512 → Table (.entry (.root 8) k)

inductive Valid : Slot → Prop
  | root {k : ℕ} : k < 9 → Valid (.root k)
  | entry {p : Slot} {k : ℕ} : Table p → k < 512 → Valid (.entry p k)

theorem Table.valid {p : Slot} (h : Table p) : Valid p := by
  cases h with
  | single => exact .root (by omega)
  | double => exact .root (by omega)
  | second hk => exact .entry .double hk

/-- The slot of a block of the file. -/
def slotOf (b : ℕ) : Slot :=
  if b < 7 then .root b
  else if b - 7 < 512 then .entry (.root 7) (b - 7)
  else .entry (.entry (.root 8) ((b - 7 - 512) / 512)) ((b - 7 - 512) % 512)

theorem slotOf_valid (hb : b < MAX_BLOCKS) : Valid (slotOf b) := by
  unfold slotOf
  simp only [MAX_BLOCKS] at hb
  split_ifs with h₁ h₂
  · exact .root (by omega)
  · exact .entry .single h₂
  · exact .entry (.second (by omega)) (by omega)

theorem slotOf_not_table : ¬ Table (slotOf b) := by
  unfold slotOf
  split_ifs with h₁ h₂ <;> intro h <;> cases h <;> omega

theorem slotOf_inj {b b' : ℕ} (h : slotOf b = slotOf b') : b = b' := by
  unfold slotOf at h
  split_ifs at h <;> simp only [Slot.root.injEq, Slot.entry.injEq, reduceCtorEq, false_and,
    true_and] at h <;> omega

/-- The slot of a valid slot's block, seen from below. -/
theorem Valid.parent {p : Slot} (h : Valid (.entry p k)) : Table p ∧ k < 512 := by
  cases h with
  | entry hp hk => exact ⟨hp, hk⟩

/-- Every zone of the file is a used data zone and has one slot. -/
structure Wf (fs : Fs) (inode : Inode) : Prop where
  ok : fs.Ok
  used : ∀ s, Valid s → zoneAt fs inode s ≠ 0 → fs.sFirstdatazone ≤ zoneAt fs inode s ∧
    zoneAt fs inode s < fs.sNzones ∧ Used fs (zoneAt fs inode s)
  inj : ∀ s s', Valid s → Valid s' → zoneAt fs inode s ≠ 0 →
    zoneAt fs inode s = zoneAt fs inode s' → s = s'

/-- The bytes that a block of the file shows; a hole shows zeros. -/
def view (fs : Fs) (inode : Inode) (b : ℕ) : Block :=
  if b < MAX_BLOCKS ∧ zoneAt fs inode (slotOf b) ≠ 0 then fs.blocks (zoneAt fs inode (slotOf b))
  else fun _ => 0

/-- The file has grown by zones only. -/
structure Ext (fs : Fs) (inode : Inode) (fs' : Fs) (inode' : Inode) : Prop where
  wf : Wf fs' inode'
  size : inode'.iSize = inode.iSize
  view : ∀ b, view fs' inode' b = view fs inode b
  zone : ∀ s, Valid s → zoneAt fs inode s ≠ 0 → zoneAt fs' inode' s = zoneAt fs inode s

theorem Ext.refl (h : Wf fs inode) : Ext fs inode fs inode :=
  ⟨h, rfl, fun _ => rfl, fun _ _ _ => rfl⟩

theorem Ext.trans (h : Ext fs inode fs' inode') (h' : Ext fs' inode' fs'' inode'') :
    Ext fs inode fs'' inode'' where
  wf := h'.wf
  size := h'.size.trans h.size
  view b := (h'.view b).trans (h.view b)
  zone s hs hz := (h'.zone s hs (by rwa [h.zone s hs hz])).trans (h.zone s hs hz)

/-! ## A new zone in an empty slot -/

/-- The zone `z`, which has no slot yet, is put into the empty slot `s`. -/
structure Put (fs : Fs) (inode : Inode) (s : Slot) (z : ℕ) (fs' : Fs) (inode' : Inode) :
    Prop where
  wf : Wf fs inode
  valid : Valid s
  free : zoneAt fs inode s = 0
  above : ∀ q k, s = .entry q k → zoneAt fs inode q ≠ 0
  ne : z ≠ 0
  range : fs.sFirstdatazone ≤ z ∧ z < fs.sNzones
  unplaced : ∀ s', Valid s' → zoneAt fs inode s' ≠ z
  ok : fs'.Ok
  first : fs'.sFirstdatazone = fs.sFirstdatazone
  nzones : fs'.sNzones = fs.sNzones
  mono : ∀ w, Used fs w → Used fs' w
  used : Used fs' z
  size : inode'.iSize = inode.iSize
  cleared : fs'.blocks z = fun _ => 0
  root : ∀ k, inode'.iZone k = if .root k = s then z else inode.iZone k
  word : ∀ p k, Table p → k < 512 → zoneAt fs inode p ≠ 0 →
    word (fs'.blocks (zoneAt fs inode p)) k =
      if .entry p k = s then z else word (fs.blocks (zoneAt fs inode p)) k
  data : ∀ s', Valid s' → ¬ Table s' → zoneAt fs inode s' ≠ 0 →
    fs'.blocks (zoneAt fs inode s') = fs.blocks (zoneAt fs inode s')

namespace Put

variable {s s' : Slot}

theorem zoneAt (h : Put fs inode s z fs' inode') (hs' : Valid s') :
    zoneAt fs' inode' s' = if s' = s then z else FileDev.zoneAt fs inode s' := by
  induction s' with
  | root k => exact h.root k
  | entry p k ih =>
    obtain ⟨hp, hk⟩ := hs'.parent
    have ih := ih hp.valid
    rw [FileDev.zoneAt, ih]
    by_cases hps : p = s
    · subst hps
      have hne : Slot.entry p k ≠ p := fun he => by
        have := congrArg sizeOf he
        simp only [Slot.entry.sizeOf_spec] at this
        omega
      rw [if_pos rfl, if_neg h.ne, h.cleared, word_zero, if_neg hne, FileDev.zoneAt,
        if_pos h.free]
    · rw [if_neg hps]
      by_cases hz : FileDev.zoneAt fs inode p = 0
      · have hne : Slot.entry p k ≠ s := fun he => h.above p k he.symm hz
        rw [if_pos hz, if_neg hne, FileDev.zoneAt, if_pos hz]
      · rw [if_neg hz, h.word p k hp hk hz, FileDev.zoneAt, if_neg hz]

theorem zoneAt_self (h : Put fs inode s z fs' inode') : FileDev.zoneAt fs' inode' s = z := by
  rw [h.zoneAt h.valid, if_pos rfl]

theorem zoneAt_of_ne (h : Put fs inode s z fs' inode') (hs' : Valid s') (hne : s' ≠ s) :
    FileDev.zoneAt fs' inode' s' = FileDev.zoneAt fs inode s' := by
  rw [h.zoneAt hs', if_neg hne]

theorem ext (h : Put fs inode s z fs' inode') : Ext fs inode fs' inode' where
  wf :=
    { ok := h.ok
      used := fun s' hs' hz => by
        rw [h.first, h.nzones]
        by_cases hne : s' = s
        · subst hne
          rw [h.zoneAt_self]
          exact ⟨h.range.1, h.range.2, h.used⟩
        · rw [h.zoneAt_of_ne hs' hne] at hz ⊢
          obtain ⟨h₁, h₂, h₃⟩ := h.wf.used s' hs' hz
          exact ⟨h₁, h₂, h.mono _ h₃⟩
      inj := fun s₁ s₂ h₁ h₂ hz he => by
        have hfresh : ∀ s', Valid s' → s' ≠ s → FileDev.zoneAt fs' inode' s' ≠ z := by
          intro s' hs' hne hz'
          rw [h.zoneAt_of_ne hs' hne] at hz'
          exact h.unplaced s' hs' hz'
        by_cases h₁s : s₁ = s
        · subst h₁s
          by_contra hne
          exact hfresh s₂ h₂ (Ne.symm hne) (he ▸ h.zoneAt_self)
        · by_cases h₂s : s₂ = s
          · subst h₂s
            exact absurd (he ▸ h.zoneAt_self) (hfresh s₁ h₁ h₁s)
          · rw [h.zoneAt_of_ne h₁ h₁s] at hz he
            rw [h.zoneAt_of_ne h₂ h₂s] at he
            exact h.wf.inj s₁ s₂ h₁ h₂ hz he }
  size := h.size
  view b := by
    unfold view
    by_cases hb : b < MAX_BLOCKS
    · by_cases hs : slotOf b = s
      · rw [hs, h.zoneAt_self, h.free, if_pos ⟨hb, h.ne⟩, h.cleared, if_neg (by simp)]
      · rw [h.zoneAt_of_ne (slotOf_valid hb) hs]
        split_ifs with hz
        · exact h.data _ (slotOf_valid hb) slotOf_not_table hz.2
        · rfl
    · rw [if_neg (by tauto), if_neg (by tauto)]
  zone s' hs' hz := h.zoneAt_of_ne hs' fun he => hz (he ▸ h.free)

end Put

/-- The zone was not even used. -/
structure Place (fs : Fs) (inode : Inode) (s : Slot) (z : ℕ) (fs' : Fs) (inode' : Inode) :
    Prop where
  wf : Wf fs inode
  valid : Valid s
  free : zoneAt fs inode s = 0
  above : ∀ q k, s = .entry q k → zoneAt fs inode q ≠ 0
  ne : z ≠ 0
  range : fs.sFirstdatazone ≤ z ∧ z < fs.sNzones
  fresh : ¬ Used fs z
  ok : fs'.Ok
  first : fs'.sFirstdatazone = fs.sFirstdatazone
  nzones : fs'.sNzones = fs.sNzones
  mono : ∀ w, Used fs w → Used fs' w
  used : Used fs' z
  size : inode'.iSize = inode.iSize
  cleared : fs'.blocks z = fun _ => 0
  root : ∀ k, inode'.iZone k = if .root k = s then z else inode.iZone k
  word : ∀ p k, Table p → k < 512 → zoneAt fs inode p ≠ 0 →
    word (fs'.blocks (zoneAt fs inode p)) k =
      if .entry p k = s then z else word (fs.blocks (zoneAt fs inode p)) k
  data : ∀ s', Valid s' → ¬ Table s' → zoneAt fs inode s' ≠ 0 →
    fs'.blocks (zoneAt fs inode s') = fs.blocks (zoneAt fs inode s')

namespace Place

variable {s s' : Slot}

theorem put (h : Place fs inode s z fs' inode') : Put fs inode s z fs' inode' where
  wf := h.wf
  valid := h.valid
  free := h.free
  above := h.above
  ne := h.ne
  range := h.range
  unplaced s' hs' he := h.fresh (he ▸ (h.wf.used s' hs' (he ▸ h.ne)).2.2)
  ok := h.ok
  first := h.first
  nzones := h.nzones
  mono := h.mono
  used := h.used
  size := h.size
  cleared := h.cleared
  root := h.root
  word := h.word
  data := h.data

theorem zoneAt_self (h : Place fs inode s z fs' inode') : FileDev.zoneAt fs' inode' s = z := h.put.zoneAt_self

theorem zoneAt_of_ne (h : Place fs inode s z fs' inode') (hs' : Valid s') (hne : s' ≠ s) :
    FileDev.zoneAt fs' inode' s' = FileDev.zoneAt fs inode s' := h.put.zoneAt_of_ne hs' hne

theorem ext (h : Place fs inode s z fs' inode') : Ext fs inode fs' inode' := h.put.ext

end Place

theorem zoneAt_congr (hb : fs'.blocks = fs.blocks) (s : Slot) :
    zoneAt fs' inode s = zoneAt fs inode s := by
  induction s with
  | root k => rfl
  | entry p k ih => rw [zoneAt, zoneAt, ih, hb]

/-- When `new_block` finds no block, at most a bit of the bitmap is set. -/
theorem NewBlock.ext (h : NewBlock fs fs' z) (hw : Wf fs inode) (hb : fs'.blocks = fs.blocks) :
    Ext fs inode fs' inode where
  wf :=
    { ok := h.ok hw.ok
      used := fun s hs hz => by
        rw [zoneAt_congr hb] at hz ⊢
        obtain ⟨h₁, h₂, h₃⟩ := hw.used s hs hz
        exact ⟨h.first ▸ h₁, h.nzones ▸ h₂, h.mono _ h₃⟩
      inj := fun s s' hs hs' hz he => by
        rw [zoneAt_congr hb] at hz he
        rw [zoneAt_congr hb] at he
        exact hw.inj s s' hs hs' hz he }
  size := rfl
  view b := by simp only [view, zoneAt_congr hb, hb]
  zone s _ _ := zoneAt_congr hb s

namespace NewBlock

theorem found (h : NewBlock fs fs' z) (hz : z ≠ 0) : fs.sFirstdatazone ≤ z ∧ z < fs.sNzones ∧
    ¬ Used fs z ∧ Used fs' z ∧ fs'.blocks = update fs.blocks z fun _ => 0 :=
  h.zone.resolve_left fun h₀ => hz h₀.1

/-- A new zone is no zone of the file. -/
theorem zoneAt_ne (h : NewBlock fs fs' z) (hz : z ≠ 0) (hw : Wf fs inode) {s : Slot}
    (hs : Valid s) (hs0 : zoneAt fs inode s ≠ 0) : zoneAt fs inode s ≠ z := by
  rintro rfl
  exact (h.found hz).2.2.1 (hw.used s hs hs0).2.2

/-- The new zone goes into the slot `s` of the inode or of the block `d`, which gets a word. -/
theorem place (fs'' : Fs) (inode' : Inode) (h : NewBlock fs fs' z) (hz : z ≠ 0) (hw : Wf fs inode) {s : Slot}
    (hs : Valid s) (free : zoneAt fs inode s = 0)
    (above : ∀ q k, s = .entry q k → zoneAt fs inode q ≠ 0)
    (hsb : fs''.sFirstdatazone = fs'.sFirstdatazone ∧ fs''.sNzones = fs'.sNzones ∧
      fs''.sZmap = fs'.sZmap) (size : inode'.iSize = inode.iSize)
    (cleared : fs''.blocks z = fun _ => 0)
    (root : ∀ k, inode'.iZone k = if .root k = s then z else inode.iZone k)
    (hword : ∀ p k, Table p → k < 512 → zoneAt fs inode p ≠ 0 →
      word (fs''.blocks (zoneAt fs inode p)) k =
        if .entry p k = s then z else word (fs.blocks (zoneAt fs inode p)) k)
    (data : ∀ s', Valid s' → ¬ Table s' → zoneAt fs inode s' ≠ 0 →
      fs''.blocks (zoneAt fs inode s') = fs.blocks (zoneAt fs inode s')) :
    Place fs inode s z fs'' inode' := by
  obtain ⟨hfirst, hnz, hmap⟩ := hsb
  obtain ⟨h₁, h₂, h₃, h₄, hb⟩ := h.found hz
  have hused : ∀ w, Used fs' w → Used fs'' w := fun w hu => by
    rwa [Used, hfirst, BitSet, hmap]
  have hok := h.ok hw.ok
  refine ⟨hw, hs, free, above, hz, ⟨h₁, h₂⟩, h₃, ⟨?_, ?_, ?_⟩, hfirst.trans h.first,
    hnz.trans h.nzones, fun w hu => hused w (h.mono w hu), hused z h₄, size, cleared, root, hword,
    data⟩
  · rw [hfirst]; exact hok.first
  · rw [hnz]; exact hok.nzones
  · rw [hmap]; exact hok.reserved

end NewBlock

theorem NewBlock.blocks_eq (h : NewBlock fs fs' z) (hok : fs.Ok) (hz : z = 0) : fs'.blocks = fs.blocks := by
  rcases h.zone with ⟨-, hb⟩ | ⟨hle, -⟩
  · exact hb
  · have := hok.first
    omega

/-- A new zone in the inode. -/
theorem zone_place (h : Wf fs inode) (hk : k < 9) (h0 : inode.iZone k = 0) (hz : (newBlock fs).2 ≠ 0) :
    Place fs inode (.root k) (newBlock fs).2 (newBlock fs).1
      { inode with iZone := update inode.iZone k (newBlock fs).2 } := by
  have hn := newBlock_spec h.ok
  have hb := (hn.found hz).2.2.2.2
  refine hn.place _ { inode with iZone := update inode.iZone k (newBlock fs).2 } hz h (.root hk)
    h0 (fun _ _ he => by cases he) ⟨rfl, rfl, rfl⟩ rfl ?_ ?_ ?_ ?_
  · rw [hb, update_self]
  · intro i
    simp only [update_apply, Slot.root.injEq]
  · intro p i hp _ hp0
    rw [hb, update_of_ne (hn.zoneAt_ne hz h hp.valid hp0), if_neg (by simp)]
  · intro s' hs' _ hs0
    rw [hb, update_of_ne (hn.zoneAt_ne hz h hs' hs0)]

/-- `i_zone[k]` after `_bmap` has looked at it. -/
theorem zone_spec (create : Bool) (h : Wf fs inode) (hk : k < 9) :
    Ext fs inode (zone fs inode create k).1 (zone fs inode create k).2.1 ∧
      (zone fs inode create k).2.1.iZone k = (zone fs inode create k).2.2 := by
  unfold zone
  split_ifs with hc
  · refine ⟨?_, update_self ..⟩
    by_cases hz : (newBlock fs).2 = 0
    · have hi : update inode.iZone k (newBlock fs).2 = inode.iZone := by
        rw [hz, ← hc.2, update_eq_self]
      have hn := newBlock_spec h.ok
      simpa only [hi] using hn.ext h (hn.blocks_eq h.ok hz)
    · exact (zone_place h hk hc.2 hz).ext
  · exact ⟨.refl h, rfl⟩

theorem zone_false : zone fs inode false k = (fs, inode, inode.iZone k) := by
  rw [zone, if_neg (by simp)]

/-- What `_bmap` stores into an indirect block. -/
def link (fs : Fs) (z k : ℕ) : Fs :=
  { (newBlock fs).1 with
    blocks := update (newBlock fs).1.blocks z (setWord ((newBlock fs).1.blocks z) k (newBlock fs).2) }

/-- A new zone in an indirect block. -/
theorem entry_place {p : Slot} (h : Wf fs inode) (hp : Table p) (hk : k < 512) (hp0 : zoneAt fs inode p ≠ 0)
    (h0 : zoneAt fs inode (.entry p k) = 0) (hz : (newBlock fs).2 ≠ 0) :
    Place fs inode (.entry p k) (newBlock fs).2 (link fs (zoneAt fs inode p) k) inode := by
  have hn := newBlock_spec h.ok
  have hb := (hn.found hz).2.2.2.2
  have hpz := hn.zoneAt_ne hz h hp.valid hp0
  have hlt : (newBlock fs).2 < 65536 := (hn.found hz).2.1.trans_le h.ok.nzones
  unfold link
  refine hn.place _ inode hz h (.entry hp hk) h0 (fun q i he => by cases he; exact hp0) ⟨rfl, rfl, rfl⟩ rfl
    (by simp [update_of_ne hpz.symm, hb]) (fun i => by simp) (fun q i hq _ hq0 => ?_) (fun s' hs' ht hs0 => ?_)
  · have hqz := hn.zoneAt_ne hz h hq.valid hq0
    by_cases hqp : q = p
    · subst hqp
      dsimp only
      rw [update_self, hb, update_of_ne hqz]
      by_cases hik : i = k
      · rw [hik, word_setWord _ hlt, if_pos rfl]
      · rw [word_setWord_of_ne _ hik, if_neg (by simpa using hik)]
    · have hne : zoneAt fs inode q ≠ zoneAt fs inode p := fun he =>
        hqp (h.inj q p hq.valid hp.valid hq0 he)
      dsimp only
      rw [update_of_ne hne, hb, update_of_ne hqz, if_neg (by simp [hqp])]
  · have hne : zoneAt fs inode s' ≠ zoneAt fs inode p := fun he =>
      ht (h.inj s' p hs' hp.valid hs0 he ▸ hp)
    dsimp only
    rw [update_of_ne hne, hb, update_of_ne (hn.zoneAt_ne hz h hs' hs0)]

/-- The entry `k` of the indirect block of the slot `p` after `_bmap` has looked at it. -/
theorem entry_spec {p : Slot} (bad : ℕ → Bool) (create : Bool) (h : Wf fs inode) (hp : Table p)
    (hk : k < 512) (hz : zoneAt fs inode p = z) (hz0 : z ≠ 0) :
    Ext fs inode (entry fs bad create z k).1 inode ∧
      ((entry fs bad create z k).2 ≠ 0 →
        zoneAt (entry fs bad create z k).1 inode (.entry p k) = (entry fs bad create z k).2) := by
  subst hz
  have hp0 := hz0
  unfold entry bread
  cases hbad : bad (zoneAt fs inode p)
  · have hword : zoneAt fs inode (.entry p k) = word (fs.blocks (zoneAt fs inode p)) k := by
      rw [zoneAt, if_neg hp0]
    simp only [Bool.false_eq_true, if_false]
    by_cases hc : create = true ∧ word (fs.blocks (zoneAt fs inode p)) k = 0
    · rw [if_pos hc]
      by_cases hz : (newBlock fs).2 = 0
      · have hn := newBlock_spec h.ok
        rw [if_neg (not_not.mpr hz)]
        exact ⟨hn.ext h (hn.blocks_eq h.ok hz), fun h₀ => absurd rfl h₀⟩
      · have hplace := entry_place h hp hk hp0 (hword.trans hc.2) hz
        rw [if_pos hz]
        exact ⟨hplace.ext, fun _ => hplace.zoneAt_self⟩
    · rw [if_neg hc]
      exact ⟨.refl h, fun _ => hword⟩
  · exact ⟨.refl h, fun h₀ => absurd rfl h₀⟩

theorem entry_false :
    entry fs bad false z k = (fs, if bad z then 0 else word (fs.blocks z) k) := by
  unfold entry bread
  cases bad z <;> simp

/-! ## The block map -/

theorem _bmap_isSome (hb : b < MAX_BLOCKS) : (_bmap fs inode bad b create).isSome := by
  unfold _bmap
  rw [if_neg (by omega)]
  dsimp only
  split_ifs <;> rfl

theorem _bmap_direct (hb : b < 7) :
    _bmap fs inode bad b create = some (zone fs inode create b) := by
  rw [_bmap, if_neg (by simp only [MAX_BLOCKS]; omega), if_pos hb]

theorem _bmap_single (h₇ : 7 ≤ b) (hb : b - 7 < 512) :
    _bmap fs inode bad b create =
      let r := zone fs inode create 7
      let e := entry r.1 bad create r.2.2 (b - 7)
      some (if r.2.2 = 0 then (r.1, r.2.1, 0) else (e.1, r.2.1, e.2)) := by
  rw [_bmap, if_neg (by simp only [MAX_BLOCKS]; omega), if_neg (by omega)]
  simp only [if_pos hb, apply_ite some]

theorem _bmap_double (h₇ : 519 ≤ b) (hb : b < MAX_BLOCKS) :
    _bmap fs inode bad b create =
      let r := zone fs inode create 8
      let e := entry r.1 bad create r.2.2 ((b - 7 - 512) / 512)
      let d := entry e.1 bad create e.2 ((b - 7 - 512) % 512)
      some (if r.2.2 = 0 then (r.1, r.2.1, 0) else if e.2 = 0 then (e.1, r.2.1, 0)
        else (d.1, r.2.1, d.2)) := by
  rw [_bmap, if_neg (by omega), if_neg (by omega)]
  simp only [if_neg (show ¬ b - 7 < 512 by omega), apply_ite some]

/-- What `_bmap` does: it adds zones only, and returns the zone of the block if any. -/
theorem _bmap_spec (h : Wf fs inode)
    (hr : _bmap fs inode bad b create = some (fs', inode', z)) :
    b < MAX_BLOCKS ∧ Ext fs inode fs' inode' ∧
      (z ≠ 0 → zoneAt fs' inode' (slotOf b) = z) := by
  have hb : b < MAX_BLOCKS := by
    by_contra hb
    rw [_bmap, if_pos (by omega)] at hr
    cases hr
  refine ⟨hb, ?_⟩
  simp only [MAX_BLOCKS] at hb
  by_cases h₇ : b < 7
  · rw [_bmap_direct h₇] at hr
    obtain ⟨he, hk⟩ := zone_spec create h (show b < 9 by omega)
    rw [Option.some.inj hr] at he hk
    rw [slotOf, if_pos h₇]
    exact ⟨he, fun _ => hk⟩
  · by_cases h₅ : b - 7 < 512
    · rw [_bmap_single (by omega) h₅] at hr
      obtain ⟨he, hk⟩ := zone_spec create h (show 7 < 9 by omega)
      generalize zone fs inode create 7 = r at hr he hk
      obtain ⟨fs₁, inode₁, z₁⟩ := r
      dsimp only at hr he hk
      rw [slotOf, if_neg h₇, if_pos h₅]
      split_ifs at hr with hz
      · obtain ⟨rfl, rfl, rfl⟩ := by simpa using hr
        exact ⟨he, fun h₀ => absurd rfl h₀⟩
      · obtain ⟨rfl, rfl, rfl⟩ := by simpa using hr
        obtain ⟨hx, hv⟩ := entry_spec bad create he.wf .single h₅ hk hz
        exact ⟨he.trans hx, hv⟩
    · rw [_bmap_double (by omega) (by simpa only [MAX_BLOCKS] using hb)] at hr
      obtain ⟨he, hk⟩ := zone_spec create h (show 8 < 9 by omega)
      generalize zone fs inode create 8 = r at hr he hk
      obtain ⟨fs₁, inode₁, z₁⟩ := r
      dsimp only at hr he hk
      rw [slotOf, if_neg h₇, if_neg h₅]
      by_cases hz : z₁ = 0
      · rw [if_pos hz] at hr
        obtain ⟨rfl, rfl, rfl⟩ := by simpa using hr
        exact ⟨he, fun h₀ => absurd rfl h₀⟩
      · rw [if_neg hz] at hr
        have hlt : (b - 7 - 512) / 512 < 512 := by omega
        obtain ⟨hx, hv⟩ := entry_spec bad create he.wf .double hlt hk hz
        generalize entry fs₁ bad create z₁ ((b - 7 - 512) / 512) = e at hr hx hv
        obtain ⟨fs₂, z₂⟩ := e
        dsimp only at hr hx hv
        split_ifs at hr with hz₂
        · obtain ⟨rfl, rfl, rfl⟩ := by simpa using hr
          exact ⟨he.trans hx, fun h₀ => absurd rfl h₀⟩
        · obtain ⟨rfl, rfl, rfl⟩ := by simpa using hr
          obtain ⟨hd, hw⟩ := entry_spec bad create hx.wf (.second hlt)
            (Nat.mod_lt _ (by omega)) (hv hz₂) hz₂
          exact ⟨(he.trans hx).trans hd, hw⟩

/-- No read of an indirect block on the way to the slot fails. -/
def Slot.Reads (fs : Fs) (inode : Inode) (bad : ℕ → Bool) : Slot → Prop
  | .root _ => True
  | .entry p _ => p.Reads fs inode bad ∧
      (zoneAt fs inode p ≠ 0 → bad (zoneAt fs inode p) = false)

theorem entry_read {p : Slot} (hr : (Slot.entry p k).Reads fs inode bad)
    (hz : zoneAt fs inode p ≠ 0) :
    entry fs bad false (zoneAt fs inode p) k = (fs, zoneAt fs inode (.entry p k)) := by
  rw [entry_false, hr.2 hz, if_neg (by simp), zoneAt, if_neg hz]

theorem zoneAt_entry_of_zero {p : Slot} (hz : zoneAt fs inode p = 0) :
    zoneAt fs inode (.entry p k) = 0 := if_pos hz

/-- `bmap` changes nothing, and finds the zone of the block when it can read the way to it. -/
theorem bmap_spec (hb : b < MAX_BLOCKS) (hr : (slotOf b).Reads fs inode bad) :
    bmap fs inode bad b = some (zoneAt fs inode (slotOf b)) := by
  unfold bmap
  by_cases h₇ : b < 7
  · rw [_bmap_direct h₇, zone_false, slotOf, if_pos h₇]
    rfl
  by_cases h₅ : b - 7 < 512
  · rw [slotOf, if_neg h₇, if_pos h₅] at hr ⊢
    rw [_bmap_single (by omega) h₅]
    simp only [zone_false, Option.map_some]
    by_cases hz : inode.iZone 7 = 0
    · rw [if_pos hz, zoneAt_entry_of_zero (p := .root 7) hz]
    · rw [if_neg hz]
      exact congrArg some (congrArg Prod.snd (entry_read (p := .root 7) hr hz))
  · rw [slotOf, if_neg h₇, if_neg h₅] at hr ⊢
    rw [_bmap_double (by omega) hb]
    simp only [zone_false, Option.map_some]
    by_cases hz : inode.iZone 8 = 0
    · rw [if_pos hz, zoneAt_entry_of_zero (zoneAt_entry_of_zero (p := .root 8) hz)]
    · have he := entry_read (p := .root 8) hr.1 hz
      change entry fs bad false (inode.iZone 8) _ = _ at he
      rw [if_neg hz, he]
      by_cases hz₂ : zoneAt fs inode (.entry (.root 8) ((b - 7 - 512) / 512)) = 0
      · rw [if_pos hz₂, zoneAt_entry_of_zero hz₂]
      · rw [if_neg hz₂]
        exact congrArg some (congrArg Prod.snd (entry_read hr hz₂))

/-- The zone of a block of the file is no indirect block. -/
theorem zoneAt_store (h : Wf fs inode) (hb : b < MAX_BLOCKS) (hz : zoneAt fs inode (slotOf b) = z) (d : Block)
    {s : Slot} (hs : Valid s) : zoneAt { fs with blocks := update fs.blocks z d } inode s = zoneAt fs inode s := by
  induction s with
  | root k => rfl
  | entry p k ih =>
    obtain ⟨hp, -⟩ := hs.parent
    rw [zoneAt, zoneAt, ih hp.valid]
    split_ifs with h0
    · rfl
    · have hpz : zoneAt fs inode p ≠ z := fun he =>
        slotOf_not_table (h.inj p _ hp.valid (slotOf_valid hb) h0 (he.trans hz.symm) ▸ hp)
      dsimp only
      rw [update_of_ne hpz]

/-- Bytes stored into the zone of a block are shown by this block only. -/
theorem store_spec (h : Wf fs inode) (hb : b < MAX_BLOCKS) (hz : zoneAt fs inode (slotOf b) = z)
    (hz0 : z ≠ 0) (d : Block) :
    Wf { fs with blocks := update fs.blocks z d } inode ∧
      view { fs with blocks := update fs.blocks z d } inode = update (view fs inode) b d := by
  have hs := slotOf_valid hb
  have hne : ∀ s', Valid s' → s' ≠ slotOf b → zoneAt fs inode s' ≠ 0 → zoneAt fs inode s' ≠ z :=
    fun s' hs' hne h0 he => hne (h.inj s' _ hs' hs h0 (he.trans hz.symm))
  have hat : ∀ s', Valid s' → zoneAt { fs with blocks := update fs.blocks z d } inode s' =
      zoneAt fs inode s' := fun s' hs' => zoneAt_store h hb hz d hs'
  refine ⟨⟨⟨h.ok.first, h.ok.nzones, h.ok.reserved⟩, fun s' hs' h0 => ?_,
    fun s₁ s₂ h₁ h₂ h0 he => ?_⟩, funext fun b' => ?_⟩
  · rw [hat s' hs'] at h0 ⊢
    exact h.used s' hs' h0
  · rw [hat s₁ h₁] at h0 he
    rw [hat s₂ h₂] at he
    exact h.inj s₁ s₂ h₁ h₂ h0 he
  · by_cases hbb : b' = b
    · subst hbb
      rw [update_self, view, hat _ hs, if_pos ⟨hb, hz ▸ hz0⟩, hz]
      exact update_self ..
    · rw [update_of_ne hbb, view, view]
      by_cases hb' : b' < MAX_BLOCKS
      · rw [hat _ (slotOf_valid hb')]
        split_ifs with h0
        · exact update_of_ne (hne _ (slotOf_valid hb') (fun he => hbb (slotOf_inj he)) h0.2) ..
        · rfl
      · rw [if_neg (by tauto), if_neg (by tauto)]

end Linux012.FileDev
