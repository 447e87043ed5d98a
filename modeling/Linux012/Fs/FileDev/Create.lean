import Linux012.Fs.FileDev.RoundTrip

/-! # Creating a block of a file

With the reads that `create_block` needs it fails only when the zones run out. Each zone that it takes from
the bitmap gets a slot of the file.
-/

namespace Linux012.FileDev

open Function

variable {fs fs' fs'' : Fs} {inode inode' inode'' : Inode} {b i j k w z z' : ℕ} {m : ℕ → Bool}
  {s s' : Slot} {path : List Slot}

/-! ## Free zones -/

/-- The zone has a bit in the bitmap, and it is clear. -/
def Fs.isFree (fs : Fs) (w : ℕ) : Bool :=
  (fs.sZmap ((w + 1 - fs.sFirstdatazone) / 8192)).any fun m => !m ((w + 1 - fs.sFirstdatazone) % 8192)

def freeZones (fs : Fs) : Finset ℕ := (Finset.Ico fs.sFirstdatazone fs.sNzones).filter (fs.isFree ·)

/-- Bit `n` of the bitmap is clear. -/
def Clear (fs : Fs) (n : ℕ) : Prop := ∃ m, fs.sZmap (n / 8192) = some m ∧ m (n % 8192) = false

theorem mem_freeZones : w ∈ freeZones fs ↔
    (fs.sFirstdatazone ≤ w ∧ w < fs.sNzones) ∧ Clear fs (w + 1 - fs.sFirstdatazone) := by
  unfold freeZones Fs.isFree Clear
  rw [Finset.mem_filter, Finset.mem_Ico, Option.any_eq_true]
  simp only [Bool.not_eq_true']

theorem findFirstZero_min {fuel : ℕ} (h : findFirstZero m fuel k = some j) (hk : k ≤ i) (hi : i < j) : m i = true := by
  induction fuel generalizing k with
  | zero => cases h
  | succ fuel ih =>
    rw [findFirstZero] at h
    split_ifs at h with hm
    · rcases eq_or_lt_of_le hk with rfl | hlt
      · exact hm
      · exact ih h hlt
    · obtain rfl := Option.some.inj h
      omega

theorem findFirstZero_none {fuel : ℕ} (h : findFirstZero m fuel k = none) (hk : k ≤ i) (hi : i < k + fuel) :
    m i = true := by
  induction fuel generalizing k with
  | zero => omega
  | succ fuel ih =>
    rw [findFirstZero] at h
    split_ifs at h with hm
    rcases eq_or_lt_of_le hk with rfl | hlt
    · exact hm
    · exact ih h hlt (by omega)

/-- No clear bit comes before the one that `new_block` finds. -/
theorem scanZmap_min {fuel i' j' : ℕ} (h : scanZmap fs fuel k = some (i, j)) (hk : k ≤ i')
    (hm : fs.sZmap i' = some m) (hj : j' < 8192) (hclear : m j' = false) : i * 8192 + j ≤ i' * 8192 + j' := by
  induction fuel generalizing k with
  | zero => cases h
  | succ fuel ih =>
    rw [scanZmap] at h
    split at h
    · rename_i j₀ hj₀
      obtain ⟨rfl, rfl⟩ := Prod.mk.inj (Option.some.inj h)
      obtain ⟨m₀, hm₀, hfind⟩ := Option.bind_eq_some_iff.mp hj₀
      obtain ⟨-, -, hlt⟩ := findFirstZero_spec hfind
      rcases eq_or_lt_of_le hk with rfl | hlt'
      · obtain rfl := Option.some.inj (hm.symm.trans hm₀)
        by_contra hc
        have htrue := findFirstZero_min hfind (Nat.zero_le j') (by omega)
        rw [hclear] at htrue
        cases htrue
      · omega
    · rename_i hnone
      rcases eq_or_lt_of_le hk with rfl | hlt
      · have hfind : findFirstZero m 8192 0 = none := by
          rw [hm] at hnone
          exact hnone
        have htrue := findFirstZero_none hfind (Nat.zero_le j') (by omega)
        rw [hclear] at htrue
        cases htrue
      · exact ih h hlt

theorem scanZmap_none {fuel : ℕ} (h : scanZmap fs fuel k = none) (hk : k ≤ i) (hi : i < k + fuel)
    (hm : fs.sZmap i = some m) (hj : j < 8192) : m j = true := by
  induction fuel generalizing k with
  | zero => omega
  | succ fuel ih =>
    rw [scanZmap] at h
    split at h
    · cases h
    · rename_i hnone
      rcases eq_or_lt_of_le hk with rfl | hlt
      · have hfind : findFirstZero m 8192 0 = none := by
          rw [hm] at hnone
          exact hnone
        exact findFirstZero_none hfind (Nat.zero_le j) (by omega)
      · exact ih h hlt (by omega)

theorem clear_setBit (hm : fs.sZmap i = some m) (hj : j < 8192) :
    Clear (setBit fs i j) k ↔ Clear fs k ∧ k ≠ i * 8192 + j := by
  unfold Clear setBit
  dsimp only
  by_cases hi : k / 8192 = i
  · rw [hi, update_self, hm]
    simp only [Option.map_some, Option.some.injEq, exists_eq_left']
    by_cases hjk : k % 8192 = j
    · rw [hjk, update_self]
      exact iff_of_false nofun fun h => h.2 (by omega)
    · rw [update_of_ne hjk]
      exact (and_iff_left (by omega)).symm
  · rw [update_of_ne hi]
    exact (and_iff_left (by omega)).symm

theorem bitSet_setBit {i' j' : ℕ} (h : BitSet (setBit fs i j) i' j') : BitSet fs i' j' ∨ i' = i ∧ j' = j := by
  obtain ⟨m, hm, ht⟩ := h
  unfold setBit at hm
  dsimp only at hm
  by_cases hi : i' = i
  · subst hi
    rw [update_self, Option.map_eq_some_iff] at hm
    obtain ⟨m₀, hm₀, rfl⟩ := hm
    by_cases hj : j' = j
    · exact .inr ⟨rfl, hj⟩
    · rw [update_of_ne hj] at ht
      exact .inl ⟨m₀, hm₀, ht⟩
  · rw [update_of_ne hi] at hm
    exact .inl ⟨m, hm, ht⟩

/-- What `new_block` takes from the free zones. -/
structure Taken (fs fs' : Fs) (z : ℕ) : Prop where
  free : z = 0 ∧ freeZones fs = ∅ ∧ freeZones fs' = ∅ ∨ z ∈ freeZones fs ∧ freeZones fs' = (freeZones fs).erase z
  used : ∀ w, fs.sFirstdatazone ≤ w → w < fs.sNzones → Used fs' w → Used fs w ∨ w = z

theorem newBlock_taken (h : fs.Ok) : Taken fs (newBlock fs).1 (newBlock fs).2 := by
  have hfirst := h.first
  have hnz := h.nzones
  unfold newBlock
  split
  · rename_i hscan
    have hnone : freeZones fs = ∅ := by
      refine Finset.eq_empty_of_forall_notMem fun w hw => ?_
      obtain ⟨⟨hle, hlt⟩, m, hm, hclear⟩ := mem_freeZones.mp hw
      have htrue := scanZmap_none (j := (w + 1 - fs.sFirstdatazone) % 8192) hscan (Nat.zero_le _) (by omega) hm (Nat.mod_lt _ (by decide))
      rw [hclear] at htrue
      cases htrue
    exact ⟨.inl ⟨rfl, hnone, hnone⟩, fun w _ _ hu => .inl hu⟩
  · rename_i i j hscan
    obtain ⟨m, hm, hj, hlt⟩ := scanZmap_spec hscan
    have hpos : 1 ≤ j + i * 8192 := by
      by_contra hc
      obtain ⟨rfl, rfl⟩ : j = 0 ∧ i = 0 := by omega
      rw [h.reserved m hm] at hj
      cases hj
    have hmin (w : ℕ) (hw : w ∈ freeZones fs) : j + i * 8192 + fs.sFirstdatazone - 1 ≤ w := by
      obtain ⟨⟨hle, hlt⟩, m', hm', hclear⟩ := mem_freeZones.mp hw
      have hmin := scanZmap_min hscan (Nat.zero_le _) hm' (Nat.mod_lt _ (by decide)) hclear
      omega
    have hmem (w : ℕ) : w ∈ freeZones (setBit fs i j) ↔
        w ∈ freeZones fs ∧ w ≠ j + i * 8192 + fs.sFirstdatazone - 1 := by
      rw [mem_freeZones, mem_freeZones]
      change (fs.sFirstdatazone ≤ w ∧ w < fs.sNzones) ∧ Clear _ (w + 1 - fs.sFirstdatazone) ↔ _
      rw [clear_setBit hm hlt, and_assoc, and_assoc, and_assoc]
      refine and_congr_right fun hle => and_congr_right fun _ => and_congr_right fun _ => ?_
      omega
    have hused (w : ℕ) (hle : fs.sFirstdatazone ≤ w) (hu : Used (setBit fs i j) w) :
        Used fs w ∨ w = j + i * 8192 + fs.sFirstdatazone - 1 := by
      rcases bitSet_setBit hu with hu | ⟨hi', hj'⟩
      · exact .inl hu
      · change (w + 1 - fs.sFirstdatazone) / 8192 = i at hi'
        change (w + 1 - fs.sFirstdatazone) % 8192 = j at hj'
        right
        omega
    dsimp only
    split_ifs with hz
    · change j + i * 8192 + fs.sFirstdatazone - 1 ≥ fs.sNzones at hz
      have hnone : freeZones fs = ∅ := by
        refine Finset.eq_empty_of_forall_notMem fun w hw => ?_
        have hlt := (mem_freeZones.mp hw).1.2
        have hle := hmin w hw
        omega
      have hnone' : freeZones (setBit fs i j) = ∅ := by
        refine Finset.eq_empty_of_forall_notMem fun w hw => ?_
        have hw' := ((hmem w).mp hw).1
        rw [hnone] at hw'
        exact Finset.notMem_empty w hw'
      refine ⟨.inl ⟨rfl, hnone, hnone'⟩, fun w hle hlt hu => .inl ((hused w hle hu).resolve_right ?_)⟩
      omega
    · change ¬ j + i * 8192 + fs.sFirstdatazone - 1 ≥ fs.sNzones at hz
      have hclear : Clear fs (j + i * 8192) := by
        refine ⟨m, ?_, ?_⟩
        · rw [show (j + i * 8192) / 8192 = i by omega]
          exact hm
        · rw [show (j + i * 8192) % 8192 = j by omega]
          exact hj
      have hidx : j + i * 8192 + fs.sFirstdatazone - 1 + 1 - fs.sFirstdatazone = j + i * 8192 := by omega
      refine ⟨.inr ⟨?_, ?_⟩, fun w hle _ hu => hused w hle hu⟩
      · change j + i * 8192 + fs.sFirstdatazone - 1 ∈ freeZones fs
        rw [mem_freeZones, hidx]
        exact ⟨⟨by omega, by omega⟩, hclear⟩
      · ext w
        rw [Finset.mem_erase]
        exact (hmem w).trans and_comm

/-! ## Filling slots -/

/-- The slots of the path that have no zone. -/
def holes (fs : Fs) (inode : Inode) (path : List Slot) : ℕ := path.countP fun s => zoneAt fs inode s = 0

/-- All slots of the path have a zone, the last one `z`, or `z` is 0 and the free zones were not enough.
What has been taken from the bitmap is in the file. -/
structure Created (fs : Fs) (inode : Inode) (path : List Slot) (fs' : Fs) (inode' : Inode) (z : ℕ) : Prop where
  ext : Ext fs inode fs' inode'
  first : fs'.sFirstdatazone = fs.sFirstdatazone
  nzones : fs'.sNzones = fs.sNzones
  last : z ≠ 0 → ∀ s ∈ path.getLast?, zoneAt fs' inode' s = z
  others : ∀ s, Valid s → s ∉ path → zoneAt fs' inode' s = zoneAt fs inode s
  enough : z ≠ 0 ↔ holes fs inode path ≤ (freeZones fs).card
  reached : ∀ w, fs.sFirstdatazone ≤ w → w < fs.sNzones → Used fs' w →
    Used fs w ∨ ∃ s, Valid s ∧ zoneAt fs' inode' s = w

/-- The same for one slot, with what is left of the free zones. -/
structure Filled (fs : Fs) (inode : Inode) (s : Slot) (fs' : Fs) (inode' : Inode) (z : ℕ) : Prop extends
    Created fs inode [s] fs' inode' z where
  at_ : zoneAt fs' inode' s = z
  left : z ≠ 0 → (freeZones fs').card + holes fs inode [s] = (freeZones fs).card

theorem holes_singleton (fs : Fs) (inode : Inode) (s : Slot) :
    holes fs inode [s] = if zoneAt fs inode s = 0 then 1 else 0 := by
  unfold holes
  rw [List.countP_singleton]
  simp

/-- A slot that has a zone already. -/
theorem filled_of_ne_zero (h : Wf fs inode) (hz : zoneAt fs inode s ≠ 0) :
    Filled fs inode s fs inode (zoneAt fs inode s) where
  ext := .refl h
  first := rfl
  nzones := rfl
  last _ s' hs' := by
    obtain rfl : s = s' := by simpa using hs'
    rfl
  others _ _ _ := rfl
  enough := by
    rw [holes_singleton, if_neg hz]
    exact iff_of_true hz (Nat.zero_le _)
  reached _ _ _ hu := .inl hu
  at_ := rfl
  left _ := by rw [holes_singleton, if_neg hz, Nat.add_zero]

/-- A new zone for an empty slot. -/
theorem Place.filled (h : Place fs inode s z fs' inode') (ht : Taken fs fs'' z) (hm : fs'.sZmap = fs''.sZmap)
    (hf : fs''.sFirstdatazone = fs.sFirstdatazone) (hn : fs''.sNzones = fs.sNzones) :
    Filled fs inode s fs' inode' z := by
  obtain ⟨hmem, hleft⟩ := ht.free.resolve_left fun h0 => h.ne h0.1
  have hfree : freeZones fs' = (freeZones fs).erase z := by
    rw [← hleft]
    unfold freeZones Fs.isFree
    rw [hm, h.first, h.nzones, hf, hn]
  have hused (w : ℕ) (hu : Used fs' w) : Used fs'' w := by
    unfold Used BitSet at hu ⊢
    rwa [hm, h.first, ← hf] at hu
  have hpos : 0 < (freeZones fs).card := Finset.card_pos.mpr ⟨z, hmem⟩
  refine ⟨⟨h.ext, h.first, h.nzones, fun _ s' hs' => ?_, fun s' hs' hne => ?_, ?_, fun w hle hlt hu => ?_⟩,
    h.zoneAt_self, fun _ => ?_⟩
  · obtain rfl : s = s' := by simpa using hs'
    exact h.zoneAt_self
  · exact h.zoneAt_of_ne hs' (by simpa using hne)
  · rw [holes_singleton, if_pos h.free]
    exact iff_of_true h.ne hpos
  · rcases ht.used w hle hlt (hused w hu) with hu | rfl
    · exact .inl hu
    · exact .inr ⟨s, h.valid, h.zoneAt_self⟩
  · rw [holes_singleton, if_pos h.free, hfree, Finset.card_erase_of_mem hmem]
    omega

/-- No zone is left for an empty slot. -/
theorem filled_of_none (h : Wf fs inode) (hz : zoneAt fs inode s = 0) (h0 : (newBlock fs).2 = 0) :
    Filled fs inode s (newBlock fs).1 inode 0 := by
  have hn := newBlock_spec h.ok
  have ht := newBlock_taken h.ok
  have hb := hn.blocks_eq h.ok h0
  have hnone : freeZones fs = ∅ := by
    rcases ht.free with ⟨-, hnone, -⟩ | ⟨hmem, -⟩
    · exact hnone
    · have hle := (mem_freeZones.mp hmem).1.1
      have := h.ok.first
      omega
  refine ⟨⟨hn.ext h hb, hn.first, hn.nzones, fun hne => absurd rfl hne, fun s' _ _ => zoneAt_congr hb s', ?_,
    fun w hle hlt hu => ?_⟩, (zoneAt_congr hb s).trans hz, fun hne => absurd rfl hne⟩
  · rw [holes_singleton, if_pos hz, hnone, Finset.card_empty]
    exact iff_of_false (fun hne => hne rfl) (by omega)
  · rcases ht.used w hle hlt hu with hu | rfl
    · exact .inl hu
    · have := h.ok.first
      omega

/-- The reads that all succeed. -/
def fine : ℕ → Bool := fun _ => false

theorem zone_filled (h : Wf fs inode) (hk : k < 9) :
    Filled fs inode (.root k) (zone fs inode true k).1 (zone fs inode true k).2.1 (zone fs inode true k).2.2 := by
  unfold zone
  by_cases h0 : inode.iZone k = 0
  · rw [if_pos ⟨rfl, h0⟩]
    dsimp only
    by_cases hz : (newBlock fs).2 = 0
    · have hi : update inode.iZone k 0 = inode.iZone := by rw [← h0, update_eq_self]
      rw [hz, hi]
      exact filled_of_none (s := .root k) h h0 hz
    · have hn := newBlock_spec h.ok
      exact (zone_place h hk h0 hz).filled (newBlock_taken h.ok) rfl hn.first hn.nzones
  · rw [if_neg fun hc => h0 hc.2]
    exact filled_of_ne_zero (s := .root k) h h0

theorem entry_fine : entry fs fine true z k =
    if word (fs.blocks z) k = 0 then
      (if (newBlock fs).2 ≠ 0 then (link fs z k, (newBlock fs).2) else ((newBlock fs).1, 0))
    else (fs, word (fs.blocks z) k) := by
  have hread : bread fs fine z = some (fs.blocks z) := if_neg Bool.false_ne_true
  unfold entry
  rw [hread]
  dsimp only
  simp only [true_and]
  rfl

theorem entry_filled {p : Slot} (h : Wf fs inode) (hp : Table p) (hk : k < 512) (hz : zoneAt fs inode p = z)
    (hz0 : z ≠ 0) : Filled fs inode (.entry p k) (entry fs fine true z k).1 inode (entry fs fine true z k).2 := by
  subst hz
  have hword : zoneAt fs inode (.entry p k) = word (fs.blocks (zoneAt fs inode p)) k := by
    rw [zoneAt, if_neg hz0]
  rw [entry_fine, ← hword]
  by_cases h0 : zoneAt fs inode (.entry p k) = 0
  · rw [if_pos h0]
    by_cases hz : (newBlock fs).2 = 0
    · rw [if_neg (not_not.mpr hz)]
      exact filled_of_none h h0 hz
    · have hn := newBlock_spec h.ok
      rw [if_pos hz]
      exact (entry_place h hp hk hz0 h0 hz).filled (newBlock_taken h.ok) rfl hn.first hn.nzones
  · rw [if_neg h0]
    exact filled_of_ne_zero h h0

/-- A slot of the way is filled, and then the rest of it. -/
theorem Filled.cons (h : Filled fs inode s fs' inode' z) (hz : z ≠ 0)
    (h' : Created fs' inode' path fs'' inode'' z') (hne : path ≠ []) (hs : s ∉ path)
    (hvalid : ∀ s' ∈ path, Valid s') : Created fs inode (s :: path) fs'' inode'' z' where
  ext := h.ext.trans h'.ext
  first := h'.first.trans h.first
  nzones := h'.nzones.trans h.nzones
  last hz' s' hs' := h'.last hz' s' (by rwa [List.getLast?_cons_of_ne_nil hne] at hs')
  others s' hs' hmem := by
    rw [List.mem_cons, not_or] at hmem
    rw [h'.others s' hs' hmem.2]
    exact h.others s' hs' (by simpa using hmem.1)
  enough := by
    have hrest : holes fs' inode' path = holes fs inode path := by
      unfold holes
      refine List.countP_congr fun s' hs' => ?_
      rw [h.others s' (hvalid s' hs') fun hmem => hs (List.mem_singleton.mp hmem ▸ hs')]
    have hsplit : holes fs inode (s :: path) = holes fs inode [s] + holes fs inode path := by
      unfold holes
      rw [← List.countP_append]
      rfl
    have hleft := h.left hz
    rw [h'.enough, hrest, hsplit]
    omega
  reached w hle hlt hu := by
    rcases h'.reached w (h.first ▸ hle) (h.nzones ▸ hlt) hu with hu | hreach
    · rcases h.reached w hle hlt hu with hu | ⟨s', hs', hw⟩
      · exact .inl hu
      · have hfirst := h.ext.wf.ok.first
        have hw0 : w ≠ 0 := by
          rw [h.first] at hfirst
          omega
        exact .inr ⟨s', hs', by rw [h'.ext.zone s' hs' (hw ▸ hw0), hw]⟩
    · exact .inr hreach

/-- The way ends where no zone is left. -/
theorem Filled.fail (h : Filled fs inode s fs' inode' 0) : Created fs inode (s :: path) fs' inode' 0 where
  ext := h.ext
  first := h.first
  nzones := h.nzones
  last hz := absurd rfl hz
  others s' hs' hmem := h.others s' hs' fun hmem' => hmem (List.mem_singleton.mp hmem' ▸ List.mem_cons_self)
  enough := by
    have hle : holes fs inode [s] ≤ holes fs inode (s :: path) := List.Sublist.countP_le (by simp)
    have hnot := mt h.enough.mpr fun hne => hne rfl
    refine iff_of_false (fun hne => hne rfl) ?_
    omega
  reached := h.reached

/-! ## The way to a block -/

/-- The slots that `_bmap` looks at on the way to a block, the slot of the block last. -/
def way (b : ℕ) : List Slot :=
  if b < 7 then [.root b]
  else if b - 7 < 512 then [.root 7, .entry (.root 7) (b - 7)]
  else [.root 8, .entry (.root 8) ((b - 7 - 512) / 512),
    .entry (.entry (.root 8) ((b - 7 - 512) / 512)) ((b - 7 - 512) % 512)]

theorem way_getLast? (b : ℕ) : (way b).getLast? = some (slotOf b) := by
  unfold way slotOf
  split_ifs <;> rfl

/-- Other blocks have other slots, and indirect blocks are no blocks of the file. -/
theorem slotOf_notMem_way {b' : ℕ} (hb : b < MAX_BLOCKS) (h : b' ≠ b) : slotOf b' ∉ way b := by
  intro hmem
  have htable : ∀ s ∈ way b, s = slotOf b ∨ Table s := by
    unfold MAX_BLOCKS at hb
    unfold way slotOf
    split_ifs
    · simp
    · simp [Table.single]
    · have hq : (b - 7 - 512) / 512 < 512 := by omega
      simp [Table.double, Table.second hq]
  rcases htable _ hmem with he | ht
  · exact h (slotOf_inj he)
  · exact slotOf_not_table ht

theorem createBlock_created (h : Wf fs inode) (hb : b < MAX_BLOCKS) : ∃ fs' inode' z,
    createBlock fs inode fine b = some (fs', inode', z) ∧ Created fs inode (way b) fs' inode' z := by
  unfold createBlock way
  by_cases h₇ : b < 7
  · rw [_bmap_direct h₇, if_pos h₇]
    exact ⟨_, _, _, rfl, (zone_filled h (by omega)).toCreated⟩
  by_cases h₅ : b - 7 < 512
  · rw [_bmap_single (by omega) h₅, if_neg h₇, if_pos h₅]
    have hroot := zone_filled h (show 7 < 9 by omega)
    dsimp only
    by_cases hz : (zone fs inode true 7).2.2 = 0
    · rw [if_pos hz]
      rw [hz] at hroot
      exact ⟨_, _, _, rfl, hroot.fail⟩
    · rw [if_neg hz]
      have hentry := entry_filled hroot.ext.wf .single h₅ hroot.at_ hz
      exact ⟨_, _, _, rfl, hroot.cons hz hentry.toCreated (by simp) (by simp)
        (by simpa using Valid.entry .single h₅)⟩
  · rw [_bmap_double (by omega) hb, if_neg h₇, if_neg h₅]
    have hroot := zone_filled h (show 8 < 9 by omega)
    have hq : (b - 7 - 512) / 512 < 512 := by
      unfold MAX_BLOCKS at hb
      omega
    have hr : (b - 7 - 512) % 512 < 512 := Nat.mod_lt _ (by omega)
    dsimp only
    by_cases hz : (zone fs inode true 8).2.2 = 0
    · rw [if_pos hz]
      rw [hz] at hroot
      exact ⟨_, _, _, rfl, hroot.fail⟩
    rw [if_neg hz]
    have hsecond := entry_filled hroot.ext.wf .double hq hroot.at_ hz
    have hvalid := Valid.entry Table.double hq
    have hvalid' := Valid.entry (Table.second hq) hr
    by_cases hz' : (entry (zone fs inode true 8).1 fine true (zone fs inode true 8).2.2 ((b - 7 - 512) / 512)).2 = 0
    · rw [if_pos hz']
      rw [hz'] at hsecond
      exact ⟨_, _, _, rfl, hroot.cons hz hsecond.fail (by simp) (by simp)
        (by simpa using ⟨hvalid, hvalid'⟩)⟩
    · rw [if_neg hz']
      have hdata := entry_filled hsecond.ext.wf (.second hq) hr hsecond.at_ hz'
      refine ⟨_, _, _, rfl, hroot.cons hz (hsecond.cons hz' hdata.toCreated (by simp) (by simp)
        (by simpa using hvalid')) (by simp) (by simp) (by simpa using ⟨hvalid, hvalid'⟩)⟩

theorem reads_fine (s : Slot) : s.Reads fs inode fine := by
  induction s with
  | root k => trivial
  | entry p k ih => exact ⟨ih, fun _ => rfl⟩

theorem bmap_fine (hb : b < MAX_BLOCKS) : bmap fs inode fine b = some (zoneAt fs inode (slotOf b)) :=
  bmap_spec hb (reads_fine _)

/-- `create_block` returns a zone exactly when enough zones are free. `bmap` finds it, finds the same as before
for all other blocks, and a new zone is cleared. In any case every zone has one slot, and those that have been
taken from the bitmap have one. -/
theorem createBlock_spec (h : Wf fs inode) (hb : b < MAX_BLOCKS) : ∃ fs' inode' z,
    createBlock fs inode fine b = some (fs', inode', z) ∧
    (z ≠ 0 ↔ holes fs inode (way b) ≤ (freeZones fs).card) ∧
    (z ≠ 0 → bmap fs' inode' fine b = some z ∧
      (bmap fs inode fine b = some 0 → fs'.blocks z = fun _ => 0) ∧
      (bmap fs inode fine b ≠ some 0 → bmap fs inode fine b = some z)) ∧
    (∀ b' < MAX_BLOCKS, b' ≠ b → bmap fs' inode' fine b' = bmap fs inode fine b') ∧
    Wf fs' inode' ∧
    ∀ w, fs.sFirstdatazone ≤ w → w < fs.sNzones → Used fs' w →
      Used fs w ∨ ∃ s, Valid s ∧ zoneAt fs' inode' s = w := by
  obtain ⟨fs', inode', z, hr, hc⟩ := createBlock_created h hb
  have hlast (hz : z ≠ 0) : zoneAt fs' inode' (slotOf b) = z :=
    hc.last hz _ (by rw [way_getLast?]; rfl)
  refine ⟨fs', inode', z, hr, hc.enough, fun hz => ⟨?_, fun h0 => ?_, fun h0 => ?_⟩, fun b' hb' hne => ?_,
    hc.ext.wf, hc.reached⟩
  · rw [bmap_fine hb, hlast hz]
  · have hview := hc.ext.view b
    rw [bmap_fine hb, Option.some_inj] at h0
    unfold view at hview
    rwa [hlast hz, if_pos ⟨hb, hz⟩, if_neg fun hno => hno.2 h0] at hview
  · rw [bmap_fine hb, Ne, Option.some_inj] at h0
    rw [bmap_fine hb, ← hc.ext.zone _ (slotOf_valid hb) h0, hlast hz]
  · rw [bmap_fine hb', bmap_fine hb', hc.others _ (slotOf_valid hb') (slotOf_notMem_way hb hne)]

theorem createBlock_newFile : ∃ fs' inode' z,
    createBlock newFile.fs newFile.inode fine 600 = some (fs', inode', z) ∧
    (z ≠ 0 ↔ holes newFile.fs newFile.inode (way 600) ≤ (freeZones newFile.fs).card) ∧
    (z ≠ 0 → bmap fs' inode' fine 600 = some z ∧
      (bmap newFile.fs newFile.inode fine 600 = some 0 → fs'.blocks z = fun _ => 0) ∧
      (bmap newFile.fs newFile.inode fine 600 ≠ some 0 → bmap newFile.fs newFile.inode fine 600 = some z)) ∧
    (∀ b' < MAX_BLOCKS, b' ≠ 600 → bmap fs' inode' fine b' = bmap newFile.fs newFile.inode fine b') ∧
    Wf fs' inode' ∧
    ∀ w, newFile.fs.sFirstdatazone ≤ w → w < newFile.fs.sNzones → Used fs' w →
      Used newFile.fs w ∨ ∃ s, Valid s ∧ zoneAt fs' inode' s = w :=
  createBlock_spec newFile_ok.sound.wf (by decide)

end Linux012.FileDev
