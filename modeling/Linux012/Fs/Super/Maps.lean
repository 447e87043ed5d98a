import Linux012.Fs.Super.Basic

/-! # What a super block that has been read is good for

`read_super` trusts the counts in block 1. A call keeps to its entry, undoes what it did when it
fails and returns a super block whose bitmaps cover every inode and zone exactly when the counts
fit: `goodRead_iff` is about one call, `each_good_iff` about runs.
-/

namespace Linux012.Super

open Runs Refs Function

variable {root dev : UInt16} {reads : ℕ → Option ℕ} {m m' : Slots} {count count' : ℕ → ℕ} {n i k : ℕ}
  {s s' s₁ : State} {sb : SuperBlock} {d : DSuperBlock} {c : Call}

/-! ## Releasing -/

theorem brelseAll_cases (m : Slots) (l : List (Fin 8)) (count : ℕ → ℕ) :
    brelseAll m l count = .error .panic ∨ ∃ count', brelseAll m l count = .ok count' := by
  induction l generalizing count with
  | nil => exact .inr ⟨count, rfl⟩
  | cons i l ih =>
    unfold brelseAll
    cases h : m i with
    | none => exact ih count
    | some b =>
      by_cases hb : count b = 0
      · exact .inl (by simp [brelse, hb, Except.bind])
      · simpa [brelse, hb, Except.bind] using ih (update count b (count b - 1))

theorem brelse_spec {o : Option ℕ} (h : ∀ b, (if o = some b then 1 else 0) ≤ count b) :
    ∃ count', brelse o count = .ok count' ∧
      ∀ b, count' b + (if o = some b then 1 else 0) = count b := by
  cases o with
  | none => exact ⟨count, rfl, fun b => by simp⟩
  | some a =>
    have ha := h a
    rw [if_pos rfl] at ha
    refine ⟨update count a (count a - 1), if_neg (by omega), fun b => ?_⟩
    by_cases hb : b = a
    · subst hb
      simp only [update_self, if_true]
      omega
    · have hne : ¬ (some a = some b) := fun h => hb (Option.some.inj h).symm
      simp [hb, hne]

theorem brelseAll_list (m : Slots) (l : List (Fin 8)) (count : ℕ → ℕ)
    (h : ∀ b, (l.map fun i => if m i = some b then 1 else 0).sum ≤ count b) :
    ∃ count', brelseAll m l count = .ok count' ∧
      ∀ b, count' b + (l.map fun i => if m i = some b then 1 else 0).sum = count b := by
  induction l generalizing count with
  | nil => exact ⟨count, rfl, fun b => rfl⟩
  | cons i l ih =>
    simp only [List.map_cons, List.sum_cons] at h ⊢
    obtain ⟨count₁, h₁, hc₁⟩ := brelse_spec (o := m i) fun b => (Nat.le_add_right _ _).trans (h b)
    obtain ⟨count₂, h₂, hc₂⟩ := ih count₁ fun b => by have := h b; have := hc₁ b; omega
    refine ⟨count₂, ?_, fun b => ?_⟩
    · unfold brelseAll
      rw [h₁]
      exact h₂
    · have := hc₁ b
      have := hc₂ b
      omega

theorem brelseAll_spec (m : Slots) (count : ℕ → ℕ) (h : ∀ b, refs Finset.univ m b ≤ count b) :
    ∃ count', brelseAll m (List.finRange 8) count = .ok count' ∧
      ∀ b, count' b + refs Finset.univ m b = count b := by
  simp only [refs, Fin.sum_univ_def] at h ⊢
  exact brelseAll_list m _ count h

/-! ## The loops that read a bitmap -/

/-- The first `i` reads have succeeded, and the map holds what they gave. -/
structure Loaded (reads : ℕ → Option ℕ) (i : ℕ) (m : Slots) : Prop where
  le : i ≤ 8
  slots : ∀ j : Fin 8, m j = if j < i then reads j else none
  ok : ∀ j < i, reads j ≠ none

theorem Loaded.zero : Loaded reads 0 noMap := ⟨by omega, fun j => by simp [noMap], by omega⟩

theorem Loaded.succ (h : Loaded reads i m) (hi : i < 8) {b : ℕ} (hb : reads i = some b) :
    Loaded reads (i + 1) (update m ⟨i, hi⟩ (some b)) := by
  refine ⟨hi, fun j => ?_, fun j hj => ?_⟩
  · by_cases hj : j = ⟨i, hi⟩
    · subst hj
      simp [hb]
    · have hne : (j : ℕ) ≠ i := fun h => hj (Fin.ext h)
      rw [update_of_ne hj, h.slots]
      exact if_congr (by omega) rfl rfl
  · obtain rfl | hlt := eq_or_ne j i
    · simp [hb]
    · exact h.ok j (by omega)

theorem Loaded.none (h : Loaded reads i m) (hi : i < 8) : m ⟨i, hi⟩ = none := by
  rw [h.slots]
  simp

theorem Loaded.update_none (h : Loaded reads i m) (hi : i < 8) : update m ⟨i, hi⟩ .none = m :=
  update_eq_self_iff.mpr (h.none hi).symm

/-- The loop either runs past the array or ends with the map loaded as far as the reads succeed. -/
theorem readMap_cases (n : ℕ) (count : ℕ → ℕ) (h : Loaded reads i m) :
    (readMap reads n i m count = .error .fault ∧ 8 < i + n ∧ ∀ j < 8, reads j ≠ none) ∨
    ∃ k m' count', readMap reads n i m count = .ok (k, m', count') ∧ Loaded reads k m' ∧
      (k = i + n ∨ k < i + n ∧ k < 8 ∧ reads k = none) ∧
      ∀ b, count' b + refs Finset.univ m b = count b + refs Finset.univ m' b := by
  induction n generalizing i m count with
  | zero => exact .inr ⟨i, m, count, rfl, h, .inl rfl, fun b => rfl⟩
  | succ n ih =>
    unfold readMap
    by_cases hi : i < 8
    · rw [dif_pos hi]
      cases hr : reads i with
      | none =>
        dsimp only
        rw [h.update_none hi]
        exact .inr ⟨i, m, count, rfl, h, .inr ⟨by omega, hi, hr⟩, fun b => rfl⟩
      | some a =>
        obtain ⟨hf, hn, hj⟩ | ⟨k, m', count', hok, hl, hk, hc⟩ :=
          ih (update count a (count a + 1)) (h.succ hi hr)
        · exact .inl ⟨hf, by omega, hj⟩
        · refine .inr ⟨k, m', count', hok, hl, ?_, fun b => ?_⟩
          · rwa [show i + (n + 1) = i + 1 + n by omega]
          · have hcb := hc b
            have hm := refs_update_add (v := some a) (Finset.mem_univ (⟨i, hi⟩ : Fin 8)) (f := m) b
            rw [h.none hi] at hm
            by_cases hb : b = a
            · subst hb
              simp only [update_self, if_true, reduceCtorEq, if_false] at hcb hm
              omega
            · have hne : ¬ (some a = some b) := fun h => hb (Option.some.inj h).symm
              simp only [update_of_ne hb, hne, reduceCtorEq, if_false] at hcb hm
              omega
    · rw [dif_neg hi]
      exact .inl ⟨rfl, by have := h.le; omega, fun j hj => h.ok j (by omega)⟩

/-! ## The bitmaps cover the inodes and zones -/

/-- The index is inside the map, and there is a block. -/
def Has (m : Slots) (i : ℕ) : Prop := ∃ b, slot m i = .ok (some b)

theorem Loaded.has_iff (h : Loaded reads k m) : Has m i ↔ i < k := by
  unfold Has slot
  have hk := h.le
  constructor
  · rintro ⟨b, hb⟩
    split_ifs at hb with hi
    rw [h.slots] at hb
    by_contra hlt
    rw [if_neg hlt] at hb
    cases hb
  · intro hi
    obtain ⟨b, hb⟩ := Option.ne_none_iff_exists'.mp (h.ok i hi)
    refine ⟨b, ?_⟩
    rw [dif_pos (by omega), h.slots, if_pos hi, hb]

theorem countFree_ok (bits : ℕ → ℕ → Bool) (h : ∀ i < n, Has m (i / 8192)) (free : ℕ) :
    ∃ r, countFree bits m n free = .ok r := by
  induction n generalizing free with
  | zero => exact ⟨free, rfl⟩
  | succ n ih =>
    obtain ⟨b, hb⟩ := h n (by omega)
    unfold countFree
    rw [hb]
    exact ih (fun i hi => h i (by omega)) _

theorem has_of_countFree (bits : ℕ → ℕ → Bool) (free : ℕ)
    (h : countFree bits m n free ≠ .error .fault) : ∀ i < n, Has m (i / 8192) := by
  induction n generalizing free with
  | zero => exact nofun
  | succ n ih =>
    unfold countFree at h
    have hn : Has m (n / 8192) := by
      unfold Has
      unfold slot at h ⊢
      split_ifs at h ⊢ with hi
      · cases hb : m ⟨n / 8192, hi⟩ with
        | none => exact absurd (by rw [hb]; rfl) h
        | some b => exact ⟨b, rfl⟩
      · exact absurd rfl h
    obtain ⟨b, hb⟩ := hn
    rw [hb] at h
    intro i hi
    obtain rfl | hlt := eq_or_ne i n
    · exact ⟨b, hb⟩
    · exact ih _ h i (by omega)

/-- Every inode and every zone has its bitmap block, and the count of `mount_root` meets no other. -/
structure Usable (sb : SuperBlock) : Prop where
  inode : ∀ num, 1 ≤ num → num ≤ sb.ninodes.toNat → Has sb.imap (num / 8192)
  zone : ∀ z, sb.firstdatazone.toNat ≤ z → z < sb.nzones.toNat →
    Has sb.zmap ((z + 1 - sb.firstdatazone.toNat) / 8192)
  count : ∀ bits, countAll bits sb ≠ .error .fault

/-- The bitmaps are large enough for the numbers of inodes and zones. -/
structure DSuperBlock.Covers (d : DSuperBlock) : Prop where
  zmap : 1 ≤ d.zmapBlocks.toNat
  ninodes : d.ninodes.toNat < 8192 * d.imapBlocks.toNat
  nzones : d.nzones.toNat ≤ 8192 * d.zmapBlocks.toNat
  dataZones : d.nzones.toNat < d.firstdatazone.toNat + 8192 * d.zmapBlocks.toNat

theorem usable_iff {zreads : ℕ → Option ℕ} (hi : Loaded reads sb.imapBlocks.toNat sb.imap)
    (hz : Loaded zreads sb.zmapBlocks.toNat sb.zmap) (hz1 : 1 ≤ sb.zmapBlocks.toNat) :
    Usable sb ↔ sb.Covers := by
  constructor
  · intro h
    have hzones : ∀ z < sb.nzones.toNat, Has sb.zmap (z / 8192) := by
      refine has_of_countFree (fun _ _ => false) 0 fun hf => ?_
      exact h.count (fun _ _ => false) (by unfold countAll; rw [hf]; rfl)
    obtain ⟨r, hr⟩ := countFree_ok (fun _ _ => false) hzones 0
    have hinodes : ∀ num < sb.ninodes.toNat + 1, Has sb.imap (num / 8192) := by
      refine has_of_countFree (fun _ _ => false) 0 fun hf => ?_
      exact h.count (fun _ _ => false) (by unfold countAll; rw [hr]; dsimp only [bind, Except.bind]; rw [hf])
    refine ⟨hz1, ?_, ?_, ?_⟩
    · have := hi.has_iff.mp (hinodes sb.ninodes.toNat (by omega))
      omega
    · by_contra hlt
      have := hz.has_iff.mp (hzones (sb.nzones.toNat - 1) (by omega))
      omega
    · by_contra hlt
      have := hz.has_iff.mp (h.zone (sb.nzones.toNat - 1) (by omega) (by omega))
      omega
  · intro h
    have hn := h.ninodes
    have hz' := h.nzones
    have hd := h.dataZones
    refine ⟨fun num _ hnum => hi.has_iff.mpr (by omega), fun z hf hlt => hz.has_iff.mpr (by omega),
      fun bits => ?_⟩
    obtain ⟨a, ha⟩ := countFree_ok bits (m := sb.zmap) (n := sb.nzones.toNat)
      (fun z hlt => hz.has_iff.mpr (by omega)) 0
    obtain ⟨b, hb⟩ := countFree_ok bits (m := sb.imap) (n := sb.ninodes.toNat + 1)
      (fun num hlt => hi.has_iff.mpr (by omega)) 0
    unfold countAll
    rw [ha]
    dsimp only [bind, Except.bind]
    rw [hb]
    exact nofun

/-! ## One call -/

/-- The call has kept no reference and no lock, and what it has changed is unused as before. -/
structure Undone (s s' : State) : Prop where
  count : s'.count = s.count
  lock : ∀ i, (s'.superBlock i).lock = false
  entry : ∀ i, s'.superBlock i ≠ s.superBlock i →
    (s.superBlock i).dev = 0 ∧ (s'.superBlock i).dev = 0

/-- What is asked of a call of `read_super` that finds `s` once it has looked for a new disk. -/
def Answer (s : State) : Except Stop (Option (Fin 8) × State) → Prop
  | .error .fault => False
  | .error .panic => True
  | .ok (none, s') => Undone s s'
  | .ok (some i, s') => (∀ j, j ≠ i → s'.superBlock j = s.superBlock j) ∧
      (s'.superBlock i).lock = false ∧ Usable (s'.superBlock i)

/-- A loop is not asked for a ninth block, unless it has stopped before; and when every block can be
read, they cover the inodes and zones. -/
structure DSuperBlock.Fits (d : DSuperBlock) (iread zread : ℕ → Option ℕ) : Prop where
  imap : 8 < d.imapBlocks.toNat → ∃ i < 8, iread i = none
  zmap : 8 < d.zmapBlocks.toNat → ∃ i < 8, zread i = none
  covers : (∀ i < d.imapBlocks.toNat, iread i ≠ none) →
    (∀ i < d.zmapBlocks.toNat, zread i ≠ none) → d.Covers

/-- No entry is locked between two calls, and the entries in use are good for the users. -/
structure Inv (s : State) : Prop where
  lock : ∀ i, (s.superBlock i).lock = false
  usable : ∀ i, (s.superBlock i).dev ≠ 0 → Usable (s.superBlock i)

theorem State.set_of_ne {i j : Fin 8} (h : j ≠ i) : (s.set i sb).superBlock j = s.superBlock j :=
  update_of_ne h _ _

@[simp] theorem State.set_self {i : Fin 8} : (s.set i sb).superBlock i = sb := update_self _ _ _

/-- An unused entry has been written over and is unused again. -/
theorem Inv.undone (h : Inv s) {i : Fin 8} (hi : (s.superBlock i).dev = 0) (hd : sb.dev = 0)
    (hl : sb.lock = false) (hs : s'.superBlock = (s.set i sb).superBlock) (hc : s'.count = s.count) :
    Undone s s' := by
  have key : ∀ j, s'.superBlock j = if j = i then sb else s.superBlock j := by
    intro j
    rw [hs]
    exact update_apply _ _ _ _
  refine ⟨hc, fun j => ?_, fun j hj => ?_⟩
  · rw [key]
    split_ifs
    · exact hl
    · exact h.lock j
  · rw [key] at hj ⊢
    split_ifs at hj ⊢ with hji
    · exact ⟨hji ▸ hi, hd⟩
    · exact absurd rfl hj

theorem DSuperBlock.Fits.of_short {ni nz : ℕ} {iread zread : ℕ → Option ℕ} {imap zmap : Slots}
    (hi : Loaded iread ni imap) (hz : Loaded zread nz zmap)
    (hni : ni = d.imapBlocks.toNat ∨ ni < d.imapBlocks.toNat ∧ ni < 8 ∧ iread ni = none)
    (hnz : nz = d.zmapBlocks.toNat ∨ nz < d.zmapBlocks.toNat ∧ nz < 8 ∧ zread nz = none)
    (hne : ni ≠ d.imapBlocks.toNat ∨ nz ≠ d.zmapBlocks.toNat) : d.Fits iread zread := by
  have hi8 := hi.le
  have hz8 := hz.le
  refine ⟨fun h => ?_, fun h => ?_, fun hiall hzall => ?_⟩
  · obtain heq | ⟨-, hlt, hnone⟩ := hni
    · omega
    · exact ⟨ni, hlt, hnone⟩
  · obtain heq | ⟨-, hlt, hnone⟩ := hnz
    · omega
    · exact ⟨nz, hlt, hnone⟩
  · obtain hne | hne := hne
    · obtain heq | ⟨hlt, -, hnone⟩ := hni
      · exact absurd heq hne
      · exact absurd hnone (hiall ni hlt)
    · obtain heq | ⟨hlt, -, hnone⟩ := hnz
      · exact absurd heq hne
      · exact absurd hnone (hzall nz hlt)

/-- When both bitmaps have been read whole the counts fit exactly when they cover. -/
theorem DSuperBlock.fits_iff_covers {iread zread : ℕ → Option ℕ} {imap zmap : Slots}
    (hi : Loaded iread d.imapBlocks.toNat imap) (hz : Loaded zread d.zmapBlocks.toNat zmap) :
    d.Fits iread zread ↔ d.Covers := by
  constructor
  · intro h
    exact h.covers hi.ok hz.ok
  · intro h
    exact ⟨fun h8 => absurd hi.le (by omega), fun h8 => absurd hz.le (by omega), fun _ _ => h⟩

theorem readMaps_answer_iff (h : Inv s) {i : Fin 8} (hi : (s.superBlock i).dev = 0) :
    Answer s (readMaps c i d s) ↔ d.Fits c.iread c.zread := by
  unfold readMaps
  obtain ⟨hf, h8, hall⟩ | ⟨ni, imap, count₁, hok₁, hl₁, hni, hc₁⟩ :=
    readMap_cases d.imapBlocks.toNat s.count (Loaded.zero : Loaded c.iread 0 noMap)
  · rw [hf]
    refine iff_of_false id fun hfit => ?_
    obtain ⟨j, hj, hnone⟩ := hfit.imap (by omega)
    exact hall j hj hnone
  rw [hok₁]
  dsimp only [bind, Except.bind]
  obtain ⟨hf, h8, hall⟩ | ⟨nz, zmap, count₂, hok₂, hl₂, hnz, hc₂⟩ :=
    readMap_cases d.zmapBlocks.toNat count₁ (Loaded.zero : Loaded c.zread 0 noMap)
  · rw [hf]
    refine iff_of_false id fun hfit => ?_
    obtain ⟨j, hj, hnone⟩ := hfit.zmap (by omega)
    exact hall j hj hnone
  rw [hok₂]
  rw [zero_add] at hni hnz
  have hzero : ∀ b, refs Finset.univ noMap b = 0 := fun b => refs_eq_zero_iff.mpr fun _ _ => nofun
  simp only [hzero, add_zero] at hc₁ hc₂
  dsimp only
  split_ifs with hne
  · -- the count of the blocks does not agree: everything is released
    have hshort : ni ≠ d.imapBlocks.toNat ∨ nz ≠ d.zmapBlocks.toNat := by omega
    refine iff_of_true ?_ (.of_short hl₁ hl₂ hni hnz hshort)
    obtain ⟨count₃, hok₃, hc₃⟩ := brelseAll_spec imap count₂ fun b => by
      have := hc₁ b
      have := hc₂ b
      omega
    obtain ⟨count₄, hok₄, hc₄⟩ := brelseAll_spec zmap count₃ fun b => by
      have := hc₁ b
      have := hc₂ b
      have := hc₃ b
      omega
    rw [hok₃]
    dsimp only
    rw [hok₄]
    refine h.undone hi rfl rfl rfl (funext fun b => ?_)
    have := hc₁ b
    have := hc₂ b
    have := hc₃ b
    have := hc₄ b
    dsimp only
    omega
  · obtain ⟨rfl, rfl⟩ : ni = d.imapBlocks.toNat ∧ nz = d.zmapBlocks.toNat := by omega
    rw [d.fits_iff_covers hl₁ hl₂, hl₁.slots 0, hl₂.slots 0]
    by_cases hi0 : 0 < d.imapBlocks.toNat
    · obtain ⟨bi, hbi⟩ := Option.ne_none_iff_exists'.mp (hl₁.ok 0 hi0)
      by_cases hz0 : 0 < d.zmapBlocks.toNat
      · obtain ⟨bz, hbz⟩ := Option.ne_none_iff_exists'.mp (hl₂.ok 0 hz0)
        simp only [Fin.val_zero, hi0, hz0, if_true, hbi, hbz, deref, Answer, State.setBit,
          State.set_self, true_and]
        have hu : Usable ⟨d, imap, zmap, c.dev, false, false⟩ ↔ d.Covers := usable_iff hl₁ hl₂ hz0
        rw [hu, and_iff_right]
        exact fun j hj => State.set_of_ne hj
      · rw [Fin.val_zero, if_pos hi0, if_neg hz0, hbi]
        exact iff_of_false id fun hcov => hz0 hcov.zmap
    · rw [Fin.val_zero, if_neg hi0]
      exact iff_of_false id fun hcov => by have := hcov.ninodes; omega

theorem readEntry_answer_iff (h : Inv s) {i : Fin 8} (hi : (s.superBlock i).dev = 0) :
    Answer s (readEntry c i s) ↔
      ∀ b d, c.block1 = some (b, d) → d.magic = SUPER_MAGIC → d.Fits c.iread c.zread := by
  unfold readEntry
  cases hb : c.block1 with
  | none => exact iff_of_true (h.undone hi rfl rfl rfl rfl) nofun
  | some bd =>
    obtain ⟨b, d⟩ := bd
    have hrel : brelse (some b) (update s.count b (s.count b + 1)) = .ok s.count := by
      simp [brelse]
    dsimp only
    rw [hrel]
    dsimp only [bind, Except.bind]
    split_ifs with hm
    · refine iff_of_true (h.undone hi rfl rfl rfl rfl) ?_
      rintro _ _ ⟨⟩ hmagic
      exact absurd hmagic hm
    · rw [not_not] at hm
      rw [readMaps_answer_iff h hi]
      constructor
      · rintro hfit _ _ ⟨⟩ -
        exact hfit
      · intro hall
        exact hall b d rfl hm

/-! ## The calls keep the table in order -/

theorem Inv.set (h : Inv s) {i : Fin 8} (hs : s'.superBlock = (s.set i sb).superBlock)
    (hl : sb.lock = false) (hu : sb.dev ≠ 0 → Usable sb) : Inv s' := by
  have key : ∀ j, s'.superBlock j = if j = i then sb else s.superBlock j := by
    intro j
    rw [hs]
    exact update_apply _ _ _ _
  constructor
  · intro j
    rw [key]
    split_ifs
    · exact hl
    · exact h.lock j
  · intro j
    rw [key]
    split_ifs
    · exact hu
    · exact h.usable j

theorem Usable.congr (h : Usable sb) {sb' : SuperBlock} (hd : sb'.toDSuperBlock = sb.toDSuperBlock)
    (hi : sb'.imap = sb.imap) (hz : sb'.zmap = sb.zmap) : Usable sb' := by
  obtain ⟨d, imap, zmap, dev, imount, lock⟩ := sb'
  cases hd
  cases hi
  cases hz
  exact ⟨h.inode, h.zone, h.count⟩

theorem Inv.of_eq (h : Inv s) (hs : s'.superBlock = s.superBlock) : Inv s' := by
  constructor
  · rw [hs]
    exact h.lock
  · rw [hs]
    exact h.usable

theorem putSuper_cases (root dev : UInt16) (s : State) : putSuper root dev s = .error .panic ∨
    ∃ s', putSuper root dev s = .ok s' ∧ (s' = s ∨ ∃ i count, s' =
      { s.set i { s.superBlock i with dev := 0, lock := false } with count }) := by
  unfold putSuper
  split_ifs
  · exact .inr ⟨s, rfl, .inl rfl⟩
  · cases getSuper dev s with
    | none => exact .inr ⟨s, rfl, .inl rfl⟩
    | some i =>
      dsimp only
      split_ifs
      · exact .inr ⟨s, rfl, .inl rfl⟩
      · obtain hi | ⟨count₁, hi⟩ := brelseAll_cases (s.superBlock i).imap (List.finRange 8) s.count
        · rw [hi]
          exact .inl rfl
        · rw [hi]
          dsimp only [bind, Except.bind]
          obtain hz | ⟨count₂, hz⟩ := brelseAll_cases (s.superBlock i).zmap (List.finRange 8) count₁
          · rw [hz]
            exact .inl rfl
          · rw [hz]
            exact .inr ⟨_, rfl, .inr ⟨i, count₂, rfl⟩⟩

theorem Inv.putSuper (h : Inv s) (hs : putSuper root dev s = .ok s') : Inv s' := by
  obtain hp | ⟨s₂, hok, rfl | ⟨i, count, rfl⟩⟩ := putSuper_cases root dev s
  · rw [hp] at hs
    cases hs
  · rw [hok] at hs
    cases hs
    exact h
  · rw [hok] at hs
    cases hs
    exact h.set rfl rfl fun h0 => absurd rfl h0

theorem changeLoop_cases (h : Inv s) (l : List (Fin 8)) :
    l.foldlM (fun s i => if (s.superBlock i).dev = dev then Super.putSuper root dev s else .ok s) s =
      .error Stop.panic ∨
    ∃ s', l.foldlM (fun s i => if (s.superBlock i).dev = dev then Super.putSuper root dev s else .ok s)
      s = (Except.ok s' : Except Stop State) ∧ Inv s' := by
  induction l generalizing s with
  | nil => exact .inr ⟨s, rfl, h⟩
  | cons i l ih =>
    rw [List.foldlM_cons]
    split_ifs
    · obtain hp | ⟨s₂, hok, -⟩ := putSuper_cases root dev s
      · rw [hp]
        exact .inl rfl
      · rw [hok]
        exact ih (h.putSuper hok)
    · exact ih h

theorem checkDiskChange_cases (root dev : UInt16) (h : Inv s) (changed : Bool) :
    checkDiskChange root dev changed s = .error .panic ∨
    ∃ s', checkDiskChange root dev changed s = .ok s' ∧ Inv s' := by
  unfold checkDiskChange
  split_ifs
  · exact changeLoop_cases h _
  · exact .inr ⟨s, rfl, h⟩

/-- `read_super` gets to a block 1 with the right magic number. -/
def Call.Reads (c : Call) (s : State) (d : DSuperBlock) : Prop :=
  c.dev ≠ 0 ∧ getSuper c.dev s = none ∧ (freeEntry s).isSome ∧ d.magic = SUPER_MAGIC ∧
    ∃ b, c.block1 = some (b, d)

theorem getSuper_some {i : Fin 8} (h : getSuper dev s = some i) : (s.superBlock i).dev ≠ 0 := by
  unfold getSuper at h
  split_ifs at h with h0
  have := List.find?_some h
  rw [of_decide_eq_true this]
  exact h0

/-- A call answers as asked exactly when the counts fit the bitmaps, if it reads them. -/
theorem readSuper_answer_iff (h : Inv s₁) (hs : checkDiskChange root c.dev c.changed s = .ok s₁) :
    Answer s₁ (readSuper root c s) ↔ ∀ d, c.Reads s₁ d → d.Fits c.iread c.zread := by
  unfold readSuper
  split_ifs with h0
  · have heq : s₁ = s := by
      unfold checkDiskChange at hs
      rw [h0, if_neg (by simp)] at hs
      exact (Except.ok.inj hs).symm
    subst heq
    refine iff_of_true ⟨rfl, h.lock, fun i hi => absurd rfl hi⟩ fun d hd => absurd h0 hd.1
  · rw [hs]
    dsimp only [bind, Except.bind]
    cases hg : getSuper c.dev s₁ with
    | some i =>
      refine iff_of_true ⟨fun _ _ => rfl, h.lock i, h.usable i (getSuper_some hg)⟩ fun d hd => ?_
      exact absurd (hg.symm.trans hd.2.1) nofun
    | none =>
      cases hf : freeEntry s₁ with
      | none =>
        refine iff_of_true ⟨rfl, h.lock, fun i hi => absurd rfl hi⟩ fun d hd => ?_
        exact absurd hd.2.2.1 (by rw [hf]; exact nofun)
      | some i =>
        have hi : (s₁.superBlock i).dev = 0 := by
          have := List.find?_some (p := fun i => decide ((s₁.superBlock i).dev = 0)) hf
          exact of_decide_eq_true this
        dsimp only
        rw [readEntry_answer_iff h hi]
        constructor
        · rintro hall d ⟨-, -, -, hm, b, hb⟩
          exact hall b d hb hm
        · intro hall b d hb hm
          exact hall d ⟨h0, hg, by rw [hf]; rfl, hm, b, hb⟩

/-! ## The users -/

/-- The call ends without a fault and leaves the table as it is. -/
def Keeps (s : State) : Except Stop State → Prop
  | .error .fault => False
  | .error .panic => True
  | .ok s' => s'.superBlock = s.superBlock

theorem needSuper_cases (dev : UInt16) (h : Inv s) : needSuper dev s = .error .panic ∨
    ∃ sb, needSuper dev s = .ok sb ∧ Usable sb := by
  unfold needSuper
  cases hg : getSuper dev s with
  | none => exact .inl rfl
  | some i => exact .inr ⟨_, rfl, h.usable i (getSuper_some hg)⟩

theorem freeBlock_keeps (h : Inv s) (block : ℤ) (bh : Option ℕ) :
    Keeps s ((freeBlock dev block bh s).map (·.2)) := by
  unfold freeBlock
  obtain hp | ⟨sb, hsb, hu⟩ := needSuper_cases dev h
  · rw [hp]
    trivial
  · rw [hsb]
    dsimp only [bind, Except.bind]
    split_ifs with hr hc
    · trivial
    · rfl
    · obtain ⟨b, hb⟩ := hu.zone block.toNat (by omega) (by omega)
      have hn : (block - (sb.firstdatazone.toNat - 1)).toNat =
          block.toNat + 1 - sb.firstdatazone.toNat := by omega
      rw [hn, hb]
      rfl

theorem newBlock_keeps (h : Inv s) : Keeps s ((newBlock dev s).map (·.2)) := by
  unfold newBlock
  obtain hp | ⟨sb, hsb, -⟩ := needSuper_cases dev h
  · rw [hp]
    trivial
  · rw [hsb]
    dsimp only [bind, Except.bind]
    obtain ⟨i, bh, j⟩ := scanMap s.bits sb.zmap (List.finRange 8) none 8192
    by_cases hno : 8 ≤ i ∨ bh = none ∨ 8192 ≤ j
    · rw [if_pos hno]
      rfl
    · rw [if_neg hno]
      rw [not_or, not_or] at hno
      obtain ⟨b, rfl⟩ := Option.ne_none_iff_exists'.mp hno.2.1
      dsimp only [deref]
      cases s.bits b j
      · rfl
      · trivial

theorem newInode_keeps (h : Inv s) (empty : Bool) : Keeps s ((newInode dev empty s).map (·.2)) := by
  unfold newInode
  split_ifs
  · rfl
  · obtain hp | ⟨sb, hsb, -⟩ := needSuper_cases dev h
    · rw [hp]
      trivial
    · rw [hsb]
      dsimp only [bind, Except.bind]
      split_ifs with hno
      · rfl
      · rw [not_or] at hno
        obtain ⟨b, hb⟩ := Option.ne_none_iff_exists'.mp hno.1
        rw [hb]
        dsimp only [deref]
        split_ifs
        · trivial
        · rfl

theorem freeInode_keeps (h : Inv s) (inode : Option Inode) : Keeps s (freeInode inode s) := by
  unfold freeInode
  cases inode with
  | none => rfl
  | some inode =>
    dsimp only
    split_ifs
    · rfl
    · trivial
    · obtain hp | ⟨sb, hsb, hu⟩ := needSuper_cases inode.dev h
      · rw [hp]
        trivial
      · rw [hsb]
        dsimp only [bind, Except.bind]
        split_ifs with hr
        · trivial
        · rw [not_or, UInt16.not_lt, UInt16.not_lt, UInt16.le_iff_toNat_le, UInt16.le_iff_toNat_le] at hr
          obtain ⟨b, hb⟩ := hu.inode inode.num.toNat hr.1 hr.2
          rw [hb]
          rfl

/-! ## Runs -/

/-- The call of `read_super` that is made, and the state it begins in. -/
def Act.read (root : UInt16) (s : State) : Act → Option (Call × State)
  | .readSuper c => some (c, s)
  | .mountRoot c => some ({ c with dev := root }, s.clear)
  | _ => none

/-- There is no fault, and a call of `read_super` answers as asked. -/
structure Good (root : UInt16) (s : State) (a : Act) : Prop where
  safe : exec root a s ≠ .error .fault
  answer : ∀ c s₀ s₁, a.read root s = some (c, s₀) →
    checkDiskChange root c.dev c.changed s₀ = .ok s₁ → Answer s₁ (readSuper root c s₀)

/-- If `read_super` is called and gets to the bitmaps, the counts fit them. -/
def CountsFit (root : UInt16) (s : State) (a : Act) : Prop :=
  ∀ c s₀ s₁ d, a.read root s = some (c, s₀) → checkDiskChange root c.dev c.changed s₀ = .ok s₁ →
    c.Reads s₁ d → d.Fits c.iread c.zread

theorem Inv.clear (s : State) : Inv s.clear := ⟨fun _ => rfl, fun _ h => absurd rfl h⟩

theorem Inv.read (h : Inv s) {a : Act} {s₀ : State} (ha : a.read root s = some (c, s₀)) : Inv s₀ := by
  cases a with
  | readSuper c =>
    cases ha
    exact h
  | mountRoot c =>
    cases ha
    exact .clear s
  | _ => cases ha

theorem answers_iff (h : Inv s) {a : Act} :
    (∀ c s₀ s₁, a.read root s = some (c, s₀) → checkDiskChange root c.dev c.changed s₀ = .ok s₁ →
      Answer s₁ (readSuper root c s₀)) ↔ CountsFit root s a := by
  unfold CountsFit
  refine forall₃_congr fun c s₀ s₁ => ?_
  constructor
  · intro hall d ha hs hr
    obtain hp | ⟨s₂, hok, hI⟩ := checkDiskChange_cases root c.dev (h.read ha) c.changed
    · cases hp.symm.trans hs
    · cases hok.symm.trans hs
      exact (readSuper_answer_iff hI hs).mp (hall ha hs) d hr
  · intro hall ha hs
    obtain hp | ⟨s₂, hok, hI⟩ := checkDiskChange_cases root c.dev (h.read ha) c.changed
    · cases hp.symm.trans hs
    · cases hok.symm.trans hs
      exact (readSuper_answer_iff hI hs).mpr fun d hr => hall d ha hs hr

/-- What a call of `read_super` that answers as asked leaves behind. -/
theorem Inv.answer (h : Inv s) {r : Option (Fin 8)} (hr : Answer s (.ok (r, s'))) :
    Inv s' ∧ ∀ i, r = some i → Usable (s'.superBlock i) := by
  cases r with
  | none =>
    refine ⟨⟨hr.lock, fun i hi => ?_⟩, nofun⟩
    by_cases heq : s'.superBlock i = s.superBlock i
    · rw [heq] at hi ⊢
      exact h.usable i hi
    · exact absurd (hr.entry i heq).2 hi
  | some i =>
    obtain ⟨hj, hl, hu⟩ := hr
    refine ⟨⟨fun j => ?_, fun j hd => ?_⟩, fun _ hi => Option.some.inj hi ▸ hu⟩
    · by_cases hji : j = i
      · exact hji ▸ hl
      · rw [hj j hji]
        exact h.lock j
    · by_cases hji : j = i
      · exact hji ▸ hu
      · rw [hj j hji] at hd ⊢
        exact h.usable j hd

theorem mountRoot_keeps (h : ∀ s₁, checkDiskChange root root c.changed s.clear = .ok s₁ →
    Answer s₁ (readSuper root { c with dev := root } s.clear)) :
    mountRoot root c s ≠ .error .fault ∧ ∀ s', mountRoot root c s = .ok s' → Inv s' := by
  unfold mountRoot
  dsimp only [bind, Except.bind]
  obtain hp | ⟨s₁, hok, hI⟩ :=
    checkDiskChange_cases root root (Inv.clear s) c.changed
  · by_cases h0 : root = 0
    · simp [readSuper, h0]
    · simp [readSuper, h0, hp, bind, Except.bind]
  · have ha := h s₁ hok
    cases hr : readSuper root { c with dev := root } s.clear with
    | error e =>
      rw [hr] at ha
      cases e with
      | panic => exact ⟨nofun, nofun⟩
      | fault => exact ha.elim
    | ok r =>
      obtain ⟨r, s₂⟩ := r
      rw [hr] at ha
      obtain ⟨hI₂, hu⟩ := hI.answer ha
      cases r with
      | none => exact ⟨nofun, nofun⟩
      | some i =>
        dsimp only
        have hcount := (hu i rfl).count s₂.bits
        cases hc : countAll s₂.bits (s₂.superBlock i) with
        | error e =>
          rw [hc] at hcount
          refine ⟨fun he => hcount ?_, nofun⟩
          cases he
          rfl
        | ok v =>
          refine ⟨nofun, fun s' hs => ?_⟩
          cases hs
          exact hI₂

theorem readSuper_keeps (h : Inv s) (ha : ∀ s₁, checkDiskChange root c.dev c.changed s = .ok s₁ →
    Answer s₁ (readSuper root c s)) :
    (readSuper root c s).map (·.2) ≠ .error .fault ∧
      ∀ s', (readSuper root c s).map (·.2) = .ok s' → Inv s' := by
  obtain hp | ⟨s₁, hok, hI⟩ := checkDiskChange_cases root c.dev h c.changed
  · by_cases h0 : c.dev = 0
    · rw [readSuper, if_pos h0]
      refine ⟨nofun, fun s' hs => ?_⟩
      cases hs
      exact h
    · simp [readSuper, h0, hp, bind, Except.bind, Except.map]
  · have ha := ha s₁ hok
    cases hr : readSuper root c s with
    | error e =>
      rw [hr] at ha
      cases e with
      | panic => exact ⟨nofun, nofun⟩
      | fault => exact ha.elim
    | ok r =>
      rw [hr] at ha
      refine ⟨nofun, fun s' hs => ?_⟩
      cases hs
      exact (hI.answer ha).1

theorem Keeps.safe {r : Except Stop State} (h : Keeps s r) (hI : Inv s) :
    r ≠ .error .fault ∧ ∀ s', r = .ok s' → Inv s' := by
  constructor
  · rintro rfl
    exact h
  · rintro s' rfl
    exact hI.of_eq h

/-- An action whose read of a super block answers as asked ends without a fault, in order. -/
theorem exec_safe (h : Inv s) (a : Act) (ha : ∀ c s₀ s₁, a.read root s = some (c, s₀) →
    checkDiskChange root c.dev c.changed s₀ = .ok s₁ → Answer s₁ (readSuper root c s₀)) :
    exec root a s ≠ .error .fault ∧ ∀ s', exec root a s = .ok s' → Inv s' := by
  cases a with
  | readSuper c => exact readSuper_keeps h fun s₁ => ha c s s₁ rfl
  | putSuper dev =>
    refine ⟨fun (hf : putSuper root dev s = .error .fault) => ?_, fun s' => h.putSuper⟩
    obtain hp | ⟨s', hok, -⟩ := putSuper_cases root dev s
    · cases hp.symm.trans hf
    · cases hok.symm.trans hf
  | mountRoot c => exact mountRoot_keeps fun s₁ => ha { c with dev := root } s.clear s₁ rfl
  | imount i v =>
    refine ⟨nofun, fun s' hs => ?_⟩
    cases hs
    exact h.set rfl (h.lock i) fun hd => (h.usable i hd).congr rfl rfl rfl
  | freeBlock dev block bh => exact (freeBlock_keeps h block bh).safe h
  | newBlock dev => exact (newBlock_keeps h).safe h
  | freeInode inode => exact (freeInode_keeps h inode).safe h
  | newInode dev empty => exact (newInode_keeps h empty).safe h
  | others count bits =>
    refine ⟨nofun, fun s' hs => ?_⟩
    cases hs
    exact h.of_eq rfl

theorem good_iff (h : Inv s) {a : Act} : Good root s a ↔ CountsFit root s a := by
  rw [← answers_iff h]
  constructor
  · exact Good.answer
  · intro ha
    exact ⟨(exec_safe h a ha).1, ha⟩

theorem Inv.step (h : Inv s) {a : Act} (ha : Good root s a) (hs : step root a s = some s') :
    Inv s' := by
  have hsafe := exec_safe h a ha.answer
  unfold Super.step at hs
  cases he : exec root a s with
  | error e =>
    rw [he] at hs
    cases e with
    | panic => cases hs
    | fault => exact absurd he hsafe.1
  | ok s₂ =>
    rw [he] at hs
    cases hs
    exact hsafe.2 s' he

/-- No run from an empty table faults, and every call of `read_super` in it answers as asked, exactly
when the counts fit the bitmaps at each super block that it reads. -/
theorem each_good_iff (root : UInt16) (s : State) (acts : List Act) :
    Each (step root) (Good root) acts s.clear ↔ Each (step root) (CountsFit root) acts s.clear := by
  have hI := Inv.clear s
  generalize s.clear = s at hI
  induction acts generalizing s with
  | nil => exact Iff.rfl
  | cons a acts ih =>
    refine forall₂_congr fun s' hs => ?_
    rw [good_iff hI]
    refine and_congr_right fun ha => ih s' (hI.step ((good_iff hI).mpr ha) hs)

/-! ## Counts that do not fit -/

def empty : State := ⟨fun _ => ⟨⟨0, 0, 0, 0, 0, 0⟩, noMap, noMap, 0, false, false⟩, fun _ => 0,
  fun _ _ => false⟩

/-- The first partition of the hard disk, where every block can be read. -/
def readable (d : DSuperBlock) : Call := ⟨0x301, false, some (1, d), fun i => some (i + 2), fun i => some (i + 16)⟩

/-- There are more blocks of the inode bitmap than slots. -/
def nineBlocks : DSuperBlock := ⟨65535, 65535, 9, 8, 4200, SUPER_MAGIC⟩

/-- There is no block of the inode bitmap. -/
def noBlock : DSuperBlock := ⟨32, 100, 0, 1, 5, SUPER_MAGIC⟩

/-- There is one block of the zone bitmap for 60000 zones. -/
def oneBlock : DSuperBlock := ⟨32, 60000, 1, 1, 5, SUPER_MAGIC⟩

/-- The first two are stopped by a fault in `read_super`, the third returns a super block with which
`free_block` faults. -/
theorem faults_badCounts :
    exec 0x302 (.readSuper (readable nineBlocks)) empty.clear = .error .fault ∧
    exec 0x302 (.readSuper (readable noBlock)) empty.clear = .error .fault ∧
    (exec 0x302 (.readSuper (readable oneBlock)) empty.clear).bind
      (exec 0x302 (.freeBlock 0x301 50000 none)) = .error .fault ∧
    ¬ Each (step 0x302) (Good 0x302) [.readSuper (readable nineBlocks)] empty.clear := by
  have hnine : exec 0x302 (.readSuper (readable nineBlocks)) empty.clear = .error .fault := rfl
  refine ⟨hnine, rfl, rfl, fun h => ?_⟩
  have hstep : step 0x302 (.readSuper (readable nineBlocks)) empty.clear = some empty.clear := rfl
  exact (h _ hstep).1.safe hnine

end Linux012.Super
