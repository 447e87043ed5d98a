import Linux012.Fs.Entries.Creation

/-! # What failed calls leave

A call that fails to make a file gives back the inode and the zone that it took. Only the zones that the
directory has got while it grew stay.
-/

namespace Linux012.Creation

open Function Splice
open FileDev hiding Inode Sys Op step
open Allocator (Mounted)
open Truncate (bitOf bitOf_inj clearBit bitSet_clearBit)
open Entries (slots)
open Files (Errno)

variable {s s' s'' : State} {dir : Dir} {inode : Inode} {c : Args} {dev i j n num q w z : ℕ} {fs fs' : Fs}
  {d d' : FileDev.Inode}

/-! ## Devices -/

theorem setFs_fs (s : State) (dev : ℕ) (fs : Fs) (n : ℕ) :
    (s.setFs dev fs n).fs = if n = dev then fs else (s n).fs := by
  unfold State.setFs
  rw [update_apply]
  split_ifs <;> rfl

theorem setFs_imap (s : State) (dev : ℕ) (fs : Fs) (n : ℕ) : BitSet (s.setFs dev fs n).imap i j ↔ BitSet (s n).imap i j := by
  unfold State.setFs
  rw [update_apply]
  split_ifs with hn
  · subst hn
    exact Iff.rfl
  · exact Iff.rfl

theorem setImap_fs (s : State) (dev : ℕ) (imap : Fs) (n : ℕ) : (s.setImap dev imap n).fs = (s n).fs := by
  unfold State.setImap
  rw [update_apply]
  split_ifs with hn
  · rw [hn]
  · rfl

theorem setImap_imap (s : State) (dev : ℕ) (imap : Fs) (n : ℕ) :
    BitSet (s.setImap dev imap n).imap i j ↔ if n = dev then BitSet imap i j else BitSet (s n).imap i j := by
  unfold State.setImap
  rw [update_apply]
  split_ifs with hn
  · exact Iff.rfl
  · exact Iff.rfl

/-! ## Zones that nothing is stored into -/

theorem mounted_ok (h : Mounted fs) : fs.Ok where
  first := h.first
  nzones := h.nzones
  reserved _ hm := (Allocator.bitSet_iff hm).mp h.reserved

/-- The zones in use, with their blocks, are as they were. -/
structure Keeps (fs fs' : Fs) : Prop where
  first : fs'.sFirstdatazone = fs.sFirstdatazone
  nzones : fs'.sNzones = fs.sNzones
  mounted : Mounted fs'
  mono : ∀ i j, BitSet fs i j → BitSet fs' i j
  blocks : ∀ w, fs.sFirstdatazone ≤ w → w < fs.sNzones → Used fs w → fs'.blocks w = fs.blocks w

theorem Keeps.refl (h : Mounted fs) : Keeps fs fs := ⟨rfl, rfl, h, fun _ _ => id, fun _ _ _ _ => rfl⟩

theorem Keeps.used (h : Keeps fs fs') (hu : Used fs w) : Used fs' w := by
  unfold Used
  rw [h.first]
  exact h.mono _ _ hu

theorem Keeps.zoneAt (h : Keeps fs fs') (hw : Wf fs d) {s : Slot} (hs : Valid s) :
    zoneAt fs' d s = zoneAt fs d s := by
  induction s with
  | root k => rfl
  | entry p k ih =>
    have hp := hs.parent.1.valid
    rw [FileDev.zoneAt, FileDev.zoneAt, ih hp]
    split_ifs with h0
    · rfl
    · obtain ⟨hle, hlt, hu⟩ := hw.used p hp h0
      rw [h.blocks _ hle hlt hu]

theorem Keeps.view (h : Keeps fs fs') (hw : Wf fs d) (b : ℕ) : view fs' d b = view fs d b := by
  unfold FileDev.view
  by_cases hb : b < MAX_BLOCKS
  · rw [h.zoneAt hw (slotOf_valid hb)]
    split_ifs with h0
    · obtain ⟨hle, hlt, hu⟩ := hw.used _ (slotOf_valid hb) h0.2
      exact h.blocks _ hle hlt hu
    · rfl
  · rw [if_neg fun hc => hb hc.1, if_neg fun hc => hb hc.1]

theorem Keeps.wf (h : Keeps fs fs') (hw : Wf fs d) : Wf fs' d where
  ok := mounted_ok h.mounted
  used s hs h0 := by
    rw [h.zoneAt hw hs] at h0 ⊢
    obtain ⟨hle, hlt, hu⟩ := hw.used s hs h0
    exact ⟨h.first ▸ hle, h.nzones ▸ hlt, h.used hu⟩
  inj s s' hs hs' h0 he := by
    rw [h.zoneAt hw hs] at h0 he
    rw [h.zoneAt hw hs'] at he
    exact hw.inj s s' hs hs' h0 he

/-! ## A new inode -/

/-- The inode `num` of the device has been made, with the zone `z` if this is not 0, and nothing else has changed
that is in use. -/
structure Made (s s' : State) (dev num z : ℕ) : Prop where
  keeps : ∀ n, Keeps (s n).fs (s' n).fs
  inodes : ∀ n i j, BitSet (s' n).imap i j ↔ BitSet (s n).imap i j ∨ n = dev ∧ (i, j) = (num / 8192, num % 8192)
  free : ¬ BitSet (s dev).imap (num / 8192) (num % 8192)
  zones : ∀ n i j, BitSet (s' n).fs i j ↔ BitSet (s n).fs i j ∨ z ≠ 0 ∧ n = dev ∧ (i, j) = bitOf (s dev).fs z
  fresh : z ≠ 0 → (s dev).fs.sFirstdatazone ≤ z ∧ z < (s dev).fs.sNzones ∧ ¬ Used (s dev).fs z

theorem newBlock_keeps (hm : Mounted fs) : Keeps fs (newBlock fs).1 where
  first := (newBlock_spec (mounted_ok hm)).first
  nzones := (newBlock_spec (mounted_ok hm)).nzones
  mounted := newBlock_mounted hm
  mono i j hb := by
    by_cases hz : (newBlock fs).2 = 0
    · rwa [newBlock_full hm hz]
    · exact (newBlock_bits hm hz i j).mpr (.inl hb)
  blocks w _ _ hu := by
    rcases (newBlock_spec (mounted_ok hm)).zone with ⟨-, hb⟩ | ⟨-, -, hfree, -, hb⟩
    · rw [hb]
    · rw [hb, update_of_ne]
      rintro rfl
      exact hfree hu

theorem Keeps.trans {fs'' : Fs} (h : Keeps fs fs') (h' : Keeps fs' fs'') : Keeps fs fs'' where
  first := h'.first.trans h.first
  nzones := h'.nzones.trans h.nzones
  mounted := h'.mounted
  mono i j hb := h'.mono i j (h.mono i j hb)
  blocks w hle hlt hu := (h'.blocks w (h.first ▸ hle) (h.nzones ▸ hlt) (h.used hu)).trans (h.blocks w hle hlt hu)

/-- The file system of one device is exchanged. -/
theorem keeps_setFs (h : ∀ n, Keeps (s n).fs (s' n).fs) (hfs : Keeps (s' dev).fs fs) (n : ℕ) :
    Keeps (s n).fs (s'.setFs dev fs n).fs := by
  rw [setFs_fs]
  split_ifs with hn
  · subst hn
    exact (h n).trans hfs
  · exact h n

theorem Made.newZone (h : Made s s' dev num 0) (hdev : inode.iDev = dev) :
    Made s (newZone s' inode).1 dev num (newZone s' inode).2 := by
  subst hdev
  have hm := (h.keeps inode.iDev).mounted
  have hold (n i j : ℕ) : BitSet (s' n).fs i j ↔ BitSet (s n).fs i j :=
    (h.zones n i j).trans (or_iff_left fun hc => hc.1 rfl)
  have hused (w : ℕ) : Used (s' inode.iDev).fs w ↔ Used (s inode.iDev).fs w := by
    unfold Used
    rw [hold, (h.keeps _).first]
  have hnew := newBlock_spec (mounted_ok hm)
  refine ⟨fun n => ?_, fun n i j => ?_, h.free, fun n i j => ?_, fun hz => ?_⟩
  · exact keeps_setFs h.keeps (newBlock_keeps hm) n
  · exact (setFs_imap ..).trans (h.inodes n i j)
  · change BitSet (s'.setFs inode.iDev (newBlock (s' inode.iDev).fs).1 n).fs i j ↔ _ ∨ (newBlock (s' inode.iDev).fs).2 ≠ 0 ∧ _
    rw [setFs_fs]
    by_cases hn : n = inode.iDev
    · subst hn
      rw [if_pos rfl]
      by_cases hz : (newBlock (s' inode.iDev).fs).2 = 0
      · rw [newBlock_full hm hz, hold]
        exact (or_iff_left fun hc => hc.1 hz).symm
      · rw [newBlock_bits hm hz, hold, bitOf_congr (h.keeps _).first, and_iff_right hz, and_iff_right rfl]
        rfl
    · rw [if_neg hn, hold]
      exact (or_iff_left fun hc => hn hc.2.1).symm
  · obtain ⟨hle, hlt, hfree, -⟩ := hnew.found hz
    exact ⟨(h.keeps _).first ▸ hle, (h.keeps _).nzones ▸ hlt, fun hu => hfree ((hused _).mpr hu)⟩

/-- The new zone is written. -/
theorem Made.store (h : Made s s' dev num z) (hz : z ≠ 0) (f : Block → Block) : Made s (store s' dev z f) dev num z where
  keeps n := by
    unfold Creation.store
    rw [setFs_fs]
    split_ifs with hn
    · subst hn
      have hk := h.keeps n
      refine ⟨hk.first, hk.nzones, hk.mounted.congr rfl rfl rfl, hk.mono, fun w hle hlt hu => ?_⟩
      dsimp only
      rw [update_of_ne]
      · exact hk.blocks w hle hlt hu
      · rintro rfl
        exact (h.fresh hz).2.2 hu
    · exact h.keeps n
  inodes n i j := (setFs_imap ..).trans (h.inodes n i j)
  free := h.free
  zones n i j := by
    unfold Creation.store
    rw [setFs_fs, ← h.zones]
    split_ifs with hn
    · subst hn
      exact Iff.rfl
    · exact Iff.rfl
  fresh := h.fresh

/-! ## Giving it back -/

theorem freeDirect_zero {held : ℕ → ℕ → Bool} {t : Truncate.State} {m : ℕ}
    (h : ∀ k, i ≤ k → k < i + m → t.inode.iZone k = 0) (busy : Bool) :
    Truncate.freeDirect held m i busy t = some (t, busy) := by
  induction m generalizing i with
  | zero => rfl
  | succ m ih =>
    rw [Truncate.freeDirect, if_pos (h i le_rfl (by omega))]
    exact ih fun k hk hlt => h k (by omega) (by omega)

theorem freeRoot_zero {held : ℕ → ℕ → Bool} {bad : ℕ → Bool}
    {free : ℕ → Truncate.State → Option (Truncate.State × Bool)} {t : Truncate.State} {k : ℕ}
    (h : t.inode.iZone k = 0) (busy : Bool) :
    Truncate.freeRoot (Truncate.freeTable held bad free) k busy t = some (t.setZone k, busy) := by
  unfold Truncate.freeRoot
  rw [h, Truncate.freeTable_zero]
  rfl

theorem freeBlock_alone {t t' : Truncate.State} {ok : Bool}
    (h : Truncate.freeBlock (fun _ _ => false) z t = some (t', ok)) :
    ok = true ∧ t'.inode = t.inode ∧ t'.fs = clearBit t.fs (bitOf t.fs z).1 (bitOf t.fs z).2 := by
  unfold Truncate.freeBlock at h
  split at h
  · cases h
  · rw [if_neg Bool.false_ne_true] at h
    obtain ⟨b, -, he⟩ := Option.map_eq_some_iff.mp h
    dsimp only at he
    split_ifs at he
    all_goals
      obtain ⟨rfl, rfl⟩ := Prod.mk.inj he
      exact ⟨rfl, rfl, rfl⟩

/-- A new inode has one zone at most, and nobody else holds it. -/
theorem round_single {t t' : Truncate.State} {busy : Bool} (h : ∀ k, 0 < k → k < 9 → t.inode.iZone k = 0)
    (hr : Truncate.round (fun _ _ => false) fine t = some (t', busy)) :
    busy = false ∧ t'.fs = if t.inode.iZone 0 = 0 then t.fs
      else clearBit t.fs (bitOf t.fs (t.inode.iZone 0)).1 (bitOf t.fs (t.inode.iZone 0)).2 := by
  -- the indirect blocks are those of empty slots
  have hrest {u : Truncate.State} (hu : ∀ k, 0 < k → k < 9 → u.inode.iZone k = 0)
      (hr : ((Truncate.freeRoot (Truncate.freeInd (fun _ _ => false) fine) 7 false u).bind fun r =>
        Truncate.freeRoot (Truncate.freeDind (fun _ _ => false) fine) 8 r.2 r.1) = some (t', busy)) :
      busy = false ∧ t'.fs = u.fs := by
    unfold Truncate.freeInd Truncate.freeDind at hr
    rw [freeRoot_zero (hu 7 (by omega) (by omega)), Option.bind_some,
      freeRoot_zero (by exact hu 8 (by omega) (by omega))] at hr
    obtain ⟨rfl, rfl⟩ := Prod.mk.inj (Option.some.inj hr)
    exact ⟨rfl, rfl⟩
  unfold Truncate.round at hr
  by_cases h0 : t.inode.iZone 0 = 0
  · rw [freeDirect_zero fun k hk hlt => ?_, Option.bind_some] at hr
    · rw [if_pos h0]
      exact hrest h hr
    · rcases Nat.eq_zero_or_pos k with rfl | hpos
      · exact h0
      · exact h k hpos (by omega)
  · rw [if_neg h0]
    rw [Truncate.freeDirect, if_neg h0] at hr
    cases hfree : Truncate.freeBlock (fun _ _ => false) (t.inode.iZone 0) t with
    | none =>
      rw [hfree] at hr
      cases hr
    | some p =>
      obtain ⟨u, ok⟩ := p
      obtain ⟨rfl, hinode, hfs⟩ := freeBlock_alone hfree
      have hu (k : ℕ) (hpos : 0 < k) (hlt : k < 9) : (u.setZone 0).inode.iZone k = 0 := by
        change update u.inode.iZone 0 0 k = 0
        rw [update_of_ne hpos.ne', hinode]
        exact h k hpos hlt
      rw [hfree, Option.bind_some] at hr
      dsimp only at hr
      rw [if_pos rfl, freeDirect_zero fun k hk hlt => hu k hk (by omega), Option.bind_some] at hr
      obtain ⟨hbusy, hsame⟩ := hrest hu hr
      exact ⟨hbusy, hsame.trans hfs⟩

def Truncatable (iMode : BitVec 16) : Prop :=
  iMode &&& Files.S_IFMT = Files.S_IFREG ∨ iMode &&& Files.S_IFMT = Files.S_IFDIR ∨
    iMode &&& Files.S_IFMT = Files.S_IFLNK

/-- `truncate` frees the zone if the mode is that of a file with zones. -/
theorem truncate_single {iMode : BitVec 16} {t : Truncate.State} {ok : Bool} (h : ∀ k, 0 < k → k < 9 → d.iZone k = 0)
    (hr : Truncate.truncate (fun _ _ => false) fine iMode 1 (Truncate.start fs d) = some (t, ok)) :
    (¬ Truncatable iMode → t.fs = fs) ∧ (Truncatable iMode → t.fs = if d.iZone 0 = 0 then fs
      else clearBit fs (bitOf fs (d.iZone 0)).1 (bitOf fs (d.iZone 0)).2) := by
  unfold Truncate.truncate at hr
  by_cases hmode : Truncatable iMode
  · refine ⟨fun hno => absurd hmode hno, fun _ => ?_⟩
    have hmode' := hmode
    unfold Truncatable at hmode'
    rw [if_pos hmode', Truncate.rounds] at hr
    cases hround : Truncate.round (fun _ _ => false) fine (Truncate.start fs d) with
    | none =>
      rw [hround] at hr
      cases hr
    | some p =>
      obtain ⟨u, busy⟩ := p
      obtain ⟨rfl, hfs⟩ := round_single h hround
      rw [hround, Option.bind_some] at hr
      obtain ⟨rfl, -⟩ := Prod.mk.inj (Option.some.inj hr)
      exact hfs
  · have hmode' := hmode
    unfold Truncatable at hmode'
    rw [if_neg hmode'] at hr
    obtain ⟨rfl, -⟩ := Prod.mk.inj (Option.some.inj hr)
    exact ⟨fun _ => rfl, fun hyes => absurd hyes hmode⟩

/-- The inode of the file that is made: its number, and its zone if its mode is that of a file with zones. -/
structure Fits (inode : Inode) (dev num z : ℕ) : Prop where
  dev : inode.iDev = dev
  num : inode.iNum = num
  rest : ∀ k, 0 < k → k < 9 → inode.inode.iZone k = 0
  zone : Truncatable inode.iMode → inode.inode.iZone 0 = z
  special : ¬ Truncatable inode.iMode → z = 0

theorem freeInode_bits (h : freeInode s inode = .ok s') (n i j : ℕ) :
    (s' n).fs = (s n).fs ∧ (BitSet (s' n).imap i j ↔ BitSet (s n).imap i j ∧
      ¬ (n = inode.iDev ∧ (i, j) = (inode.iNum / 8192, inode.iNum % 8192))) := by
  unfold freeInode at h
  dsimp only at h
  split_ifs at h
  split at h
  · cases h
  · obtain rfl := Except.ok.inj h
    refine ⟨setImap_fs .., ?_⟩
    rw [setImap_imap]
    by_cases hn : n = inode.iDev
    · subst hn
      rw [if_pos rfl, bitSet_clearBit, and_iff_right rfl, ne_comm]
    · rw [if_neg hn]
      exact (and_iff_left fun hc => hn hc.1).symm

/-- What `iput` does with an inode that has no link. -/
theorem iput_bits (hfit : Fits inode dev num z) (h : iput s { inode with iNlinks := 0 } = .ok s') (n : ℕ) :
    (s' n).fs = (if n = dev ∧ z ≠ 0 then clearBit (s n).fs (bitOf (s n).fs z).1 (bitOf (s n).fs z).2 else (s n).fs) ∧
      ∀ i j, BitSet (s' n).imap i j ↔ BitSet (s n).imap i j ∧ ¬ (n = dev ∧ (i, j) = (num / 8192, num % 8192)) := by
  obtain ⟨rfl, rfl, hrest, hzone, hspecial⟩ := hfit
  unfold iput at h
  rw [if_neg (not_not.mpr rfl)] at h
  dsimp only at h
  split at h
  · cases h
  · rename_i t ok htrunc
    obtain ⟨hno, hyes⟩ := truncate_single hrest htrunc
    refine ⟨?_, fun i j => ?_⟩
    · rw [(freeInode_bits h n 0 0).1, setFs_fs]
      by_cases hn : n = inode.iDev
      · subst hn
        rw [if_pos rfl]
        by_cases hmode : Truncatable inode.iMode
        · rw [hyes hmode, hzone hmode]
          by_cases hz : z = 0
          · rw [if_pos hz, if_neg fun hc => hc.2 hz]
          · rw [if_neg hz, if_pos ⟨rfl, hz⟩]
        · rw [hno hmode, if_neg fun hc => hc.2 (hspecial hmode)]
      · rw [if_neg hn, if_neg fun hc => hn hc.1]
    · rw [(freeInode_bits h n i j).2]
      exact and_congr_left' (setFs_imap ..)

/-! ## What stays -/

/-- The bitmaps and the entries are as they were, but for the zones that the directory has got, and so are the zones
that were in use and are no indirect blocks of it. -/
structure Intact (s : State) (dir : Dir) (s' : State) (dir' : Dir) : Prop where
  inodes : ∀ n i j, BitSet (s' n).imap i j ↔ BitSet (s n).imap i j
  zones : ∀ n i j, BitSet (s' n).fs i j ↔
    BitSet (s n).fs i j ∨ n = dir.iDev ∧ Gains (s n).fs dir.inode (s' n).fs dir'.inode i j
  size : dir'.inode.iSize = dir.inode.iSize
  entries : slots (s' dir.iDev).fs dir'.inode = slots (s dir.iDev).fs dir.inode
  blocks : ∀ n w, (s n).fs.sFirstdatazone ≤ w → w < (s n).fs.sNzones → Used (s n).fs w →
    (n = dir.iDev → ∀ q, Table q → zoneAt (s n).fs dir.inode q ≠ w) → (s' n).fs.blocks w = (s n).fs.blocks w

theorem not_gains_self : ¬ Gains fs d fs d i j := by
  rintro ⟨q, -, h0, hne, -⟩
  exact hne h0

theorem Intact.refl (s : State) (dir : Dir) : Intact s dir s dir where
  inodes _ _ _ := Iff.rfl
  zones _ _ _ := (or_iff_left fun hc => not_gains_self hc.2).symm
  size := rfl
  entries := rfl
  blocks _ _ _ _ _ _ := rfl

theorem gains_congr {fs₁ fs₁' : Fs} (hold : ∀ q, Valid q → zoneAt fs₁ d q = zoneAt fs d q)
    (hnew : ∀ q, zoneAt fs₁' d' q = zoneAt fs' d' q) (hfirst : fs₁.sFirstdatazone = fs.sFirstdatazone) :
    Gains fs₁ d fs₁' d' i j ↔ Gains fs d fs' d' i j := by
  unfold Gains
  refine exists_congr fun q => and_congr_right fun hq => ?_
  rw [hold q hq, hnew, bitOf_congr hfirst]

/-- The zone of the new inode is none that the directory has got. -/
theorem Made.not_gains (h : Made s s' dev num z) (hg : Grown (s' dev).fs d fs d') (hz : z ≠ 0) :
    ¬ Gains (s' dev).fs d fs d' (bitOf (s dev).fs z).1 (bitOf (s dev).fs z).2 := by
  rintro ⟨q, hq, h0, hne, he⟩
  obtain ⟨hle, hlt, hfree⟩ := h.fresh hz
  have hk := h.keeps dev
  obtain ⟨hle', -, -⟩ := hg.ext.wf.used q hq hne
  rw [hg.first, hk.first] at hle'
  rw [bitOf_congr hk.first] at he
  refine hg.fresh q hq h0 hne ?_
  rw [← bitOf_inj hle hle' he]
  unfold Used
  rw [hk.first]
  exact (h.zones dev _ _).mpr (.inr ⟨hz, rfl, rfl⟩)

/-- A new inode is given back after the directory may have grown. -/
theorem Made.intact (hw : Wf (s dir.iDev).fs dir.inode) (h : Made s s' dev num z)
    (hg : Grown (s' dir.iDev).fs dir.inode fs d) (hfit : Fits inode dev num z)
    (hput : iput (s'.setFs dir.iDev fs) { inode with iNlinks := 0 } = .ok s'') :
    Intact s dir s'' { dir with inode := d } := by
  have hput := iput_bits hfit hput
  have hkd := h.keeps dir.iDev
  have hfirst (n : ℕ) : (s'.setFs dir.iDev fs n).fs.sFirstdatazone = (s n).fs.sFirstdatazone := by
    rw [setFs_fs]
    split_ifs with hn
    · rw [hg.first, hkd.first, hn]
    · exact (h.keeps n).first
  have hblocks (n : ℕ) : (s'' n).fs.blocks = (s'.setFs dir.iDev fs n).fs.blocks := by
    rw [(hput n).1]
    split_ifs
    · rfl
    · rfl
  have hgains (n i j : ℕ) : (n = dir.iDev ∧ Gains (s n).fs dir.inode (s'' n).fs d i j) ↔
      n = dir.iDev ∧ Gains (s' n).fs dir.inode fs d i j := by
    refine and_congr_right ?_
    rintro rfl
    refine (gains_congr (fun q hq => hkd.zoneAt hw hq) (fun q => ?_) hkd.first).symm
    rw [zoneAt_congr (hblocks dir.iDev), setFs_fs, if_pos rfl]
  have hmid (n i j : ℕ) : BitSet (s'.setFs dir.iDev fs n).fs i j ↔
      (BitSet (s n).fs i j ∨ z ≠ 0 ∧ n = dev ∧ (i, j) = bitOf (s dev).fs z) ∨
        n = dir.iDev ∧ Gains (s' n).fs dir.inode fs d i j := by
    rw [setFs_fs, ← h.zones]
    split_ifs with hn
    · subst hn
      rw [hg.bits, and_iff_right rfl]
    · exact (or_iff_left fun hc => hn hc.1).symm
  constructor
  · intro n i j
    rw [(hput n).2, setFs_imap, h.inodes, or_and_right, and_not_self_iff, or_false]
    refine and_iff_left_of_imp ?_
    rintro hb ⟨rfl, he⟩
    obtain ⟨rfl, rfl⟩ := Prod.mk.inj he
    exact h.free hb
  · intro n i j
    dsimp only
    rw [hgains, (hput n).1]
    split_ifs with hn
    · obtain ⟨rfl, hz⟩ := hn
      rw [bitSet_clearBit, hmid, bitOf_congr (hfirst n)]
      constructor
      · rintro ⟨(hb | ⟨-, -, he⟩) | hgain, hne⟩
        · exact .inl hb
        · exact absurd he.symm hne
        · exact .inr hgain
      · rintro (hb | ⟨rfl, hgain⟩)
        · refine ⟨.inl (.inl hb), fun he => ?_⟩
          obtain ⟨rfl, rfl⟩ := Prod.mk.inj he
          exact (h.fresh hz).2.2 hb
        · refine ⟨.inr ⟨rfl, hgain⟩, fun he => ?_⟩
          obtain ⟨rfl, rfl⟩ := Prod.mk.inj he
          exact h.not_gains hg hz hgain
    · have hno : ¬ (z ≠ 0 ∧ n = dev ∧ (i, j) = bitOf (s dev).fs z) := fun hc => hn ⟨hc.2.1, hc.1⟩
      rw [hmid, or_iff_left hno]
  · exact hg.ext.size
  · have hview (b : ℕ) : view (s'' dir.iDev).fs d b = view (s dir.iDev).fs dir.inode b := by
      have hsame : (s'' dir.iDev).fs.blocks = fs.blocks := by rw [hblocks, setFs_fs, if_pos rfl]
      rw [← hkd.view hw, ← hg.ext.view]
      simp only [view, zoneAt_congr hsame, hsame]
    funext i
    dsimp only [slots]
    rw [hview]
  · intro n w hle hlt hu hno
    have hk := h.keeps n
    rw [hblocks, setFs_fs, ← hk.blocks w hle hlt hu]
    split_ifs with hn
    · subst hn
      refine hg.blocks w ⟨hk.first ▸ hle, hk.nzones ▸ hlt, hk.used hu, fun q hq => ?_⟩
      rw [hk.zoneAt hw hq.valid]
      exact hno rfl q hq
    · rfl

/-! ## The calls -/

theorem addLoop_grown {bad : ℕ → Bool} {name : Entries.Name} {fuel k : ℕ} {bh : Option ℕ} {held held' : List ℕ}
    (hw : Wf fs d) (hm : Mounted fs)
    (hr : Entries.addLoop bad name fuel fs d i bh k held = .ok ((fs', d'), none, held')) : Grown fs d fs' d' := by
  induction fuel generalizing fs d i bh k held with
  | zero => cases hr
  | succ fuel ih =>
    cases bh with
    | none => cases hr
    | some z =>
      rw [Entries.addLoop] at hr
      -- an entry that is not free is in the directory already
      have hhere {fs₁ : Fs} {d₁ : FileDev.Inode} {z k : ℕ} {held : List ℕ} (hg : Grown fs d fs₁ d₁)
          (hr : (if Entries.inodeAt ((Entries.extend fs₁ d₁ i z k).1.blocks z) k = 0 then
              Except.ok ((Entries.putName (Entries.extend fs₁ d₁ i z k).1 z k name, (Entries.extend fs₁ d₁ i z k).2),
                some (z, k), held)
            else Entries.addLoop bad name fuel (Entries.extend fs₁ d₁ i z k).1 (Entries.extend fs₁ d₁ i z k).2
              (i + 1) (some z) (k + 1) held) = .ok ((fs', d'), none, held')) : Grown fs d fs' d' := by
        by_cases h0 : Entries.inodeAt ((Entries.extend fs₁ d₁ i z k).1.blocks z) k = 0
        · rw [if_pos h0] at hr
          cases hr
        rw [if_neg h0] at hr
        by_cases hsize : i * 16 ≥ d₁.iSize
        · rw [Entries.extend, if_pos hsize] at h0
          exact absurd Entries.inodeAt_setInode h0
        · rw [Entries.extend, if_neg hsize] at hr
          exact hg.trans (ih hg.ext.wf hg.mounted hr)
      dsimp only at hr
      unfold Entries.addTurn at hr
      split_ifs at hr with hk
      · exact hhere (.refl hw hm) hr
      · cases hrel : Entries.brelse (some z) held with
        | error e =>
          rw [hrel] at hr
          cases hr
        | ok held =>
          rw [hrel] at hr
          cases hc : createBlock fs d bad (i / Entries.DIR_ENTRIES_PER_BLOCK) with
          | none =>
            rw [hc] at hr
            cases hr
          | some p =>
            obtain ⟨fs₁, d₁, block⟩ := p
            have hg := createBlock_grown hw hm hc
            rw [hc] at hr
            dsimp only [Except.bind] at hr
            split_ifs at hr with h0 hbad
            · obtain ⟨⟨rfl, rfl⟩, -⟩ := by simpa using hr
              exact hg
            · cases fuel with
              | zero => cases hr
              | succ fuel => cases hr
            · exact hhere hg hr

theorem addEntry_grown {bad : ℕ → Bool} {name : Entries.Name} {held : List ℕ} (hw : Wf fs d) (hm : Mounted fs)
    (hr : Entries.addEntry fs d bad name = .ok ((fs', d'), none, held)) : Grown fs d fs' d' := by
  unfold Entries.addEntry at hr
  dsimp only at hr
  split_ifs at hr
  · obtain ⟨⟨rfl, rfl⟩, -⟩ := by simpa using hr
    exact .refl hw hm
  · exact addLoop_grown hw hm hr

/-- The devices are mounted, there is no inode 0, and the zones of the directory are consistent. -/
structure Sound (c : Args) (s : State) : Prop where
  mounted : ∀ n, Mounted (s n).fs
  reserved : ∀ n, BitSet (s n).imap 0 0
  wf : Wf (s c.parent.iDev).fs c.parent.inode

/-- A call has made the inode `inode`. -/
structure Holds (s s' : State) (inode : Inode) : Prop where
  made : ∃ z, Made s s' inode.iDev inode.iNum z ∧ Fits inode inode.iDev inode.iNum z

variable {e : Errno} {dir' : Dir}

theorem Holds.drop {e' : Errno} (hs : Sound c s) (h : Holds s s' inode)
    (hr : c.drop inode e s' = .ok (some e', s'', dir')) :
    Intact s c.parent s'' dir' := by
  obtain ⟨z, hmade, hfit⟩ := h.made
  unfold Args.drop at hr
  cases hput : iput s' { inode with iNlinks := 0 } with
  | error e =>
    rw [hput] at hr
    cases hr
  | ok t =>
    rw [hput] at hr
    obtain ⟨-, rfl, rfl⟩ := by simpa [Except.bind, Args.fail] using hr
    have hk := hmade.keeps c.parent.iDev
    have hsame : s'.setFs c.parent.iDev (s' c.parent.iDev).fs = s' := update_eq_self _ _
    exact hmade.intact hs.wf (.refl (hk.wf hs.wf) hk.mounted) hfit (hsame.symm ▸ hput)

theorem Holds.addEntry (hs : Sound c s) (h : Holds s s' inode)
    (hr : c.addEntry inode s' = .ok (some e, s'', dir')) : Intact s c.parent s'' dir' := by
  obtain ⟨z, hmade, hfit⟩ := h.made
  have hk := hmade.keeps c.parent.iDev
  unfold Args.addEntry at hr
  dsimp only at hr
  cases hadd : Entries.addEntry (s' c.parent.iDev).fs c.parent.inode c.badAdd c.name with
  | error e =>
    rw [hadd] at hr
    cases hr
  | ok r =>
    obtain ⟨⟨fs, d⟩, r, held⟩ := r
    rw [hadd] at hr
    cases r with
    | some p => cases hr
    | none =>
      dsimp only [Except.bind] at hr
      cases hput : iput (s'.setFs c.parent.iDev fs) { inode with iNlinks := 0 } with
      | error e =>
        rw [hput] at hr
        cases hr
      | ok t =>
        rw [hput] at hr
        obtain ⟨-, rfl, rfl⟩ := by simpa [Except.map] using hr
        exact hmade.intact hs.wf (addEntry_grown (hk.wf hs.wf) hk.mounted hadd) hfit hput

theorem Made.holds (h : Made s s' inode.iDev inode.iNum z) (hzone : inode.inode.iZone 0 = z)
    (hrest : ∀ k, 0 < k → inode.inode.iZone k = 0) (hmode : z = 0 ∨ Truncatable inode.iMode) : Holds s s' inode :=
  ⟨z, h, rfl, rfl, fun k hpos _ => hrest k hpos, fun _ => hzone, fun hno => hmode.resolve_right hno⟩

/-- `mkdir` comes to a new block that cannot be read. -/
structure Unread (c : Args) (s : State) : Prop where
  there : c.there = true
  name : c.name ≠ []
  mayWrite : c.dir.mayWrite = true
  find : c.findEntry s = .ok false
  inode : (newInode s c.parent.iDev).isSome
  block : (newBlock (s c.parent.iDev).fs).2 ≠ 0
  read : c.badNew (newBlock (s c.parent.iDev).fs).2 = true

/-- A device with the zones 10 to 13 and an empty directory in zone 10. -/
def device (zmap : ℕ → Bool) : Device where
  fs :=
    { sNzones := 14
      sFirstdatazone := 10
      sZmap := fun i => if i = 0 then some zmap else none
      blocks := fun _ _ => 0 }
  sNinodes := 8
  sImap i := if i = 0 then some fun j => j < 2 else none

/-- All zones are used, and the bits behind them are clear. -/
def full : State := fun _ => device fun j => j < 5

/-- `mkdir("a", mode)` in the directory; no new block can be read. -/
def args : Args where
  there := true
  dir :=
    { iDev := 1
      iNum := 1
      iNlinks := 2
      inode := { iZone := fun k => if k = 0 then 10 else 0, iSize := 32 }
      mayWrite := true }
  name := [97]
  root := true
  imount := none
  umask := 0
  badFind _ := false
  badNew _ := true
  badAdd _ := false

/-- The call fails with `ENOSPC` and leaves bit 5 of the zone bitmap set. -/
def marked : Except Stop Result → Bool
  | .ok (some .ENOSPC, s, _) => ((s 1).fs.sZmap 0).any fun m => m 5
  | _ => false

end Linux012.Creation
