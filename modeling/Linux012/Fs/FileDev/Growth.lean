import Linux012.Fs.FileDev.Allocator

/-! # Zones that a file takes

On a mounted device, the bits that `create_block` sets are those of the zones that the file gets by it, also when
it fails. Nothing is stored into other zones that are in use.
-/

namespace Linux012.FileDev

open Function Allocator
open Truncate (bitOf)

variable {fs fs' fs'' : Fs} {inode inode' inode'' : Inode} {bad : ℕ → Bool} {b i j k w z : ℕ} {q s : Slot}

/-- The bit belongs to a zone that the file has got. -/
def Gains (fs : Fs) (inode : Inode) (fs' : Fs) (inode' : Inode) (i j : ℕ) : Prop :=
  ∃ q, Valid q ∧ zoneAt fs inode q = 0 ∧ zoneAt fs' inode' q ≠ 0 ∧ (i, j) = bitOf fs (zoneAt fs' inode' q)

/-- The zone is in use, and not as an indirect block of the file. -/
def Foreign (fs : Fs) (inode : Inode) (w : ℕ) : Prop :=
  fs.sFirstdatazone ≤ w ∧ w < fs.sNzones ∧ Used fs w ∧ ∀ q, Table q → zoneAt fs inode q ≠ w

/-- The file has grown by zones that were free. -/
structure Grown (fs : Fs) (inode : Inode) (fs' : Fs) (inode' : Inode) : Prop where
  ext : Ext fs inode fs' inode'
  mounted : Mounted fs'
  first : fs'.sFirstdatazone = fs.sFirstdatazone
  nzones : fs'.sNzones = fs.sNzones
  bits : ∀ i j, BitSet fs' i j ↔ BitSet fs i j ∨ Gains fs inode fs' inode' i j
  fresh : ∀ q, Valid q → zoneAt fs inode q = 0 → zoneAt fs' inode' q ≠ 0 → ¬ Used fs (zoneAt fs' inode' q)
  blocks : ∀ w, Foreign fs inode w → fs'.blocks w = fs.blocks w

theorem bitOf_congr (h : fs'.sFirstdatazone = fs.sFirstdatazone) (w : ℕ) : bitOf fs' w = bitOf fs w := by
  unfold bitOf
  rw [h]

theorem Grown.refl (h : Wf fs inode) (hm : Mounted fs) : Grown fs inode fs inode where
  ext := .refl h
  mounted := hm
  first := rfl
  nzones := rfl
  bits i j := by
    refine (or_iff_left ?_).symm
    rintro ⟨q, -, h0, hne, -⟩
    exact hne h0
  fresh q _ h0 hne := absurd h0 hne
  blocks _ _ := rfl

theorem Grown.used (h : Grown fs inode fs' inode') (hu : Used fs w) : Used fs' w := by
  unfold Used
  rw [h.first]
  exact (h.bits _ _).mpr (.inl hu)

theorem Grown.foreign (h : Grown fs inode fs' inode') (hw : Foreign fs inode w) : Foreign fs' inode' w := by
  obtain ⟨hle, hlt, hu, hno⟩ := hw
  refine ⟨h.first ▸ hle, h.nzones ▸ hlt, h.used hu, fun q hq he => ?_⟩
  have hfirst := h.ext.wf.ok.first
  rw [h.first] at hfirst
  by_cases h0 : zoneAt fs inode q = 0
  · refine h.fresh q hq.valid h0 ?_ (he ▸ hu)
    omega
  · exact hno q hq ((h.ext.zone q hq.valid h0).symm.trans he)

theorem Grown.trans (h : Grown fs inode fs' inode') (h' : Grown fs' inode' fs'' inode'') :
    Grown fs inode fs'' inode'' where
  ext := h.ext.trans h'.ext
  mounted := h'.mounted
  first := h'.first.trans h.first
  nzones := h'.nzones.trans h.nzones
  bits i j := by
    rw [h'.bits, h.bits, or_assoc]
    refine or_congr_right ⟨?_, ?_⟩
    · rintro (⟨q, hq, h0, hne, he⟩ | ⟨q, hq, h0, hne, he⟩)
      · have hsame := h'.ext.zone q hq hne
        exact ⟨q, hq, h0, hsame ▸ hne, hsame ▸ he⟩
      · refine ⟨q, hq, by_contra fun hq0 => ?_, hne, he.trans (bitOf_congr h.first _)⟩
        exact hq0 ((h.ext.zone q hq hq0).symm.trans h0)
    · rintro ⟨q, hq, h0, hne, he⟩
      by_cases hq0 : zoneAt fs' inode' q = 0
      · exact .inr ⟨q, hq, hq0, hne, he.trans (bitOf_congr h.first _).symm⟩
      · have hsame := h'.ext.zone q hq hq0
        exact .inl ⟨q, hq, h0, hq0, hsame ▸ he⟩
  fresh q hq h0 hne := by
    by_cases hq0 : zoneAt fs' inode' q = 0
    · exact fun hu => h'.fresh q hq hq0 hne (h.used hu)
    · rw [h'.ext.zone q hq hq0]
      exact h.fresh q hq h0 hq0
  blocks w hw := (h'.blocks w (h.foreign hw)).trans (h.blocks w hw)

/-! ## One slot -/

/-- What `new_block` does on a mounted device. -/
theorem newBlock_sound (hm : Mounted fs) : Allocator.Sound ⟨fs, []⟩ := Inv.sound ⟨hm, nofun⟩

theorem newBlock_mounted (hm : Mounted fs) : Mounted (newBlock fs).1 :=
  (@inv_new ⟨fs, []⟩ _ ⟨hm, nofun⟩ rfl).mounted

theorem newBlock_full (hm : Mounted fs) (h0 : (newBlock fs).2 = 0) : (newBlock fs).1 = fs :=
  ((newBlock_sound hm).full _ (Prod.ext rfl h0)).1

theorem newBlock_bits (hm : Mounted fs) (hz : (newBlock fs).2 ≠ 0) (i j : ℕ) :
    BitSet (newBlock fs).1 i j ↔ BitSet fs i j ∨ (i, j) = bitOf fs (newBlock fs).2 :=
  ((newBlock_sound hm).new _ _ rfl hz).2.2.2 i j

theorem Allocator.Mounted.congr (h : Mounted fs) (hfirst : fs'.sFirstdatazone = fs.sFirstdatazone)
    (hnz : fs'.sNzones = fs.sNzones) (hmap : fs'.sZmap = fs.sZmap) : Mounted fs' :=
  h.keep hfirst hnz (fun _ => by rw [hmap]) fun i j hb => .inl (by unfold BitSet at hb ⊢; rwa [hmap])

/-- A new zone for an empty slot. -/
theorem Place.grown (h : Place fs inode s (newBlock fs).2 fs' inode') (hm : Mounted fs)
    (hmap : fs'.sZmap = (newBlock fs).1.sZmap) (hblocks : ∀ w, Foreign fs inode w → fs'.blocks w = fs.blocks w) :
    Grown fs inode fs' inode' where
  ext := h.ext
  mounted := by
    have hn := newBlock_spec h.wf.ok
    exact (newBlock_mounted hm).congr (h.first.trans hn.first.symm) (h.nzones.trans hn.nzones.symm) hmap
  first := h.first
  nzones := h.nzones
  bits i j := by
    have hset : BitSet fs' i j ↔ BitSet (newBlock fs).1 i j := by
      unfold BitSet
      rw [hmap]
    rw [hset, newBlock_bits hm h.ne]
    refine or_congr_right ⟨fun he => ?_, ?_⟩
    · exact ⟨s, h.valid, h.free, h.zoneAt_self ▸ h.ne, h.zoneAt_self.symm ▸ he⟩
    · rintro ⟨q, hq, h0, hne, he⟩
      obtain rfl : q = s := by
        by_contra hqs
        exact hne ((h.zoneAt_of_ne hq hqs).trans h0)
      rw [he, h.zoneAt_self]
  fresh q hq h0 hne := by
    obtain rfl : q = s := by
      by_contra hqs
      exact hne ((h.zoneAt_of_ne hq hqs).trans h0)
    rw [h.zoneAt_self]
    exact h.fresh
  blocks := hblocks

theorem Foreign.ne_new (h : Foreign fs inode w) (hw : Wf fs inode) (hz : (newBlock fs).2 ≠ 0) : w ≠ (newBlock fs).2 := by
  rintro rfl
  exact ((newBlock_spec hw.ok).found hz).2.2.1 h.2.2.1

theorem zone_grown (h : Wf fs inode) (hm : Mounted fs) (hk : k < 9) :
    Grown fs inode (zone fs inode true k).1 (zone fs inode true k).2.1 := by
  unfold zone
  by_cases h0 : inode.iZone k = 0
  · rw [if_pos ⟨rfl, h0⟩]
    dsimp only
    by_cases hz : (newBlock fs).2 = 0
    · rw [hz, newBlock_full hm hz, ← h0, update_eq_self]
      exact .refl h hm
    · refine (zone_place h hk h0 hz).grown hm rfl fun w hw => ?_
      rw [((newBlock_spec h.ok).found hz).2.2.2.2, update_of_ne (hw.ne_new h hz)]
  · rw [if_neg fun hc => h0 hc.2]
    exact .refl h hm

theorem entry_grown {p : Slot} (bad : ℕ → Bool) (h : Wf fs inode) (hm : Mounted fs) (hp : Table p) (hk : k < 512)
    (hz : zoneAt fs inode p = z) (hz0 : z ≠ 0) : Grown fs inode (entry fs bad true z k).1 inode := by
  subst hz
  have hword : zoneAt fs inode (.entry p k) = word (fs.blocks (zoneAt fs inode p)) k := by
    rw [zoneAt, if_neg hz0]
  unfold entry bread
  cases bad (zoneAt fs inode p) with
  | true => exact .refl h hm
  | false =>
    simp only [Bool.false_eq_true, if_false, true_and]
    rw [← hword]
    by_cases h0 : zoneAt fs inode (.entry p k) = 0
    · rw [if_pos h0]
      by_cases hz : (newBlock fs).2 = 0
      · rw [if_neg (not_not.mpr hz), newBlock_full hm hz]
        exact .refl h hm
      · rw [if_pos hz]
        refine (entry_place h hp hk hz0 h0 hz).grown hm rfl fun w hw => ?_
        unfold link
        dsimp only
        rw [update_of_ne (hw.2.2.2 p hp).symm, ((newBlock_spec h.ok).found hz).2.2.2.2,
          update_of_ne (hw.ne_new h hz)]
    · rw [if_neg h0]
      exact .refl h hm

/-! ## One block -/

theorem createBlock_grown (h : Wf fs inode) (hm : Mounted fs)
    (hr : createBlock fs inode bad b = some (fs', inode', z)) : Grown fs inode fs' inode' := by
  obtain ⟨hb, -, -⟩ := _bmap_spec h hr
  unfold createBlock at hr
  by_cases h₇ : b < 7
  · rw [_bmap_direct h₇] at hr
    have hg := zone_grown h hm (show b < 9 by omega)
    rw [Option.some.inj hr] at hg
    exact hg
  by_cases h₅ : b - 7 < 512
  · rw [_bmap_single (by omega) h₅] at hr
    have hg := zone_grown h hm (show 7 < 9 by omega)
    have hat := (zone_spec true h (show 7 < 9 by omega)).2
    generalize zone fs inode true 7 = r at hr hg hat
    dsimp only at hr
    split_ifs at hr with hz
    · obtain ⟨rfl, rfl, -⟩ := by simpa using hr
      exact hg
    · obtain ⟨rfl, rfl, -⟩ := by simpa using hr
      exact hg.trans (entry_grown bad hg.ext.wf hg.mounted .single h₅ hat hz)
  · rw [_bmap_double (by omega) hb] at hr
    have hg := zone_grown h hm (show 8 < 9 by omega)
    have hat := (zone_spec true h (show 8 < 9 by omega)).2
    have hq : (b - 7 - 512) / 512 < 512 := by
      unfold MAX_BLOCKS at hb
      omega
    generalize zone fs inode true 8 = r at hr hg hat
    dsimp only at hr
    by_cases hz : r.2.2 = 0
    · rw [if_pos hz] at hr
      obtain ⟨rfl, rfl, -⟩ := by simpa using hr
      exact hg
    rw [if_neg hz] at hr
    have hg' := entry_grown bad hg.ext.wf hg.mounted .double hq hat hz
    have hat' := (entry_spec bad true hg.ext.wf .double hq hat hz).2
    generalize entry r.1 bad true r.2.2 ((b - 7 - 512) / 512) = e at hr hg' hat'
    split_ifs at hr with hz'
    · obtain ⟨rfl, rfl, -⟩ := by simpa using hr
      exact hg.trans hg'
    · obtain ⟨rfl, rfl, -⟩ := by simpa using hr
      exact (hg.trans hg').trans
        (entry_grown bad hg'.ext.wf hg'.mounted (.second hq) (Nat.mod_lt _ (by decide)) (hat' hz') hz')

end Linux012.FileDev
