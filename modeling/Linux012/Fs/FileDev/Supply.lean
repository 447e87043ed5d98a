import Linux012.Fs.FileDev.Create

/-! # The zones for a long write

A write that comes to the end of the block map has found or been given a zone for each slot on the ways to the
blocks before.
-/

namespace Linux012.FileDev

open Function Splice

variable {fs fs' fs'' : Fs} {inode inode' inode'' : Inode} {bad : ℕ → Bool} {b i k n pos z : ℕ} {s : Slot}
  {path : List Slot} {buf : List UInt8} {fuel : ℕ}

/-! ## One block -/

/-- What is left of the free zones after a way, from what is left after its first slot. -/
theorem Filled.left_cons (h : Filled fs inode s fs' inode' z) (hz : z ≠ 0) (hs : s ∉ path)
    (hvalid : ∀ s' ∈ path, Valid s')
    (hleft : (freeZones fs'').card + holes fs' inode' path = (freeZones fs').card) :
    (freeZones fs'').card + holes fs inode (s :: path) = (freeZones fs).card := by
  have hrest : holes fs' inode' path = holes fs inode path := by
    unfold holes
    refine List.countP_congr fun s' hs' => ?_
    rw [h.others s' (hvalid s' hs') fun hmem => hs (List.mem_singleton.mp hmem ▸ hs')]
  have hsplit : holes fs inode (s :: path) = holes fs inode [s] + holes fs inode path := by
    unfold holes
    rw [← List.countP_append]
    rfl
  have hfirst := h.left hz
  omega

/-- A read that fails gives no zone. -/
theorem entry_read_fine {create : Bool} (h : (entry fs bad create z k).2 ≠ 0) :
    bad z = false ∧ entry fs bad create z k = entry fs fine create z k := by
  unfold entry bread at h ⊢
  cases hbad : bad z with
  | true =>
    rw [hbad] at h
    exact absurd rfl h
  | false => exact ⟨rfl, rfl⟩

/-- The slot keeps the zone that it has. -/
theorem Filled.keep (h : Filled fs inode s fs' inode' z) (hs : Valid s) (h0 : zoneAt fs inode s ≠ 0) :
    zoneAt fs inode s = z := (h.ext.zone s hs h0).symm.trans h.at_

/-- A zone comes from a way that can be read. -/
theorem createBlock_reads (h : Wf fs inode) (hc : createBlock fs inode bad b = some (fs', inode', z)) (hz : z ≠ 0) :
    createBlock fs inode fine b = some (fs', inode', z) ∧
      ∀ s ∈ way b, s ≠ slotOf b → zoneAt fs inode s ≠ 0 → bad (zoneAt fs inode s) = false := by
  obtain ⟨hb, -, -⟩ := _bmap_spec h hc
  unfold createBlock way slotOf at *
  by_cases h₇ : b < 7
  · rw [_bmap_direct h₇] at hc ⊢
    rw [if_pos h₇, if_pos h₇]
    exact ⟨hc, fun s hs hne => absurd (List.mem_singleton.mp hs) hne⟩
  by_cases h₅ : b - 7 < 512
  · rw [_bmap_single (by omega) h₅] at hc ⊢
    rw [if_neg h₇, if_pos h₅, if_neg h₇, if_pos h₅]
    dsimp only at hc ⊢
    have hroot := zone_filled h (show 7 < 9 by omega)
    generalize zone fs inode true 7 = r at hc hroot ⊢
    split_ifs at hc ⊢ with h0
    · exact absurd (Prod.mk.inj (Prod.mk.inj (Option.some.inj hc)).2).2.symm hz
    · have he : (entry r.1 bad true r.2.2 (b - 7)).2 ≠ 0 := by
        rw [(Prod.mk.inj (Prod.mk.inj (Option.some.inj hc)).2).2]
        exact hz
      obtain ⟨hbad, hfine⟩ := entry_read_fine he
      rw [hfine] at hc
      refine ⟨hc, fun s hs hne hs0 => ?_⟩
      rcases List.mem_pair.mp hs with rfl | rfl
      · rw [hroot.keep (.root (by omega)) hs0, hbad]
      · exact absurd rfl hne
  · rw [_bmap_double (by omega) hb] at hc ⊢
    rw [if_neg h₇, if_neg h₅, if_neg h₇, if_neg h₅]
    dsimp only at hc ⊢
    have hroot := zone_filled h (show 8 < 9 by omega)
    have hq : (b - 7 - 512) / 512 < 512 := by
      unfold MAX_BLOCKS at hb
      omega
    generalize (b - 7 - 512) / 512 = q at hc hq ⊢
    generalize zone fs inode true 8 = r at hc hroot ⊢
    split_ifs at hc with h0 h1
    · exact absurd (Prod.mk.inj (Prod.mk.inj (Option.some.inj hc)).2).2.symm hz
    · exact absurd (Prod.mk.inj (Prod.mk.inj (Option.some.inj hc)).2).2.symm hz
    · obtain ⟨hbad, hfine⟩ := entry_read_fine h1
      rw [hfine] at hc h1
      have hsecond := entry_filled hroot.ext.wf .double hq hroot.at_ h0
      have he : (entry (entry r.1 fine true r.2.2 q).1 bad true (entry r.1 fine true r.2.2 q).2 ((b - 7 - 512) % 512)).2 ≠ 0 := by
        rw [(Prod.mk.inj (Prod.mk.inj (Option.some.inj hc)).2).2]
        exact hz
      obtain ⟨hbad', hfine'⟩ := entry_read_fine he
      rw [hfine'] at hc
      rw [if_neg h0, if_neg h1]
      refine ⟨hc, fun s hs hne hs0 => ?_⟩
      rcases List.mem_cons.mp hs with rfl | hs
      · rw [hroot.keep (.root (by omega)) hs0, hbad]
      · rcases List.mem_pair.mp hs with rfl | rfl
        · have hvalid := Valid.entry Table.double hq
          have hsame := hroot.ext.zone _ hvalid hs0
          rw [← hsame, hsecond.keep hvalid (hsame ▸ hs0), hbad']
        · exact absurd rfl hne

/-- What is left of the free zones. -/
theorem createBlock_left (h : Wf fs inode) (hc : createBlock fs inode fine b = some (fs', inode', z)) (hz : z ≠ 0) :
    (freeZones fs').card + holes fs inode (way b) = (freeZones fs).card := by
  obtain ⟨hb, -, -⟩ := _bmap_spec h hc
  unfold createBlock at hc
  unfold way
  by_cases h₇ : b < 7
  · rw [_bmap_direct h₇] at hc
    rw [if_pos h₇]
    have hroot := zone_filled h (show b < 9 by omega)
    rw [Option.some.inj hc] at hroot
    exact hroot.left hz
  by_cases h₅ : b - 7 < 512
  · rw [_bmap_single (by omega) h₅] at hc
    rw [if_neg h₇, if_pos h₅]
    dsimp only at hc
    have hroot := zone_filled h (show 7 < 9 by omega)
    generalize zone fs inode true 7 = r at hc hroot
    split_ifs at hc with h0
    · exact absurd (Prod.mk.inj (Prod.mk.inj (Option.some.inj hc)).2).2.symm hz
    · have hentry := entry_filled hroot.ext.wf .single h₅ hroot.at_ h0
      obtain ⟨rfl, -, rfl⟩ := by simpa using hc
      exact hroot.left_cons h0 (by simp) (by simpa using Valid.entry .single h₅) (hentry.left hz)
  · rw [_bmap_double (by omega) hb] at hc
    rw [if_neg h₇, if_neg h₅]
    dsimp only at hc
    have hroot := zone_filled h (show 8 < 9 by omega)
    have hq : (b - 7 - 512) / 512 < 512 := by
      unfold MAX_BLOCKS at hb
      omega
    have hr : (b - 7 - 512) % 512 < 512 := Nat.mod_lt _ (by omega)
    generalize (b - 7 - 512) / 512 = q at hc hq ⊢
    generalize (b - 7 - 512) % 512 = k at hc hr ⊢
    generalize zone fs inode true 8 = r at hc hroot
    split_ifs at hc with h0 h1
    · exact absurd (Prod.mk.inj (Prod.mk.inj (Option.some.inj hc)).2).2.symm hz
    · exact absurd (Prod.mk.inj (Prod.mk.inj (Option.some.inj hc)).2).2.symm hz
    · have hsecond := entry_filled hroot.ext.wf .double hq hroot.at_ h0
      have hdata := entry_filled hsecond.ext.wf (.second hq) hr hsecond.at_ h1
      obtain ⟨rfl, -, rfl⟩ := by simpa using hc
      have hvalid := Valid.entry Table.double hq
      have hvalid' := Valid.entry (Table.second hq) hr
      exact hroot.left_cons h0 (by simp) (by simpa using ⟨hvalid, hvalid'⟩)
        (hsecond.left_cons h1 (by simp) (by simpa using hvalid') (hdata.left hz))

/-! ## The blocks up to the end of the block map -/

/-- The slots on the ways to the blocks from `a` on. -/
def waysFrom (a : ℕ) : Finset Slot := (Finset.Ico a MAX_BLOCKS).biUnion fun b => (way b).toFinset

def missing (fs : Fs) (inode : Inode) (a : ℕ) : ℕ := ((waysFrom a).filter fun s => zoneAt fs inode s = 0).card

/-- There are free zones enough for all blocks from `a` on, and the zones that these blocks have can be read. -/
structure Supplied (fs : Fs) (inode : Inode) (bad : ℕ → ℕ → Bool) (a : ℕ) : Prop where
  zones : missing fs inode a ≤ (freeZones fs).card
  reads : ∀ b, a ≤ b → b < MAX_BLOCKS → ∀ s ∈ way b, zoneAt fs inode s ≠ 0 → bad b (zoneAt fs inode s) = false

variable {bads : ℕ → ℕ → Bool} {a : ℕ}

theorem mem_waysFrom : s ∈ waysFrom a ↔ ∃ b, (a ≤ b ∧ b < MAX_BLOCKS) ∧ s ∈ way b := by
  unfold waysFrom
  rw [Finset.mem_biUnion]
  simp only [Finset.mem_Ico, List.mem_toFinset]

theorem way_valid (hb : b < MAX_BLOCKS) (hs : s ∈ way b) : Valid s := by
  unfold MAX_BLOCKS at hb
  unfold way at hs
  split_ifs at hs with h₇ h₅
  · obtain rfl := List.mem_singleton.mp hs
    exact .root (by omega)
  · rcases List.mem_pair.mp hs with rfl | rfl
    · exact .root (by omega)
    · exact .entry .single h₅
  · have hq : (b - 7 - 512) / 512 < 512 := by omega
    rcases List.mem_cons.mp hs with rfl | hs
    · exact .root (by omega)
    · rcases List.mem_pair.mp hs with rfl | rfl
      · exact .entry .double hq
      · exact .entry (.second hq) (Nat.mod_lt _ (by omega))

/-- The slots that are missing from `a` on are on the way to `a`, or missing behind it. -/
theorem missing_le (hothers : ∀ s, Valid s → s ∉ way a → zoneAt fs' inode' s = zoneAt fs inode s) :
    missing fs inode a ≤ holes fs inode (way a) + missing fs' inode' (a + 1) := by
  have hsub : ((waysFrom a).filter fun s => zoneAt fs inode s = 0) ⊆
      ((way a).filter fun s => zoneAt fs inode s = 0).toFinset ∪
        (waysFrom (a + 1)).filter fun s => zoneAt fs' inode' s = 0 := by
    intro s hs
    obtain ⟨hmem, h0⟩ := Finset.mem_filter.mp hs
    obtain ⟨b, ⟨hle, hlt⟩, hway⟩ := mem_waysFrom.mp hmem
    rw [Finset.mem_union]
    by_cases ha : s ∈ way a
    · left
      rw [List.mem_toFinset, List.mem_filter]
      exact ⟨ha, decide_eq_true h0⟩
    · right
      have hne : a ≠ b := by
        rintro rfl
        exact ha hway
      rw [Finset.mem_filter, hothers s (way_valid hlt hway) ha]
      exact ⟨mem_waysFrom.mpr ⟨b, ⟨by omega, hlt⟩, hway⟩, h0⟩
  refine (Finset.card_le_card hsub).trans ((Finset.card_union_le _ _).trans (Nat.add_le_add_right ?_ _))
  unfold holes
  rw [List.countP_eq_length_filter]
  exact List.toFinset_card_le _

theorem missing_of_le (h : MAX_BLOCKS ≤ a) : missing fs inode a = 0 := by
  unfold missing waysFrom
  rw [Finset.Ico_eq_empty (by omega)]
  rfl

/-- A block that has been given a zone, and what is left is enough for the rest. -/
theorem Supplied.cons (h : Wf fs inode) (hc : createBlock fs inode (bads a) a = some (fs', inode', z)) (hz : z ≠ 0)
    (hread : bads a z = false) (hs : Supplied fs' inode' bads (a + 1)) : Supplied fs inode bads a := by
  obtain ⟨hfine, hreads⟩ := createBlock_reads h hc hz
  obtain ⟨hb, hext, hat⟩ := _bmap_spec h hc
  have hleft := createBlock_left h hfine hz
  obtain ⟨fs₀, inode₀, z₀, hfine₀, hcreated⟩ := createBlock_created h hb
  obtain ⟨rfl, rfl, rfl⟩ := by simpa using hfine₀.symm.trans hfine
  constructor
  · have hle := missing_le hcreated.others
    have hzones := hs.zones
    omega
  · intro b hle hlt s hway h0
    rcases eq_or_lt_of_le hle with rfl | hgt
    · by_cases hslot : s = slotOf a
      · subst hslot
        have hsame := hext.zone _ (slotOf_valid hb) h0
        rw [hat hz] at hsame
        rw [← hsame]
        exact hread
      · exact hreads s hway hslot h0
    · have hsame := hext.zone s (way_valid hlt hway) h0
      have hread' := hs.reads b hgt hlt s hway
      rw [hsame] at hread'
      exact hread' h0

/-- What is supplied does not depend on the bytes of the file and its size. -/
theorem Supplied.congr (h : Supplied fs inode bads a) (hzone : ∀ s, Valid s → zoneAt fs inode s = zoneAt fs' inode' s)
    (hfree : freeZones fs' = freeZones fs) : Supplied fs' inode' bads a := by
  have hmissing : missing fs' inode' a = missing fs inode a := by
    unfold missing
    congr 1
    refine Finset.filter_congr fun s hs => ?_
    obtain ⟨b, ⟨-, hlt⟩, hway⟩ := mem_waysFrom.mp hs
    rw [hzone s (way_valid hlt hway)]
  constructor
  · rw [hmissing, hfree]
    exact h.zones
  · intro b hle hlt s hway h0
    rw [← hzone s (way_valid hlt hway)] at h0 ⊢
    exact h.reads b hle hlt s hway h0

/-! ## The loop of `file_write` -/

theorem Wf.grow (h : Wf fs inode) (n : ℕ) : Wf fs (FileDev.grow inode n) := by
  unfold FileDev.grow
  split_ifs
  · exact h.resize n
  · exact h

theorem zoneAt_grow (n : ℕ) (s : Slot) : zoneAt fs (FileDev.grow inode n) s = zoneAt fs inode s := by
  unfold FileDev.grow
  split_ifs
  · exact zoneAt_resize n s
  · rfl

theorem grow_le {m : ℕ} (hi : inode.iSize ≤ m) (hn : n ≤ m) : (FileDev.grow inode n).iSize ≤ m := by
  unfold FileDev.grow
  split_ifs
  · exact hn
  · exact hi

/-- A write that runs into the panic has been supplied with all blocks from its start on. Otherwise the zones of
the file stay consistent, and it does not grow behind the block map. -/
theorem fileWriteLoop_outcome (h : Wf fs inode) (hsize : inode.iSize ≤ MAX_SIZE) :
    match fileWriteLoop bads fuel fs inode pos buf i with
    | none => MAX_SIZE < pos + buf.length ∧ Supplied fs inode bads (pos / BLOCK_SIZE)
    | some (fs', inode', _, _) => Wf fs' inode' ∧ inode'.iSize ≤ MAX_SIZE := by
  induction fuel generalizing fs inode pos buf i with
  | zero => exact ⟨h, hsize⟩
  | succ fuel ih =>
    rw [fileWriteLoop]
    by_cases hbuf : buf = []
    · rw [if_pos hbuf]
      exact ⟨h, hsize⟩
    rw [if_neg hbuf]
    have hlen : 0 < buf.length := List.length_pos_of_ne_nil hbuf
    cases hc : createBlock fs inode (bads (pos / BLOCK_SIZE)) (pos / BLOCK_SIZE) with
    | none =>
      have hbig : MAX_BLOCKS ≤ pos / BLOCK_SIZE := by
        by_contra hlt
        have hsome : (_bmap fs inode (bads (pos / BLOCK_SIZE)) (pos / BLOCK_SIZE) true).isSome :=
          _bmap_isSome (Nat.lt_of_not_le hlt)
        rw [show _bmap _ _ _ _ true = none from hc] at hsome
        cases hsome
      have hpos : MAX_SIZE ≤ pos := by
        unfold MAX_SIZE
        exact (Nat.mul_le_mul_right _ hbig).trans (Nat.div_mul_le_self _ _)
      refine ⟨by omega, ?_, fun b hle hlt => absurd hlt (by omega)⟩
      rw [missing_of_le hbig]
      exact Nat.zero_le _
    | some r =>
      obtain ⟨fs₁, inode₁, z⟩ := r
      obtain ⟨hb, hext, hat⟩ := _bmap_spec h hc
      rw [Option.bind_some]
      dsimp only
      by_cases hz : z = 0
      · rw [if_pos hz]
        exact ⟨hext.wf, hext.size ▸ hsize⟩
      rw [if_neg hz]
      by_cases hread : bread fs₁ (bads (pos / BLOCK_SIZE)) z = none
      · rw [if_pos hread]
        exact ⟨hext.wf, hext.size ▸ hsize⟩
      rw [if_neg hread]
      set c := min (BLOCK_SIZE - pos % BLOCK_SIZE) buf.length with hcdef
      have hmod : pos % BLOCK_SIZE < BLOCK_SIZE := Nat.mod_lt _ (by decide)
      have hdiv := Nat.div_add_mod pos BLOCK_SIZE
      have hend : pos + c ≤ MAX_SIZE := by
        have hmul : BLOCK_SIZE * (pos / BLOCK_SIZE + 1) ≤ BLOCK_SIZE * MAX_BLOCKS := Nat.mul_le_mul_left _ hb
        rw [Nat.mul_succ] at hmul
        unfold MAX_SIZE
        rw [Nat.mul_comm MAX_BLOCKS]
        omega
      have hwf := (store_spec hext.wf hb (hat hz) hz (splice (fs₁.blocks z) (pos % BLOCK_SIZE) (buf.take c))).1.grow (pos + c)
      have hstep := @ih _ _ (i + c) (pos + c) (buf.drop c) hwf (grow_le (hext.size ▸ hsize) hend)
      revert hstep
      generalize fileWriteLoop bads fuel _ _ (pos + c) (buf.drop c) (i + c) = res
      intro hstep
      cases res with
      | some r => exact hstep
      | none =>
        obtain ⟨hlt, hsup⟩ := hstep
        rw [List.length_drop] at hlt
        -- the chunk ends with the block
        have hnext : (pos + c) / BLOCK_SIZE = pos / BLOCK_SIZE + 1 := by
          have hc' : c = BLOCK_SIZE - pos % BLOCK_SIZE := by omega
          rw [hc', show pos + (BLOCK_SIZE - pos % BLOCK_SIZE) = BLOCK_SIZE * (pos / BLOCK_SIZE + 1) by
            rw [Nat.mul_succ]
            omega, Nat.mul_div_cancel_left _ (by decide)]
        rw [hnext] at hsup
        refine ⟨by omega, .cons h hc hz ?_ (hsup.congr (fun s hs => ?_) rfl)⟩
        · unfold bread at hread
          by_contra hbad
          exact hread (if_pos (by simpa using hbad))
        · rw [zoneAt_grow, zoneAt_store hext.wf hb (hat hz) _ hs]

end Linux012.FileDev
