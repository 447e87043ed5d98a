import Linux012.Fs.Entries.Basic

/-! # Holes and read errors in a directory

After a block that it leaves out a scan goes on with a null pointer for the buffer.
-/

namespace Linux012.Entries

open Function Splice
open FileDev

variable {fs fs' : Fs} {dir dir' : Inode} {at_ : Place} {bad : ℕ → Bool} {name : Name}
  {b entries fuel i j k z : ℕ} {r : Option (ℕ × ℕ)}

/-! ## Positions of a scan -/

theorem entryAt_eq_some : entryAt fs dir bad i = some (z, k) ↔
    blockAt fs dir bad (i / DIR_ENTRIES_PER_BLOCK) = some z ∧ i % DIR_ENTRIES_PER_BLOCK = k := by
  unfold entryAt
  rw [Option.map_eq_some_iff]
  constructor
  · rintro ⟨z', hz, he⟩
    obtain ⟨rfl, rfl⟩ := Prod.mk.inj he
    exact ⟨hz, rfl⟩
  · rintro ⟨hz, rfl⟩
    exact ⟨z, hz, rfl⟩

/-- The pointers stand at the entry `i`, or behind the block before it. -/
inductive At (fs : Fs) (dir : Inode) (bad : ℕ → Bool) (i z k : ℕ) : Prop
  | inside (h : entryAt fs dir bad i = some (z, k))
  | behind (hk : k = DIR_ENTRIES_PER_BLOCK) (hi : i % DIR_ENTRIES_PER_BLOCK = 0) (hpos : 0 < i)

theorem At.next (h : entryAt fs dir bad i = some (z, k)) : At fs dir bad (i + 1) z (k + 1) := by
  obtain ⟨hz, rfl⟩ := entryAt_eq_some.mp h
  unfold DIR_ENTRIES_PER_BLOCK at hz
  by_cases hlast : i % 64 = 63
  · apply At.behind
    · rw [DIR_ENTRIES_PER_BLOCK, hlast]
    · unfold DIR_ENTRIES_PER_BLOCK
      omega
    · omega
  · apply At.inside
    apply entryAt_eq_some.mpr
    unfold DIR_ENTRIES_PER_BLOCK
    rw [show (i + 1) / 64 = i / 64 by omega]
    exact ⟨hz, by omega⟩

theorem At.first (h : blockAt fs dir bad 0 = some z) : At fs dir bad 0 z 0 :=
  .inside (entryAt_eq_some.mpr ⟨h, rfl⟩)

/-! ## What `find_entry` does -/

def Hit (fs : Fs) (dir : Inode) (bad : ℕ → Bool) (name : Name) (i : ℕ) : Prop :=
  ∃ z k, entryAt fs dir bad i = some (z, k) ∧ matchEntry name (fs.blocks z) k = true

/-- The entry can be read and does not match. -/
def Passed (fs : Fs) (dir : Inode) (bad : ℕ → Bool) (name : Name) (i : ℕ) : Prop :=
  ∃ z k, entryAt fs dir bad i = some (z, k) ∧ matchEntry name (fs.blocks z) k = false

/-- A block that cannot be read, with entries to look at behind it, or one too big for the block map. -/
structure Gap (fs : Fs) (dir : Inode) (bad : ℕ → Bool) (entries b : ℕ) : Prop where
  pos : 0 < b
  unread : blockAt fs dir bad b = none
  more : DIR_ENTRIES_PER_BLOCK * (b + 1) < entries ∨ MAX_BLOCKS ≤ b ∧ DIR_ENTRIES_PER_BLOCK * b < entries

theorem Passed.not_hit (h : Passed fs dir bad name i) : ¬ Hit fs dir bad name i := by
  rintro ⟨z, k, he, hm⟩
  obtain ⟨z', k', he', hm'⟩ := h
  obtain ⟨rfl, rfl⟩ := Prod.mk.inj (Option.some.inj (he.symm.trans he'))
  rw [hm] at hm'
  cases hm'

theorem Gap.unreadable (h : Gap fs dir bad entries b) : entryAt fs dir bad (DIR_ENTRIES_PER_BLOCK * b) = none := by
  unfold entryAt
  rw [Nat.mul_div_cancel_left b (by decide), h.unread]
  rfl

theorem Gap.lt (h : Gap fs dir bad entries b) : DIR_ENTRIES_PER_BLOCK * b < entries := by
  rcases h.more with hlt | ⟨-, hlt⟩
  · rw [Nat.mul_succ] at hlt
    omega
  · exact hlt

/-- How the scan for a name ends that is at the entry `i`. -/
inductive FindOutcome (fs : Fs) (dir : Inode) (bad : ℕ → Bool) (name : Name) (entries i : ℕ) :
    Except Stop (Option (ℕ × ℕ) × List ℕ) → Prop
  | found {j z k : ℕ} (hi : i ≤ j) (hj : j < entries) (he : entryAt fs dir bad j = some (z, k))
      (hm : matchEntry name (fs.blocks z) k = true) (hbefore : ∀ l, i ≤ l → l < j → Passed fs dir bad name l) :
      FindOutcome fs dir bad name entries i (.ok (some (z, k), [z]))
  | missing (hno : ∀ j, i ≤ j → j < entries → ¬ Hit fs dir bad name j)
      (hgap : ∀ b, i ≤ DIR_ENTRIES_PER_BLOCK * b → ¬ Gap fs dir bad entries b) :
      FindOutcome fs dir bad name entries i (.ok (none, []))
  | stop {b : ℕ} {e : Stop} (hi : i ≤ DIR_ENTRIES_PER_BLOCK * b) (hgap : Gap fs dir bad entries b)
      (hbefore : ∀ l, i ≤ l → l < DIR_ENTRIES_PER_BLOCK * b → Passed fs dir bad name l) :
      FindOutcome fs dir bad name entries i (.error e)

theorem FindOutcome.cons {r : Except Stop (Option (ℕ × ℕ) × List ℕ)} (hp : Passed fs dir bad name i)
    (h : FindOutcome fs dir bad name entries (i + 1) r) : FindOutcome fs dir bad name entries i r := by
  have hcons {n : ℕ} (hbefore : ∀ l, i + 1 ≤ l → l < n → Passed fs dir bad name l) (l : ℕ) (hi : i ≤ l) (hl : l < n) :
      Passed fs dir bad name l := by
    rcases eq_or_lt_of_le hi with rfl | hlt
    · exact hp
    · exact hbefore l hlt hl
  cases h with
  | found hi hj he hm hbefore => exact .found (by omega) hj he hm (hcons hbefore)
  | missing hno hgap =>
    refine .missing (fun j hi hj => ?_) fun b hi hb => ?_
    · rcases eq_or_lt_of_le hi with rfl | hlt
      · exact hp.not_hit
      · exact hno j hlt hj
    · rcases eq_or_lt_of_le hi with rfl | hlt
      · obtain ⟨z, k, he, -⟩ := hp
        rw [hb.unreadable] at he
        cases he
      · exact hgap b hlt hb
  | stop hi hgap hbefore => exact .stop (by omega) hgap (hcons hbefore)

/-- The turn before the entry `i` comes to this entry, or its block cannot be read. -/
theorem findTurn_cases (h : At fs dir bad i z k) :
    (∃ z' k', findTurn fs dir bad i z k [z] = .ok (.here z' k', [z']) ∧ entryAt fs dir bad i = some (z', k')) ∨
    (0 < i ∧ i % DIR_ENTRIES_PER_BLOCK = 0 ∧ blockAt fs dir bad (i / DIR_ENTRIES_PER_BLOCK) = none ∧
      (findTurn fs dir bad i z k [z] = .ok (.skip, []) ∧ i / DIR_ENTRIES_PER_BLOCK < MAX_BLOCKS ∨
        findTurn fs dir bad i z k [z] = .error .panic ∧ MAX_BLOCKS ≤ i / DIR_ENTRIES_PER_BLOCK)) := by
  cases h with
  | inside he =>
    left
    refine ⟨z, k, ?_, he⟩
    obtain ⟨-, rfl⟩ := entryAt_eq_some.mp he
    rw [findTurn, if_pos (Nat.mod_lt _ (by decide))]
  | behind hk hi hpos =>
    rw [findTurn, if_neg (by omega), brelse_single]
    dsimp only [Except.bind]
    cases hm : bmap fs dir bad (i / DIR_ENTRIES_PER_BLOCK) with
    | none =>
      right
      have hbig : MAX_BLOCKS ≤ i / DIR_ENTRIES_PER_BLOCK := by
        by_contra hlt
        have hsome := @bmap_isSome fs dir bad _ (Nat.lt_of_not_le hlt)
        rw [hm] at hsome
        cases hsome
      exact ⟨hpos, hi, by rw [blockAt, hm]; rfl, .inr ⟨rfl, hbig⟩⟩
    | some block =>
      by_cases hb : block = 0 ∨ bad block = true
      · right
        refine ⟨hpos, hi, ?_, .inl ⟨if_pos hb, bmap_lt hm⟩⟩
        apply Option.eq_none_iff_forall_ne_some.mpr
        intro z' hz'
        obtain ⟨hz, hne, hbad⟩ := blockAt_eq_some.mp hz'
        obtain rfl := Option.some.inj (hm.symm.trans hz)
        rcases hb with h0 | h1
        · exact hne h0
        · rw [hbad] at h1
          cases h1
      · left
        rw [not_or, Bool.not_eq_true] at hb
        refine ⟨block, 0, if_neg (by rw [hb.2]; simpa using hb.1), ?_⟩
        exact entryAt_eq_some.mpr ⟨blockAt_eq_some.mpr ⟨hm, hb⟩, hi⟩

/-- Behind a block that is left out there is no buffer. -/
theorem findLoop_null : findLoop fs dir bad name entries fuel i none k [] =
    if 0 < fuel ∧ i < entries then .error .null else .ok (none, []) := by
  cases fuel with
  | zero => rfl
  | succ fuel =>
    rw [findLoop]
    by_cases hi : i < entries
    · rw [if_pos hi, if_pos ⟨Nat.succ_pos fuel, hi⟩]
    · rw [if_neg hi, if_neg fun h => hi h.2]
      rfl

theorem findEnd_single (z : ℕ) : findEnd (some z) [z] = .ok (none, []) := by
  rw [findEnd, brelse_single]
  rfl

theorem FindOutcome.behind (h : entries ≤ i) : FindOutcome fs dir bad name entries i (.ok (none, [])) :=
  .missing (fun j hi hj => by omega) fun b hi hb => by
    have hlt := hb.lt
    omega

theorem findLoop_spec (hfuel : entries ≤ i + fuel) (h : At fs dir bad i z k) :
    FindOutcome fs dir bad name entries i (findLoop fs dir bad name entries fuel i (some z) k [z]) := by
  induction fuel generalizing i z k with
  | zero =>
    rw [findLoop, findEnd_single]
    exact .behind hfuel
  | succ fuel ih =>
    rw [findLoop]
    by_cases hi : i < entries
    · rw [if_pos hi]
      rcases findTurn_cases h with ⟨z', k', hturn, he⟩ | ⟨hpos, hmod, hnone, ⟨hturn, hlt⟩ | ⟨hturn, hbig⟩⟩
      · simp only [hturn, Except.bind]
        cases hm : matchEntry name (fs.blocks z') k' with
        | true => exact .found le_rfl hi he hm fun l hl hl' => by omega
        | false => exact (ih (by omega) (.next he)).cons ⟨z', k', he, hm⟩
      · simp only [hturn, Except.bind]
        rw [findLoop_null]
        have hdiv : DIR_ENTRIES_PER_BLOCK * (i / DIR_ENTRIES_PER_BLOCK) = i := Nat.mul_div_cancel' (Nat.dvd_of_mod_eq_zero hmod)
        have hb : 0 < i / DIR_ENTRIES_PER_BLOCK := by
          unfold DIR_ENTRIES_PER_BLOCK at hmod ⊢
          omega
        by_cases hmore : i + DIR_ENTRIES_PER_BLOCK < entries
        · rw [if_pos ⟨by unfold DIR_ENTRIES_PER_BLOCK at hmore; omega, hmore⟩]
          refine .stop (b := i / DIR_ENTRIES_PER_BLOCK) hdiv.ge ⟨hb, hnone, .inl ?_⟩ fun l hl hl' => by omega
          rw [Nat.mul_succ, hdiv]
          exact hmore
        · rw [if_neg fun hc => hmore hc.2]
          refine .missing (fun j hij hj => ?_) fun b hib hgap => ?_
          · rintro ⟨z', k', he, -⟩
            have hj : j / DIR_ENTRIES_PER_BLOCK = i / DIR_ENTRIES_PER_BLOCK := by
              unfold DIR_ENTRIES_PER_BLOCK at hmod hmore ⊢
              omega
            have hz := (entryAt_eq_some.mp he).1
            rw [hj, hnone] at hz
            cases hz
          · have hgt := hgap.lt
            obtain rfl : b = i / DIR_ENTRIES_PER_BLOCK := by
              unfold DIR_ENTRIES_PER_BLOCK at hmod hmore hib hgt ⊢
              omega
            rcases hgap.more with hm | ⟨hm, -⟩
            · rw [Nat.mul_succ, hdiv] at hm
              exact hmore hm
            · omega
      · simp only [hturn, Except.bind]
        have hdiv : DIR_ENTRIES_PER_BLOCK * (i / DIR_ENTRIES_PER_BLOCK) = i := Nat.mul_div_cancel' (Nat.dvd_of_mod_eq_zero hmod)
        refine .stop (b := i / DIR_ENTRIES_PER_BLOCK) hdiv.ge ⟨?_, hnone, .inr ⟨hbig, hdiv.symm ▸ hi⟩⟩ fun l hl hl' => by omega
        exact Nat.lt_of_lt_of_le (by decide) hbig
    · rw [if_neg hi, findEnd_single]
      exact .behind (Nat.le_of_not_lt hi)

/-! ## What `add_entry` does -/

/-- The entry is below the size of the directory, can be read and is not free. -/
def InUse (fs : Fs) (dir : Inode) (bad : ℕ → Bool) (i : ℕ) : Prop :=
  i * 16 < dir.iSize ∧ ∃ z k, entryAt fs dir bad i = some (z, k) ∧ inodeAt (fs.blocks z) k ≠ 0

/-- All entries before the block are in use, and `add_entry` asks for it. -/
structure Reaches (fs : Fs) (dir : Inode) (bad : ℕ → Bool) (b : ℕ) : Prop where
  pos : 0 < b
  used : ∀ i < DIR_ENTRIES_PER_BLOCK * b, InUse fs dir bad i

/-- If the block has a zone or gets one, this zone can be read. -/
def Readable (fs : Fs) (dir : Inode) (bad : ℕ → Bool) (b : ℕ) : Prop :=
  ∀ fs' dir' z, createBlock fs dir bad b = some (fs', dir', z) → z ≠ 0 → bad z = false

theorem _bmap_false : _bmap fs dir bad b false = (bmap fs dir bad b).map fun z => (fs, dir, z) := by
  unfold bmap
  cases hr : _bmap fs dir bad b false with
  | none => rfl
  | some r =>
    have hb : b < MAX_BLOCKS := bmap_lt (by rw [bmap, hr, Option.map_some])
    by_cases h₇ : b < 7
    · rw [_bmap_direct h₇, zone_false] at hr
      rw [← Option.some.inj hr]
      rfl
    by_cases h₅ : b - 7 < 512
    · rw [_bmap_single (by omega) h₅] at hr
      simp only [zone_false, entry_false] at hr
      rw [← Option.some.inj hr]
      split_ifs <;> rfl
    · rw [_bmap_double (by omega) hb] at hr
      simp only [zone_false, entry_false] at hr
      rw [← Option.some.inj hr]
      split_ifs <;> rfl

theorem blockAt_zoneAt (hw : Wf fs dir) (h : blockAt fs dir bad b = some z) :
    b < MAX_BLOCKS ∧ zoneAt fs dir (slotOf b) = z ∧ z ≠ 0 ∧ bad z = false := by
  obtain ⟨hz, hne, hbad⟩ := blockAt_eq_some.mp h
  have hr : _bmap fs dir bad b false = some (fs, dir, z) := by
    rw [_bmap_false, hz]
    rfl
  obtain ⟨hb, -, hat⟩ := _bmap_spec hw hr
  exact ⟨hb, hat hne, hne, hbad⟩

theorem zone_true (h : dir.iZone k ≠ 0) : zone fs dir true k = (fs, dir, dir.iZone k) := by
  rw [zone, if_neg fun hc => h hc.2]

theorem entry_true (h : word (fs.blocks z) k ≠ 0) : entry fs bad true z k = entry fs bad false z k := by
  unfold entry bread
  cases bad z with
  | true => rfl
  | false =>
    dsimp only [Bool.false_eq_true, if_false]
    rw [if_neg Bool.false_ne_true]
    dsimp only
    rw [if_neg fun hc => h hc.2, if_neg fun hc => h hc.2]

/-- A block that has a zone is not given one. -/
theorem createBlock_mapped (hb : b < MAX_BLOCKS) (h : zoneAt fs dir (slotOf b) ≠ 0) :
    createBlock fs dir bad b = (bmap fs dir bad b).map fun z => (fs, dir, z) := by
  rw [← _bmap_false, createBlock]
  have hentry {p : Slot} {k : ℕ} (h : zoneAt fs dir (.entry p k) ≠ 0) :
      zoneAt fs dir p ≠ 0 ∧ entry fs bad true (zoneAt fs dir p) k = entry fs bad false (zoneAt fs dir p) k := by
    rw [zoneAt] at h
    split_ifs at h with hp
    · exact absurd rfl h
    · exact ⟨hp, entry_true h⟩
  by_cases h₇ : b < 7
  · rw [slotOf, if_pos h₇] at h
    rw [_bmap_direct h₇, _bmap_direct h₇, zone_true h, zone_false]
  by_cases h₅ : b - 7 < 512
  · rw [slotOf, if_neg h₇, if_pos h₅] at h
    obtain ⟨hp, he⟩ := hentry h
    change dir.iZone 7 ≠ 0 at hp
    change entry fs bad true (dir.iZone 7) _ = entry fs bad false (dir.iZone 7) _ at he
    rw [_bmap_single (by omega) h₅, _bmap_single (by omega) h₅, zone_true hp, zone_false]
    dsimp only
    rw [he]
  · rw [slotOf, if_neg h₇, if_neg h₅] at h
    obtain ⟨hp, he⟩ := hentry h
    obtain ⟨hq, he'⟩ := hentry hp
    rw [zoneAt, if_neg hq] at he
    change dir.iZone 8 ≠ 0 at hq
    change entry fs bad true (dir.iZone 8) _ = entry fs bad false (dir.iZone 8) _ at he'
    rw [_bmap_double (by omega) hb, _bmap_double (by omega) hb, zone_true hq, zone_false]
    dsimp only
    rw [he', entry_false]
    dsimp only
    cases bad (dir.iZone 8) with
    | true => rfl
    | false =>
      rw [if_neg Bool.false_ne_true]
      change entry fs bad true (word (fs.blocks (dir.iZone 8)) _) _ =
        entry fs bad false (word (fs.blocks (dir.iZone 8)) _) _ at he
      rw [he]

/-- A block that is given a zone holds no entry. -/
theorem createBlock_fresh (hw : Wf fs dir) (h0 : zoneAt fs dir (slotOf b) = 0)
    (hc : createBlock fs dir bad b = some (fs', dir', z)) (hz : z ≠ 0) : fs'.blocks z = fun _ => 0 := by
  obtain ⟨hb, hext, hat⟩ := _bmap_spec hw hc
  have hview := hext.view b
  unfold view at hview
  rwa [hat hz, if_pos ⟨hb, hz⟩, h0, if_neg fun h => h.2 rfl] at hview

theorem InUse.blockAt (h : InUse fs dir bad i) : ∃ z, blockAt fs dir bad (i / DIR_ENTRIES_PER_BLOCK) = some z := by
  obtain ⟨-, z, k, he, -⟩ := h
  exact ⟨z, (entryAt_eq_some.mp he).1⟩

/-- The zones of different blocks are different, and there are not so many. -/
theorem lt_of_blockAt (hw : Wf fs dir) (h : ∀ c < b, ∃ z, blockAt fs dir bad c = some z) : b < MAX_BLOCKS := by
  have hzone (c : ℕ) (hc : c < b) : c < MAX_BLOCKS ∧ zoneAt fs dir (slotOf c) ≠ 0 := by
    obtain ⟨z, hz⟩ := h c hc
    obtain ⟨hlt, rfl, hne, -⟩ := blockAt_zoneAt hw hz
    exact ⟨hlt, hne⟩
  have hcard : (Finset.range b).card ≤ (Finset.range fs.sNzones).card := by
    apply Finset.card_le_card_of_injOn (fun c => zoneAt fs dir (slotOf c))
    · intro c hc
      obtain ⟨hlt, hne⟩ := hzone c (Finset.mem_range.mp hc)
      exact Finset.mem_coe.mpr (Finset.mem_range.mpr (hw.used _ (slotOf_valid hlt) hne).2.1)
    · intro c hc c' hc' he
      obtain ⟨hlt, hne⟩ := hzone c (Finset.mem_range.mp hc)
      obtain ⟨hlt', -⟩ := hzone c' (Finset.mem_range.mp hc')
      exact slotOf_inj (hw.inj _ _ (slotOf_valid hlt) (slotOf_valid hlt') hne he)
  rw [Finset.card_range, Finset.card_range] at hcard
  have hnz := hw.ok.nzones
  unfold MAX_BLOCKS
  omega

theorem Reaches.lt (hw : Wf fs dir) (h : Reaches fs dir bad b) : b < MAX_BLOCKS := by
  refine @lt_of_blockAt _ _ bad _ hw fun c hc => ?_
  obtain ⟨z, hz⟩ := (h.used (DIR_ENTRIES_PER_BLOCK * c) (Nat.mul_lt_mul_of_pos_left hc (by decide))).blockAt
  rw [Nat.mul_div_cancel_left c (by decide)] at hz
  exact ⟨z, hz⟩

/-- How the search for a free entry ends that is at the entry `i`. -/
inductive AddOutcome (fs : Fs) (dir : Inode) (bad : ℕ → Bool) (i : ℕ) :
    Except Stop ((Fs × Inode) × Option (ℕ × ℕ) × List ℕ) → Prop
  | done {s : Fs × Inode} {r : Option (ℕ × ℕ)}
      (hfine : ∀ b, i ≤ DIR_ENTRIES_PER_BLOCK * b → Reaches fs dir bad b → Readable fs dir bad b) :
      AddOutcome fs dir bad i (.ok (s, r, r.toList.map Prod.fst))
  | null {b : ℕ} (hr : Reaches fs dir bad b) (hbad : ¬ Readable fs dir bad b) :
      AddOutcome fs dir bad i (.error .null)

theorem readable_of_entryAt (hw : Wf fs dir) (h : entryAt fs dir bad (DIR_ENTRIES_PER_BLOCK * b) = some (z, k)) :
    Readable fs dir bad b := by
  intro fs' dir' z' hc _
  have hz := (entryAt_eq_some.mp h).1
  rw [Nat.mul_div_cancel_left b (by decide)] at hz
  obtain ⟨hb, hat, hne, hbad⟩ := blockAt_zoneAt hw hz
  rw [createBlock_mapped hb (hat ▸ hne), (blockAt_eq_some.mp hz).1] at hc
  obtain ⟨-, -, rfl⟩ := by simpa using hc
  exact hbad

/-- At an entry that can be read and is not in use, nothing else is asked for. -/
theorem AddOutcome.free {s : Fs × Inode} {r : Option (ℕ × ℕ)} (hw : Wf fs dir)
    (h : entryAt fs dir bad i = some (z, k)) (hn : ¬ InUse fs dir bad i) :
    AddOutcome fs dir bad i (.ok (s, r, r.toList.map Prod.fst)) :=
  .done fun b hi hr => by
    rcases eq_or_lt_of_le hi with rfl | hlt
    · exact readable_of_entryAt hw h
    · exact absurd (hr.used i hlt) hn

theorem AddOutcome.cons {r : Except Stop ((Fs × Inode) × Option (ℕ × ℕ) × List ℕ)} (hw : Wf fs dir)
    (he : entryAt fs dir bad i = some (z, k)) (h : AddOutcome fs dir bad (i + 1) r) : AddOutcome fs dir bad i r := by
  cases h with
  | done hfine =>
    refine .done fun b hi hr => ?_
    rcases eq_or_lt_of_le hi with rfl | hlt
    · exact readable_of_entryAt hw he
    · exact hfine b hlt hr
  | null hr hbad => exact .null hr hbad

theorem inodeAt_setInode : inodeAt ((setInode fs z k 0).blocks z) k = 0 := by
  unfold setInode inodeAt
  dsimp only
  rw [update_self, word_setWord _ (by decide)]

/-- What the loop does at the entry `i`, with the loop behind it. -/
theorem addOutcome_here (hw : Wf fs dir) (he : entryAt fs dir bad i = some (z, k))
    {next : Except Stop ((Fs × Inode) × Option (ℕ × ℕ) × List ℕ)}
    (hnext : InUse fs dir bad i → extend fs dir i z k = (fs, dir) → AddOutcome fs dir bad (i + 1) next) :
    AddOutcome fs dir bad i
      (if inodeAt ((extend fs dir i z k).1.blocks z) k = 0 then
        .ok ((putName (extend fs dir i z k).1 z k name, (extend fs dir i z k).2), some (z, k), [z])
      else next) := by
  by_cases hsize : i * 16 ≥ dir.iSize
  · rw [extend, if_pos hsize]
    dsimp only
    rw [if_pos inodeAt_setInode]
    exact .free (r := some (z, k)) hw he fun h => by
      have := h.1
      omega
  · rw [extend, if_neg hsize]
    dsimp only
    by_cases h0 : inodeAt (fs.blocks z) k = 0
    · rw [if_pos h0]
      refine .free (r := some (z, k)) hw he fun h => ?_
      obtain ⟨-, z', k', he', hne⟩ := h
      obtain ⟨rfl, rfl⟩ := Prod.mk.inj (Option.some.inj (he.symm.trans he'))
      exact hne h0
    · rw [if_neg h0]
      exact (hnext ⟨Nat.lt_of_not_le hsize, z, k, he, h0⟩ (if_neg hsize)).cons hw he

theorem addTurn_inside (he : entryAt fs dir bad i = some (z, k)) :
    addTurn fs dir bad i z k [z] = .ok ((fs, dir), .here z k, [z]) := by
  obtain ⟨-, rfl⟩ := entryAt_eq_some.mp he
  rw [addTurn, if_pos (Nat.mod_lt _ (by decide))]

theorem addTurn_behind : addTurn fs dir bad i z DIR_ENTRIES_PER_BLOCK [z] =
    match createBlock fs dir bad (i / DIR_ENTRIES_PER_BLOCK) with
    | none => .error .panic
    | some (fs, dir, block) =>
      if block = 0 then .ok ((fs, dir), .stop, [])
      else if bad block = true then .ok ((fs, dir), .skip, [])
      else .ok ((fs, dir), .here block 0, [block]) := by
  rw [addTurn, if_neg (lt_irrefl _), brelse_single]
  rfl

theorem Reaches.of_used (hi : i % DIR_ENTRIES_PER_BLOCK = 0) (hpos : 0 < i) (h : ∀ j < i, InUse fs dir bad j) :
    DIR_ENTRIES_PER_BLOCK * (i / DIR_ENTRIES_PER_BLOCK) = i ∧ Reaches fs dir bad (i / DIR_ENTRIES_PER_BLOCK) := by
  have hdiv := Nat.mul_div_cancel' (Nat.dvd_of_mod_eq_zero hi)
  refine ⟨hdiv, ?_, fun j hj => h j (hdiv ▸ hj)⟩
  unfold DIR_ENTRIES_PER_BLOCK at hi ⊢
  omega

theorem addLoop_spec (hw : Wf fs dir) (hfuel : dir.iSize / 16 + 3 ≤ i + fuel) (h : At fs dir bad i z k)
    (hused : ∀ j < i, InUse fs dir bad j) :
    AddOutcome fs dir bad i (addLoop bad name fuel fs dir i (some z) k [z]) := by
  have hlast : 0 < i → (i - 1) * 16 < dir.iSize := fun hpos => (hused (i - 1) (by omega)).1
  induction fuel generalizing i z k with
  | zero => omega
  | succ fuel ih =>
    have hcons (h : InUse fs dir bad i) (j : ℕ) (hj : j < i + 1) : InUse fs dir bad j := by
      rcases Nat.lt_succ_iff_lt_or_eq.mp hj with hlt | rfl
      · exact hused j hlt
      · exact h
    -- the loop at an entry of the directory that is there already
    have hhere {z k : ℕ} (he : entryAt fs dir bad i = some (z, k)) := by
      refine @addOutcome_here _ _ _ name _ _ _ hw he (addLoop bad name fuel (extend fs dir i z k).1
        (extend fs dir i z k).2 (i + 1) (some z) (k + 1) [z]) fun huse hext => ?_
      rw [hext]
      refine ih (by omega) (.next he) (hcons huse) fun _ => ?_
      rw [Nat.add_sub_cancel]
      exact huse.1
    rw [addLoop]
    cases h with
    | inside he =>
      dsimp only
      rw [addTurn_inside he]
      exact hhere he
    | behind hk hi hpos =>
      subst hk
      obtain ⟨hdiv, hreach⟩ := Reaches.of_used hi hpos hused
      dsimp only
      rw [addTurn_behind]
      cases hc : createBlock fs dir bad (i / DIR_ENTRIES_PER_BLOCK) with
      | none =>
        have hsome := @_bmap_isSome fs dir bad true _ (hreach.lt hw)
        rw [show _bmap fs dir bad _ true = none from hc] at hsome
        cases hsome
      | some r =>
        obtain ⟨fs', dir', block⟩ := r
        -- a block that is not there yet is not read before
        have hlater (b : ℕ) (hib : i < DIR_ENTRIES_PER_BLOCK * b) (hr : Reaches fs dir bad b) :
            fs' = fs ∧ dir' = dir ∧ entryAt fs dir bad i = some (block, 0) := by
          obtain ⟨z', hz'⟩ := (hr.used i hib).blockAt
          obtain ⟨hb, hat, hne, -⟩ := blockAt_zoneAt hw hz'
          rw [createBlock_mapped hb (hat ▸ hne), (blockAt_eq_some.mp hz').1] at hc
          obtain ⟨rfl, rfl, rfl⟩ := by simpa using hc
          exact ⟨rfl, rfl, entryAt_eq_some.mpr ⟨hz', hi⟩⟩
        dsimp only
        by_cases h0 : block = 0
        · rw [if_pos h0]
          refine .done (r := none) fun b hib hr => ?_
          rcases eq_or_lt_of_le hib with rfl | hlt
          · rw [Nat.mul_div_cancel_left b (by decide)] at hc
            intro fs'' dir'' z' hc' hz'
            rw [hc] at hc'
            obtain ⟨-, -, rfl⟩ := by simpa using hc'
            exact absurd h0 hz'
          · obtain ⟨-, -, he⟩ := hlater b hlt hr
            exact absurd h0 (blockAt_eq_some.mp (entryAt_eq_some.mp he).1).2.1
        rw [if_neg h0]
        by_cases hbad : bad block = true
        · have hfuel' : 0 < fuel := by
            have := hlast hpos
            omega
          rw [if_pos hbad]
          obtain ⟨fuel, rfl⟩ := Nat.exists_eq_succ_of_ne_zero hfuel'.ne'
          refine .null hreach fun hr => ?_
          have := hr fs' dir' block hc h0
          rw [hbad] at this
          cases this
        · rw [if_neg hbad]
          by_cases hz : zoneAt fs dir (slotOf (i / DIR_ENTRIES_PER_BLOCK)) = 0
          · have hzero := createBlock_fresh hw hz hc h0
            have hfree : inodeAt ((extend fs' dir' i block 0).1.blocks block) 0 = 0 := by
              unfold extend
              split_ifs
              · exact inodeAt_setInode
              · dsimp only
                rw [hzero]
                rfl
            simp only [Except.bind]
            rw [if_pos hfree]
            refine .done (r := some (block, 0)) fun b hib hr => ?_
            rcases eq_or_lt_of_le hib with rfl | hlt
            · rw [Nat.mul_div_cancel_left b (by decide)] at hc
              intro fs'' dir'' z' hc' _
              rw [hc] at hc'
              obtain ⟨-, -, rfl⟩ := by simpa using hc'
              simpa using hbad
            · obtain ⟨rfl, rfl, he⟩ := hlater b hlt hr
              obtain ⟨-, hat, hne, -⟩ := blockAt_zoneAt hw (entryAt_eq_some.mp he).1
              rw [hz] at hat
              exact absurd hat.symm hne
          · have hcm := hc
            rw [createBlock_mapped (hreach.lt hw) hz] at hcm
            obtain ⟨z', hm, he⟩ := Option.map_eq_some_iff.mp hcm
            obtain ⟨rfl, rfl, rfl⟩ := by simpa using he
            exact hhere (entryAt_eq_some.mpr ⟨blockAt_eq_some.mpr ⟨hm, h0, by simpa using hbad⟩, hi⟩)

/-! ## Scans of a directory with holes -/

theorem blockAt_zero_none : blockAt fs dir bad 0 = none ↔ dir.iZone 0 = 0 ∨ bad (dir.iZone 0) = true := by
  constructor
  · intro h
    by_contra hc
    rw [not_or, Bool.not_eq_true] at hc
    rw [blockAt_zero hc.1 hc.2] at h
    cases h
  · intro h
    apply Option.eq_none_iff_forall_ne_some.mpr
    intro z hz
    obtain ⟨hm, hne, hbad⟩ := blockAt_eq_some.mp hz
    rw [bmap_zero] at hm
    obtain rfl := Option.some.inj hm
    rcases h with h | h
    · exact hne h
    · rw [hbad] at h
      cases h

/-- A directory of 129 entries whose second block has no zone. -/
def holed : Fs × Inode :=
  ({ sNzones := 100, sFirstdatazone := 10
     sZmap := fun i => if i = 0 then some fun j => j < 2 else none
     blocks := fun _ _ => 0xff },
    { iZone := fun k => if k = 0 then 10 else 0, iSize := 129 * 16 })

theorem zoneAt_table (h₇ : dir.iZone 7 = 0) (h₈ : dir.iZone 8 = 0) {p : Slot} (hp : Table p) : zoneAt fs dir p = 0 := by
  cases hp with
  | single => exact h₇
  | double => exact h₈
  | second _ => exact zoneAt_entry_of_zero h₈

/-- An inode without indirect blocks. -/
theorem wf_direct (hok : fs.Ok) (h₇ : dir.iZone 7 = 0) (h₈ : dir.iZone 8 = 0)
    (hused : ∀ k < 7, dir.iZone k ≠ 0 →
      fs.sFirstdatazone ≤ dir.iZone k ∧ dir.iZone k < fs.sNzones ∧ Used fs (dir.iZone k))
    (hinj : ∀ k < 7, ∀ k' < 7, dir.iZone k ≠ 0 → dir.iZone k = dir.iZone k' → k = k') : Wf fs dir := by
  have hroot {s : Slot} (hs : Valid s) (h0 : zoneAt fs dir s ≠ 0) : ∃ k < 7, s = .root k := by
    cases hs with
    | @root k hk =>
      refine ⟨k, ?_, rfl⟩
      by_contra hge
      obtain rfl | rfl : k = 7 ∨ k = 8 := by omega
      · exact h0 h₇
      · exact h0 h₈
    | entry hp _ => exact absurd (zoneAt_entry_of_zero (zoneAt_table h₇ h₈ hp)) h0
  constructor
  · exact hok
  · intro s hs h0
    obtain ⟨k, hk, rfl⟩ := hroot hs h0
    exact hused k hk h0
  · intro s s' hs hs' h0 he
    obtain ⟨k, hk, rfl⟩ := hroot hs h0
    obtain ⟨k', hk', rfl⟩ := hroot hs' (he ▸ h0)
    exact congrArg Slot.root (hinj k hk k' hk' h0 he)

theorem holed_wf : Wf holed.1 holed.2 := by
  refine wf_direct ⟨by decide, by decide, fun m hm => ?_⟩ rfl rfl ?_ (by decide)
  · obtain rfl := Option.some.inj hm
    rfl
  · intro k hk h0
    obtain rfl : k = 0 := by
      by_contra hne
      exact h0 (if_neg hne)
    exact ⟨by decide, by decide, fun j => j < 2, rfl, rfl⟩

end Linux012.Entries
