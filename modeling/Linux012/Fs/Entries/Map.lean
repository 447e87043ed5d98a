import Linux012.Fs.Entries.Empty
import Linux012.Lib.SlotTable

/-! # A directory as a map

When all its blocks are there and can be read the entries of a directory are a table of slots, with names as
keys and inode numbers as values.
-/

namespace Linux012.Entries

open Function Splice SlotTable Runs
open FileDev

variable {fs fs' : Fs} {dir dir' : Inode} {name name' : Name} {at_ : Place} {b fuel i j k k' v z : ℕ} {d : Block}

/-! ## Names -/

/-- The name of an entry ends at its first zero, if it has one. -/
def entryName (d : Block) (k : ℕ) : Name := ((List.range NAME_LEN).map (nameAt d k)).takeWhile (· ≠ 0)

/-- What a block says about its entry `k`. -/
def slotIn (d : Block) (k : ℕ) : Option (Name × ℕ) :=
  if inodeAt d k = 0 then none else some (entryName d k, inodeAt d k)

theorem takeWhile_range (f : ℕ → UInt8) {n : Name} (h0 : 0 ∉ n) {m : ℕ} (hm : n.length ≤ m) :
    ((List.range m).map f).takeWhile (· ≠ 0) = n ↔
      n = (List.range n.length).map f ∧ (n.length < m → f n.length = 0) := by
  induction n generalizing f m with
  | nil =>
    cases m with
    | zero => simp
    | succ m =>
      rw [List.range_succ_eq_map, List.map_cons, List.takeWhile_cons]
      by_cases hf : f 0 = 0 <;> simp [hf]
  | cons c n ih =>
    obtain ⟨m, rfl⟩ := Nat.exists_eq_succ_of_ne_zero (Nat.ne_of_gt (Nat.lt_of_lt_of_le (Nat.succ_pos _) hm))
    rw [List.mem_cons, not_or] at h0
    have ih := ih (f ∘ Nat.succ) h0.2 (Nat.le_of_succ_le_succ hm)
    rw [List.range_succ_eq_map, List.length_cons, List.range_succ_eq_map, List.map_cons, List.map_cons, List.map_map,
      List.map_map, List.takeWhile_cons]
    by_cases hf : f 0 = 0
    · rw [if_neg (by simpa using hf)]
      refine iff_of_false nofun fun h => h0.1 ?_
      rw [← hf]
      exact (List.cons.inj h.1).1.symm
    · rw [if_pos (by simpa using hf), List.cons.injEq, List.cons.injEq, ih, eq_comm (a := f 0), and_assoc,
        Nat.succ_lt_succ_iff]
      rfl

/-- A name that a path can have: it is not empty and ends where a zero would be. -/
def Proper (name : Name) : Prop := name ≠ [] ∧ name ≠ [dot, dot] ∧ 0 ∉ name

theorem Proper.notMem (h : Proper name) : 0 ∉ name.take NAME_LEN := fun hm => h.2.2 (List.mem_of_mem_take hm)

theorem length_take_le (name : Name) : (name.take NAME_LEN).length ≤ NAME_LEN := by
  rw [List.length_take]
  exact Nat.min_le_left ..

theorem Proper.take_ne (h : Proper name) : name.take NAME_LEN ≠ [] := by
  rw [Ne, List.take_eq_nil_iff]
  exact fun hc => hc.elim (by decide) h.1

theorem entryName_eq_iff (h : Proper name) : entryName d k = name.take NAME_LEN ↔
    name.take NAME_LEN = (List.range (name.take NAME_LEN).length).map (nameAt d k) ∧
      ((name.take NAME_LEN).length < NAME_LEN → nameAt d k (name.take NAME_LEN).length = 0) :=
  takeWhile_range (nameAt d k) h.notMem (length_take_le name)

/-- `match` compares the name with the one that the entry has. -/
theorem matchEntry_iff (h : Proper name) :
    matchEntry (name.take NAME_LEN) d k = true ↔ ∃ v, slotIn d k = some (name.take NAME_LEN, v) := by
  have hlen := length_take_le name
  have hpos : (name.take NAME_LEN).length ≠ 0 := fun h0 => h.take_ne (List.length_eq_zero_iff.mp h0)
  unfold matchEntry slotIn
  by_cases h0 : inodeAt d k = 0
  · rw [if_pos (.inl h0), if_pos h0]
    exact iff_of_false Bool.false_ne_true nofun
  · rw [if_neg (not_or.mpr ⟨h0, Nat.not_lt.mpr hlen⟩), if_neg fun hc => hpos hc.1, if_neg h0]
    have hname := entryName_eq_iff (d := d) (k := k) h
    by_cases hend : (name.take NAME_LEN).length < NAME_LEN ∧ nameAt d k (name.take NAME_LEN).length ≠ 0
    · rw [if_pos hend]
      refine iff_of_false Bool.false_ne_true ?_
      rintro ⟨v, hv⟩
      obtain ⟨he, -⟩ := Prod.mk.inj (Option.some.inj hv)
      exact hend.2 ((hname.mp he).2 hend.1)
    · rw [if_neg hend, beq_iff_eq]
      constructor
      · intro he
        refine ⟨inodeAt d k, ?_⟩
        rw [hname.mpr ⟨he, fun hlt => by_contra fun hne => hend ⟨hlt, hne⟩⟩]
      · rintro ⟨v, hv⟩
        obtain ⟨he, -⟩ := Prod.mk.inj (Option.some.inj hv)
        exact (hname.mp he).1

/-! ## Stores into an entry -/

theorem setWord_of_ne {p : ℕ} (h₁ : p ≠ 16 * k) (h₂ : p ≠ 16 * k + 1) : setWord d (8 * k) v p = d p := by
  unfold setWord
  rcases Nat.lt_or_ge p (16 * k) with hlt | hge
  · exact splice_of_lt (by omega)
  · exact splice_of_ge (by rw [List.length_cons, List.length_singleton]; omega)

theorem entryName_congr {d' : Block} (h : ∀ i < NAME_LEN, nameAt d' k i = nameAt d k i) : entryName d' k = entryName d k := by
  unfold entryName
  congr 1
  apply List.map_congr_left
  intro i hi
  exact h i (List.mem_range.mp hi)

theorem slotIn_setInode (hv : v < 65536) (h0 : v ≠ 0) : slotIn (setWord d (8 * k) v) k = some (entryName d k, v) := by
  have hname : entryName (setWord d (8 * k) v) k = entryName d k :=
    entryName_congr fun i _ => setWord_of_ne (by omega) (by omega)
  unfold slotIn inodeAt
  rw [word_setWord d hv, if_neg h0, hname]

theorem slotIn_clear : slotIn (setWord d (8 * k) 0) k = none := by
  unfold slotIn inodeAt
  rw [word_setWord d (by decide), if_pos rfl]

theorem slotIn_setInode_of_ne (h : k' ≠ k) : slotIn (setWord d (8 * k) v) k' = slotIn d k' := by
  have hname : entryName (setWord d (8 * k) v) k' = entryName d k' :=
    entryName_congr fun i hi => by
      unfold NAME_LEN at hi
      exact setWord_of_ne (by omega) (by omega)
  unfold slotIn inodeAt
  rw [word_setWord_of_ne d (by omega), hname]

theorem length_padded (h : name.length ≤ NAME_LEN) : (padded name).length = NAME_LEN := by
  unfold padded
  rw [List.length_append, List.length_replicate]
  omega

theorem entryName_putName (h : Proper name) :
    entryName (splice d (16 * k + 2) (padded (name.take NAME_LEN))) k = name.take NAME_LEN := by
  have hlen := length_take_le name
  have hat {i : ℕ} (hi : i < NAME_LEN) : ∃ h : i < (padded (name.take NAME_LEN)).length,
      nameAt (splice d (16 * k + 2) (padded (name.take NAME_LEN))) k i = (padded (name.take NAME_LEN))[i] :=
    ⟨(length_padded hlen).symm ▸ hi, splice_add _⟩
  apply (entryName_eq_iff h).mpr
  constructor
  · apply List.ext_getElem
    · rw [List.length_map, List.length_range]
    · intro i hi _
      obtain ⟨hi', he⟩ := hat (Nat.lt_of_lt_of_le hi hlen)
      rw [List.getElem_map, List.getElem_range, he]
      exact (List.getElem_append_left hi).symm
  · intro hlt
    obtain ⟨hlt', he⟩ := hat hlt
    rw [he]
    exact (List.getElem_append_right le_rfl).trans (List.getElem_replicate _)

theorem slotIn_putName_of_ne (hlen : name.length ≤ NAME_LEN) (h : k' ≠ k) :
    slotIn (splice d (16 * k + 2) (padded name)) k' = slotIn d k' := by
  have hout {p : ℕ} (hp : p < 16 * k + 2 ∨ 16 * k + 16 ≤ p) : splice d (16 * k + 2) (padded name) p = d p := by
    rcases hp with hlt | hge
    · exact splice_of_lt hlt
    · exact splice_of_ge (by rw [length_padded hlen]; exact hge)
  have hname : entryName (splice d (16 * k + 2) (padded name)) k' = entryName d k' :=
    entryName_congr fun i hi => by
      unfold NAME_LEN at hi
      exact hout (by omega)
  have hword : inodeAt (splice d (16 * k + 2) (padded name)) k' = inodeAt d k' := by
    unfold inodeAt word
    rw [hout (by omega), hout (by omega)]
  unfold slotIn
  rw [hword, hname]

/-! ## The entries of a directory -/

def count (dir : Inode) : ℕ := dir.iSize / 16

def slots (fs : Fs) (dir : Inode) (i : ℕ) : Option (Name × ℕ) :=
  slotIn (view fs dir (i / DIR_ENTRIES_PER_BLOCK)) (i % DIR_ENTRIES_PER_BLOCK)

/-- A consistent directory of whole entries whose blocks all have zones. -/
structure Whole (fs : Fs) (dir : Inode) : Prop where
  wf : Wf fs dir
  size : 16 ∣ dir.iSize
  blocks : ∀ i < count dir, i / DIR_ENTRIES_PER_BLOCK < MAX_BLOCKS ∧
    zoneAt fs dir (slotOf (i / DIR_ENTRIES_PER_BLOCK)) ≠ 0

theorem not_fine (z : ℕ) : ¬ fine z = true := Bool.false_ne_true

theorem reads_fine (s : Slot) : s.Reads fs dir fine := by
  induction s with
  | root k => trivial
  | entry p k ih => exact ⟨ih, fun _ => rfl⟩

theorem blockAt_fine (hb : b < MAX_BLOCKS) :
    blockAt fs dir fine b = some z ↔ zoneAt fs dir (slotOf b) = z ∧ z ≠ 0 := by
  rw [blockAt_eq_some, bmap_spec hb (reads_fine _), Option.some.injEq]
  exact and_congr_right fun _ => and_iff_left rfl

theorem slots_of_entryAt (hw : Wf fs dir) (h : entryAt fs dir fine i = some (z, k)) :
    slots fs dir i = slotIn (fs.blocks z) k := by
  obtain ⟨hz, rfl⟩ := entryAt_eq_some.mp h
  obtain ⟨hb, hat, hne, -⟩ := blockAt_zoneAt hw hz
  unfold slots view
  rw [hat, if_pos ⟨hb, hne⟩]

/-- The place of the entry `i`. -/
def placeOf (fs : Fs) (dir : Inode) (i : ℕ) : ℕ × ℕ :=
  (zoneAt fs dir (slotOf (i / DIR_ENTRIES_PER_BLOCK)), i % DIR_ENTRIES_PER_BLOCK)

theorem Whole.entryAt (h : Whole fs dir) (hi : i < count dir) : entryAt fs dir fine i = some (placeOf fs dir i) := by
  obtain ⟨hb, hz⟩ := h.blocks i hi
  exact entryAt_eq_some.mpr ⟨(blockAt_fine hb).mpr ⟨rfl, hz⟩, rfl⟩

theorem Whole.hit_iff (h : Whole fs dir) (hname : Proper name) (hi : i < count dir) :
    Hit fs dir fine (name.take NAME_LEN) i ↔ ∃ v, slots fs dir i = some (name.take NAME_LEN, v) := by
  have he := h.entryAt hi
  rw [slots_of_entryAt h.wf he, ← matchEntry_iff hname]
  constructor
  · rintro ⟨z, k, he', hm⟩
    rw [he] at he'
    obtain ⟨rfl, rfl⟩ := Prod.mk.inj (Option.some.inj he')
    exact hm
  · intro hm
    exact ⟨_, _, he, hm⟩

theorem Whole.blank_iff (h : Whole fs dir) (hi : i < count dir) : Blank fs dir fine i ↔ slots fs dir i = none := by
  have he := h.entryAt hi
  have hslot : slotIn (fs.blocks (placeOf fs dir i).1) (placeOf fs dir i).2 = none ↔
      inodeAt (fs.blocks (placeOf fs dir i).1) (placeOf fs dir i).2 = 0 := by
    unfold slotIn
    split_ifs with h0
    · exact iff_of_true rfl h0
    · exact iff_of_false nofun h0
  refine Iff.trans ?_ ((congrArg (· = none) (slots_of_entryAt h.wf he)).to_iff.trans hslot).symm
  constructor
  · rintro ⟨z, k, he', hm⟩
    rw [he] at he'
    obtain ⟨rfl, rfl⟩ := Prod.mk.inj (Option.some.inj he')
    exact hm
  · intro hm
    exact ⟨_, _, he, hm⟩

theorem resolve_proper (h : Proper name) : at_.resolve fs dir (name.take NAME_LEN) = ((fs, dir), name.take NAME_LEN) := by
  refine if_neg fun he => h.2.1 ?_
  have hlen : (name.take NAME_LEN).length = 2 := by
    rw [he]
    rfl
  rw [List.length_take] at hlen
  rwa [List.take_of_length_le (by unfold NAME_LEN at hlen ⊢; omega)] at he

/-- `find_entry` takes the first slot with the name. -/
theorem Whole.findEntry (h : Whole fs dir) (hname : Proper name) :
    ∃ held, findEntry fs dir at_ fine name =
      .ok ((search (slots fs dir) (count dir) (name.take NAME_LEN)).map (placeOf fs dir), held) := by
  unfold Entries.findEntry
  rw [resolve_proper hname]
  dsimp only
  by_cases hz : dir.iZone 0 = 0 ∨ fine (dir.iZone 0) = true
  · have h0 : count dir = 0 := by
      by_contra hne
      have hz' := (h.blocks 0 (Nat.pos_of_ne_zero hne)).2
      exact hz' (hz.resolve_right (not_fine _))
    rw [if_pos hz, h0]
    exact ⟨[], rfl⟩
  · rw [not_or] at hz
    have hat : At fs dir fine 0 (dir.iZone 0) 0 := At.first (blockAt_zero hz.1 rfl)
    have hout := @findLoop_spec _ _ _ (name.take NAME_LEN) (count dir) (count dir) _ _ _ (by omega) hat
    rw [if_neg (not_or.mpr hz)]
    change ∃ held, findLoop fs dir fine _ (count dir) (count dir) 0 _ 0 _ = _
    generalize findLoop fs dir fine (name.take NAME_LEN) (count dir) (count dir) 0 _ 0 _ = res at hout
    cases hout with
    | @found j z k _ hj he hm hbefore =>
      obtain ⟨v, hv⟩ := (h.hit_iff hname hj).mp ⟨z, k, he, hm⟩
      have hfirst := search_of_first hj hv fun l hl v' hv' =>
        (hbefore l (Nat.zero_le l) hl).not_hit ((h.hit_iff hname (hl.trans hj)).mpr ⟨v', hv'⟩)
      rw [h.entryAt hj] at he
      rw [hfirst, Option.map_some, Option.some.inj he]
      exact ⟨[z], rfl⟩
    | missing hno _ =>
      have hnone : search (slots fs dir) (count dir) (name.take NAME_LEN) = none := by
        rw [search_eq_none]
        rintro v hm
        obtain ⟨i, hi, hv⟩ := mem_pairs.mp hm
        exact hno i (Nat.zero_le i) hi ((h.hit_iff hname hi).mpr ⟨v, hv⟩)
      rw [hnone]
      exact ⟨[], rfl⟩
    | @stop b e _ hgap _ =>
      have he := h.entryAt hgap.lt
      rw [hgap.unreadable] at he
      cases he

/-- A store into the block of an entry. -/
theorem slots_store (hw : Wf fs dir) (hb : i / DIR_ENTRIES_PER_BLOCK < MAX_BLOCKS)
    (hz : zoneAt fs dir (slotOf (i / DIR_ENTRIES_PER_BLOCK)) = z) (hz0 : z ≠ 0)
    (hd : ∀ k, k ≠ i % DIR_ENTRIES_PER_BLOCK → slotIn d k = slotIn (fs.blocks z) k) :
    slots { fs with blocks := update fs.blocks z d } dir =
      update (slots fs dir) i (slotIn d (i % DIR_ENTRIES_PER_BLOCK)) := by
  obtain ⟨-, hview⟩ := store_spec hw hb hz hz0 d
  have hold : view fs dir (i / DIR_ENTRIES_PER_BLOCK) = fs.blocks z := by
    rw [view, hz, if_pos ⟨hb, hz0⟩]
  funext j
  unfold slots
  rw [hview]
  by_cases hj : j / DIR_ENTRIES_PER_BLOCK = i / DIR_ENTRIES_PER_BLOCK
  · rw [hj, update_self]
    by_cases hk : j % DIR_ENTRIES_PER_BLOCK = i % DIR_ENTRIES_PER_BLOCK
    · obtain rfl : j = i := by
        unfold DIR_ENTRIES_PER_BLOCK at hj hk
        omega
      rw [update_self]
    · have hne : j ≠ i := fun he => hk (he ▸ rfl)
      rw [update_of_ne hne, hd _ hk, ← hold, hj]
  · have hne : j ≠ i := fun he => hj (he ▸ rfl)
    rw [update_of_ne hj, update_of_ne hne]

theorem Whole.store (h : Whole fs dir) (hb : b < MAX_BLOCKS) (hz : zoneAt fs dir (slotOf b) = z) (hz0 : z ≠ 0)
    (d : Block) : Whole { fs with blocks := update fs.blocks z d } dir where
  wf := (store_spec h.wf hb hz hz0 d).1
  size := h.size
  blocks i hi := by
    obtain ⟨hlt, hne⟩ := h.blocks i hi
    rw [zoneAt_store h.wf hb hz d (slotOf_valid hlt)]
    exact ⟨hlt, hne⟩

theorem Whole.ext (h : Whole fs dir) (he : Ext fs dir fs' dir') :
    Whole fs' dir' ∧ slots fs' dir' = slots fs dir ∧ count dir' = count dir := by
  have hcount : count dir' = count dir := by
    unfold count
    rw [he.size]
  refine ⟨⟨he.wf, he.size ▸ h.size, fun i hi => ?_⟩, ?_, hcount⟩
  · obtain ⟨hlt, hne⟩ := h.blocks i (hcount ▸ hi)
    rw [he.zone _ (slotOf_valid hlt) hne]
    exact ⟨hlt, hne⟩
  · funext i
    unfold slots
    rw [he.view]

/-! ## A new entry -/

/-- The first free entry is taken, or the directory has none and grows by one entry, or it cannot grow. -/
inductive Added (fs : Fs) (dir : Inode) (name : Name) : Except Stop ((Fs × Inode) × Option (ℕ × ℕ) × List ℕ) → Prop
  | reused {j z k : ℕ} (hj : j < count dir) (h0 : slots fs dir j = none) (hp : placeOf fs dir j = (z, k)) :
      Added fs dir name (.ok ((putName fs z k name, dir), some (z, k), [z]))
  | grown {fs' : Fs} {dir' : Inode} {z k : ℕ} (hfull : ∀ j < count dir, slots fs dir j ≠ none)
      (hext : Ext fs dir fs' dir') (hb : count dir / DIR_ENTRIES_PER_BLOCK < MAX_BLOCKS)
      (hp : placeOf fs' dir' (count dir) = (z, k)) (hz : z ≠ 0) :
      Added fs dir name (.ok ((putName (setInode fs' z k 0) z k name, { dir' with iSize := (count dir + 1) * 16 }),
        some (z, k), [z]))
  | full {fs' : Fs} {dir' : Inode} (hfull : ∀ j < count dir, slots fs dir j ≠ none) (hext : Ext fs dir fs' dir') :
      Added fs dir name (.ok ((fs', dir'), none, []))

theorem Whole.size_eq (h : Whole fs dir) : dir.iSize = count dir * 16 := (Nat.div_mul_cancel h.size).symm

/-- Behind the last entry. -/
theorem added_grown (h : Whole fs dir) (hfull : ∀ j < count dir, slots fs dir j ≠ none) (hext : Ext fs dir fs' dir')
    (hb : count dir / DIR_ENTRIES_PER_BLOCK < MAX_BLOCKS) (hp : placeOf fs' dir' (count dir) = (z, k)) (hz : z ≠ 0)
    {next : Except Stop ((Fs × Inode) × Option (ℕ × ℕ) × List ℕ)} :
    Added fs dir name
      (if inodeAt ((extend fs' dir' (count dir) z k).1.blocks z) k = 0 then
        .ok ((putName (extend fs' dir' (count dir) z k).1 z k name, (extend fs' dir' (count dir) z k).2), some (z, k), [z])
      else next) := by
  have hsize : count dir * 16 ≥ dir'.iSize := by rw [hext.size, h.size_eq]
  rw [extend, if_pos hsize]
  dsimp only
  rw [if_pos inodeAt_setInode]
  exact .grown hfull hext hb hp hz

/-- The loop of `add_entry` at the entry `i`, when the entries before are in use. -/
theorem addLoop_fine (h : Whole fs dir) (hfuel : count dir + 3 ≤ i + fuel) (hi : i ≤ count dir)
    (hat : At fs dir fine i z k) (hused : ∀ j < i, slots fs dir j ≠ none) :
    Added fs dir name (addLoop fine name fuel fs dir i (some z) k [z]) := by
  induction fuel generalizing i z k with
  | zero => omega
  | succ fuel ih =>
    -- the entry at a place that can be read
    have hhere {z k : ℕ} (he : entryAt fs dir fine i = some (z, k)) : Added fs dir name
        (if inodeAt ((extend fs dir i z k).1.blocks z) k = 0 then
          .ok ((putName (extend fs dir i z k).1 z k name, (extend fs dir i z k).2), some (z, k), [z])
        else addLoop fine name fuel (extend fs dir i z k).1 (extend fs dir i z k).2 (i + 1) (some z) (k + 1) [z]) := by
      rcases eq_or_lt_of_le hi with rfl | hlt
      · obtain ⟨hz, hk⟩ := entryAt_eq_some.mp he
        obtain ⟨hb, hzone, hne, -⟩ := blockAt_zoneAt h.wf hz
        exact added_grown h hused (.refl h.wf) hb (Prod.ext hzone hk) hne
      · have hsize : ¬ i * 16 ≥ dir.iSize := by
          rw [h.size_eq]
          omega
        have hplace : placeOf fs dir i = (z, k) := Option.some.inj ((h.entryAt hlt).symm.trans he)
        rw [extend, if_neg hsize]
        dsimp only
        by_cases h0 : inodeAt (fs.blocks z) k = 0
        · rw [if_pos h0]
          exact .reused hlt ((h.blank_iff hlt).mp ⟨z, k, he, h0⟩) hplace
        · rw [if_neg h0]
          refine ih (by omega) hlt (.next he) fun j hj hnone => ?_
          rcases Nat.lt_succ_iff_lt_or_eq.mp hj with hlt' | rfl
          · exact hused j hlt' hnone
          · obtain ⟨z', k', he', h0'⟩ := (h.blank_iff hlt).mpr hnone
            obtain ⟨rfl, rfl⟩ := Prod.mk.inj (Option.some.inj (he.symm.trans he'))
            exact h0 h0'
    rw [addLoop]
    dsimp only
    cases hat with
    | inside he =>
      rw [addTurn_inside he]
      exact hhere he
    | behind hk hmod hpos =>
      subst hk
      rw [addTurn_behind]
      have hread (c : ℕ) (hc : c < i / DIR_ENTRIES_PER_BLOCK) : ∃ z, blockAt fs dir fine c = some z := by
        have hlt : DIR_ENTRIES_PER_BLOCK * c < count dir := by
          unfold DIR_ENTRIES_PER_BLOCK at hc ⊢
          omega
        obtain ⟨hb, hz⟩ := h.blocks _ hlt
        rw [Nat.mul_div_cancel_left c (by decide)] at hb hz
        exact ⟨_, (blockAt_fine hb).mpr ⟨rfl, hz⟩⟩
      have hb := lt_of_blockAt h.wf hread
      obtain ⟨⟨fs', dir', block⟩, hc⟩ : ∃ r, createBlock fs dir fine (i / DIR_ENTRIES_PER_BLOCK) = some r :=
        Option.isSome_iff_exists.mp (_bmap_isSome hb)
      obtain ⟨-, hext, hzone⟩ := _bmap_spec h.wf hc
      rw [hc]
      dsimp only
      rcases eq_or_lt_of_le hi with rfl | hlt
      · by_cases h0 : block = 0
        · rw [if_pos h0]
          exact .full hused hext
        · rw [if_neg h0, if_neg (not_fine _)]
          exact added_grown h hused hext hb (Prod.ext (hzone h0) hmod) h0
      · obtain ⟨-, hz⟩ := h.blocks i hlt
        have hcm := @createBlock_mapped _ _ fine _ hb hz
        rw [hc, bmap_spec hb (reads_fine _), Option.map_some] at hcm
        obtain ⟨rfl, rfl, rfl⟩ := by simpa using hcm
        rw [if_neg hz, if_neg (not_fine _)]
        exact hhere (entryAt_eq_some.mpr ⟨(blockAt_fine hb).mpr ⟨rfl, hz⟩, hmod⟩)

theorem Whole.addEntry (h : Whole fs dir) (hname : Proper name) :
    Added fs dir (name.take NAME_LEN) (addEntry fs dir fine name) := by
  unfold Entries.addEntry
  dsimp only
  by_cases hz : dir.iZone 0 = 0
  · have h0 : count dir = 0 := by
      by_contra hne
      exact (h.blocks 0 (Nat.pos_of_ne_zero hne)).2 hz
    rw [if_pos (.inr (.inl hz))]
    exact .full (fun j hj => by omega) (.refl h.wf)
  · rw [if_neg (not_or.mpr ⟨hname.take_ne, not_or.mpr ⟨hz, not_fine _⟩⟩)]
    exact addLoop_fine h (by unfold count; omega) (Nat.zero_le _)
      (At.first (blockAt_zero hz rfl)) fun j hj => absurd hj (Nat.not_lt_zero j)

/-! ## Calls on a directory -/

/-- `live` are the entries that were added and not cleared since, `ret` the inode number that the last call
found or stored. -/
structure Sys where
  fs : Fs
  dir : Inode
  live : Multiset (Name × ℕ)
  ret : Option ℕ

/-- An entry is added with an inode number for it, and is cleared when it is found. -/
inductive Op
  | find (name : Name)
  | add (name : Name) (ino : ℕ)
  | clear (name : Name)

/-- `none` is a fault in `find_entry` or `add_entry`. -/
def step (at_ : Place) : Op → Sys → Option Sys
  | .find name, s =>
    match findEntry s.fs s.dir at_ fine name with
    | .error _ => none
    | .ok (r, _) => some { s with ret := r.map fun (z, k) => inodeAt (s.fs.blocks z) k }
  | .add name ino, s =>
    match addEntry s.fs s.dir fine name with
    | .error _ => none
    | .ok ((fs, dir), none, _) => some { s with fs := fs, dir := dir, ret := none }
    | .ok ((fs, dir), some (z, k), _) =>
      some { fs := setInode fs z k ino, dir := dir, live := (name.take NAME_LEN, ino) ::ₘ s.live, ret := some ino }
  | .clear name, s =>
    match findEntry s.fs s.dir at_ fine name with
    | .error _ => none
    | .ok (none, _) => some { s with ret := none }
    | .ok (some (z, k), _) =>
      some { s with
        fs := setInode s.fs z k 0
        live := s.live.erase (name.take NAME_LEN, inodeAt (s.fs.blocks z) k)
        ret := some (inodeAt (s.fs.blocks z) k) }

/-- The names of calls, and the inode numbers that are stored. -/
def Op.Proper : Op → Prop
  | .find name | .clear name => Entries.Proper name
  | .add name ino => Entries.Proper name ∧ 0 < ino ∧ ino < 65536

/-- What `find_entry` says about a name. -/
def lookup (at_ : Place) (s : Sys) (name : Name) : Option (Option ℕ) := (step at_ (.find name) s).map Sys.ret

/-- Other names are found as before. -/
def Apart (at_ : Place) (name : Name) (s s' : Sys) : Prop :=
  ∀ name', Proper name' → name'.take NAME_LEN ≠ name.take NAME_LEN → lookup at_ s' name' = lookup at_ s name'

/-- What a call does to the map. An entry goes into a free slot, and without one the directory grows. -/
def Behaves (at_ : Place) (s : Sys) : Op → Sys → Prop
  | .find name, s' => s' = { s with ret := s'.ret } ∧ (s'.ret = none ↔ ∀ ino, (name.take NAME_LEN, ino) ∉ s.live) ∧
      ∀ ino, s'.ret = some ino → (name.take NAME_LEN, ino) ∈ s.live
  | .add name ino, s' => Apart at_ name s s' ∧
      (s'.ret = some ino ∧ s'.live = (name.take NAME_LEN, ino) ::ₘ s.live ∨ s'.ret = none ∧ s'.live = s.live) ∧
      ((∃ i < s.dir.iSize / 16, Blank s.fs s.dir fine i) → s'.ret = some ino ∧ s'.dir = s.dir) ∧
      ((¬ ∃ i < s.dir.iSize / 16, Blank s.fs s.dir fine i) →
        s'.dir.iSize = s.dir.iSize + if s'.ret = none then 0 else 16)
  | .clear name, s' => Apart at_ name s s' ∧ s'.dir = s.dir ∧
      (s'.ret = none → s'.live = s.live ∧ ∀ ino, (name.take NAME_LEN, ino) ∉ s.live) ∧
      ∀ ino, s'.ret = some ino → s.live = (name.take NAME_LEN, ino) ::ₘ s'.live

/-- The entries that were added and not cleared are those of the directory. -/
structure Sys.Ok (s : Sys) : Prop where
  whole : Whole s.fs s.dir
  live : s.live = pairs (slots s.fs s.dir) (count s.dir)

variable {s s' : Sys} {op : Op}

theorem Whole.inodeAt_eq (h : Whole fs dir) (hi : i < count dir) (hv : slots fs dir i = some (name, v)) :
    inodeAt (fs.blocks (placeOf fs dir i).1) (placeOf fs dir i).2 = v := by
  have hs := (slots_of_entryAt h.wf (h.entryAt hi)).symm.trans hv
  unfold slotIn at hs
  split_ifs at hs
  exact (Prod.mk.inj (Option.some.inj hs)).2

theorem Whole.step_find (h : Whole s.fs s.dir) (hname : Proper name) : step at_ (.find name) s =
    some { s with
      ret := (search (slots s.fs s.dir) (count s.dir) (name.take NAME_LEN)).map
        fun i => inodeAt (s.fs.blocks (placeOf s.fs s.dir i).1) (placeOf s.fs s.dir i).2 } := by
  obtain ⟨held, hfind⟩ : ∃ held, Entries.findEntry s.fs s.dir at_ fine name = .ok (_, held) := h.findEntry hname
  unfold step
  dsimp only
  rw [hfind]
  dsimp only
  rw [Option.map_map]
  rfl

theorem Whole.lookup_eq (h : Whole s.fs s.dir) (hname : Proper name) : lookup at_ s name =
    some ((search (slots s.fs s.dir) (count s.dir) (name.take NAME_LEN)).bind (slots s.fs s.dir) |>.map Prod.snd) := by
  unfold lookup
  rw [h.step_find hname, Option.map_some]
  congr 1
  cases hs : search (slots s.fs s.dir) (count s.dir) (name.take NAME_LEN) with
  | none => rfl
  | some i =>
    obtain ⟨hi, v, hv⟩ := search_eq_some hs
    dsimp only [Option.map_some, Option.bind_some]
    rw [hv, h.inodeAt_eq hi hv]
    rfl

/-- A search that comes to the same slots finds the same. -/
theorem apart_of_search (h : Whole s.fs s.dir) (h' : Whole s'.fs s'.dir)
    (heq : ∀ n, n ≠ name.take NAME_LEN →
      search (slots s'.fs s'.dir) (count s'.dir) n = search (slots s.fs s.dir) (count s.dir) n ∧
      ∀ i < count s.dir, ∀ v, slots s.fs s.dir i = some (n, v) → slots s'.fs s'.dir i = some (n, v)) : Apart at_ name s s' := by
  intro name' hname hne
  obtain ⟨hsearch, hkeep⟩ := heq _ hne
  rw [h.lookup_eq hname, h'.lookup_eq hname, hsearch]
  cases hs : search (slots s.fs s.dir) (count s.dir) (name'.take NAME_LEN) with
  | none => rfl
  | some i =>
    obtain ⟨hi, v, hv⟩ := search_eq_some hs
    rw [Option.bind_some, Option.bind_some, hkeep i hi v hv, hv]

/-- One slot has changed that belongs to the name or to none. -/
theorem apart_of_update {o : Option (Name × ℕ)} (h : Whole s.fs s.dir) (h' : Whole s'.fs s'.dir)
    (hcount : count s'.dir = count s.dir) (hslots : slots s'.fs s'.dir = update (slots s.fs s.dir) i o)
    (hold : ∀ n v, slots s.fs s.dir i = some (n, v) → n = name.take NAME_LEN)
    (hnew : ∀ n v, o = some (n, v) → n = name.take NAME_LEN) : Apart at_ name s s' := by
  refine apart_of_search h h' fun n hn => ?_
  rw [hslots, hcount]
  refine ⟨search_update (fun v hv => hn (hold n v hv)) fun v hv => hn (hnew n v hv), fun j _ v hv => ?_⟩
  rw [update_of_ne]
  · exact hv
  · rintro rfl
    exact hn (hold n v hv)

/-- The bytes of a new entry: its name, and then its inode number. -/
theorem slots_fill (h : Whole fs dir) (hname : Proper name) (hb : i / DIR_ENTRIES_PER_BLOCK < MAX_BLOCKS)
    (hp : placeOf fs dir i = (z, k)) (hz : z ≠ 0) (hv : 0 < v ∧ v < 65536) :
    Whole (setInode (putName fs z k (name.take NAME_LEN)) z k v) dir ∧
      slots (setInode (putName fs z k (name.take NAME_LEN)) z k v) dir =
        update (slots fs dir) i (some (name.take NAME_LEN, v)) := by
  obtain ⟨hzone, rfl⟩ := Prod.mk.inj hp
  have hput : Whole (putName fs z (i % DIR_ENTRIES_PER_BLOCK) (name.take NAME_LEN)) dir := h.store hb hzone hz _
  have hzone' : zoneAt (putName fs z (i % DIR_ENTRIES_PER_BLOCK) (name.take NAME_LEN)) dir
      (slotOf (i / DIR_ENTRIES_PER_BLOCK)) = z := (zoneAt_store h.wf hb hzone _ (slotOf_valid hb)).trans hzone
  refine ⟨hput.store hb hzone' hz _, ?_⟩
  unfold setInode
  rw [slots_store hput.wf hb hzone' hz fun k hk => slotIn_setInode_of_ne hk]
  unfold putName
  rw [slots_store h.wf hb hzone hz fun k hk => slotIn_putName_of_ne (length_take_le name) hk, update_idem]
  dsimp only
  rw [update_self, slotIn_setInode hv.2 hv.1.ne', entryName_putName hname]

theorem slots_clear (h : Whole fs dir) (hb : i / DIR_ENTRIES_PER_BLOCK < MAX_BLOCKS)
    (hp : placeOf fs dir i = (z, k)) (hz : z ≠ 0) :
    Whole (setInode fs z k 0) dir ∧ slots (setInode fs z k 0) dir = update (slots fs dir) i none := by
  obtain ⟨hzone, rfl⟩ := Prod.mk.inj hp
  refine ⟨h.store hb hzone hz _, ?_⟩
  unfold setInode
  rw [slots_store h.wf hb hzone hz fun k hk => slotIn_setInode_of_ne hk, slotIn_clear]

theorem Whole.place (h : Whole fs dir) (hi : i < count dir) (hp : placeOf fs dir i = (z, k)) :
    i / DIR_ENTRIES_PER_BLOCK < MAX_BLOCKS ∧ z ≠ 0 := by
  obtain ⟨hb, hz⟩ := h.blocks i hi
  obtain ⟨rfl, -⟩ := Prod.mk.inj hp
  exact ⟨hb, hz⟩

/-! ## What the calls do -/

theorem Sys.Ok.find (h : s.Ok) (hname : Proper name) :
    ∃ s', step at_ (.find name) s = some s' ∧ s'.Ok ∧ Behaves at_ s (.find name) s' := by
  refine ⟨_, h.whole.step_find hname, ⟨h.whole, h.live⟩, rfl, ?_, ?_⟩
  · rw [h.live, ← search_eq_none]
    exact Option.map_eq_none_iff
  · intro ino hino
    obtain ⟨i, hs, rfl⟩ := Option.map_eq_some_iff.mp hino
    obtain ⟨hi, v, hv⟩ := search_eq_some hs
    rw [h.live, mem_pairs, h.whole.inodeAt_eq hi hv]
    exact ⟨i, hi, hv⟩

theorem Sys.Ok.clear (h : s.Ok) (hname : Proper name) :
    ∃ s', step at_ (.clear name) s = some s' ∧ s'.Ok ∧ Behaves at_ s (.clear name) s' := by
  obtain ⟨held, hfind⟩ : ∃ held, Entries.findEntry s.fs s.dir at_ fine name = .ok (_, held) := h.whole.findEntry hname
  unfold step
  dsimp only
  rw [hfind]
  cases hs : search (slots s.fs s.dir) (count s.dir) (name.take NAME_LEN) with
  | none =>
    refine ⟨{ s with ret := none }, rfl, ⟨h.whole, h.live⟩, fun _ _ _ => rfl, rfl, fun _ => ⟨rfl, ?_⟩, nofun⟩
    rw [h.live, ← search_eq_none]
    exact hs
  | some i =>
    obtain ⟨hi, v, hv⟩ := search_eq_some hs
    obtain ⟨⟨z, k⟩, hp⟩ : ∃ p, placeOf s.fs s.dir i = p := ⟨_, rfl⟩
    obtain ⟨hb, hz⟩ := h.whole.place hi hp
    obtain ⟨hwhole, hslots⟩ := slots_clear h.whole hb hp hz
    have hval : inodeAt (s.fs.blocks z) k = v := by
      have hval := h.whole.inodeAt_eq hi hv
      rwa [hp] at hval
    have hlive : (name.take NAME_LEN, v) ::ₘ pairs (slots (setInode s.fs z k 0) s.dir) (count s.dir) = s.live := by
      rw [hslots, h.live]
      exact pairs_clear hi hv
    have herase : s.live.erase (name.take NAME_LEN, v) = pairs (slots (setInode s.fs z k 0) s.dir) (count s.dir) := by
      rw [← hlive, Multiset.erase_cons_head]
    rw [Option.map_some, hp]
    dsimp only
    rw [hval, herase]
    refine ⟨_, rfl, ⟨hwhole, rfl⟩, apart_of_update h.whole hwhole rfl hslots ?_ nofun, rfl, nofun, ?_⟩
    · intro n v' hv'
      rw [hv] at hv'
      exact (Prod.mk.inj (Option.some.inj hv')).1.symm
    · intro ino hino
      obtain rfl := Option.some.inj hino
      exact hlive.symm

theorem Whole.resize (h : Whole fs dir) (hb : count dir / DIR_ENTRIES_PER_BLOCK < MAX_BLOCKS)
    (hz : zoneAt fs dir (slotOf (count dir / DIR_ENTRIES_PER_BLOCK)) ≠ 0) :
    Whole fs { dir with iSize := (count dir + 1) * 16 } ∧
      slots fs { dir with iSize := (count dir + 1) * 16 } = slots fs dir ∧
      count { dir with iSize := (count dir + 1) * 16 } = count dir + 1 := by
  have hcount : count { dir with iSize := (count dir + 1) * 16 } = count dir + 1 := Nat.mul_div_cancel _ (by decide)
  refine ⟨⟨h.wf.resize _, ⟨count dir + 1, mul_comm ..⟩, fun i hi => ?_⟩, ?_, hcount⟩
  · rw [hcount] at hi
    rw [zoneAt_resize]
    rcases Nat.lt_succ_iff_lt_or_eq.mp hi with hlt | rfl
    · exact h.blocks i hlt
    · exact ⟨hb, hz⟩
  · unfold slots
    rw [view_resize]

/-- The state after the directory has grown. -/
theorem slots_grow (h : Whole fs dir) (hname : Proper name) (hb : count dir / DIR_ENTRIES_PER_BLOCK < MAX_BLOCKS)
    (hp : placeOf fs dir (count dir) = (z, k)) (hz : z ≠ 0) (hv : 0 < v ∧ v < 65536) :
    Whole (setInode (putName (setInode fs z k 0) z k (name.take NAME_LEN)) z k v)
        { dir with iSize := (count dir + 1) * 16 } ∧
      slots (setInode (putName (setInode fs z k 0) z k (name.take NAME_LEN)) z k v)
        { dir with iSize := (count dir + 1) * 16 } = update (slots fs dir) (count dir) (some (name.take NAME_LEN, v)) ∧
      count { dir with iSize := (count dir + 1) * 16 } = count dir + 1 := by
  obtain ⟨hclear, hslots⟩ := slots_clear h hb hp hz
  have hat {fs' : Fs} (hfs' : ∃ d, fs' = { fs with blocks := update fs.blocks z d }) :
      zoneAt fs' dir (slotOf (count dir / DIR_ENTRIES_PER_BLOCK)) = z := by
    obtain ⟨d, rfl⟩ := hfs'
    rw [zoneAt_store h.wf hb (Prod.mk.inj hp).1 d (slotOf_valid hb)]
    exact (Prod.mk.inj hp).1
  have hp' : placeOf (setInode fs z k 0) dir (count dir) = (z, k) := Prod.ext (hat ⟨_, rfl⟩) (Prod.mk.inj hp).2
  obtain ⟨hfill, hslots'⟩ := slots_fill hclear hname hb hp' hz hv
  have hzone : zoneAt (setInode (putName (setInode fs z k 0) z k (name.take NAME_LEN)) z k v) dir
      (slotOf (count dir / DIR_ENTRIES_PER_BLOCK)) ≠ 0 := by
    rw [hat]
    · exact hz
    · unfold setInode putName
      simp only [update_self, update_idem]
      exact ⟨_, rfl⟩
  obtain ⟨hwhole, hsame, hcount⟩ := hfill.resize hb hzone
  refine ⟨hwhole, ?_, hcount⟩
  rw [hsame, hslots', hslots, update_idem]

theorem Sys.Ok.add {ino : ℕ} (h : s.Ok) (hname : Proper name) (hino : 0 < ino ∧ ino < 65536) :
    ∃ s', step at_ (.add name ino) s = some s' ∧ s'.Ok ∧ Behaves at_ s (.add name ino) s' := by
  have hadd := h.whole.addEntry hname
  have hblank (hfull : ∀ j < count s.dir, slots s.fs s.dir j ≠ none) : ¬ ∃ i < s.dir.iSize / 16, Blank s.fs s.dir fine i := by
    rintro ⟨i, hi, hb⟩
    exact hfull i hi ((h.whole.blank_iff hi).mp hb)
  unfold step
  dsimp only
  generalize Entries.addEntry s.fs s.dir fine name = res at hadd
  cases hadd with
  | @reused j z k hj h0 hp =>
    obtain ⟨hb, hz⟩ := h.whole.place hj hp
    obtain ⟨hwhole, hslots⟩ := slots_fill h.whole hname hb hp hz hino
    refine ⟨_, rfl, ⟨hwhole, ?_⟩, apart_of_update h.whole hwhole rfl hslots ?_ ?_, .inl ⟨rfl, rfl⟩, fun _ => ⟨rfl, rfl⟩,
      fun hno => absurd ⟨j, hj, (h.whole.blank_iff hj).mpr h0⟩ hno⟩
    · dsimp only
      rw [hslots, pairs_fill hj h0, h.live]
    · intro n v hv
      rw [h0] at hv
      cases hv
    · intro n v hv
      exact (Prod.mk.inj (Option.some.inj hv)).1.symm
  | @grown fs' dir' z k hfull hext hb hp hz =>
    obtain ⟨hwhole', hslots', hcount'⟩ := h.whole.ext hext
    rw [← hcount'] at hb hp ⊢
    obtain ⟨hwhole, hslots, hcount⟩ := slots_grow hwhole' hname hb hp hz hino
    rw [hslots'] at hslots
    refine ⟨_, rfl, ⟨hwhole, ?_⟩, apart_of_search h.whole hwhole fun n hn => ?_, .inl ⟨rfl, rfl⟩,
      fun hex => absurd hex (hblank hfull), fun _ => ?_⟩
    · dsimp only
      rw [hslots, hcount, hcount', pairs_push, h.live]
    · dsimp only
      rw [hslots, hcount, hcount']
      exact ⟨search_push fun v hv => hn (Prod.mk.inj hv).1.symm, fun i hi v hv => (update_of_ne hi.ne ..).trans hv⟩
    · dsimp only
      rw [hcount', h.whole.size_eq, if_neg nofun]
      omega
  | @full fs' dir' hfull hext =>
    obtain ⟨hwhole', hslots', hcount'⟩ := h.whole.ext hext
    refine ⟨_, rfl, ⟨hwhole', ?_⟩, apart_of_search h.whole hwhole' fun n hn => ?_, .inr ⟨rfl, rfl⟩,
      fun hex => absurd hex (hblank hfull), fun _ => ?_⟩
    · dsimp only
      rw [hslots', hcount', h.live]
    · dsimp only
      rw [hslots', hcount']
      exact ⟨rfl, fun i _ v hv => hv⟩
    · dsimp only
      rw [hext.size, if_pos rfl, add_zero]

theorem Sys.Ok.step (h : s.Ok) (hop : op.Proper) :
    ∃ s', Entries.step at_ op s = some s' ∧ s'.Ok ∧ Behaves at_ s op s' := by
  cases op with
  | find name => exact h.find hop
  | add name ino => exact h.add hop.1 hop.2
  | clear name => exact h.clear hop

/-- Every call in every run does to the directory what it does to a map from names to inode numbers. -/
theorem directory_map {s₀ : Sys} (h₀ : s₀.Ok) (h : Run (step at_) (fun _ op => op.Proper) s₀ s) (hop : op.Proper) :
    ∃ s', step at_ op s = some s' ∧ Behaves at_ s op s' := by
  have hok : s.Ok := h.invariant h₀ fun s op s' hs hop hstep => by
    obtain ⟨s'', hstep', hok, -⟩ : ∃ s'', step at_ op s = some s'' ∧ _ := hs.step hop
    rw [hstep] at hstep'
    obtain rfl := Option.some.inj hstep'
    exact hok
  obtain ⟨s', hstep, -, hb⟩ : ∃ s', step at_ op s = some s' ∧ _ := hok.step hop
  exact ⟨s', hstep, hb⟩

/-- A directory of one block and two entries. -/
def twoEntries : Sys where
  fs := holed.1
  dir := { iZone := fun k => if k = 0 then 10 else 0, iSize := 32 }
  live := pairs (slots holed.1 { iZone := fun k => if k = 0 then 10 else 0, iSize := 32 }) 2
  ret := none

theorem twoEntries_ok : twoEntries.Ok where
  whole :=
    { wf := holed_wf.resize 32
      size := ⟨2, rfl⟩
      blocks := by decide }
  live := rfl

/-- The first free entry is behind the two. -/
def added : Sys := (step ⟨false, none⟩ (.add [97] 7) twoEntries).get (by decide +kernel)

theorem directory_map_added : ∃ s', step ⟨false, none⟩ (.find [97]) added = some s' ∧
    Behaves ⟨false, none⟩ added (.find [97]) s' :=
  directory_map twoEntries_ok (.tail .refl (show Op.Proper (.add [97] 7) from by unfold Op.Proper Proper; decide)
    (Option.some_get _).symm) (show Op.Proper (.find [97]) from by unfold Op.Proper Proper; decide)

end Linux012.Entries
