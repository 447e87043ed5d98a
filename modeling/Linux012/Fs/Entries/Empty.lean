import Linux012.Fs.Entries.Scan

/-! # The buffers of `empty_dir`

The loop keeps its pointers when it leaves out a block, so that the buffer before is released again.
-/

namespace Linux012.Entries

open FileDev

variable {fs : Fs} {inode : Inode} {bad : ℕ → Bool} {b c fuel i iNum k len z : ℕ}

/-- The entry can be read and is free. -/
def Blank (fs : Fs) (inode : Inode) (bad : ℕ → Bool) (i : ℕ) : Prop :=
  ∃ z k, entryAt fs inode bad i = some (z, k) ∧ inodeAt (fs.blocks z) k = 0

/-- The entry can be read and is not free. -/
def Filled (fs : Fs) (inode : Inode) (bad : ℕ → Bool) (i : ℕ) : Prop :=
  ∃ z k, entryAt fs inode bad i = some (z, k) ∧ inodeAt (fs.blocks z) k ≠ 0

/-- The block map gives no zone for the block. -/
def Hole (fs : Fs) (inode : Inode) (bad : ℕ → Bool) (b : ℕ) : Prop :=
  ∀ z, bmap fs inode bad b = some z → z = 0

/-- The block has a zone, and the read of it fails. -/
def Unread (fs : Fs) (inode : Inode) (bad : ℕ → Bool) (b : ℕ) : Prop :=
  ∃ z, bmap fs inode bad b = some z ∧ z ≠ 0 ∧ bad z = true

theorem Blank.not_filled (h : Blank fs inode bad i) : ¬ Filled fs inode bad i := by
  rintro ⟨z, k, he, hne⟩
  obtain ⟨z', k', he', h0⟩ := h
  obtain ⟨rfl, rfl⟩ := Prod.mk.inj (Option.some.inj (he.symm.trans he'))
  exact hne h0

theorem Hole.not_unread (h : Hole fs inode bad b) : ¬ Unread fs inode bad b := by
  rintro ⟨z, hz, hne, -⟩
  exact hne (h z hz)

theorem entryAt_block (h : entryAt fs inode bad i = some (z, k)) :
    ¬ Hole fs inode bad (i / DIR_ENTRIES_PER_BLOCK) ∧ ¬ Unread fs inode bad (i / DIR_ENTRIES_PER_BLOCK) := by
  obtain ⟨hm, hne, hbad⟩ := blockAt_eq_some.mp (entryAt_eq_some.mp h).1
  constructor
  · intro hole
    exact hne (hole z hm)
  · rintro ⟨z', hz', -, hbad'⟩
    obtain rfl := Option.some.inj (hm.symm.trans hz')
    rw [hbad] at hbad'
    cases hbad'

theorem Blank.block (h : Blank fs inode bad (DIR_ENTRIES_PER_BLOCK * b)) :
    ¬ Hole fs inode bad b ∧ ¬ Unread fs inode bad b := by
  obtain ⟨z, k, he, -⟩ := h
  have hb := entryAt_block he
  rwa [Nat.mul_div_cancel_left b (by decide)] at hb

/-! ## What the loop does -/

/-- How the loop ends that is at the entry `i`. -/
inductive EmptyOutcome (fs : Fs) (inode : Inode) (bad : ℕ → Bool) (len i : ℕ) : Except Stop (Bool × List ℕ) → Prop
  | filled {j : ℕ} (hi : i ≤ j) (hj : j < len) (h : Filled fs inode bad j)
      (hbefore : ∀ l, i ≤ l → l < j → Blank fs inode bad l) : EmptyOutcome fs inode bad len i (.ok (false, []))
  | unread {b : ℕ} (hi : i ≤ DIR_ENTRIES_PER_BLOCK * b) (hb : DIR_ENTRIES_PER_BLOCK * b < len)
      (h : Unread fs inode bad b) (hbefore : ∀ l, i ≤ l → l < DIR_ENTRIES_PER_BLOCK * b → Blank fs inode bad l) :
      EmptyOutcome fs inode bad len i (.ok (false, []))
  | empty (h : ∀ j, i ≤ j → j < len → Blank fs inode bad j) : EmptyOutcome fs inode bad len i (.ok (true, []))
  | stop {b : ℕ} {e : Stop} (hi : i ≤ DIR_ENTRIES_PER_BLOCK * b) (hb : DIR_ENTRIES_PER_BLOCK * b < len)
      (h : Hole fs inode bad b) (hbefore : ∀ l, i ≤ l → l < DIR_ENTRIES_PER_BLOCK * b → Blank fs inode bad l) :
      EmptyOutcome fs inode bad len i (.error e)

theorem EmptyOutcome.cons {r : Except Stop (Bool × List ℕ)} (hblank : Blank fs inode bad i)
    (h : EmptyOutcome fs inode bad len (i + 1) r) : EmptyOutcome fs inode bad len i r := by
  have hcons {n : ℕ} (hbefore : ∀ l, i + 1 ≤ l → l < n → Blank fs inode bad l) (l : ℕ) (hi : i ≤ l) (hl : l < n) :
      Blank fs inode bad l := by
    rcases eq_or_lt_of_le hi with rfl | hlt
    · exact hblank
    · exact hbefore l hlt hl
  cases h with
  | filled hi hj h hbefore => exact .filled (by omega) hj h (hcons hbefore)
  | unread hi hb h hbefore => exact .unread (by omega) hb h (hcons hbefore)
  | empty h => exact .empty (hcons h)
  | stop hi hb h hbefore => exact .stop (by omega) hb h (hcons hbefore)

/-- The turn before the entry `i` comes to this entry, ends the loop, or leaves out the block. -/
theorem emptyTurn_cases (h : At fs inode bad i z k) :
    (∃ z' k', emptyTurn fs inode bad i z k [z] = .ok (.here z' k', [z']) ∧ entryAt fs inode bad i = some (z', k')) ∨
    (k = DIR_ENTRIES_PER_BLOCK ∧ i % DIR_ENTRIES_PER_BLOCK = 0 ∧
      (emptyTurn fs inode bad i z k [z] = .ok (.stop, []) ∧ Unread fs inode bad (i / DIR_ENTRIES_PER_BLOCK) ∨
        (emptyTurn fs inode bad i z k [z] = .ok (.skip, []) ∨ emptyTurn fs inode bad i z k [z] = .error .panic) ∧
          Hole fs inode bad (i / DIR_ENTRIES_PER_BLOCK))) := by
  cases h with
  | inside he =>
    left
    refine ⟨z, k, ?_, he⟩
    obtain ⟨-, rfl⟩ := entryAt_eq_some.mp he
    rw [emptyTurn, if_pos (Nat.mod_lt _ (by decide))]
  | behind hk hi hpos =>
    rw [emptyTurn, if_neg (by omega), brelse_single]
    dsimp only [Except.bind]
    cases hm : bmap fs inode bad (i / DIR_ENTRIES_PER_BLOCK) with
    | none =>
      refine .inr ⟨hk, hi, .inr ⟨.inr rfl, fun z hz => ?_⟩⟩
      rw [hm] at hz
      cases hz
    | some block =>
      dsimp only
      by_cases h0 : block = 0
      · refine .inr ⟨hk, hi, .inr ⟨.inl (if_pos h0), fun z hz => ?_⟩⟩
        obtain rfl := Option.some.inj (hm.symm.trans hz)
        exact h0
      · rw [if_neg h0]
        by_cases hbad : bad block = true
        · exact .inr ⟨hk, hi, .inl ⟨if_pos hbad, block, hm, h0, hbad⟩⟩
        · left
          refine ⟨block, 0, if_neg hbad, ?_⟩
          exact entryAt_eq_some.mpr ⟨blockAt_eq_some.mpr ⟨hm, h0, by simpa using hbad⟩, hi⟩

theorem emptyEnd_single (r : Bool) (z : ℕ) : emptyEnd r z [z] = .ok (r, []) := by
  rw [emptyEnd, brelse_single]
  rfl

/-- With no buffer held and the pointers behind one, the next release fails. -/
theorem emptyLoop_free : emptyLoop fs inode bad len fuel i z DIR_ENTRIES_PER_BLOCK [] = .error .free := by
  cases fuel with
  | zero => rfl
  | succ fuel =>
    rw [emptyLoop]
    split_ifs <;> rfl

theorem emptyLoop_spec (hfuel : len ≤ i + fuel) (h : At fs inode bad i z k) :
    EmptyOutcome fs inode bad len i (emptyLoop fs inode bad len fuel i z k [z]) := by
  induction fuel generalizing i z k with
  | zero =>
    rw [emptyLoop, emptyEnd_single]
    exact .empty fun j hi hj => by omega
  | succ fuel ih =>
    rw [emptyLoop]
    by_cases hi : i < len
    · rw [if_pos hi]
      rcases emptyTurn_cases h with ⟨z', k', hturn, he⟩ | ⟨rfl, hmod, hb⟩
      · simp only [hturn, Except.bind]
        by_cases h0 : inodeAt (fs.blocks z') k' = 0
        · rw [if_neg (not_not.mpr h0)]
          exact (ih (by omega) (.next he)).cons ⟨z', k', he, h0⟩
        · rw [if_pos h0, emptyEnd_single]
          exact .filled le_rfl hi ⟨z', k', he, h0⟩ fun l hl hl' => by omega
      · have hdiv := Nat.mul_div_cancel' (Nat.dvd_of_mod_eq_zero hmod)
        have hlt : DIR_ENTRIES_PER_BLOCK * (i / DIR_ENTRIES_PER_BLOCK) < len := hdiv.symm ▸ hi
        rcases hb with ⟨hturn, hun⟩ | ⟨hturn | hturn, hole⟩ <;> simp only [hturn, Except.bind]
        · exact .unread hdiv.ge hlt hun fun l hl hl' => by omega
        · rw [emptyLoop_free]
          exact .stop hdiv.ge hlt hole fun l hl hl' => by omega
        · exact .stop hdiv.ge hlt hole fun l hl hl' => by omega
    · rw [if_neg hi, emptyEnd_single]
      exact .empty fun j hij hj => by omega

/-! ## Balance -/

/-- All buffers are released, once, and 1 is returned for a directory without entries that can be read. -/
def Balanced (fs : Fs) (inode : Inode) (iNum : ℕ) (bad : ℕ → Bool) : Prop :=
  ∃ r, emptyDir fs inode iNum bad = .ok (r, []) ∧
    (r = true → ∀ i, 2 ≤ i → i < inode.iSize / 16 → ¬ Filled fs inode bad i)

/-- An entry in use or a read that fails comes before the block, behind the entries `.` and `..`. -/
def EndsBefore (fs : Fs) (inode : Inode) (bad : ℕ → Bool) (b : ℕ) : Prop :=
  (∃ i, 2 ≤ i ∧ i < DIR_ENTRIES_PER_BLOCK * b ∧ Filled fs inode bad i) ∨ ∃ c, 0 < c ∧ c < b ∧ Unread fs inode bad c

/-- `empty_dir` finds the directory bad at once, or its first entries are right and it ends before each hole. -/
def Clean (fs : Fs) (inode : Inode) (iNum : ℕ) (bad : ℕ → Bool) : Prop :=
  inode.iSize / 16 < 2 ∨ blockAt fs inode bad 0 = none ∨
    Dots (fs.blocks (inode.iZone 0)) iNum ∧ ∀ b, 0 < b → DIR_ENTRIES_PER_BLOCK * b < inode.iSize / 16 →
      Hole fs inode bad b → EndsBefore fs inode bad b

theorem balanced_iff (fs : Fs) (inode : Inode) (iNum : ℕ) (bad : ℕ → Bool) :
    Balanced fs inode iNum bad ↔ Clean fs inode iNum bad := by
  unfold Balanced Clean emptyDir
  by_cases hs : inode.iSize / 16 < 2 ∨ inode.iZone 0 = 0 ∨ bad (inode.iZone 0) = true
  · dsimp only
    rw [if_pos hs, blockAt_zero_none, ← or_assoc]
    exact iff_of_true ⟨false, rfl, nofun⟩ (.inl hs)
  · dsimp only
    rw [if_neg hs]
    rw [not_or, not_or, Bool.not_eq_true] at hs
    obtain ⟨hlen, hz, hbad⟩ := hs
    have hfirst := @blockAt_zero fs _ _ hz hbad
    rw [hfirst, or_iff_right hlen, or_iff_right nofun]
    by_cases hd : Dots (fs.blocks (inode.iZone 0)) iNum
    · rw [if_neg (not_not.mpr hd), and_iff_right hd]
      have hat : At fs inode bad 2 (inode.iZone 0) 2 := .inside (entryAt_eq_some.mpr ⟨hfirst, rfl⟩)
      have hout := @emptyLoop_spec _ _ _ (inode.iSize / 16) _ _ (inode.iSize / 16) _ (by omega) hat
      generalize emptyLoop fs inode bad _ _ 2 _ 2 _ = res at hout
      -- a block with a hole is not in the part that has been scanned
      have hscanned {n b : ℕ} (hbefore : ∀ l, 2 ≤ l → l < n → Blank fs inode bad l) (hpos : 0 < b)
          (hole : Hole fs inode bad b) : n ≤ DIR_ENTRIES_PER_BLOCK * b := by
        by_contra hlt
        have h2 : 2 ≤ DIR_ENTRIES_PER_BLOCK * b := by
          unfold DIR_ENTRIES_PER_BLOCK
          omega
        exact (hbefore _ h2 (Nat.lt_of_not_le hlt)).block.1 hole
      cases hout with
      | @filled j hi hj h hbefore =>
        refine iff_of_true ⟨false, rfl, nofun⟩ fun b hpos hb hole => ?_
        rcases eq_or_lt_of_le (hscanned hbefore hpos hole) with rfl | hlt
        · obtain ⟨z', k', he, -⟩ := h
          have hno := (entryAt_block he).1
          rw [Nat.mul_div_cancel_left b (by decide)] at hno
          exact absurd hole hno
        · exact .inl ⟨j, hi, hlt, h⟩
      | @unread c hi hb h hbefore =>
        refine iff_of_true ⟨false, rfl, nofun⟩ fun b hpos hb hole => ?_
        have hc : 0 < c := by
          unfold DIR_ENTRIES_PER_BLOCK at hi
          omega
        rcases eq_or_lt_of_le (Nat.le_of_mul_le_mul_left (hscanned hbefore hpos hole) (by decide)) with rfl | hlt
        · exact absurd h hole.not_unread
        · exact .inr ⟨c, hc, hlt, h⟩
      | empty h =>
        refine iff_of_true ⟨true, rfl, fun _ i hi hlt => (h i hi hlt).not_filled⟩ fun b hpos hb hole => ?_
        exact absurd hb (Nat.not_lt.mpr (hscanned h hpos hole))
      | @stop b e hi hb h hbefore =>
        refine iff_of_false (fun ⟨r, he, _⟩ => nomatch he) fun hall => ?_
        have hpos : 0 < b := by
          unfold DIR_ENTRIES_PER_BLOCK at hi
          omega
        rcases hall b hpos hb h with ⟨i, h2, hlt, hfill⟩ | ⟨c, hc, hlt, hun⟩
        · exact (hbefore i h2 hlt).not_filled hfill
        · have h2 : 2 ≤ DIR_ENTRIES_PER_BLOCK * c := by
            unfold DIR_ENTRIES_PER_BLOCK
            omega
          exact (hbefore _ h2 (Nat.mul_lt_mul_of_pos_left hlt (by decide))).block.2 hun
    · rw [if_pos hd]
      refine iff_of_false (fun ⟨r, he, _⟩ => ?_) fun h => hd h.1
      have hheld := (Prod.mk.inj (Except.ok.inj he)).2
      cases hheld

theorem emptyDir_leaks : ¬ ∀ (fs : Fs) (inode : Inode) (iNum : ℕ) (bad : ℕ → Bool), Balanced fs inode iNum bad := by
  intro h
  obtain ⟨r, he, -⟩ := h holed.1 holed.2 5 fine
  rw [show emptyDir holed.1 holed.2 5 fine = .ok (false, [10]) by decide +kernel] at he
  obtain ⟨-, hheld⟩ := Prod.mk.inj (Except.ok.inj he)
  cases hheld

end Linux012.Entries
