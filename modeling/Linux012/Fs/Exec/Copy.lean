import Mathlib.Data.List.GetD
import Linux012.Fs.Exec.Basic
import Linux012.Lib.Index

/-! # Copying the strings

`copy_strings` writes the strings below those that are there. A call either copies all of them, is
refused a page, or runs past the bottom of the area, since the test for that never fires.
-/

namespace Linux012.Exec

open Function Files Terminated
open scoped Index

variable {w : World} {s s₀ s' : State} {c : Cursor} {l l' : List UInt8} {memMap : ℕ → ℕ} {n m : ℕ}
  {i : Fin MAX_ARG_PAGES} {k : Fin 3} {fs : Seg} {tmp : Ptr}

/-! ## The pages that are needed -/

/-- The last `n` bytes of the area reach into the page. -/
def Needs (n : ℕ) (i : Fin MAX_ARG_PAGES) : Prop := 0 < n ∧ (argTop - n) / PAGE_SIZE ≤ i

/-- For the last `n` bytes a page is needed that cannot be had. -/
def Refuses (w : World) (n : ℕ) : Prop := ∃ i, Needs n i ∧ w.grant i = none

instance : Decidable (Needs n i) := inferInstanceAs (Decidable (_ ∧ _))

instance : Decidable (Refuses w n) := inferInstanceAs (Decidable (∃ _, _ ∧ _))

theorem Needs.mono (h : Needs n i) (hnm : n ≤ m) : Needs m i := by
  unfold Needs at h ⊢
  refine ⟨by omega, le_trans ?_ h.2⟩
  exact Nat.div_le_div_right (by omega)

theorem Refuses.mono (h : Refuses w n) (hnm : n ≤ m) : Refuses w m := by
  obtain ⟨i, hi, hg⟩ := h
  exact ⟨i, hi.mono hnm, hg⟩

theorem needs_succ (hn : n < argTop) :
    Needs (n + 1) i ↔ Needs n i ∨ (i : ℕ) = (argTop - (n + 1)) / PAGE_SIZE := by
  have hi := i.isLt
  unfold Needs argTop PAGE_SIZE MAX_ARG_PAGES at *
  omega

/-- Once the area is full every page is needed. -/
theorem needs_argTop (hn : argTop ≤ n) : Needs n i := by
  unfold Needs
  have hpos : 0 < argTop := by decide
  rw [Nat.sub_eq_zero_of_le hn]
  exact ⟨by omega, Nat.zero_le _⟩

/-! ## The area -/

/-- The end of the area holds `l`, the pages for it have been got, and no other. -/
structure Filled (w : World) (memMap : ℕ → ℕ) (l : List UInt8) (s : State) : Prop where
  len : l.length ≤ argTop
  page : ∀ i, s.page i = if Needs l.length i then w.grant i else none
  got : ∀ i, Needs l.length i → w.grant i ≠ none
  memMap : ∀ a, s.memMap a = memMap a + if ∃ i, s.page i = some a then 1 else 0
  bytes : Holds s.area (argTop - l.length) l

/-- The cursor is above the byte to be written next; it is in a page unless the offset is 0. -/
structure At (c : Cursor) (n : ℕ) (s : State) : Prop where
  p : c.p.toNat + n = argTop
  cell : c.offset ≠ 0 → c.offset = c.p.toNat % PAGE_SIZE ∧
    ∃ h, s.page ⟨c.p.toNat / PAGE_SIZE, h⟩ = some c.pag

/-- The cursor is at the byte to be written next, and its page is there. -/
structure Room (w : World) (memMap : ℕ → ℕ) (l : List UInt8) (c : Cursor) (s : State) : Prop where
  p : c.p.toNat + (l.length + 1) = argTop
  offset : c.offset = c.p.toNat % PAGE_SIZE
  cell : ∃ h, s.page ⟨c.p.toNat / PAGE_SIZE, h⟩ = some c.pag
  page : ∀ i, s.page i = if Needs (l.length + 1) i then w.grant i else none
  got : ∀ i, Needs (l.length + 1) i → w.grant i ≠ none
  memMap : ∀ a, s.memMap a = memMap a + if ∃ i, s.page i = some a then 1 else 0
  bytes : Holds s.area (argTop - l.length) l

/-- What `copy_strings` does not touch is the same. -/
structure Frame (s s' : State) : Prop where
  iCount : s'.iCount = s.iCount
  bCount : s'.bCount = s.bCount
  task : s'.task = s.task

theorem Frame.refl (s : State) : Frame s s := ⟨rfl, rfl, rfl⟩

theorem Frame.trans (h : Frame s₀ s) (h' : Frame s s') : Frame s₀ s' :=
  ⟨h'.iCount.trans h.iCount, h'.bCount.trans h.bCount, h'.task.trans h.task⟩

theorem Filled.of_setFs (h : Filled w memMap l s) (fs : Seg) : Filled w memMap l (s.setFs fs) :=
  ⟨h.len, h.page, h.got, h.memMap, h.bytes⟩

theorem Room.of_setFs (h : Room w memMap l c s) (fs : Seg) : Room w memMap l c (s.setFs fs) :=
  ⟨h.p, h.offset, h.cell, h.page, h.got, h.memMap, h.bytes⟩

theorem Filled.not_refuses (h : Filled w memMap l s) : ¬ Refuses w l.length := by
  rintro ⟨i, hi, hg⟩
  exact h.got i hi hg

/-- Two entries of `page[]` are not the same page. -/
theorem Room.page_inj (h : Room w memMap l c s) {i j : Fin MAX_ARG_PAGES} {a : ℕ} (hi : s.page i = some a)
    (hj : s.page j = some a) : i = j := by
  rw [h.page] at hi hj
  split_ifs at hi hj
  exact w.grant_inj i j a hi hj

theorem area_of_page {x a : ℕ} (h : x / PAGE_SIZE < MAX_ARG_PAGES)
    (hp : s.page ⟨x / PAGE_SIZE, h⟩ = some a) : s.area x = s.data a (x % PAGE_SIZE) := by
  unfold State.area
  rw [dif_pos h, hp]

/-- A store at the cursor changes the byte there and no other. -/
theorem Room.area_store (h : Room w memMap l c s) (v : UInt8) (x : ℕ) :
    (s.store c.pag c.offset v).area x = if x = c.p.toNat then v else s.area x := by
  obtain ⟨hlt, hcell⟩ := h.cell
  unfold State.area
  by_cases hx : x / PAGE_SIZE < MAX_ARG_PAGES
  · rw [dif_pos hx, dif_pos hx]
    dsimp only [State.store]
    cases hp : s.page ⟨x / PAGE_SIZE, hx⟩ with
    | none =>
      have hne : x ≠ c.p.toNat := by
        rintro rfl
        cases hp.symm.trans hcell
      rw [if_neg hne]
    | some a =>
      by_cases ha : a = c.pag
      · subst ha
        have hpage : x / PAGE_SIZE = c.p.toNat / PAGE_SIZE := congrArg Fin.val (h.page_inj hp hcell)
        dsimp only
        rw [update_self, h.offset]
        by_cases hxp : x = c.p.toNat
        · rw [if_pos hxp, hxp, update_self]
        · have hmod : x % PAGE_SIZE ≠ c.p.toNat % PAGE_SIZE := by
            intro he
            refine hxp ?_
            rw [← Nat.div_add_mod x PAGE_SIZE, hpage, he, Nat.div_add_mod]
          rw [if_neg hxp, update_of_ne hmod]
      · have hne : x ≠ c.p.toNat := by
          rintro rfl
          exact ha (Option.some.inj (hp.symm.trans hcell))
        dsimp only
        rw [if_neg hne, update_of_ne ha]
  · rw [dif_neg hx, dif_neg hx, if_neg]
    rintro rfl
    exact hx hlt

theorem Room.store (h : Room w memMap l c s) (v : UInt8) :
    Filled w memMap (v :: l) (s.store c.pag c.offset v) ∧
      At c (v :: l).length (s.store c.pag c.offset v) := by
  have hp := h.p
  have hlen : (v :: l).length = l.length + 1 := rfl
  constructor
  · refine ⟨by omega, h.page, h.got, h.memMap, ?_⟩
    rw [holds_cons, h.area_store, if_pos (by omega)]
    refine ⟨rfl, ?_⟩
    rw [show argTop - (v :: l).length + 1 = argTop - l.length by omega]
    refine h.bytes.congr fun x hx _ => ?_
    rw [h.area_store, if_neg (by omega)]
  · exact ⟨hp, fun _ => ⟨h.offset, h.cell⟩⟩

/-! ## One byte -/

/-- Where fs points in the loops of `copy_strings`, but for the pointers. -/
def loopFs (k : Fin 3) (oldFs : Seg) : Seg := if k = 2 then .kernel else oldFs

theorem pred_toNat {p : UInt32} (h : 0 < p.toNat) : (p - 1).toNat = p.toNat - 1 := by
  have h1 : (1 : UInt32) ≤ p := UInt32.le_iff_toNat_le.mpr h
  rw [UInt32.toNat_sub_of_le _ _ h1]
  rfl

/-- The page that the cursor comes into is new. -/
theorem Filled.newPage (h : Filled w memMap l s) (hlt : l.length < argTop) {pag : ℕ}
    (hi : (i : ℕ) = (argTop - (l.length + 1)) / PAGE_SIZE) (hno : s.page i = none)
    (hg : w.grant i = some pag) {p : UInt32} (hp : p.toNat + (l.length + 1) = argTop) :
    Room w memMap l ⟨p, p.toNat % PAGE_SIZE, pag⟩ { s with
      page := update s.page i (some pag)
      memMap := update s.memMap pag (s.memMap pag + 1)
      data := update s.data pag fun _ => 0 } := by
  have hneeds : ∀ j, Needs (l.length + 1) j ↔ Needs l.length j ∨ j = i := by
    intro j
    rw [needs_succ hlt, Fin.ext_iff, hi]
  have hnot : ¬ Needs l.length i := by
    intro hn
    rw [h.page, if_pos hn] at hno
    exact h.got i hn hno
  have hfresh : ∀ j, s.page j ≠ some pag := by
    intro j hj
    rw [h.page] at hj
    split_ifs at hj with hn
    exact hnot (w.grant_inj j i pag hj hg ▸ hn)
  have hidx : p.toNat / PAGE_SIZE = i := by
    rw [hi]
    congr 1
    omega
  refine ⟨hp, rfl, ⟨hidx ▸ i.isLt, ?_⟩, fun j => ?_, fun j hj => ?_, fun a => ?_, ?_⟩
  · have heq : (⟨p.toNat / PAGE_SIZE, hidx ▸ i.isLt⟩ : Fin MAX_ARG_PAGES) = i := Fin.ext hidx
    dsimp only
    rw [heq, update_self]
  · dsimp only
    by_cases hj : j = i
    · rw [hj, update_self, if_pos ((hneeds i).mpr (.inr rfl)), hg]
    · rw [update_of_ne hj, h.page]
      exact if_congr (by rw [hneeds, or_iff_left hj]) rfl rfl
  · rcases (hneeds j).mp hj with hn | rfl
    · exact h.got j hn
    · rw [hg]
      exact nofun
  · dsimp only
    by_cases ha : a = pag
    · subst ha
      rw [update_self, h.memMap, if_neg (by simpa using hfresh), if_pos ⟨i, update_self _ _ _⟩]
    · rw [update_of_ne ha, h.memMap]
      congr 1
      refine if_congr ?_ rfl rfl
      constructor
      · rintro ⟨j, hj⟩
        refine ⟨j, ?_⟩
        rw [update_of_ne ?_, hj]
        rintro rfl
        cases hno.symm.trans hj
      · rintro ⟨j, hj⟩
        by_cases hji : j = i
        · rw [hji, update_self] at hj
          exact absurd (Option.some.inj hj).symm ha
        · rw [update_of_ne hji] at hj
          exact ⟨j, hj⟩
  · refine h.bytes.congr fun x hx hxl => ?_
    unfold State.area
    dsimp only
    by_cases hx' : x / PAGE_SIZE < MAX_ARG_PAGES
    · rw [dif_pos hx', dif_pos hx']
      by_cases hxi : (⟨x / PAGE_SIZE, hx'⟩ : Fin MAX_ARG_PAGES) = i
      · refine absurd ⟨?_, ?_⟩ hnot
        · omega
        · rw [← hxi]
          exact Nat.div_le_div_right hx
      · rw [update_of_ne hxi]
        cases hpg : s.page ⟨x / PAGE_SIZE, hx'⟩ with
        | none => rfl
        | some a =>
          have hapag : a ≠ pag := fun he => hfresh _ (he ▸ hpg)
          dsimp only
          rw [update_of_ne hapag]
    · rw [dif_neg hx', dif_neg hx']

/-- The page that the cursor comes into is there. -/
theorem Filled.oldPage (h : Filled w memMap l s) (hlt : l.length < argTop) {pag : ℕ}
    (hi : (i : ℕ) = (argTop - (l.length + 1)) / PAGE_SIZE) (hpag : s.page i = some pag) {p : UInt32}
    (hp : p.toNat + (l.length + 1) = argTop) : Room w memMap l ⟨p, p.toNat % PAGE_SIZE, pag⟩ s := by
  have hin : Needs l.length i := by
    by_contra hno
    rw [h.page, if_neg hno] at hpag
    cases hpag
  have hneeds : ∀ j, Needs (l.length + 1) j ↔ Needs l.length j := by
    intro j
    rw [needs_succ hlt, ← hi]
    refine ⟨fun hj => ?_, .inl⟩
    rcases hj with hj | hj
    · exact hj
    · exact Fin.ext hj ▸ hin
  have hidx : p.toNat / PAGE_SIZE = i := by
    rw [hi]
    congr 1
    omega
  refine ⟨hp, rfl, ⟨hidx ▸ i.isLt, ?_⟩, fun j => ?_, fun j hj => h.got j ((hneeds j).mp hj), h.memMap,
    h.bytes⟩
  · have heq : (⟨p.toNat / PAGE_SIZE, hidx ▸ i.isLt⟩ : Fin MAX_ARG_PAGES) = i := Fin.ext hidx
    dsimp only
    rw [heq, hpag]
  · rw [h.page]
    exact if_congr (hneeds j).symm rfl rfl

/-- The three ways in which the loops of `copy_strings` go on, for the content `l`. -/
inductive Outcome (w : World) (memMap : ℕ → ℕ) (s₀ : State) (fs oldFs : Seg) (l : List UInt8) :
    Except Stop (Option Cursor × State) → Prop
  | copied {c : Cursor} {s : State} (filled : Filled w memMap l s) (cursor : At c l.length s)
      (frame : Frame s₀ s) (hfs : s.fs = fs) : Outcome w memMap s₀ fs oldFs l (.ok (some c, s))
  | refused {s : State} (no : Refuses w l.length) (part : ∃ l', Filled w memMap l' s)
      (frame : Frame s₀ s) (hfs : s.fs = oldFs) : Outcome w memMap s₀ fs oldFs l (.ok (none, s))
  | overrun (all : ∀ i, w.grant i ≠ none) (long : argTop < l.length) :
      Outcome w memMap s₀ fs oldFs l (.error .astray)

theorem pageFor_cases (w : World) (s : State) {n : ℕ} (h : n < MAX_ARG_PAGES) :
    (∃ pag, s.page ⟨n, h⟩ = some pag ∧ pageFor w n s = .ok (some pag, s)) ∨
    (s.page ⟨n, h⟩ = none ∧ w.grant ⟨n, h⟩ = none ∧ pageFor w n s = .ok (none, s)) ∨
    ∃ pag, s.page ⟨n, h⟩ = none ∧ w.grant ⟨n, h⟩ = some pag ∧
      pageFor w n s = .ok (some pag, { s with
        page := update s.page ⟨n, h⟩ (some pag)
        memMap := update s.memMap pag (s.memMap pag + 1)
        data := update s.data pag fun _ => 0 }) := by
  unfold pageFor
  rw [dif_pos h]
  cases hp : s.page ⟨n, h⟩ with
  | some pag => exact .inl ⟨pag, rfl, rfl⟩
  | none =>
    cases hg : w.grant ⟨n, h⟩ with
    | none => exact .inr (.inl ⟨rfl, rfl, rfl⟩)
    | some pag => exact .inr (.inr ⟨pag, rfl, rfl, rfl⟩)

theorem nextByte_cases (h : Filled w memMap l s) (hc : At c l.length s) (hfs : s.fs = loopFs k fs) :
    (∃ c' s', nextByte w k fs c s = .ok (some c', s') ∧ Room w memMap l c' s' ∧ Frame s s' ∧
      s'.fs = loopFs k fs) ∨
    (∃ s', nextByte w k fs c s = .ok (none, s') ∧ Refuses w (l.length + 1) ∧ Filled w memMap l s' ∧
      Frame s s' ∧ s'.fs = fs) ∨
    (nextByte w k fs c s = .error .astray ∧ argTop < l.length + 1 ∧ ∀ i, w.grant i ≠ none) := by
  have hp := hc.p
  unfold nextByte
  by_cases hoff : c.offset = 0
  · rw [if_pos hoff]
    generalize hs₁ : (if k = 2 then s.setFs fs else s) = s₁
    dsimp only
    have h₁ : Filled w memMap l s₁ := by
      rw [← hs₁]
      split_ifs
      · exact h.of_setFs fs
      · exact h
    have hF : Frame s s₁ := by
      rw [← hs₁]
      split_ifs
      · exact ⟨rfl, rfl, rfl⟩
      · exact .refl s
    have hfs₁ : s₁.fs = fs := by
      rw [← hs₁]
      unfold loopFs at hfs
      split_ifs at hfs ⊢
      · rfl
      · exact hfs
    by_cases hz : c.p.toNat = 0
    · -- below the area the page number is far outside `page[]`
      refine .inr (.inr ⟨?_, by omega, fun i => h.got i (needs_argTop (by omega))⟩)
      have hp0 : c.p = 0 := UInt32.toNat_inj.mp hz
      rw [hp0]
      rfl
    · have hp1 := pred_toNat (p := c.p) (by omega)
      have hlt : l.length < argTop := by omega
      have hidx : (c.p - 1).toNat / PAGE_SIZE = (argTop - (l.length + 1)) / PAGE_SIZE := by
        congr 1
        omega
      have hi : (c.p - 1).toNat / PAGE_SIZE < MAX_ARG_PAGES := by
        unfold PAGE_SIZE MAX_ARG_PAGES argTop PAGE_SIZE MAX_ARG_PAGES at *
        omega
      have hfinal : ∀ s₂ : State, s₂.fs = fs →
          (if k = 2 then s₂.setFs .kernel else s₂).fs = loopFs k fs := by
        intro s₂ hs₂
        unfold loopFs
        split_ifs
        · rfl
        · exact hs₂
      have hroom : ∀ (s₂ : State) c', Room w memMap l c' s₂ →
          Room w memMap l c' (if k = 2 then s₂.setFs .kernel else s₂) := by
        intro s₂ c' hr
        split_ifs
        · exact hr.of_setFs _
        · exact hr
      have hframe : ∀ s₂ : State, Frame s s₂ → Frame s (if k = 2 then s₂.setFs .kernel else s₂) := by
        intro s₂ hr
        split_ifs
        · exact hr.trans ⟨rfl, rfl, rfl⟩
        · exact hr
      obtain ⟨pag, hpag, hok⟩ | ⟨hno, hg, hok⟩ | ⟨pag, hno, hg, hok⟩ := pageFor_cases w s₁ hi
      · rw [hok]
        exact .inl ⟨_, _, rfl, hroom _ _ (h₁.oldPage hlt hidx hpag (by omega)), hframe _ hF,
          hfinal _ hfs₁⟩
      · rw [hok]
        refine .inr (.inl ⟨_, rfl, ⟨⟨_, hi⟩, ?_, hg⟩, h₁, hF, hfs₁⟩)
        exact (needs_succ hlt).mpr (.inr hidx)
      · rw [hok]
        exact .inl ⟨_, _, rfl, hroom _ _ (h₁.newPage hlt hidx hno hg (by omega)),
          hframe _ (hF.trans ⟨rfl, rfl, rfl⟩), hfinal _ hfs₁⟩
  · rw [if_neg hoff]
    obtain ⟨hmod, hlt', hpag⟩ := hc.cell hoff
    have hpos : c.p.toNat % PAGE_SIZE ≠ 0 := hmod ▸ hoff
    have hz : 0 < c.p.toNat := by
      rcases Nat.eq_zero_or_pos c.p.toNat with h0 | h0
      · rw [h0] at hpos
        exact absurd rfl hpos
      · exact h0
    have hp1 := pred_toNat hz
    have hdiv : c.p.toNat / PAGE_SIZE = (argTop - (l.length + 1)) / PAGE_SIZE := by
      unfold PAGE_SIZE at *
      omega
    have hroom := h.oldPage (i := ⟨_, hlt'⟩) (by omega) hdiv hpag (p := c.p - 1) (by omega)
    have hoff' : c.offset - 1 = (c.p - 1).toNat % PAGE_SIZE := by
      unfold PAGE_SIZE at *
      omega
    refine .inl ⟨_, _, rfl, ?_, .refl s, hfs⟩
    rw [hoff']
    exact hroom

/-! ## Whole strings -/

theorem Outcome.mono {r : Except Stop (Option Cursor × State)} {fs' : Seg}
    (h : Outcome w memMap s fs fs' l r) (hno : ∀ c s', r ≠ .ok (some c, s')) (hF : Frame s₀ s)
    (l' : List UInt8) : Outcome w memMap s₀ fs fs' (l' ++ l) r := by
  cases h with
  | copied _ _ _ _ => exact absurd rfl (hno _ _)
  | refused no part frame hfs =>
    exact .refused (no.mono (by rw [List.length_append]; omega)) part (hF.trans frame) hfs
  | overrun all long => exact .overrun all (by rw [List.length_append]; omega)

/-- The bytes of a string are copied from its end on. -/
theorem copyBytes_outcome (hseg : tmp.seg = loopFs k fs) (len : ℕ) (hlen : len ≤ tmp.str.code.length)
    (h : Filled w memMap l s) (hc : At c l.length s) (hfs : s.fs = loopFs k fs) (hF : Frame s₀ s) :
    Outcome w memMap s₀ (loopFs k fs) fs (tmp.str.code.take len ++ l)
      (copyBytes w k fs tmp len c s) := by
  induction len generalizing l c s with
  | zero => exact .copied h hc hF hfs
  | succ len ih =>
    have hsplit : tmp.str.code.take (len + 1) ++ l =
        tmp.str.code.take len ++ (tmp.str.code[len] :: l) := by
      rw [List.take_add_one, List.getElem?_eq_getElem hlen, List.append_assoc]
      rfl
    have hmore : l.length + 1 ≤ (tmp.str.code.take (len + 1) ++ l).length := by
      rw [hsplit, List.length_append, List.length_cons]
      omega
    unfold copyBytes
    obtain ⟨c', s', hok, hroom, hfr, hfs'⟩ | ⟨s', hok, hno, hfill, hfr, hfs'⟩ | ⟨hok, hlong, hall⟩ :=
      nextByte_cases h hc hfs
    · rw [hok]
      have hbyte : getFsByte s'.fs tmp len = .ok tmp.str.code[len] := by
        unfold getFsByte
        rw [if_pos (hfs'.trans hseg.symm), List.getD_eq_getElem _ _ hlen]
      dsimp only [bind, Except.bind]
      rw [hbyte, hsplit]
      obtain ⟨hfill, hat⟩ := hroom.store tmp.str.code[len]
      exact ih (by omega) hfill hat hfs' ((hF.trans hfr).trans ⟨rfl, rfl, rfl⟩)
    · rw [hok]
      exact .refused (hno.mono hmore) ⟨l, hfill⟩ (hF.trans hfr) hfs'
    · rw [hok]
      exact .overrun hall (by omega)

/-- Where the pointers of a vector are found. -/
def vecFs (k : Fin 3) (oldFs : Seg) : Seg := if k = 0 then oldFs else .kernel

theorem copyArgs_outcome {strs : List Str} {argv : Vec} (hvec : argv.seg = vecFs k fs)
    (hptrs : argv.ptrs = strs.map (Ptr.mk (loopFs k fs))) (argc : ℕ) (hargc : argc ≤ strs.length)
    (h : Filled w memMap l s) (hc : At c l.length s) (hfs : s.fs = loopFs k fs) (hF : Frame s₀ s) :
    Outcome w memMap s₀ (loopFs k fs) fs (enc (strs.take argc) ++ l) (copyArgs w k fs argv argc c s) := by
  induction argc generalizing l c s with
  | zero => exact .copied h hc hF hfs
  | succ argc ih =>
    have hsplit : enc (strs.take (argc + 1)) ++ l =
        enc (strs.take argc) ++ (strs[argc].code ++ l) := by
      rw [List.take_add_one, List.getElem?_eq_getElem hargc, Option.toList_some, enc_append,
        List.append_assoc, enc_cons, enc_nil, List.append_nil]
    unfold copyArgs
    have hlong : getFsLong (if k = 1 then s.setFs .kernel else s).fs argv argc =
        .ok (some ⟨loopFs k fs, strs[argc]⟩) := by
      unfold getFsLong
      rw [if_pos, hptrs, List.getElem?_map, List.getElem?_eq_getElem hargc]
      · rfl
      · rw [hvec]
        unfold loopFs at hfs
        unfold vecFs
        fin_cases k
        · exact hfs
        · rfl
        · exact hfs
    have hback : ∀ s₁ : State, s₁ = (if k = 1 then s.setFs .kernel else s) →
        (if k = 1 then s₁.setFs fs else s₁) = s := by
      rintro _ rfl
      split_ifs with h1
      · subst h1
        have hs : s.fs = fs := hfs
        rw [← hs]
        rfl
      · rfl
    have hlen : strLen s.fs ⟨loopFs k fs, strs[argc]⟩ = .ok strs[argc].code.length := if_pos hfs
    dsimp only [bind, Except.bind]
    rw [hlong]
    dsimp only
    rw [hback _ rfl, hlen]
    -- the difference is unsigned, so the test never fires
    have htest : ¬ c.p - UInt32.ofNat strs[argc].code.length < 0 := UInt32.not_lt_zero
    dsimp only
    rw [if_neg htest, hsplit]
    have hbytes := @copyBytes_outcome w _ _ _ _ _ k _ ⟨loopFs k fs, strs[argc]⟩ rfl _ le_rfl h hc hfs hF
    rw [List.take_length] at hbytes
    dsimp only at hbytes
    generalize copyBytes w k fs ⟨loopFs k fs, strs[argc]⟩ strs[argc].code.length c s = r at hbytes
    cases hbytes with
    | copied filled cursor frame hfs' => exact ih (by omega) filled cursor hfs' frame
    | refused no part frame hfs' =>
      exact .refused (no.mono (by simp only [List.length_append]; omega)) part frame hfs'
    | overrun all long => exact .overrun all (by simp only [List.length_append] at long ⊢; omega)

/-! ## Batches -/

/-- The content of the area after batches of strings have been copied, each below the ones before -/
def content (bs : List (List Str)) : List UInt8 := enc bs.reverse.flatten

def size (bs : List (List Str)) : ℕ := (content bs).length

/-- Some batch ends exactly at the bottom of the area. -/
def Hits (bs : List (List Str)) : Prop := ∃ n ≤ bs.length, size (bs.take n) = argTop

instance (bs : List (List Str)) : Decidable (Hits bs) :=
  decidable_of_iff (∃ n < bs.length + 1, size (bs.take n) = argTop) (by simp [Hits])

theorem content_concat (bs : List (List Str)) (b : List Str) : content (bs ++ [b]) = enc b ++ content bs := by
  unfold content
  rw [List.reverse_append, List.flatten_append, enc_append]
  simp

theorem size_concat (bs : List (List Str)) (b : List Str) :
    size (bs ++ [b]) = (enc b).length + size bs := by
  unfold size
  rw [content_concat, List.length_append]

theorem size_take_le (bs : List (List Str)) (n : ℕ) : size (bs.take n) ≤ size bs := by
  induction bs using List.reverseRecOn generalizing n with
  | nil => simp
  | append_singleton bs b ih =>
    rcases Nat.lt_or_ge bs.length n with hn | hn
    · rw [List.take_of_length_le (by simpa using hn)]
    · rw [List.take_append_of_le_length hn, size_concat]
      exact (ih n).trans (Nat.le_add_left _ _)

theorem Hits.le_size {bs : List (List Str)} (h : Hits bs) : argTop ≤ size bs := by
  obtain ⟨n, -, hn⟩ := h
  exact hn ▸ size_take_le bs n

theorem hits_concat {bs : List (List Str)} {b : List Str} :
    Hits (bs ++ [b]) ↔ Hits bs ∨ size (bs ++ [b]) = argTop := by
  constructor
  · rintro ⟨n, hn, hs⟩
    rcases Nat.lt_or_ge bs.length n with hlt | hge
    · right
      rwa [List.take_of_length_le (by simpa using hlt)] at hs
    · left
      rw [List.take_append_of_le_length hge] at hs
      exact ⟨n, hge, hs⟩
  · rintro (⟨n, hn, hs⟩ | hs)
    · refine ⟨n, hn.trans (by simp), ?_⟩
      rwa [List.take_append_of_le_length hn]
    · exact ⟨_, le_rfl, by rwa [List.take_length]⟩

/-- How far calls of `copy_strings` have come with batches of strings. -/
inductive Copied (w : World) (memMap : ℕ → ℕ) (s₀ : State) (bs : List (List Str)) :
    Except Stop (UInt32 × State) → Prop
  | done {p : UInt32} {s : State} (filled : Filled w memMap (content bs) s)
      (hp : p.toNat + size bs = argTop) (pos : p ≠ 0) (frame : Frame s₀ s) (hfs : s.fs = s₀.fs) :
      Copied w memMap s₀ bs (.ok (p, s))
  | failed {s : State} (why : Refuses w (size bs) ∨ Hits bs) (part : ∃ l', Filled w memMap l' s)
      (frame : Frame s₀ s) (hfs : s.fs = s₀.fs) : Copied w memMap s₀ bs (.ok (0, s))
  | overrun (all : ∀ i, w.grant i ≠ none) (long : argTop < size bs) (off : ¬ Hits bs) :
      Copied w memMap s₀ bs (.error .astray)

theorem not_hits_of_lt {bs : List (List Str)} (h : size bs < argTop) : ¬ Hits bs :=
  fun hh => absurd hh.le_size (by omega)

/-- One more call of `copy_strings` copies one more batch. -/
theorem Copied.next {bs : List (List Str)} {b : List Str} {r : Except Stop (UInt32 × State)}
    (h : Copied w memMap s₀ bs r) {argc : ℤ} {argv : Vec} (hvec : argv.seg = vecFs k s₀.fs)
    (hptrs : argv.ptrs = b.map (Ptr.mk (loopFs k s₀.fs))) (hargc : argc.toNat = b.length) :
    Copied w memMap s₀ (bs ++ [b]) (r >>= fun ps => copyStrings w argc argv ps.1 k ps.2) := by
  cases h with
  | overrun all long off =>
    have hsize := size_concat bs b
    refine .overrun all (by omega) ?_
    rw [hits_concat, not_or]
    exact ⟨off, by omega⟩
  | failed why part frame hfs =>
    refine .failed ?_ part frame hfs
    rcases why with hr | hh
    · exact .inl (hr.mono (by rw [size_concat]; omega))
    · exact .inr (hits_concat.mpr (.inl hh))
  | done filled hp pos frame hfs =>
    rename_i p s
    dsimp only [bind, Except.bind]
    unfold copyStrings
    rw [if_neg pos]
    have hlt : size bs < argTop := by
      have : p.toNat ≠ 0 := fun h0 => pos (UInt32.toNat_inj.mp h0)
      omega
    generalize hs₁ : (if k = 2 then s.setFs .kernel else s) = s₁
    have h₁ : Filled w memMap (content bs) s₁ := by
      rw [← hs₁]
      split_ifs
      · exact filled.of_setFs _
      · exact filled
    have hF : Frame s₀ s₁ := by
      rw [← hs₁]
      split_ifs
      · exact frame.trans ⟨rfl, rfl, rfl⟩
      · exact frame
    have hfs₁ : s₁.fs = loopFs k s₀.fs := by
      rw [← hs₁]
      unfold loopFs
      split_ifs
      · rfl
      · exact hfs
    have hat : At ⟨p, 0, 0⟩ (content bs).length s₁ := ⟨hp, fun h0 => absurd rfl h0⟩
    have hargs := @copyArgs_outcome w _ _ _ _ _ _ s₀.fs _ _ hvec hptrs argc.toNat hargc.le h₁ hat hfs₁ hF
    rw [hargc, List.take_length, ← content_concat] at hargs
    dsimp only
    rw [hfs, hargc]
    generalize copyArgs w k s₀.fs argv b.length ⟨p, 0, 0⟩ s₁ = r at hargs
    cases hargs with
    | copied filled' cursor frame' hfs' =>
      rename_i c s₂
      have hfill₂ : Filled w memMap (content (bs ++ [b])) (if k = 2 then s₂.setFs s₀.fs else s₂) := by
        split_ifs
        · exact filled'.of_setFs _
        · exact filled'
      have hF₂ : Frame s₀ (if k = 2 then s₂.setFs s₀.fs else s₂) := by
        split_ifs
        · exact frame'.trans ⟨rfl, rfl, rfl⟩
        · exact frame'
      have hfs₂ : (if k = 2 then s₂.setFs s₀.fs else s₂).fs = s₀.fs := by
        unfold loopFs at hfs'
        split_ifs at hfs' ⊢
        · rfl
        · exact hfs'
      by_cases hp0 : c.p = 0
      · dsimp only [Except.map]
        rw [hp0]
        refine .failed (.inr (hits_concat.mpr (.inr ?_))) ⟨_, hfill₂⟩ hF₂ hfs₂
        have := cursor.p
        rw [hp0] at this
        exact (Nat.zero_add _).symm.trans this
      · exact .done hfill₂ cursor.p hp0 hF₂ hfs₂
    | refused no part frame' hfs' => exact .failed (.inl no) part frame' hfs'
    | overrun all long =>
      refine .overrun all long ?_
      rw [hits_concat, not_or]
      exact ⟨not_hits_of_lt hlt, long.ne'⟩

end Linux012.Exec
