import Mathlib.Tactic
import Linux012.Kernel.Console.Basic

/-! # Stores within the console

The cursor, the scroll region and the screen of a console stay where they belong after every byte, and
every byte stored is in the memory of the console that is written to.
-/

namespace Linux012.Console

open Function Runs

variable {v : Video} {t t' t'' : Term} {lo hi lo' hi' n di si p : ℕ} {w : UInt16}

/-- Where `pos` and the screen are, for the cursor and the scroll region. -/
structure Aligned (v : Video) (c : Vc) : Prop where
  x_le : c.x ≤ v.numColumns
  y_lt : c.y < v.numLines
  top_lt : c.top < c.bottom
  bottom_le : c.bottom ≤ v.numLines
  start_le : c.videoMemStart ≤ c.origin
  scrEnd_eq : c.scrEnd = c.origin + v.numLines * v.sizeRow
  pos_eq : c.pos = c.origin + c.y * v.sizeRow + 2 * c.x

/-- What the rest of the code leaves alone. -/
def Vc.place (c : Vc) : ℕ × ℕ × ℕ × ℕ × ℕ × ℕ × ℕ × ℕ × ℕ :=
  (c.x, c.y, c.top, c.bottom, c.origin, c.scrEnd, c.pos, c.videoMemStart, c.videoMemEnd)

/-- The screen is in the memory of the console. -/
structure Placed (v : Video) (c : Vc) : Prop extends Aligned v c where
  scrEnd_le : c.scrEnd ≤ c.videoMemEnd

/-! ## Stores -/

/-- Nothing but the bytes from `lo` up to `hi` is stored. -/
structure Fills (lo hi : ℕ) (t t' : Term) : Prop where
  vc : t'.vc = t.vc
  stores : ∀ a ∈ t'.stores, a ∈ t.stores ∨ lo ≤ a ∧ a < hi

namespace Fills

theorem refl : Fills lo hi t t := ⟨rfl, fun _ h => .inl h⟩

theorem trans (h : Fills lo hi t t') (h' : Fills lo hi t' t'') : Fills lo hi t t'' := by
  refine ⟨h'.vc.trans h.vc, fun a ha => ?_⟩
  rcases h'.stores a ha with ha | ha
  · exact h.stores a ha
  · exact .inr ha

theorem storeWord (hlo : lo ≤ di) (hhi : di + 2 ≤ hi) : Fills lo hi t (t.storeWord di w) := by
  refine ⟨rfl, fun a ha => ?_⟩
  simp only [Term.storeWord, Term.storeByte, List.mem_cons] at ha
  rcases ha with rfl | rfl | ha
  · exact .inr (by omega)
  · exact .inr (by omega)
  · exact .inl ha

theorem stosw (di : ℕ) (hlo : lo ≤ di) (hhi : di + 2 * n ≤ hi) : Fills lo hi t (t.stosw w n di) := by
  induction n generalizing di t with
  | zero => exact refl
  | succ n ih => exact (storeWord hlo (by omega)).trans (ih _ (by omega) (by omega))

theorem stoswDown (hlo : lo + 2 * n ≤ di + 2) (hhi : di + 2 ≤ hi) :
    Fills lo hi t (t.stoswDown w n di) := by
  induction n generalizing di t with
  | zero => exact refl
  | succ n ih => exact (storeWord (by omega) hhi).trans (ih (by omega) (by omega))

theorem movsl1 (hlo : lo ≤ di) (hhi : di + 4 ≤ hi) : Fills lo hi t (t.movsl1 si di) :=
  (storeWord hlo (by omega)).trans (storeWord (by omega) (by omega))

theorem movsl (hlo : lo ≤ di) (hhi : di + 4 * n ≤ hi) : Fills lo hi t (t.movsl n si di) := by
  induction n generalizing si di t with
  | zero => exact refl
  | succ n ih => exact (movsl1 hlo (by omega)).trans (ih (by omega) (by omega))

theorem movslDown (hlo : lo + 4 * n ≤ di + 4) (hhi : di + 4 ≤ hi) :
    Fills lo hi t (t.movslDown n si di) := by
  induction n generalizing si di t with
  | zero => exact refl
  | succ n ih => exact (movsl1 (by omega) hhi).trans (ih (by omega) (by omega))

theorem shiftIn (hlo : lo ≤ p) (hhi : p + 2 * n ≤ hi) : Fills lo hi t (t.shiftIn n p w) := by
  induction n generalizing p t w with
  | zero => exact refl
  | succ n ih => exact (storeWord hlo (by omega)).trans (ih (by omega) (by omega))

theorem shiftOut (hlo : lo ≤ p) (hhi : p + 2 * (n + 1) ≤ hi) : Fills lo hi t (t.shiftOut w n p) := by
  induction n generalizing p t with
  | zero => exact storeWord hlo (by omega)
  | succ n ih => exact (storeWord hlo (by omega)).trans (ih (by omega) (by omega))

end Fills

/-! ## One console -/

/-- The console stays in order, in its memory. -/
structure Stays (v : Video) (t t' : Term) : Prop where
  placed : Placed v t'.vc
  start : t'.vc.videoMemStart = t.vc.videoMemStart
  memEnd : t'.vc.videoMemEnd = t.vc.videoMemEnd
  stores : ∀ a ∈ t'.stores, a ∈ t.stores ∨ t.vc.videoMemStart ≤ a ∧ a < t.vc.videoMemEnd

theorem Stays.trans (h : Stays v t t') (h' : Stays v t' t'') : Stays v t t'' := by
  refine ⟨h'.placed, h'.start.trans h.start, h'.memEnd.trans h.memEnd, fun a ha => ?_⟩
  rcases h'.stores a ha with ha | ha
  · exact h.stores a ha
  · rw [h.start, h.memEnd] at ha
    exact .inr ha

theorem Stays.ite {c : Prop} [Decidable c] (h : c → Stays v t t') (h' : ¬ c → Stays v t t'') :
    Stays v t (if c then t' else t'') := by
  by_cases hc : c
  · rw [if_pos hc]
    exact h hc
  · rw [if_neg hc]
    exact h' hc

/-- The rows of the screen, with the last one erased, are no more than the screen. -/
theorem screen_le (hl : 0 < v.numLines) :
    4 * ((v.numLines - 1) * v.numColumns / 2) + 2 * v.numColumns ≤ v.numLines * v.sizeRow := by
  obtain ⟨m, hm⟩ := Nat.exists_eq_succ_of_ne_zero hl.ne'
  have hmul : (m + 1) * v.sizeRow = 2 * (m * v.numColumns) + 2 * v.numColumns := by
    unfold Video.sizeRow
    ring
  rw [hm, Nat.succ_eq_add_one, Nat.add_sub_cancel, hmul]
  omega

/-- A screen that is beyond the end of the memory comes back to its beginning. -/
theorem Aligned.scrollWrap (h : Aligned v t.vc)
    (hroom : t.vc.videoMemStart + v.numLines * v.sizeRow ≤ t.vc.videoMemEnd) :
    Stays v t (t.scrollWrap v) := by
  have hscreen := screen_le (v := v) (by have := h.y_lt; omega)
  have hs := h.scrEnd_eq
  have hp := h.pos_eq
  have ho := h.start_le
  have hf : Fills t.vc.videoMemStart t.vc.videoMemEnd t
      ((t.movsl ((v.numLines - 1) * v.numColumns / 2) t.vc.origin t.vc.videoMemStart).stosw
        t.vc.videoEraseChar v.numColumns
        (t.vc.videoMemStart + 4 * ((v.numLines - 1) * v.numColumns / 2))) :=
    Fills.trans (Fills.movsl le_rfl (by omega)) (Fills.stosw _ (by omega) (by omega))
  unfold Term.scrollWrap
  dsimp only
  generalize (t.movsl ((v.numLines - 1) * v.numColumns / 2) t.vc.origin t.vc.videoMemStart).stosw
    t.vc.videoEraseChar v.numColumns
    (t.vc.videoMemStart + 4 * ((v.numLines - 1) * v.numColumns / 2)) = t₁ at hf
  obtain ⟨c, verase, mem, stores⟩ := t₁
  obtain rfl : c = t.vc := hf.vc
  refine ⟨⟨⟨h.x_le, h.y_lt, h.top_lt, h.bottom_le, le_rfl, ?_, ?_⟩, ?_⟩, rfl, rfl, hf.stores⟩
  · dsimp only
    omega
  · dsimp only
    omega
  · dsimp only
    omega

namespace Placed

variable (h : Placed v t.vc)
include h

theorem refl : Stays v t t := ⟨h, rfl, rfl, fun _ ha => .inl ha⟩

/-- Stores alone. -/
theorem fills (hf : Fills t.vc.videoMemStart t.vc.videoMemEnd t t') : Stays v t t' :=
  ⟨hf.vc ▸ h, by rw [hf.vc], by rw [hf.vc], hf.stores⟩

/-- A change that does not touch the cursor, the scroll region or the screen. -/
theorem of_eq (hc : t'.vc.place = t.vc.place) (hst : t'.stores = t.stores) : Stays v t t' := by
  simp only [Vc.place, Prod.mk.injEq] at hc
  obtain ⟨hx, hy, ht, hb, ho, hs, hp, hm, he⟩ := hc
  refine ⟨⟨⟨?_, ?_, ?_, ?_, ?_, ?_, ?_⟩, ?_⟩, hm, he, fun _ ha => .inl (hst ▸ ha)⟩
  · exact hx ▸ h.x_le
  · exact hy ▸ h.y_lt
  · exact ht ▸ hb ▸ h.top_lt
  · exact hb ▸ h.bottom_le
  · exact hm ▸ ho ▸ h.start_le
  · exact hs ▸ ho ▸ h.scrEnd_eq
  · exact hp ▸ ho ▸ hy ▸ hx ▸ h.pos_eq
  · exact hs ▸ he ▸ h.scrEnd_le

/-- The row of the cursor is on the screen. -/
theorem row_le : t.vc.origin + t.vc.y * v.sizeRow + v.sizeRow ≤ t.vc.scrEnd := by
  have hy : (t.vc.y + 1) * v.sizeRow ≤ v.numLines * v.sizeRow := Nat.mul_le_mul_right _ h.y_lt
  rw [Nat.add_one_mul] at hy
  rw [h.scrEnd_eq]
  omega

theorem gotoxy (x y : UInt32) : Stays v t (t.gotoxy v x y) := by
  unfold Term.gotoxy
  split
  · exact h.refl
  · rename_i hin
    refine ⟨⟨⟨?_, ?_, h.top_lt, h.bottom_le, h.start_le, h.scrEnd_eq, ?_⟩, h.scrEnd_le⟩, rfl, rfl,
      fun _ ha => .inl ha⟩
    · dsimp only
      omega
    · dsimp only
      omega
    · dsimp only
      omega

/-! ### Scrolling -/

/-- What `scrollUp` and `scrdown` move and erase is in the scroll region. -/
theorem region_le : t.vc.origin + v.sizeRow * t.vc.top + 4 *
      ((t.vc.bottom - t.vc.top - 1) * v.numColumns / 2) + 2 * v.numColumns ≤
        t.vc.origin + v.sizeRow * t.vc.bottom ∧
    t.vc.origin + v.sizeRow * t.vc.bottom ≤ t.vc.scrEnd := by
  have hb : t.vc.bottom = t.vc.top + (t.vc.bottom - t.vc.top - 1) + 1 := by
    have := h.top_lt
    omega
  generalize t.vc.bottom - t.vc.top - 1 = m at hb
  have hle : v.sizeRow * t.vc.bottom ≤ v.sizeRow * v.numLines := Nat.mul_le_mul_left _ h.bottom_le
  rw [h.scrEnd_eq, Nat.mul_comm v.numLines]
  refine ⟨?_, by omega⟩
  rw [hb, Nat.mul_add, Nat.mul_add]
  have hrow : v.sizeRow * m = 2 * (m * v.numColumns) := by
    unfold Video.sizeRow
    ring
  have hone : v.sizeRow = 2 * v.numColumns := Nat.mul_comm _ _
  omega

theorem scrollUp : Stays v t (t.scrollUp v) := by
  obtain ⟨h₁, h₂⟩ := h.region_le
  have h₃ := h.start_le
  have h₄ := h.scrEnd_le
  refine h.fills (Fills.trans (Fills.movsl ?_ ?_) (Fills.stosw _ ?_ ?_)) <;> omega

theorem scrdown (hcol : 8 ≤ v.numColumns) : Stays v t (t.scrdown v) := by
  unfold Term.scrdown
  split
  · exact h.refl
  · obtain ⟨h₁, h₂⟩ := h.region_le
    have h₃ := h.start_le
    have h₄ := h.scrEnd_le
    refine h.fills (Fills.trans (Fills.movslDown ?_ ?_) (Fills.stoswDown ?_ ?_)) <;> omega

/-- One row further on, or back to the beginning of the memory. -/
theorem scrup : Stays v t (t.scrup v) := by
  have hy := h.row_le
  have hs := h.scrEnd_eq
  have hp := h.pos_eq
  have ho := h.start_le
  have he := h.scrEnd_le
  unfold Term.scrup
  split
  · exact h.refl
  · split
    · split
      · have ha : Aligned v { t.vc with
            origin := t.vc.origin + v.sizeRow
            pos := t.vc.pos + v.sizeRow
            scrEnd := t.vc.scrEnd + v.sizeRow } := by
          refine ⟨h.x_le, h.y_lt, h.top_lt, h.bottom_le, ?_, ?_, ?_⟩
          · dsimp only
            omega
          · dsimp only
            omega
          · dsimp only
            omega
        dsimp only
        split
        · have hw := Aligned.scrollWrap (t := { t with vc := _ }) ha (by dsimp only; omega)
          exact ⟨hw.placed, hw.start, hw.memEnd, hw.stores⟩
        · rename_i hend
          have hf := Placed.fills (t := { t with vc := _ }) ⟨ha, Nat.le_of_not_lt hend⟩
            (Fills.stosw (w := t.vc.videoEraseChar) (n := v.numColumns)
              (t.vc.scrEnd + v.sizeRow - v.sizeRow) ?_ ?_)
          · exact ⟨hf.placed, hf.start, hf.memEnd, hf.stores⟩
          · dsimp only
            omega
          · have hrow : 2 * v.numColumns = v.sizeRow := Nat.mul_comm _ _
            dsimp only at hend ⊢
            omega
      · exact h.scrollUp
    · exact h.scrollUp

/-! ### The cursor -/

theorem lf : Stays v t (t.lf v) := by
  unfold Term.lf
  split
  · rename_i hy
    have hb := h.bottom_le
    have hp := h.pos_eq
    refine ⟨⟨⟨h.x_le, ?_, h.top_lt, h.bottom_le, h.start_le, h.scrEnd_eq, ?_⟩, h.scrEnd_le⟩, rfl, rfl,
      fun _ ha => .inl ha⟩
    · dsimp only
      omega
    · dsimp only
      rw [Nat.add_one_mul]
      omega
  · exact h.scrup

theorem ri (hcol : 8 ≤ v.numColumns) : Stays v t (t.ri v) := by
  unfold Term.ri
  split
  · rename_i hy
    obtain ⟨k, hk⟩ := Nat.exists_eq_succ_of_ne_zero (by omega : t.vc.y ≠ 0)
    have hlt := h.y_lt
    have hp := h.pos_eq
    rw [hk, Nat.succ_eq_add_one, Nat.add_one_mul] at hp
    refine ⟨⟨⟨h.x_le, ?_, h.top_lt, h.bottom_le, h.start_le, h.scrEnd_eq, ?_⟩, h.scrEnd_le⟩, rfl, rfl,
      fun _ ha => .inl ha⟩
    · dsimp only
      omega
    · dsimp only
      rw [hk, Nat.succ_eq_add_one, Nat.add_sub_cancel]
      omega
  · exact h.scrdown hcol

theorem cr : Stays v t t.cr := by
  have hp := h.pos_eq
  refine ⟨⟨⟨Nat.zero_le _, h.y_lt, h.top_lt, h.bottom_le, h.start_le, h.scrEnd_eq, ?_⟩, h.scrEnd_le⟩,
    rfl, rfl, fun _ ha => .inl ha⟩
  dsimp only [Term.cr]
  omega

/-- The cursor moves back within its line. -/
theorem back (hx : t.vc.x ≠ 0) : Stays v t { t with vc.x := t.vc.x - 1, vc.pos := t.vc.pos - 2 } := by
  have hp := h.pos_eq
  have hle := h.x_le
  refine ⟨⟨⟨?_, h.y_lt, h.top_lt, h.bottom_le, h.start_le, h.scrEnd_eq, ?_⟩, h.scrEnd_le⟩, rfl, rfl,
    fun _ ha => .inl ha⟩
  · dsimp only
    omega
  · dsimp only
    omega

/-- What is in the line of the cursor is in the memory of the console. -/
theorem line (hlo : t.vc.origin + t.vc.y * v.sizeRow ≤ lo)
    (hhi : hi ≤ t.vc.origin + t.vc.y * v.sizeRow + v.sizeRow) (hf : Fills lo hi t t') : Stays v t t' := by
  have hy := h.row_le
  have ho := h.start_le
  have he := h.scrEnd_le
  refine h.fills ⟨hf.vc, fun a ha => ?_⟩
  rcases hf.stores a ha with ha | ha
  · exact .inl ha
  · exact .inr (by omega)

theorem del : Stays v t t.del := by
  unfold Term.del
  split
  · rename_i hx
    have hb := h.back hx
    refine hb.trans (hb.placed.line le_rfl le_rfl (Fills.storeWord ?_ ?_))
    · have hp := h.pos_eq
      dsimp only
      omega
    · have hp := h.pos_eq
      have hle := h.x_le
      have hrow : v.sizeRow = 2 * v.numColumns := Nat.mul_comm _ _
      dsimp only
      omega
  · exact h.refl

/-! ### Erasing, inserting and deleting -/

theorem csi_J (vpar : UInt32) : Stays v t (t.csi_J v vpar) := by
  have hp := h.pos_eq
  have hs := h.scrEnd_eq
  have ho := h.start_le
  have he := h.scrEnd_le
  have hy := h.row_le
  have hx := h.x_le
  have hrow : v.sizeRow = 2 * v.numColumns := Nat.mul_comm _ _
  unfold Term.csi_J
  split
  · exact h.fills (Fills.stosw _ (by omega) (by omega))
  · exact h.fills (Fills.stosw _ (by omega) (by omega))
  · have hmul : 2 * (v.numColumns * v.numLines) = v.numLines * v.sizeRow := by
      unfold Video.sizeRow
      ring
    exact h.fills (Fills.stosw _ (by omega) (by omega))
  · exact h.refl

theorem csi_K (vpar : UInt32) : Stays v t (t.csi_K v vpar) := by
  have hp := h.pos_eq
  have hx := h.x_le
  have hrow : v.sizeRow = 2 * v.numColumns := Nat.mul_comm _ _
  unfold Term.csi_K
  split
  · split
    · exact h.refl
    · exact h.line le_rfl le_rfl (Fills.stosw _ (by omega) (by omega))
  · have hle : (if t.vc.x < v.numColumns then t.vc.x else v.numColumns) ≤ v.numColumns := by
      split <;> omega
    exact h.line le_rfl le_rfl (Fills.stosw _ (by omega) (by omega))
  · exact h.line le_rfl le_rfl (Fills.stosw _ (by omega) (by omega))
  · exact h.refl

theorem insertChar : Stays v t (t.insertChar v) := by
  have hp := h.pos_eq
  have hx := h.x_le
  have hrow : v.sizeRow = 2 * v.numColumns := Nat.mul_comm _ _
  exact h.line le_rfl le_rfl (Fills.shiftIn (by omega) (by omega))

theorem deleteChar : Stays v t (t.deleteChar v) := by
  have hp := h.pos_eq
  have hrow : v.sizeRow = 2 * v.numColumns := Nat.mul_comm _ _
  unfold Term.deleteChar
  split
  · exact h.refl
  · exact h.line le_rfl le_rfl (Fills.shiftOut (by omega) (by omega))

/-- The scroll region is put back after a scroll from the line of the cursor. -/
theorem scrollRest {scroll : Term → Term} (hscroll : ∀ t, Placed v t.vc → Stays v t (scroll t)) :
    Stays v t (t.scrollRest v scroll) := by
  have hrest : Placed v { t.vc with top := t.vc.y, bottom := v.numLines } :=
    ⟨⟨h.x_le, h.y_lt, h.y_lt, le_rfl, h.start_le, h.scrEnd_eq, h.pos_eq⟩, h.scrEnd_le⟩
  have hs := hscroll { t with vc.top := t.vc.y, vc.bottom := v.numLines } hrest
  have hp := hs.placed
  exact ⟨⟨⟨hp.x_le, hp.y_lt, h.top_lt, h.bottom_le, hp.start_le, hp.scrEnd_eq, hp.pos_eq⟩, hp.scrEnd_le⟩,
    hs.start, hs.memEnd, hs.stores⟩

omit h in
theorem iterate {f : Term → Term} (hf : ∀ t, Placed v t.vc → Stays v t (f t)) (h : Placed v t.vc) (n : ℕ) :
    Stays v t (f^[n] t) := by
  induction n generalizing t with
  | zero => exact h.refl
  | succ n ih =>
    have h₁ := hf t h
    exact h₁.trans (ih h₁.placed)

theorem csi_at (nr : UInt32) : Stays v t (t.csi_at v nr) := iterate (fun _ h => h.insertChar) h _

theorem csi_P (nr : UInt32) : Stays v t (t.csi_P v nr) := iterate (fun _ h => h.deleteChar) h _

theorem csi_L (hcol : 8 ≤ v.numColumns) (nr : UInt32) : Stays v t (t.csi_L v nr) :=
  iterate (fun _ h => h.scrollRest fun _ h => h.scrdown hcol) h _

theorem csi_M (nr : UInt32) : Stays v t (t.csi_M v nr) :=
  iterate (fun _ h => h.scrollRest fun _ h => h.scrup) h _

end Placed

/-! ### Escape sequences -/

theorem setAttr_place (par : UInt32) (c : Vc) : (Term.setAttr v par c).place = c.place := by
  unfold Term.setAttr
  split
  case h_3 =>
    split
    · rfl
    · split <;> rfl
  case h_12 =>
    split
    · rfl
    · split
      · rfl
      · split <;> rfl
  all_goals rfl

theorem foldl_setAttr_place (l : List ℕ) (c : Vc) :
    (l.foldl (fun c i => Term.setAttr v (c.par i) c) c).place = c.place := by
  induction l generalizing c with
  | nil => rfl
  | cons i l ih => exact (ih _).trans (setAttr_place _ c)

namespace Placed

variable (h : Placed v t.vc)
include h

theorem atLeastOne : Stays v t t.atLeastOne := by
  unfold Term.atLeastOne
  split
  · exact h.of_eq rfl rfl
  · exact h.refl

theorem oneLess (i : ℕ) : Stays v t (t.oneLess i) := by
  unfold Term.oneLess
  split
  · exact h.of_eq rfl rfl
  · exact h.refl

theorem csi_m : Stays v t (t.csi_m v) := h.of_eq (foldl_setAttr_place _ _) rfl

theorem setRegion : Stays v t (t.setRegion v) := by
  have h₁ := h.oneLess 0
  unfold Term.setRegion
  dsimp only
  generalize t.oneLess 0 = t₁ at h₁
  have h₂ : Stays v t₁ (if t₁.vc.par 1 = 0 then t₁.setPar 1 (.ofNat v.numLines) else t₁) := by
    split
    · exact h₁.placed.of_eq rfl rfl
    · exact h₁.placed.refl
  generalize (if t₁.vc.par 1 = 0 then t₁.setPar 1 (.ofNat v.numLines) else t₁) = t₂ at h₂
  refine (h₁.trans h₂).trans ?_
  have hp := h₂.placed
  split
  · rename_i hpar
    exact ⟨⟨⟨hp.x_le, hp.y_lt, UInt32.lt_iff_toNat_lt.mp hpar.1, hpar.2, hp.start_le, hp.scrEnd_eq,
      hp.pos_eq⟩, hp.scrEnd_le⟩, rfl, rfl, fun _ ha => .inl ha⟩
  · exact hp.refl

omit h in
theorem gotoxy_of_stays (h : Stays v t t') (x y : UInt32) : Stays v t (t'.gotoxy v x y) :=
  h.trans (h.placed.gotoxy x y)

theorem gotpars (hcol : 8 ≤ v.numColumns) (c : Char) : Stays v t (t.gotpars v c) := by
  have hone := h.atLeastOne
  have hless := h.oneLess 0
  have hboth : Stays v t ((t.oneLess 0).oneLess 1) := hless.trans (hless.placed.oneLess 1)
  unfold Term.gotpars
  dsimp only
  split
  -- the movements of the cursor, in the order of the cases
  · exact gotoxy_of_stays hless _ _
  · exact gotoxy_of_stays hless _ _
  · exact gotoxy_of_stays hone _ _
  · exact gotoxy_of_stays hone _ _
  · exact gotoxy_of_stays hone _ _
  · exact gotoxy_of_stays hone _ _
  · exact gotoxy_of_stays hone _ _
  · exact gotoxy_of_stays hone _ _
  · exact gotoxy_of_stays hone _ _
  · exact gotoxy_of_stays hone _ _
  · exact gotoxy_of_stays hless _ _
  · exact gotoxy_of_stays hboth _ _
  · exact gotoxy_of_stays hboth _ _
  -- the others
  · exact h.csi_J _
  · exact h.csi_K _
  · exact h.csi_L hcol _
  · exact h.csi_M _
  · exact h.csi_P _
  · exact h.csi_at _
  · exact h.csi_m
  · exact h.setRegion
  · exact h.of_eq rfl rfl
  · exact h.gotoxy _ _
  · unfold Term.setBold
    split
    · exact h.of_eq rfl rfl
    · exact h.refl
  · exact h.refl

theorem setState (state : EscState) : Stays v t (t.setState state) := h.of_eq rfl rfl

theorem getpars (hcol : 8 ≤ v.numColumns) (c : UInt8) : Stays v t (t.getpars v c) := by
  unfold Term.getpars
  dsimp only
  split
  · exact h.of_eq rfl rfl
  · split
    · exact h.of_eq rfl rfl
    · have hs := h.setState .normal
      split
      · exact h.of_eq rfl rfl
      · exact hs.trans (hs.placed.gotpars hcol _)

theorem getpars_of_eq (hcol : 8 ≤ v.numColumns) {c : UInt8} (hc : t'.vc.place = t.vc.place)
    (hst : t'.stores = t.stores) : Stays v t (t'.getpars v c) := by
  have h₁ := h.of_eq hc hst
  exact h₁.trans (h₁.placed.getpars hcol c)

theorem square (hcol : 8 ≤ v.numColumns) (c : UInt8) : Stays v t (t.square v c) := by
  unfold Term.square
  dsimp only
  split
  · exact h.of_eq rfl rfl
  · split
    · exact h.of_eq rfl rfl
    · exact h.getpars_of_eq hcol rfl rfl

theorem esc (hcol : 8 ≤ v.numColumns) (c : UInt8) : Stays v t (t.esc v c) := by
  have hs := h.setState .normal
  unfold Term.esc
  dsimp only
  refine hs.trans ?_
  have hp := hs.placed
  split
  · exact hp.setState _
  · exact hp.gotoxy _ _
  · exact hp.ri hcol
  · exact hp.lf
  · exact hp.of_eq rfl rfl
  · exact hp.gotoxy _ _
  · exact hp.setState _
  · exact hp.setState _
  · exact hp.setState _
  · exact hp.setState _
  · have hl : 0 < v.numLines := Nat.zero_lt_of_lt h.y_lt
    exact ⟨⟨⟨h.x_le, h.y_lt, hl, le_rfl, h.start_le, h.scrEnd_eq, h.pos_eq⟩, h.scrEnd_le⟩, rfl, rfl,
      fun _ ha => .inl ha⟩
  · exact hp.refl

/-! ### Characters -/

/-- A cursor that is past the end of its line goes to the next one. -/
theorem wrap {n : ℕ} (hlo : v.numColumns ≤ t.vc.x + n) (hhi : t.vc.x + n ≤ 2 * v.numColumns) :
    Stays v t (Term.wrap v { t with vc.x := t.vc.x + n, vc.pos := t.vc.pos + n * 2 }) := by
  have hp := h.pos_eq
  have hrow : v.sizeRow = 2 * v.numColumns := Nat.mul_comm _ _
  have h₁ : Placed v { t.vc with x := t.vc.x + n - v.numColumns, pos := t.vc.pos + n * 2 - v.sizeRow } := by
    refine ⟨⟨?_, h.y_lt, h.top_lt, h.bottom_le, h.start_le, h.scrEnd_eq, ?_⟩, h.scrEnd_le⟩
    · dsimp only
      omega
    · dsimp only
      omega
  have h₂ := Placed.lf (t := { t with vc := _ }) h₁
  exact ⟨h₂.placed, h₂.start, h₂.memEnd, h₂.stores⟩

/-- There is room for a character in the line of the cursor. -/
theorem putChar_of_lt (hx : t.vc.x < v.numColumns) (w : UInt16) :
    Stays v t { t.storeWord t.vc.pos w with
      vc := { (t.storeWord t.vc.pos w).vc with pos := t.vc.pos + 2, x := t.vc.x + 1 } } := by
  have hp := h.pos_eq
  have hrow : v.sizeRow = 2 * v.numColumns := Nat.mul_comm _ _
  have hs : Stays v t (t.storeWord t.vc.pos w) :=
    h.line le_rfl le_rfl (Fills.storeWord (by omega) (by omega))
  refine ⟨⟨⟨hx, h.y_lt, h.top_lt, h.bottom_le, h.start_le, h.scrEnd_eq, ?_⟩, h.scrEnd_le⟩, rfl, rfl,
    hs.stores⟩
  dsimp only [Term.storeWord, Term.storeByte]
  omega

end Placed

@[simp] theorem stosw_vc : (t.stosw w n di).vc = t.vc :=
  (Fills.stosw di le_rfl le_rfl : Fills di (di + 2 * n) t (t.stosw w n di)).vc

@[simp] theorem movsl_vc : (t.movsl n si di).vc = t.vc :=
  (Fills.movsl le_rfl le_rfl : Fills di (di + 4 * n) t (t.movsl n si di)).vc

/-- A scroll leaves the cursor in its column. -/
theorem scrup_x : (t.scrup v).vc.x = t.vc.x := by
  unfold Term.scrup Term.scrollWrap Term.scrollUp
  split
  · rfl
  · split
    · split
      · dsimp only
        split <;> simp
      · simp
    · simp

theorem lf_x : (t.lf v).vc.x = t.vc.x := by
  unfold Term.lf
  split
  · rfl
  · exact scrup_x

namespace Placed

variable (h : Placed v t.vc)
include h

theorem putChar (hcol : 8 ≤ v.numColumns) (c : UInt8) : Stays v t (t.putChar v c) := by
  unfold Term.putChar
  dsimp only
  split
  · rename_i hx
    have hle := h.x_le
    have hw : Stays v t (t.wrap v) := h.wrap (n := 0) hx (by omega)
    refine hw.trans (hw.placed.putChar_of_lt ?_ _)
    unfold Term.wrap
    rw [lf_x]
    dsimp only
    omega
  · rename_i hx
    exact h.putChar_of_lt (Nat.lt_of_not_le hx) _

theorem tab (hcol : 8 ≤ v.numColumns) : Stays v t (t.tab v) := by
  have hle := h.x_le
  have hp := h.pos_eq
  unfold Term.tab
  dsimp only
  split
  · exact h.wrap (by omega) (by omega)
  · refine ⟨⟨⟨?_, h.y_lt, h.top_lt, h.bottom_le, h.start_le, h.scrEnd_eq, ?_⟩, h.scrEnd_le⟩, rfl, rfl,
      fun _ ha => .inl ha⟩
    · dsimp only
      omega
    · dsimp only
      omega

theorem normal (hcol : 8 ≤ v.numColumns) (c : UInt8) : Stays v t (t.normal v c) := by
  unfold Term.normal
  apply Stays.ite fun _ => h.putChar hcol c
  intro _
  apply Stays.ite fun _ => h.setState _
  intro _
  apply Stays.ite fun _ => h.lf
  intro _
  apply Stays.ite fun _ => h.cr
  intro _
  apply Stays.ite fun _ => h.del
  intro _
  apply Stays.ite fun _ => Stays.ite h.back fun _ => h.refl
  intro _
  apply Stays.ite fun _ => h.tab hcol
  intro _
  refine Stays.ite (fun _ => h.of_eq rfl rfl) fun _ => ?_
  exact Stays.ite (fun _ => h.of_eq rfl rfl) fun _ => h.refl

/-- One character. -/
theorem writeByte (hcol : 8 ≤ v.numColumns) (c : UInt8) : Stays v t (t.writeByte v c) := by
  have hs : Stays v t (if c = 24 ∨ c = 26 then t.setState .normal else t) := by
    split
    · exact h.setState _
    · exact h.refl
  unfold Term.writeByte
  dsimp only
  generalize (if c = 24 ∨ c = 26 then t.setState .normal else t) = t₁ at hs
  refine hs.trans ?_
  have hp := hs.placed
  split
  · exact hp.normal hcol c
  · exact hp.esc hcol c
  · exact hp.square hcol c
  · exact hp.getpars hcol c
  · exact hp.setState _
  · unfold Term.setterm
    dsimp only
    split
    · exact hp.of_eq rfl rfl
    · exact hp.of_eq rfl rfl
  · unfold Term.setgraph
    dsimp only
    split
    · exact hp.of_eq rfl rfl
    · exact hp.of_eq rfl rfl
    · exact hp.of_eq rfl rfl
  · exact hp.setState _

end Placed

/-! ## All the consoles -/

/-- The display has at least one screen of at least eight columns, and the cursor is on it. -/
structure Bios.Suitable (b : Bios) : Prop where
  columns : 8 ≤ b.video.numColumns
  memory : b.video.numLines * b.video.sizeRow ≤ b.video.memTerm - b.video.memBase
  cursorX : b.origX.toNat < b.video.numColumns
  cursorY : b.origY.toNat < b.video.numLines

variable {b : Bios} {s s' : Consoles}

/-- There is room for a screen in the share of each console. -/
theorem Bios.Suitable.screen_le (hb : b.Suitable) :
    b.video.numLines * b.video.sizeRow ≤ b.videoMemory := by
  have hpos : 0 < b.video.numLines * b.video.sizeRow := by
    have h₁ := hb.columns
    have h₂ := hb.cursorY
    have h₃ : 0 < b.video.sizeRow := by
      unfold Video.sizeRow
      omega
    exact Nat.mul_pos (by omega) h₃
  have hm := hb.memory
  unfold Bios.videoMemory Bios.nrConsoles
  dsimp only
  generalize b.video.memTerm - b.video.memBase = m at *
  generalize b.video.numLines * b.video.sizeRow = n at *
  have hone : 1 ≤ m / n := (Nat.le_div_iff_mul_le hpos).mpr (by omega)
  have hle : m / n * n ≤ m := Nat.div_mul_le_self m n
  split
  · unfold MAX_CONSOLES
    rw [if_neg (by decide), Nat.le_div_iff_mul_le (by decide)]
    have : 8 * n ≤ m / n * n := Nat.mul_le_mul_right n (by unfold MAX_CONSOLES at *; omega)
    omega
  · rw [if_neg (by omega), Nat.le_div_iff_mul_le (by omega), Nat.mul_comm]
    exact hle

/-- A console as `con_init` leaves it. -/
theorem Bios.Suitable.placed (hb : b.Suitable) (i : ℕ) {verase : UInt8} {mem : ℕ → UInt8} {x y : UInt32}
    (hx : x.toNat ≤ b.video.numColumns) (hy : y.toNat < b.video.numLines) :
    Placed b.video (Term.gotoxy b.video x y ⟨b.layout i, verase, mem, []⟩).vc := by
  have hs := hb.screen_le
  unfold Term.gotoxy
  rw [if_neg (by omega)]
  refine ⟨⟨hx, hy, ?_, le_rfl, le_rfl, rfl, ?_⟩, ?_⟩
  · exact Nat.zero_lt_of_lt hy
  · dsimp only
    omega
  · dsimp only [Bios.layout]
    omega

/-- Each console is in order, in its share of video memory, and so are the bytes stored. -/
structure Inv (b : Bios) (s : Consoles) : Prop where
  placed : ∀ i, Placed b.video (s.vc i)
  start : ∀ i, (s.vc i).videoMemStart = b.video.memBase + i * b.videoMemory
  memEnd : ∀ i, (s.vc i).videoMemEnd = b.video.memBase + i * b.videoMemory + b.videoMemory
  stores : ∀ x ∈ s.stores, (s.vc x.1).videoMemStart ≤ x.2 ∧ x.2 < (s.vc x.1).videoMemEnd

theorem inv_conInit (hb : b.Suitable) (mem : ℕ → UInt8) : Inv b (conInit b mem) := by
  have hlayout : ∀ i (x y : UInt32), (Term.gotoxy b.video x y
      ⟨b.layout i, INIT_VERASE, mem, []⟩).vc.videoMemStart = b.video.memBase + i * b.videoMemory ∧
      (Term.gotoxy b.video x y ⟨b.layout i, INIT_VERASE, mem, []⟩).vc.videoMemEnd =
        b.video.memBase + i * b.videoMemory + b.videoMemory := by
    intro i x y
    unfold Term.gotoxy
    split <;> exact ⟨rfl, rfl⟩
  refine ⟨fun i => ?_, fun i => ?_, fun i => ?_, nofun⟩
  · dsimp only [conInit]
    split
    · exact hb.placed i (by simpa using hb.cursorX.le) (by simpa using hb.cursorY)
    · exact hb.placed i (Nat.zero_le _) (Nat.zero_lt_of_lt hb.cursorY)
  · dsimp only [conInit]
    split
    · exact (hlayout i _ _).1
    · exact (hlayout i _ _).1
  · dsimp only [conInit]
    split
    · exact (hlayout i _ _).2
    · exact (hlayout i _ _).2

theorem Inv.step {e : Event} (h : Inv b s) (hb : b.Suitable) (hs : step b e s = some s') : Inv b s' := by
  cases e with
  | termios i verase =>
    obtain rfl := Option.some.inj hs
    exact ⟨h.placed, h.start, h.memEnd, h.stores⟩
  | write i c =>
    simp only [Console.step] at hs
    split at hs
    · obtain rfl := Option.some.inj hs
      have hw := Placed.writeByte (t := ⟨s.vc i, s.verase i, s.mem, []⟩) (h.placed i) hb.columns c
      have hstart := hw.start
      have hend := hw.memEnd
      have hstores := hw.stores
      have hplaced := hw.placed
      generalize Term.writeByte b.video c ⟨s.vc i, s.verase i, s.mem, []⟩ = t at *
      dsimp only at hstart hend hstores
      have hother : ∀ j, (update s.vc i t.vc j).videoMemStart = (s.vc j).videoMemStart ∧
          (update s.vc i t.vc j).videoMemEnd = (s.vc j).videoMemEnd := by
        intro j
        rcases eq_or_ne j i with rfl | hj
        · rw [update_self]
          exact ⟨hstart, hend⟩
        · rw [update_of_ne hj]
          exact ⟨rfl, rfl⟩
      refine ⟨fun j => ?_, fun j => ?_, fun j => ?_, fun x hx => ?_⟩
      · dsimp only
        rcases eq_or_ne j i with rfl | hj
        · rw [update_self]
          exact hplaced
        · rw [update_of_ne hj]
          exact h.placed j
      · exact (hother j).1.trans (h.start j)
      · exact (hother j).2.trans (h.memEnd j)
      · dsimp only
        rw [(hother x.1).1, (hother x.1).2]
        rcases List.mem_append.mp hx with hx | hx
        · obtain ⟨a, ha, rfl⟩ := List.mem_map.mp hx
          rcases hstores a ha with ha | ha
          · cases ha
          · exact ha
        · exact h.stores x hx
    · cases hs

/-- After every byte written to any of the consoles, each of them is in order in its own share of video
memory, and nothing has been stored outside the share of the console written to. -/
theorem con_write_safe (b : Bios) (hb : b.Suitable) (mem : ℕ → UInt8) {s : Consoles}
    (hrun : Run (step b) Always (conInit b mem) s) :
    (∀ i < b.nrConsoles, Placed b.video (s.vc i) ∧
      (s.vc i).videoMemStart = b.video.memBase + i * b.videoMemory ∧
      (s.vc i).videoMemEnd = b.video.memBase + i * b.videoMemory + b.videoMemory) ∧
    ∀ x ∈ s.stores, (s.vc x.1).videoMemStart ≤ x.2 ∧ x.2 < (s.vc x.1).videoMemEnd := by
  have h : Inv b s := hrun.invariant (inv_conInit hb mem) fun _ _ _ h _ hs => h.step hb hs
  exact ⟨fun i _ => ⟨h.placed i, h.start i, h.memEnd i⟩, h.stores⟩

/-- A colour display of 80 columns and 25 lines, the cursor on the last line. -/
def vga : Bios where
  origX := 0
  origY := 24
  videoMode := 3
  videoCols := 80
  videoLines := 25
  egaBx := 0x0003

/-- The second console after a line feed, the first after a character and a scroll past the end of its
memory. -/
def afterScroll : Consoles :=
  (runList (step vga) [.write 1 10, .write 0 65, .write 0 10] (conInit vga fun _ => 0)).get (by decide +kernel)

theorem con_write_safe_afterScroll :
    (afterScroll.vc 0).pos = 0xb8000 + 24 * 160 + 2 ∧ Placed vga.video (afterScroll.vc 0) := by
  refine ⟨by decide +kernel, ?_⟩
  have hb : vga.Suitable := by
    constructor <;> decide
  exact ((con_write_safe vga hb (fun _ => 0) (.of_runList_get _)).1 0 (by decide)).1

end Linux012.Console
