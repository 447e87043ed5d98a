import Mathlib.Algebra.Order.Floor.Ring
import Mathlib.Algebra.Order.Floor.Semifield
import Mathlib.Tactic

/-! # Rounding to integers

Rounding in the four directions as a relation over an ordered field, and the integers that it gives for a
quotient of natural numbers. A quotient may be rounded by one digit of its fraction in a large base, and this
is the same unless digits after that one matter.
-/

namespace Roundings

/-- A number with a sign -/
def signed {α : Type*} [Neg α] (negative : Bool) (x : α) : α := if negative then -x else x

variable {K : Type*} [Field K] [LinearOrder K]

theorem div_eq_add {K : Type*} [Field K] [CharZero K] {m d : ℕ} (hd : 0 < d) :
    (m : K) / d = (m / d : ℕ) + (m % d : ℕ) / d := by
  have hd' : (d : K) ≠ 0 := by exact_mod_cast hd.ne'
  field_simp
  exact_mod_cast (Nat.div_add_mod m d).symm

/-- A nearest integer, the even one of two. -/
structure IsNearestEven (x : K) (n : ℤ) : Prop where
  near : |x - n| ≤ 1 / 2
  even : |x - n| = 1 / 2 → Even n

theorem IsNearestEven.neg {x : K} {n : ℤ} (h : IsNearestEven x n) : IsNearestEven (-x) (-n) := by
  have heq : |-x - ((-n : ℤ) : K)| = |x - n| := by
    rw [← abs_neg]
    congr 1
    push_cast
    ring
  constructor
  · rw [heq]
    exact h.near
  · rw [heq]
    exact fun htie => (h.even htie).neg

variable [IsStrictOrderedRing K]

theorem IsNearestEven.unique {x : K} {m n : ℤ} (hm : IsNearestEven x m) (hn : IsNearestEven x n) : m = n := by
  wlog hle : m ≤ n generalizing m n
  · exact (this hn hm (le_of_not_ge hle)).symm
  have hmx := abs_le.mp hm.near
  have hnx := abs_le.mp hn.near
  have hclose : (n : K) ≤ m + 1 := by linarith
  have hclose' : n ≤ m + 1 := by exact_mod_cast hclose
  by_contra hne
  -- two neighbours at distance one half each would both be even
  obtain rfl : n = m + 1 := by omega
  push_cast at hnx
  have hmtie : |x - m| = 1 / 2 := by
    rw [abs_of_nonneg (by linarith)]
    linarith
  have hntie : |x - ((m + 1 : ℤ) : K)| = 1 / 2 := by
    push_cast
    rw [abs_of_nonpos (by linarith)]
    linarith
  have hodd := (hm.even hmtie).add_one
  exact absurd (hn.even hntie) (Int.not_even_iff_odd.mpr hodd)

/-- Directions of rounding -/
inductive Mode | nearest | down | up | zero
  deriving DecidableEq

section

variable [FloorRing K]

/-- `n` is `x` rounded. -/
def Rounds : Mode → K → ℤ → Prop
  | .nearest, x, n => IsNearestEven x n
  | .down, x, n => n = ⌊x⌋
  | .up, x, n => n = ⌈x⌉
  | .zero, x, n => n = if 0 ≤ x then ⌊x⌋ else ⌈x⌉

theorem Rounds.unique {r : Mode} {x : K} {m n : ℤ} (hm : Rounds r x m) (hn : Rounds r x n) : m = n := by
  cases r with
  | nearest => exact IsNearestEven.unique hm hn
  | down | up | zero => exact Eq.trans hm (Eq.symm hn)

/-! ## Quotients -/

variable {m d : ℕ}

/-- The quotient of two natural numbers, rounded in this direction, is one more than the whole quotient. The
number that is rounded is the negative of the quotient if `negative`. -/
def Mode.roundsUp (r : Mode) (negative : Bool) (m d : ℕ) : Prop :=
  match r with
  | .nearest => d < 2 * (m % d) ∨ 2 * (m % d) = d ∧ Odd (m / d)
  | .down => negative ∧ m % d ≠ 0
  | .up => ¬ negative ∧ m % d ≠ 0
  | .zero => False

instance (r : Mode) (negative : Bool) (m d : ℕ) : Decidable (r.roundsUp negative m d) := by
  cases r <;> unfold Mode.roundsUp <;> infer_instance

theorem floor_div (m d : ℕ) : ⌊(m : K) / d⌋ = (m / d : ℕ) := by
  rw [Int.floor_div_natCast, Int.floor_natCast, Int.natCast_ediv]

theorem ceil_div (hd : 0 < d) : ⌈(m : K) / d⌉ = (m / d + if m % d ≠ 0 then 1 else 0 : ℕ) := by
  have hd' : (0 : K) < d := by exact_mod_cast hd
  rw [Int.ceil_eq_iff, div_eq_add hd]
  have hlt : ((m % d : ℕ) : K) / d < 1 := by
    rw [div_lt_one hd']
    exact_mod_cast Nat.mod_lt m hd
  generalize m / d = q
  by_cases h : m % d = 0
  · rw [if_neg (not_not.mpr h), h, Nat.cast_zero, zero_div]
    push_cast
    constructor <;> linarith
  · have hpos : (0 : K) < (m % d : ℕ) / d := by
      have : (0 : K) < (m % d : ℕ) := by exact_mod_cast Nat.pos_of_ne_zero h
      positivity
    rw [if_pos h]
    push_cast
    constructor <;> linarith

theorem isNearestEven_div (hd : 0 < d) :
    IsNearestEven ((m : K) / d) (m / d + if Mode.nearest.roundsUp false m d then 1 else 0 : ℕ) := by
  have hd' : (0 : K) < d := by exact_mod_cast hd
  have hlt : m % d < d := Nat.mod_lt m hd
  have hx : (m : K) / d = _ := div_eq_add hd
  by_cases hup : Mode.nearest.roundsUp false m d
  · rw [if_pos hup]
    have hhalf : (1 : K) / 2 ≤ (m % d : ℕ) / d := by
      rw [div_le_div_iff₀ two_pos hd']
      have : d ≤ m % d * 2 := by
        rcases hup with h | h <;> omega
      rw [one_mul]
      exact_mod_cast this
    have hone : ((m % d : ℕ) : K) / d < 1 := by
      rw [div_lt_one hd']
      exact_mod_cast hlt
    have habs : |(m : K) / d - ((m / d + 1 : ℕ) : ℤ)| = 1 - (m % d : ℕ) / d := by
      rw [hx]
      generalize m / d = q
      push_cast
      rw [abs_of_nonpos (by linarith)]
      ring
    refine ⟨by rw [habs]; linarith, fun htie => ?_⟩
    rw [habs] at htie
    have heq : ((m % d : ℕ) : K) / d = 1 / 2 := by linarith
    rw [div_eq_div_iff hd'.ne' two_ne_zero, one_mul] at heq
    have heq' : m % d * 2 = d := by exact_mod_cast heq
    rcases hup with h | h
    · omega
    · exact_mod_cast h.2.add_one
  · rw [if_neg hup, Nat.add_zero]
    have hhalf : ((m % d : ℕ) : K) / d ≤ 1 / 2 := by
      rw [div_le_div_iff₀ hd' two_pos, one_mul]
      have hle : 2 * (m % d) ≤ d := not_lt.mp fun h => hup (.inl h)
      rw [mul_comm]
      exact_mod_cast hle
    have hpos : (0 : K) ≤ (m % d : ℕ) / d := by positivity
    have habs : |(m : K) / d - ((m / d : ℕ) : ℤ)| = (m % d : ℕ) / d := by
      rw [hx, Int.cast_natCast, add_sub_cancel_left]
      exact abs_of_nonneg hpos
    refine ⟨by rw [habs]; exact hhalf, fun htie => ?_⟩
    rw [habs, div_eq_div_iff hd'.ne' two_ne_zero, one_mul] at htie
    have heq : m % d * 2 = d := by exact_mod_cast htie
    have hodd : ¬ Odd (m / d) := fun h => hup (.inr ⟨by omega, h⟩)
    exact_mod_cast Nat.not_odd_iff_even.mp hodd

theorem rounds_div (r : Mode) (negative : Bool) (hd : 0 < d) :
    Rounds r (signed negative ((m : K) / d))
      (signed negative ((m / d + if r.roundsUp negative m d then 1 else 0 : ℕ) : ℤ)) := by
  have hnonneg : 0 ≤ (m : K) / d := by positivity
  cases r with
  | nearest =>
    cases negative with
    | false => exact isNearestEven_div hd
    | true => exact (isNearestEven_div hd).neg
  | down => cases negative <;> simp [Rounds, signed, Mode.roundsUp, floor_div, ceil_div hd, Int.floor_neg]
  | up => cases negative <;> simp [Rounds, signed, Mode.roundsUp, floor_div, ceil_div hd, Int.ceil_neg]
  | zero =>
    cases negative with
    | false => simp [Rounds, signed, Mode.roundsUp, floor_div, hnonneg]
    | true =>
      rcases hnonneg.eq_or_lt with h0 | hpos
      · have hq : m / d = 0 := by
          have hfloor : ⌊(m : K) / d⌋ = (m / d : ℕ) := floor_div m d
          rw [← h0, Int.floor_zero] at hfloor
          exact_mod_cast hfloor.symm
        simp [Rounds, signed, Mode.roundsUp, ← h0, hq]
      · have hneg : ¬ 0 ≤ -((m : K) / d) := by linarith
        simp only [Rounds, signed, Mode.roundsUp, if_true, if_neg hneg, Int.ceil_neg, floor_div]
        simp

end

/-! ## One digit of the fraction -/

section

variable {h m d : ℕ}

/-- The first digit of the fraction in base `2 * h` -/
def digit (h m d : ℕ) : ℕ := m * (2 * h) / d % (2 * h)

/-- There are digits after the first one. -/
def Lost (h m d : ℕ) : Prop := m * (2 * h) % d ≠ 0

/-- The quotient is rounded by its first digit. -/
def Mode.digitUp (r : Mode) (negative : Bool) (h m d : ℕ) : Prop :=
  match r with
  | .nearest => h < digit h m d ∨ digit h m d = h ∧ Odd (m / d)
  | .down => negative ∧ digit h m d ≠ 0
  | .up => ¬ negative ∧ digit h m d ≠ 0
  | .zero => False

instance (r : Mode) (negative : Bool) (h m d : ℕ) : Decidable (r.digitUp negative h m d) := by
  cases r <;> unfold Mode.digitUp <;> infer_instance

/-- The digits after the first one do not matter. -/
def Mode.Kept (r : Mode) (negative : Bool) (h m d : ℕ) : Prop :=
  match r with
  | .nearest => ¬ (Lost h m d ∧ digit h m d = h ∧ Even (m / d))
  | .down => ¬ (Lost h m d ∧ digit h m d = 0 ∧ negative)
  | .up => ¬ (Lost h m d ∧ digit h m d = 0 ∧ ¬ negative)
  | .zero => True

theorem digit_eq (hd : 0 < d) : digit h m d = m % d * (2 * h) / d := by
  have hsum : m * (2 * h) = m % d * (2 * h) + d * (m / d * (2 * h)) := by
    calc m * (2 * h) = (m % d + d * (m / d)) * (2 * h) := by rw [Nat.mod_add_div]
      _ = _ := by ring
  unfold digit
  rw [hsum, Nat.add_mul_div_left _ _ hd, Nat.add_mul_mod_self_right]
  rcases Nat.eq_zero_or_pos h with rfl | hh
  · rw [Nat.mul_zero, Nat.mul_zero, Nat.zero_div]
  · refine Nat.mod_eq_of_lt ((Nat.div_lt_iff_lt_mul hd).mpr ?_)
    rw [Nat.mul_comm (2 * h)]
    exact Nat.mul_lt_mul_of_pos_right (Nat.mod_lt m hd) (by omega)

theorem lost_iff : Lost h m d ↔ m % d * (2 * h) % d ≠ 0 := by
  unfold Lost
  rw [Nat.mod_mul_mod]

/-- The remainder is its first digit and what comes after it. -/
theorem digit_add_lost (hd : 0 < d) : d * digit h m d + m % d * (2 * h) % d = m % d * (2 * h) := by
  rw [digit_eq hd]
  exact Nat.div_add_mod ..

theorem mod_ne_zero_iff (hd : 0 < d) (hh : 0 < h) : m % d ≠ 0 ↔ digit h m d ≠ 0 ∨ Lost h m d := by
  have hsum := digit_add_lost (h := h) (m := m) hd
  rw [lost_iff, ← not_and_or, not_iff_not]
  constructor
  · intro h0
    rw [h0, Nat.zero_mul, Nat.add_eq_zero_iff, Nat.mul_eq_zero] at hsum
    exact ⟨hsum.1.resolve_left hd.ne', by rw [h0, Nat.zero_mul, Nat.zero_mod]⟩
  · rintro ⟨h0, h1⟩
    rw [h0, h1, Nat.mul_zero, Nat.add_zero] at hsum
    exact (Nat.mul_eq_zero.mp hsum.symm).resolve_right (by omega)

theorem roundsUp_nearest_iff (hd : 0 < d) (hh : 0 < h) :
    Mode.nearest.roundsUp false m d ↔ h < digit h m d ∨ digit h m d = h ∧ (Lost h m d ∨ Odd (m / d)) := by
  have hsum := digit_add_lost (h := h) (m := m) hd
  have hlt : m % d * (2 * h) % d < d := Nat.mod_lt _ hd
  have hgt : d < 2 * (m % d) ↔ d * h < m % d * (2 * h) := by
    rw [show m % d * (2 * h) = 2 * (m % d) * h by ring]
    exact (Nat.mul_lt_mul_right hh).symm
  have heq : 2 * (m % d) = d ↔ m % d * (2 * h) = d * h := by
    rw [show m % d * (2 * h) = 2 * (m % d) * h by ring]
    exact (Nat.mul_left_inj hh.ne').symm
  unfold Mode.roundsUp
  dsimp only
  rw [hgt, heq, lost_iff]
  generalize m % d * (2 * h) % d = e at *
  rw [← hsum]
  rcases lt_trichotomy (digit h m d) h with hlow | heq | hhigh
  · have hle : d * digit h m d + d ≤ d * h := by
      rw [← Nat.mul_succ]
      exact Nat.mul_le_mul_left d hlow
    constructor
    · rintro (hl | ⟨hl, -⟩) <;> omega
    · rintro (hl | ⟨hl, -⟩) <;> omega
  · rw [heq]
    constructor
    · rintro (hl | ⟨-, hodd⟩)
      · exact .inr ⟨rfl, .inl (by omega)⟩
      · exact .inr ⟨rfl, .inr hodd⟩
    · rintro (hl | ⟨-, hl | hodd⟩)
      · exact absurd hl (lt_irrefl h)
      · exact .inl (by omega)
      · by_cases h0 : e = 0
        · exact .inr ⟨by omega, hodd⟩
        · exact .inl (by omega)
  · have hle : d * h < d * digit h m d := Nat.mul_lt_mul_of_pos_left hhigh hd
    constructor
    · exact fun _ => .inl hhigh
    · exact fun _ => .inl (by omega)

/-- Rounding by the first digit is right unless digits after it matter. -/
theorem Mode.digitUp_iff_roundsUp_iff (r : Mode) (negative : Bool) (hd : 0 < d) (hh : 0 < h) :
    (r.digitUp negative h m d ↔ r.roundsUp negative m d) ↔ r.Kept negative h m d := by
  have hne : m % d ≠ 0 ↔ digit h m d ≠ 0 ∨ Lost h m d := mod_ne_zero_iff hd hh
  cases r with
  | nearest =>
    change (_ ↔ Mode.nearest.roundsUp false m d) ↔ _
    rw [roundsUp_nearest_iff hd hh]
    unfold digitUp Kept
    rw [← Nat.not_odd_iff_even]
    have hirr : ¬ h < h := lt_irrefl h
    grind
  | down =>
    unfold digitUp roundsUp Kept
    dsimp only
    rw [hne]
    grind
  | up =>
    unfold digitUp roundsUp Kept
    dsimp only
    rw [hne]
    grind
  | zero => exact iff_of_true Iff.rfl trivial

end

end Roundings
