import Mathlib.Tactic

/-! # Words with a carry

Addition, subtraction, rotation and multiplication of words of any width, as a processor has them for numbers
of several words.
-/

namespace Carries

variable {w : ℕ}

/-- Add with carry -/
def adc (x y : BitVec w) (carry : Bool) : BitVec w × Bool :=
  (x + y + (BitVec.ofBool carry).setWidth w, 2 ^ w ≤ x.toNat + y.toNat + carry.toNat)

/-- Subtract with borrow -/
def sbb (x y : BitVec w) (borrow : Bool) : BitVec w × Bool :=
  (x - y - (BitVec.ofBool borrow).setWidth w, x.toNat < y.toNat + borrow.toNat)

/-- Rotate to the right through the carry -/
def rcr (x : BitVec w) (carry : Bool) : BitVec w × Bool :=
  (x >>> 1 ||| (BitVec.ofBool carry).setWidth w <<< (w - 1), x.getLsbD 0)

/-- The lower and the upper word of a product -/
def mul (x y : BitVec w) : BitVec w × BitVec w :=
  let z := x.setWidth (w + w) * y.setWidth (w + w)
  (z.setWidth w, (z >>> w).setWidth w)

theorem toNat_carry (hw : 0 < w) (c : Bool) : ((BitVec.ofBool c).setWidth w).toNat = c.toNat := by
  rw [BitVec.toNat_setWidth_of_le hw]
  cases c <;> rfl

theorem adc_spec (hw : 0 < w) (x y : BitVec w) (c : Bool) :
    (adc x y c).1.toNat + 2 ^ w * (adc x y c).2.toNat = x.toNat + y.toNat + c.toNat := by
  have hx := x.isLt
  have hy := y.isLt
  have hc := c.toNat_le
  have htwo : 2 ≤ 2 ^ w := Nat.le_self_pow hw.ne' 2
  unfold adc
  dsimp only
  rw [BitVec.toNat_add, BitVec.toNat_add, toNat_carry hw, Nat.mod_add_mod]
  by_cases h : 2 ^ w ≤ x.toNat + y.toNat + c.toNat
  · rw [decide_eq_true h, Nat.mod_eq_sub_mod h, Nat.mod_eq_of_lt (by omega), Bool.toNat_true]
    omega
  · rw [decide_eq_false h, Nat.mod_eq_of_lt (by omega), Bool.toNat_false]
    omega

theorem sbb_spec (hw : 0 < w) (x y : BitVec w) (c : Bool) :
    (sbb x y c).1.toNat + y.toNat + c.toNat = x.toNat + 2 ^ w * (sbb x y c).2.toNat := by
  have hx := x.isLt
  have hy := y.isLt
  have hc := c.toNat_le
  have htwo : 2 ≤ 2 ^ w := Nat.le_self_pow hw.ne' 2
  unfold sbb
  dsimp only
  rw [BitVec.toNat_sub, BitVec.toNat_sub, toNat_carry hw, Nat.add_mod_mod]
  by_cases h : x.toNat < y.toNat + c.toNat
  · rw [decide_eq_true h, Bool.toNat_true]
    rcases Nat.lt_or_ge (2 ^ w - c.toNat + (2 ^ w - y.toNat + x.toNat)) (2 ^ w) with hlt | hge
    · omega
    · rw [Nat.mod_eq_sub_mod hge, Nat.mod_eq_of_lt (by omega)]
      omega
  · rw [decide_eq_false h, Bool.toNat_false]
    rw [Nat.mod_eq_sub_mod (by omega), Nat.mod_eq_sub_mod (by omega), Nat.mod_eq_of_lt (by omega)]
    omega

theorem rcr_spec (hw : 0 < w) (x : BitVec w) (c : Bool) :
    2 * (rcr x c).1.toNat + (rcr x c).2.toNat = x.toNat + 2 ^ w * c.toNat := by
  have hx := x.isLt
  have hpow : 2 ^ w = 2 * 2 ^ (w - 1) := by
    rw [← pow_succ']
    congr 1
    omega
  have hbit : (x.getLsbD 0).toNat = x.toNat % 2 := by
    unfold BitVec.getLsbD
    rw [Nat.testBit_zero]
    rcases Nat.mod_two_eq_zero_or_one x.toNat with h | h <;> rw [h] <;> rfl
  have hshift : (x >>> 1).toNat = x.toNat / 2 := by
    rw [BitVec.toNat_ushiftRight, Nat.shiftRight_eq_div_pow, pow_one]
  have htop : ((BitVec.ofBool c).setWidth w <<< (w - 1)).toNat = c.toNat * 2 ^ (w - 1) := by
    rw [BitVec.toNat_shiftLeft, toNat_carry hw, Nat.shiftLeft_eq]
    refine Nat.mod_eq_of_lt ?_
    cases c with
    | false =>
      rw [Bool.toNat_false, Nat.zero_mul]
      positivity
    | true =>
      rw [Bool.toNat_true, Nat.one_mul]
      exact Nat.pow_lt_pow_right one_lt_two (by omega)
  have hor : ((x >>> 1) ||| (BitVec.ofBool c).setWidth w <<< (w - 1)).toNat =
      c.toNat * 2 ^ (w - 1) + x.toNat / 2 := by
    rw [BitVec.toNat_or, hshift, htop, Nat.or_comm, Nat.mul_comm]
    exact (Nat.two_pow_add_eq_or_of_lt (by omega) c.toNat).symm
  unfold rcr
  dsimp only
  rw [hor, hbit, hpow]
  cases c with
  | false =>
    rw [Bool.toNat_false]
    omega
  | true =>
    rw [Bool.toNat_true]
    omega

theorem mul_spec (x y : BitVec w) : (mul x y).1.toNat + 2 ^ w * (mul x y).2.toNat = x.toNat * y.toNat := by
  have hlt : x.toNat * y.toNat < 2 ^ (w + w) := by
    rw [pow_add]
    exact Nat.mul_lt_mul'' x.isLt y.isLt
  have hz : (x.setWidth (w + w) * y.setWidth (w + w)).toNat = x.toNat * y.toNat := by
    rw [BitVec.toNat_mul, BitVec.toNat_setWidth_of_le (by omega), BitVec.toNat_setWidth_of_le (by omega)]
    exact Nat.mod_eq_of_lt hlt
  unfold mul
  dsimp only
  rw [BitVec.toNat_setWidth, BitVec.toNat_setWidth, BitVec.toNat_ushiftRight, hz, Nat.shiftRight_eq_div_pow]
  have hhigh : x.toNat * y.toNat / 2 ^ w % 2 ^ w = x.toNat * y.toNat / 2 ^ w := by
    refine Nat.mod_eq_of_lt ((Nat.div_lt_iff_lt_mul (by positivity)).mpr ?_)
    rwa [← pow_add]
  rw [hhigh]
  exact Nat.mod_add_div ..

end Carries
