import Linux012.Kernel.Math.Integers
import Linux012.Lib.Roundings

/-! # The numbers that temporary reals stand for -/

namespace Linux012.Math

open Roundings

variable {t : TempReal}

/-- The exponent without the sign -/
def TempReal.biased (t : TempReal) : ℕ := (t.exponent &&& 0x7fff).toNat

/-- A unit in the last place -/
def TempReal.ulp (t : TempReal) : ℚ := 2 ^ ((t.biased : ℤ) - 16446)

def TempReal.value (t : TempReal) : ℚ := signed t.exponent.msb (t.mantissa * t.ulp)

def TempReal.Normalised (t : TempReal) : Prop := t.b.msb = true

instance (t : TempReal) : Decidable t.Normalised := inferInstanceAs (Decidable (_ = _))

def TempInt.value (n : TempInt) : ℤ := signed n.sign n.magnitude

theorem TempReal.Normalised.le (h : t.Normalised) : 2 ^ 63 ≤ t.mantissa := (msb_iff t).mp h

theorem TempReal.mantissa_lt (t : TempReal) : t.mantissa < 2 ^ 64 := (join t.a t.b).isLt

theorem TempReal.ulp_pos (t : TempReal) : 0 < t.ulp := by
  unfold TempReal.ulp
  positivity

theorem abs_signed (negative : Bool) {x : ℚ} (h : 0 ≤ x) : |signed negative x| = x := by
  cases negative with
  | false => exact abs_of_nonneg h
  | true => exact (abs_neg x).trans (abs_of_nonneg h)

theorem TempReal.abs_value (t : TempReal) : |t.value| = t.mantissa * t.ulp :=
  abs_signed _ (mul_nonneg (Nat.cast_nonneg _) t.ulp_pos.le)

end Linux012.Math
