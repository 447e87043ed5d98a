import Linux012.Kernel.Math.Values

/-! # Rounding to an integer

`real_to_int` keeps 32 bits of the fraction and rounds by these.
-/

namespace Linux012.Math

open Roundings

variable {r : Rounding} {t : TempReal} {s : ℕ} {p : TempInt × Long}

def Rounding.mode : Rounding → Mode
  | .nearest => .nearest
  | .down => .down
  | .up => .up
  | .zero => .zero

/-! ## The three words -/

/-- `b` holds the integer that is shifted out of the mantissa, and `underflow` 32 bits of the fraction. -/
structure Shifted (t : TempReal) (s : ℕ) (p : TempInt × Long) : Prop where
  sign : p.1.sign = t.exponent.msb
  magnitude : p.1.magnitude = t.mantissa / 2 ^ s
  underflow : p.2.toNat = digit (2 ^ 31) t.mantissa (2 ^ s)

/-- The words are the mantissa shifted by `s` as soon as together they are. -/
theorem Shifted.of_join (hs : p.1.sign = t.exponent.msb)
    (h : p.1.magnitude * 2 ^ 32 + p.2.toNat = t.mantissa * 2 ^ 32 / 2 ^ s) : Shifted t s p := by
  have hlt := p.2.isLt
  have hdiv : t.mantissa * 2 ^ 32 / 2 ^ s / 2 ^ 32 = t.mantissa / 2 ^ s := by
    rw [Nat.div_right_comm, Nat.mul_div_cancel _ (by positivity)]
  refine ⟨hs, by omega, ?_⟩
  unfold digit
  rw [show 2 * 2 ^ 31 = 2 ^ 32 by norm_num]
  omega

/-- In each of the cases of the shift -/
theorem realToInt_shifted (r : Rounding) (hs : shiftOf t = s) :
    ∃ p, Shifted t s p ∧ realToInt r t = (rounded r p, false) := by
  have hm : t.mantissa = t.b.toNat * 2 ^ 32 + t.a.toNat := toNat_join ..
  have h0 : (0 : Long).toNat = 0 := rfl
  unfold realToInt
  dsimp only
  rw [hs, if_neg (by omega)]
  by_cases h32 : s < 32
  · rw [if_pos (by omega), Int.toNat_natCast]
    refine ⟨_, .of_join rfl ?_, rfl⟩
    refine (shifted_eq (by omega) _).trans ?_
    rw [hm, h0, Nat.add_zero]
  · rw [if_neg (by omega)]
    have hpow : 2 ^ s = 2 ^ 32 * 2 ^ (s - 32) := by
      rw [← Nat.pow_add]
      congr 1
      omega
    by_cases h64 : s < 64
    · rw [if_pos (by omega), show ((s : ℤ) - 32).toNat = s - 32 by omega]
      refine ⟨_, .of_join rfl ?_, rfl⟩
      refine (shifted_eq (by omega) _).trans ?_
      rw [h0, Nat.zero_mul, Nat.zero_add, ← hm, hpow, ← Nat.div_div_eq_div_mul,
        Nat.mul_div_cancel _ (by positivity)]
    · rw [if_neg (by omega)]
      have hpow' : 2 ^ (s - 32) = 2 ^ 32 * 2 ^ (s - 64) := by
        rw [← Nat.pow_add]
        congr 1
        omega
      have hb : t.mantissa / 2 ^ 32 = t.b.toNat := by
        have := t.a.isLt
        omega
      by_cases h96 : s < 96
      · rw [if_pos (by omega), show ((s : ℤ) - 64).toNat = s - 64 by omega]
        refine ⟨_, .of_join rfl ?_, rfl⟩
        refine (shifted_eq (by omega) _).trans ?_
        rw [h0, Nat.zero_mul, Nat.zero_add, Nat.zero_mul, Nat.zero_add, hpow, ← Nat.div_div_eq_div_mul,
          Nat.mul_div_cancel _ (by positivity), hpow', ← Nat.div_div_eq_div_mul, hb]
      · rw [if_neg (by omega)]
        have hz : t.mantissa * 2 ^ 32 / 2 ^ s = 0 := by
          refine Nat.div_eq_of_lt ?_
          calc t.mantissa * 2 ^ 32 < 2 ^ 64 * 2 ^ 32 := Nat.mul_lt_mul_of_pos_right t.mantissa_lt (by positivity)
            _ = 2 ^ 96 := by norm_num
            _ ≤ 2 ^ s := Nat.pow_le_pow_right (by decide) (by omega)
        refine ⟨(⟨0, 0, t.exponent.msb⟩, 0), .of_join rfl ?_, ?_⟩
        · rw [hz]
          cases t.exponent.msb <;> decide
        · rw [rounded_exact r rfl]

/-! ## The step upwards -/

theorem magnitude_succ (n : TempInt) (h : n.magnitude + 1 < 2 ^ 64) : n.succ.magnitude = n.magnitude + 1 := by
  unfold TempInt.magnitude at h ⊢
  unfold TempInt.succ
  dsimp only
  rw [join_low_high, BitVec.toNat_add]
  exact Nat.mod_eq_of_lt h

theorem rounded_sign (r : Rounding) (p : TempInt × Long) : (rounded r p).sign = p.1.sign := by
  obtain ⟨n, u⟩ := p
  cases r with
  | zero => rfl
  | nearest | up | down =>
    unfold rounded
    dsimp only
    split_ifs <;> rfl

/-- The carry out of `underflow` in the mode `nearest` -/
theorem carry_iff (u a : Long) :
    2 ^ 32 ≤ u.toNat + (0x7fffffff + (a &&& 1)).toNat ↔
      2 ^ 31 < u.toNat ∨ u.toNat = 2 ^ 31 ∧ a.toNat % 2 = 1 := by
  have hlow : (a &&& 1 : Long).toNat = a.toNat % 2 := by
    rw [BitVec.toNat_and]
    exact Nat.and_one_is_mod _
  have hsum : (0x7fffffff + (a &&& 1) : Long).toNat = 0x7fffffff + a.toNat % 2 := by
    rw [BitVec.toNat_add, hlow, show (0x7fffffff : Long).toNat = 0x7fffffff from rfl]
    omega
  rw [hsum]
  omega

/-- The words are rounded by `underflow`. -/
theorem rounded_magnitude (hp : Shifted t s p) (hlt : t.mantissa / 2 ^ s + 1 < 2 ^ 64) :
    (rounded r p).magnitude =
      t.mantissa / 2 ^ s + if r.mode.digitUp t.exponent.msb (2 ^ 31) t.mantissa (2 ^ s) then 1 else 0 := by
  obtain ⟨hsign, hmag, hu⟩ := hp
  obtain ⟨n, u⟩ := p
  dsimp only at hsign hmag hu
  have hsucc : n.succ.magnitude = t.mantissa / 2 ^ s + 1 := by
    rw [magnitude_succ n (hmag ▸ hlt), hmag]
  have hif {c c' : Prop} [Decidable c] [Decidable c'] (hc : c ↔ c') :
      (if c then n.succ else n).magnitude = t.mantissa / 2 ^ s + if c' then 1 else 0 := by
    by_cases h : c
    · rw [if_pos h, if_pos (hc.mp h), hsucc]
    · rw [if_neg h, if_neg (mt hc.mpr h), hmag, Nat.add_zero]
  have hne : u ≠ 0 ↔ digit (2 ^ 31) t.mantissa (2 ^ s) ≠ 0 := by
    rw [← hu, Ne, ← BitVec.toNat_inj]
    rfl
  have hodd : n.a.toNat % 2 = 1 ↔ Odd (t.mantissa / 2 ^ s) := by
    rw [Nat.odd_iff, ← hmag, TempInt.magnitude, toNat_join]
    omega
  cases r with
  | nearest => exact hif (by rw [carry_iff, hu, hodd]; rfl)
  | up => exact hif (by rw [hne, hsign]; rfl)
  | down => exact hif (by rw [hne, hsign]; rfl)
  | zero =>
    have hno : ¬ Rounding.zero.mode.digitUp t.exponent.msb (2 ^ 31) t.mantissa (2 ^ s) := not_false
    rw [if_neg hno]
    exact hmag

/-! ## Rounding -/

theorem abs_value_eq (t : TempReal) (hs : shiftOf t = s) :
    (t.mantissa : ℚ) * t.ulp = t.mantissa / (2 ^ s : ℕ) := by
  have hexp : (t.biased : ℤ) - 16446 = -s := by
    unfold shiftOf at hs
    unfold TempReal.biased
    omega
  unfold TempReal.ulp
  rw [hexp, zpow_neg, zpow_natCast, Nat.cast_pow, Nat.cast_ofNat, div_eq_mul_inv]

/-- A normalised number below 2^63 is shifted. -/
theorem shiftOf_pos (hn : t.Normalised) (hlt : |t.value| < 2 ^ 63) : ∃ s : ℕ, shiftOf t = s ∧ 0 < s := by
  have hbiased : t.biased < 16446 := by
    by_contra hge
    have hulp : 1 ≤ t.ulp := one_le_zpow₀ one_le_two (by omega)
    have hmant : (2 : ℚ) ^ 63 ≤ t.mantissa := by exact_mod_cast hn.le
    rw [t.abs_value] at hlt
    nlinarith
  refine ⟨16446 - t.biased, ?_, by omega⟩
  unfold shiftOf
  unfold TempReal.biased at hbiased ⊢
  omega

theorem signed_inj {negative : Bool} {m n : ℤ} : signed negative m = signed negative n ↔ m = n := by
  cases negative with
  | false => exact Iff.rfl
  | true => exact neg_inj

/-- `real_to_int` gives the sign and the number rounded just if the bits that it drops do not matter. -/
theorem realToInt_rounds_iff (r : Rounding) (t : TempReal) (hn : t.Normalised) (hlt : |t.value| < 2 ^ 63) :
    ((realToInt r t).1.sign = t.exponent.msb ∧ Rounds r.mode t.value (realToInt r t).1.value) ↔
      r.mode.Kept t.exponent.msb (2 ^ 31) t.mantissa (2 ^ (shiftOf t).toNat) := by
  obtain ⟨s, hs, hpos⟩ := shiftOf_pos hn hlt
  obtain ⟨p, hp, heq⟩ := realToInt_shifted r hs
  have hd : 0 < 2 ^ s := by positivity
  have hsmall : t.mantissa / 2 ^ s + 1 < 2 ^ 64 := by
    have hle : t.mantissa / 2 ^ s ≤ t.mantissa / 2 := by
      refine Nat.div_le_div_left ?_ two_pos
      calc 2 = 2 ^ 1 := rfl
        _ ≤ 2 ^ s := Nat.pow_le_pow_right two_pos hpos
    have := t.mantissa_lt
    omega
  have hsign : (rounded r p).sign = t.exponent.msb := (rounded_sign r p).trans hp.sign
  have hvalue : t.value = signed t.exponent.msb ((t.mantissa : ℚ) / (2 ^ s : ℕ)) := by
    rw [TempReal.value, abs_value_eq t hs]
  have hright : Rounds r.mode t.value _ := hvalue ▸ rounds_div r.mode t.exponent.msb hd
  rw [heq, hs, Int.toNat_natCast, ← Mode.digitUp_iff_roundsUp_iff r.mode _ hd (by positivity)]
  dsimp only
  rw [TempInt.value, hsign, rounded_magnitude hp hsmall]
  constructor
  · rintro ⟨-, h⟩
    have hsame := Int.natCast_inj.mp (signed_inj.mp (h.unique hright))
    by_cases hdig : r.mode.digitUp t.exponent.msb (2 ^ 31) t.mantissa (2 ^ s) <;>
      by_cases hup : r.mode.roundsUp t.exponent.msb t.mantissa (2 ^ s) <;> simp_all
  · intro h
    simp only [h]
    exact ⟨trivial, hright⟩

/-- One half -/
def half : TempReal := ⟨0, 0x80000000, 0x3ffe⟩

/-- One half goes to the even number. -/
theorem realToInt_rounds_iff_half :
    (realToInt .nearest half).1.sign = false ∧ Rounds .nearest half.value (realToInt .nearest half).1.value := by
  have hlt : |half.value| < 2 ^ 63 := by
    rw [TempReal.abs_value, TempReal.ulp, show half.mantissa = 2 ^ 63 by decide,
      show half.biased = 16382 by decide]
    norm_num
  refine (realToInt_rounds_iff .nearest half (by decide) hlt).mpr fun h => h.1 ?_
  decide +kernel

/-- A little more than one half -/
def overHalf : TempReal := ⟨1, 0x80000000, 0x3ffe⟩

theorem overHalf_value : overHalf.value = (2 ^ 63 + 1) / 2 ^ 64 := by
  rw [TempReal.value, TempReal.ulp, show overHalf.mantissa = 2 ^ 63 + 1 by decide,
    show overHalf.biased = 16382 by decide, show overHalf.exponent.msb = false by decide]
  norm_num [signed]

/-- A little more than one half gives 0. -/
theorem realToInt_not_rounds : ¬ ∀ (r : Rounding) (t : TempReal), t.Normalised → |t.value| < 2 ^ 63 →
    (realToInt r t).1.sign = t.exponent.msb ∧ Rounds r.mode t.value (realToInt r t).1.value := by
  intro h
  have hlt : |overHalf.value| < 2 ^ 63 := by
    rw [overHalf_value]
    norm_num [abs_lt]
  have hrounds : IsNearestEven overHalf.value _ := (h .nearest overHalf (by decide) hlt).2
  rw [show (realToInt .nearest overHalf).1.value = 0 by decide +kernel] at hrounds
  have hnear := hrounds.near
  rw [overHalf_value] at hnear
  norm_num [abs_le] at hnear

end Linux012.Math
