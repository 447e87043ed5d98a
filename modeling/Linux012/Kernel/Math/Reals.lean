import Linux012.Kernel.Math.Integers

/-! # Reals through the emulator

A short or a long real becomes a temporary real and comes back. Its mantissa fits, so there is nothing to
round, but `temp_to_long` looks for bits to round away in the wrong word.
-/

namespace Linux012.Math

variable {r : Rounding} {x y : Long} {i : ℕ}

/-- The modes that look at the upper word do so for this sign. -/
def Rounding.rounds (r : Rounding) (sign : Bool) : Bool := r = .down ∧ sign ∨ r = .up ∧ ¬ sign

/-- The bits of the mantissa that `temp_to_long` mistakes for bits that do not fit are clear, or nothing is
rounded. -/
def Clean (r : Rounding) (x : LongReal) : Prop := r.rounds x.b.msb → x.a >>> 21 &&& 0xff = 0

/-! ## Signs and exponents -/

section

variable {e : BitVec 16}

theorem and_sign (w : BitVec 16) : w &&& 0x8000 ≠ 0 ↔ w.msb = true := by
  rw [BitVec.msb_eq_getLsbD_last]
  constructor
  · intro hne
    by_contra hlast
    apply hne
    ext i hi
    interval_cases i <;> simp_all
  · intro hlast hzero
    have hbit : (w &&& 0x8000).getLsbD 15 = true := by
      rw [BitVec.getLsbD_and, show w.getLsbD 15 = true from hlast]
      rfl
    rw [hzero] at hbit
    exact absurd hbit (by decide)

/-- The sign of a temporary real stands above its exponent. -/
theorem signed_msb (sign : Bool) (he : e.toNat < 2 ^ 15) : (if sign then e ||| 0x8000 else e).msb = sign := by
  have hmsb : e.msb = false := by
    rw [BitVec.msb_eq_decide]
    exact decide_eq_false (by omega)
  cases sign with
  | false => exact hmsb
  | true =>
    rw [if_pos rfl, BitVec.msb_or, hmsb]
    rfl

theorem signed_exponent (sign : Bool) (he : e.toNat < 2 ^ 15) :
    (if sign then e ||| 0x8000 else e) &&& 0x7fff = e := by
  have hlast : e[15] = false := by
    have hmsb := signed_msb false he
    rwa [BitVec.msb_eq_getLsbD_last] at hmsb
  cases sign with
  | false =>
    ext i hi
    interval_cases i <;> simp [hlast]
  | true =>
    ext i hi
    interval_cases i <;> simp [hlast]

theorem signExtend_and (w : BitVec 16) : (0x7fff &&& w.signExtend 32 : Long) = (w &&& 0x7fff).setWidth 32 := by
  ext i hi
  interval_cases i <;> simp [BitVec.getElem_signExtend]

/-- The field of a short real looks at 8 bits, and the exponent has these. -/
theorem short_exponent_field (w : BitVec 16) (d : Long) :
    ((w.signExtend 32 + d) <<< 23 &&& 0x7f800000 : Long) =
      (((w &&& 0x7fff).setWidth 8 + d.setWidth 8 : BitVec 8).setWidth 32) <<< 23 := by
  have hlow : (w.signExtend 32 : Long).setWidth 8 = (w &&& 0x7fff).setWidth 8 := by
    ext i hi
    interval_cases i <;> simp [BitVec.getElem_signExtend]
  have hfield : ∀ x : Long, x <<< 23 &&& (0x7f800000 : Long) = (x.setWidth 8).setWidth 32 <<< 23 := by
    intro x
    ext i hi
    interval_cases i <;> simp
  rw [hfield, BitVec.setWidth_add _ _ (by decide), hlow]

end

/-! ## Short reals -/

/-- The exponent of a temporary real with exponent field `f`. -/
def shortExponent (sign : Bool) (f : BitVec 8) : BitVec 16 :=
  let exponent := (f.setWidth 32 - 127 + 16383 : Long).setWidth 16
  if sign then exponent ||| 0x8000 else exponent

theorem shortExponent_spec (sign : Bool) (f : BitVec 8) :
    shortExponent sign f &&& 0x7fff ≠ 0 ∧ (shortExponent sign f).msb = sign ∧
      (((shortExponent sign f).signExtend 32 - 16383 + 127) <<< 23 &&& 0x7f800000 : Long) = f.setWidth 32 <<< 23 := by
  have he : (f.setWidth 32 - 127 + 16383 : Long).setWidth 16 = f.setWidth 16 + 16256 := by bv_omega
  have hlt : (f.setWidth 16 + 16256 : BitVec 16).toNat < 2 ^ 15 := by bv_omega
  unfold shortExponent
  dsimp only
  rw [he]
  refine ⟨?_, signed_msb sign hlt, ?_⟩
  · rw [signed_exponent sign hlt]
    bv_omega
  · have hbias : ∀ x : Long, x - 16383 + 127 = x + -16256 := fun x => by bv_omega
    have hfield : ((f.setWidth 16 + 16256 : BitVec 16).setWidth 8 + (-16256 : Long).setWidth 8 : BitVec 8) = f := by
      bv_omega
    rw [hbias, short_exponent_field, signed_exponent sign hlt, hfield]

theorem short_field (x : Long) : x.sshiftRight 23 &&& (0xff : Long) = ((x >>> 23).setWidth 8).setWidth 32 := by
  ext i hi
  interval_cases i <;> simp [BitVec.getElem_sshiftRight]

/-- A word is its sign bit and the rest. -/
theorem sign_or (x : Long) : x = (if x.msb then 0x80000000 else 0) ||| (x &&& 0x7fffffff) := by
  rw [BitVec.msb_eq_getLsbD_last]
  split_ifs with h
  · ext i hi
    interval_cases i <;> simp_all
  · ext i hi
    interval_cases i <;> simp_all

theorem eq_of_magnitude_zero (h : x &&& 0x7fffffff = 0) : x = if x.msb then 0x80000000 else 0 := by
  conv_lhs => rw [sign_or x, h]
  exact BitVec.or_zero

/-- A word is put together from its fields. -/
theorem eq_of_fields {f m : Long} (h : f ||| m = x &&& 0x7fffffff) :
    (if x.msb then f ||| 0x80000000 else f) ||| m = x := by
  conv_rhs => rw [sign_or x, ← h]
  by_cases hmsb : x.msb
  · rw [if_pos hmsb, if_pos hmsb, BitVec.or_comm f, BitVec.or_assoc]
  · rw [if_neg hmsb, if_neg hmsb]
    exact BitVec.zero_or.symm

theorem short_mantissa (x : Long) :
    (x <<< 8 ||| 0x80000000).sshiftRight 8 &&& 0x007fffff = x &&& 0x007fffff := by
  ext i hi
  interval_cases i <;> simp [BitVec.getElem_sshiftRight]

theorem short_low (x : Long) : (x <<< 8 ||| 0x80000000) &&& 0xff = 0 := by
  ext i hi
  interval_cases i <;> simp

theorem short_parts (x : Long) :
    (((x >>> 23).setWidth 8).setWidth 32 <<< 23 : Long) ||| (x &&& 0x007fffff) = x &&& 0x7fffffff := by
  ext i hi
  interval_cases i <;> simp

theorem short_zero (r : Rounding) (sign : Bool) :
    tempToShort r ⟨0, 0, if (if sign then (0x80000000 : Long) else 0) ≠ 0 then 0x8000 else 0⟩ =
      if sign then 0x80000000 else 0 := by
  cases r <;> cases sign <;> decide

theorem shortToTemp_of_ne_zero (h : ¬ x &&& 0x7fffffff = 0) : shortToTemp x =
    ⟨0, x <<< 8 ||| 0x80000000, shortExponent x.msb ((x >>> 23).setWidth 8)⟩ := by
  unfold shortToTemp
  rw [if_neg h, short_field]
  rfl

/-- Nothing is rounded when the bits below the mantissa are clear. -/
theorem tempToShort_of_low_zero {t : TempReal} (r : Rounding) (hne : t.exponent &&& 0x7fff ≠ 0)
    (hlow : t.b &&& 0xff = 0) : tempToShort r t =
      ((if t.exponent.msb then
          ((t.exponent.signExtend 32 - 16383 + 127) <<< 23 &&& 0x7f800000) ||| 0x80000000
        else (t.exponent.signExtend 32 - 16383 + 127) <<< 23 &&& 0x7f800000) |||
      (t.b.sshiftRight 8 &&& 0x007fffff)) := by
  unfold tempToShort
  rw [if_neg hne]
  dsimp only
  rw [hlow]
  cases r with
  | nearest => exact if_neg (by decide)
  | down => exact if_neg fun h => h.2 rfl
  | up => exact if_neg fun h => h.2 rfl
  | zero => rfl

theorem tempToShort_shortToTemp (r : Rounding) (x : Long) : tempToShort r (shortToTemp x) = x := by
  by_cases h0 : x &&& 0x7fffffff = 0
  · unfold shortToTemp
    rw [if_pos h0]
    have hzero := short_zero r x.msb
    rwa [← eq_of_magnitude_zero h0] at hzero
  · obtain ⟨hne, hsign, hexp⟩ := shortExponent_spec x.msb ((x >>> 23).setWidth 8)
    rw [shortToTemp_of_ne_zero h0, tempToShort_of_low_zero r hne (short_low x)]
    dsimp only
    rw [hsign, hexp, short_mantissa]
    exact eq_of_fields (short_parts x)

/-! ## Long reals -/

/-- The exponent of a temporary real with exponent field `f`. -/
def longExponent (sign : Bool) (f : BitVec 11) : BitVec 16 :=
  let exponent := (f.setWidth 32 - 1023 + 16383 : Long).setWidth 16
  if sign then exponent ||| 0x8000 else exponent

theorem longExponent_spec (sign : Bool) (f : BitVec 11) :
    longExponent sign f &&& 0x7fff ≠ 0 ∧ (longExponent sign f).msb = sign ∧
      (longExponent sign f &&& 0x8000 ≠ 0 ↔ sign) ∧
      (((0x7fff &&& (longExponent sign f).signExtend 32) - 16383 + 1023) <<< 20 &&& 0x7ff00000 : Long) =
        f.setWidth 32 <<< 20 := by
  have he : (f.setWidth 32 - 1023 + 16383 : Long).setWidth 16 = f.setWidth 16 + 15360 := by bv_omega
  have hlt : (f.setWidth 16 + 15360 : BitVec 16).toNat < 2 ^ 15 := by bv_omega
  have hbias : ((f.setWidth 16 + 15360 : BitVec 16).setWidth 32 - 16383 + 1023 : Long) = f.setWidth 32 := by
    bv_omega
  unfold longExponent
  dsimp only
  rw [he]
  refine ⟨?_, signed_msb sign hlt, ?_, ?_⟩
  · rw [signed_exponent sign hlt]
    bv_omega
  · rw [and_sign, signed_msb sign hlt]
  · rw [signExtend_and, signed_exponent sign hlt, hbias]
    ext i hi
    interval_cases i <;> simp

theorem long_field (y : Long) : y.sshiftRight 20 &&& (0x7ff : Long) = ((y >>> 20).setWidth 11).setWidth 32 := by
  ext i hi
  interval_cases i <;> simp [BitVec.getElem_sshiftRight]

/-- The upper word of the mantissa. -/
def upper (x y : Long) : Long := 0x80000000 ||| y <<< 11 ||| x >>> 21

theorem long_mantissa_high (x y : Long) : (upper x y).sshiftRight 11 &&& 0x000fffff = y &&& 0x000fffff := by
  unfold upper
  ext i hi
  interval_cases i <;> simp [BitVec.getElem_sshiftRight]

theorem long_mantissa_low (x y : Long) : upper x y <<< 21 ||| ((x <<< 11).sshiftRight 11 &&& 0x001fffff) = x := by
  unfold upper
  ext i hi
  interval_cases i <;> simp [BitVec.getElem_sshiftRight]

theorem long_low (x : Long) : x <<< 11 &&& 0x7ff = 0 := by
  ext i hi
  interval_cases i <;> simp

/-- Where `temp_to_long` looks there are bits of the lower word. -/
theorem upper_low (x y : Long) : upper x y &&& 0xff = x >>> 21 &&& 0xff := by
  unfold upper
  ext i hi
  interval_cases i <;> simp

theorem long_parts (y : Long) :
    (((y >>> 20).setWidth 11).setWidth 32 <<< 20 : Long) ||| (y &&& 0x000fffff) = y &&& 0x7fffffff := by
  ext i hi
  interval_cases i <;> simp

theorem long_zero (r : Rounding) (sign : Bool) :
    tempToLong r ⟨0, 0, if (if sign then (0x80000000 : Long) else 0) ≠ 0 then 0x8000 else 0⟩ =
      ⟨0, if sign then 0x80000000 else 0⟩ := by
  cases r <;> cases sign <;> decide

variable {z : LongReal}

theorem longToTemp_of_ne_zero (h : ¬ (z.a = 0 ∧ z.b &&& 0x7fffffff = 0)) : longToTemp z =
    ⟨z.a <<< 11, upper z.a z.b, longExponent z.b.msb ((z.b >>> 20).setWidth 11)⟩ := by
  unfold longToTemp
  rw [if_neg h, long_field]
  rfl

/-- What `temp_to_long` packs when the bits below the mantissa are clear. -/
theorem tempToLong_of_low_zero {t : TempReal} {sign : Bool} (r : Rounding) (hne : t.exponent &&& 0x7fff ≠ 0)
    (hlow : t.a &&& 0x7ff = 0) (hsign : t.exponent &&& 0x8000 ≠ 0 ↔ sign)
    (hz : z = ⟨t.b <<< 21 ||| (t.a.sshiftRight 11 &&& 0x001fffff),
      (if t.exponent.msb then
          (((0x7fff &&& t.exponent.signExtend 32) - 16383 + 1023) <<< 20 &&& 0x7ff00000) ||| 0x80000000
        else ((0x7fff &&& t.exponent.signExtend 32) - 16383 + 1023) <<< 20 &&& 0x7ff00000) |||
      (t.b.sshiftRight 11 &&& 0x000fffff)⟩) :
    tempToLong r t = if r.rounds sign ∧ t.b &&& 0xff ≠ 0 then z.succ else z := by
  unfold tempToLong
  rw [if_neg hne, hz]
  simp only [hlow, hsign]
  cases r with
  | nearest => exact (if_neg (by decide)).trans (if_neg fun h => absurd h.1 (by cases sign <;> decide)).symm
  | down => cases sign <;> simp [Rounding.rounds]
  | up => cases sign <;> simp [Rounding.rounds]
  | zero => exact (if_neg fun h => absurd h.1 (by cases sign <;> decide)).symm

theorem tempToLong_longToTemp (r : Rounding) (z : LongReal) :
    tempToLong r (longToTemp z) = if r.rounds z.b.msb ∧ z.a >>> 21 &&& 0xff ≠ 0 then z.succ else z := by
  by_cases h0 : z.a = 0 ∧ z.b &&& 0x7fffffff = 0
  · unfold longToTemp
    rw [if_pos h0]
    obtain ⟨a, b⟩ := z
    obtain ⟨ha, hb⟩ : a = 0 ∧ b &&& 0x7fffffff = 0 := h0
    have hzero := long_zero r b.msb
    rw [← eq_of_magnitude_zero hb] at hzero
    subst ha
    have hclear : (0 : Long) >>> 21 &&& 0xff = 0 := by decide
    exact hzero.trans (if_neg fun h => h.2 hclear).symm
  · obtain ⟨hne, hmsb, hsign, hexp⟩ := longExponent_spec z.b.msb ((z.b >>> 20).setWidth 11)
    rw [longToTemp_of_ne_zero h0, ← upper_low z.a z.b]
    refine tempToLong_of_low_zero r hne (long_low z.a) hsign ?_
    dsimp only
    rw [hmsb, hexp, long_mantissa_low, long_mantissa_high, eq_of_fields (long_parts z.b)]

theorem succ_ne (z : LongReal) : z.succ ≠ z := by
  intro h
  have hjoin : join z.succ.a z.succ.b = join z.a z.b + 1 := join_low_high _
  rw [h] at hjoin
  bv_omega

/-- A real comes back exactly as it was loaded unless a long one is rounded by bits that it keeps. -/
theorem reals_round_trip_iff (r : Rounding) (x : Long) (z : LongReal) :
    (tempToShort r (shortToTemp x) = x ∧ tempToLong r (longToTemp z) = z) ↔ Clean r z := by
  rw [and_iff_right (tempToShort_shortToTemp r x), tempToLong_longToTemp]
  constructor
  · intro h hr
    by_contra hne
    rw [if_pos ⟨hr, hne⟩] at h
    exact succ_ne z h
  · intro h
    exact if_neg fun hbad => hbad.2 (h hbad.1)

/-- One and a bit, with rounding upwards. -/
theorem not_real_round_trip : ¬ ((∀ r x, tempToShort r (shortToTemp x) = x) ∧ ∀ r z, tempToLong r (longToTemp z) = z) := by
  intro h
  exact absurd (h.2 .up ⟨0x00200000, 0x3ff00000⟩) (by decide)

end Linux012.Math
