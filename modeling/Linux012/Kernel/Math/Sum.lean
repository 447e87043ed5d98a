import Linux012.Kernel.Math.Product

/-! # Sums

The mantissas lose two bits for the sign and a carry, and the smaller one those that are shifted out.
-/

namespace Linux012.Math

open Roundings

variable {s t p a b : TempReal} {k d : ℕ} {x y : BitVec 64} {v : ℤ}

/-! ## Signed mantissas -/

def TempReal.words (t : TempReal) : BitVec 64 := join t.a t.b

theorem TempReal.mantissa_eq (t : TempReal) : t.mantissa = t.words.toNat := rfl

theorem words_negint (t : TempReal) : t.negint.words = -t.words := by
  unfold TempReal.words TempReal.negint
  dsimp only
  rw [join_low_high, BitVec.neg_eq_not_add, join, join, BitVec.not_append]
  rfl

theorem words_plus (s t : TempReal) : (s.plus t).words = s.words + t.words := join_low_high _

theorem mantissa_shr (t : TempReal) (k : ℕ) : (t.shr k).mantissa = t.mantissa / 2 ^ k := by
  have hm : t.mantissa = t.b.toNat * 2 ^ 32 + t.a.toNat := toNat_join ..
  unfold TempReal.shr TempReal.mantissa
  dsimp only
  rw [toNat_join, toNat_shrd, BitVec.toNat_ushiftRight, Nat.shiftRight_eq_div_pow,
    ← div_pow_words t.b.toNat t.a.toNat k t.a.isLt, ← hm]
  rfl

theorem mantissa_align (t : TempReal) (d : ℕ) : (t.align d).mantissa = t.mantissa / 2 ^ d := by
  unfold TempReal.align
  by_cases h : 32 ≤ d
  · have hm : t.mantissa = t.b.toNat * 2 ^ 32 + t.a.toNat := toNat_join ..
    have hshift : ({ t with a := t.b, b := 0 } : TempReal).mantissa = t.mantissa / 2 ^ 32 := by
      have hs : ({ t with a := t.b, b := 0 } : TempReal).mantissa = (0 : Long).toNat * 2 ^ 32 + t.b.toNat :=
        toNat_join ..
      have h0 : (0 : Long).toNat = 0 := rfl
      have ha := t.a.isLt
      omega
    rw [if_pos h, mantissa_shr, hshift, Nat.div_div_eq_div_mul, ← pow_add]
    congr 2
    omega
  · rw [if_neg h, mantissa_shr]

@[simp] theorem align_exponent (t : TempReal) (d : ℕ) : (t.align d).exponent = t.exponent := by
  unfold TempReal.align
  split_ifs <;> rfl

theorem toInt_of_lt (h : x.toNat < 2 ^ 63) : x.toInt = x.toNat := by
  rw [BitVec.toInt_eq_toNat_cond, if_pos (by omega)]

theorem toInt_neg_of_lt (h : x.toNat < 2 ^ 63) : (-x).toInt = -x.toNat := by
  rw [BitVec.toInt_eq_toNat_cond, BitVec.toNat_neg]
  by_cases h0 : x.toNat = 0
  · rw [h0]
    decide
  · rw [Nat.mod_eq_of_lt (by omega), if_neg (by omega)]
    push_cast [Nat.sub_eq_iff_eq_add]
    omega

/-- The sign goes into the mantissa, which loses two bits. -/
theorem signify_words (t : TempReal) :
    (signify t).words.toInt = signed (t.exponent + 2).msb ((t.mantissa / 4 : ℕ) : ℤ) := by
  have hshr : ({ t with exponent := t.exponent + 2 }.shr 2).words.toNat = t.mantissa / 4 := mantissa_shr _ 2
  have hlt : ({ t with exponent := t.exponent + 2 }.shr 2).words.toNat < 2 ^ 63 := by
    have := t.mantissa_lt
    omega
  change (if (t.exponent + 2).msb then ({ t with exponent := t.exponent + 2 }.shr 2).negint
    else { t with exponent := t.exponent + 2 }.shr 2).words.toInt = _
  cases (t.exponent + 2).msb with
  | false => exact (toInt_of_lt hlt).trans (congrArg _ hshr)
  | true =>
    change (TempReal.negint _).words.toInt = _
    rw [words_negint, toInt_neg_of_lt hlt, hshr]
    rfl

@[simp] theorem signify_exponent (t : TempReal) : (signify t).exponent = (t.exponent + 2) &&& 0x7fff := by
  unfold signify
  dsimp only
  split_ifs <;> rfl

/-! ## Normalising -/

theorem normalize_msb (h : normalize k t = some p) : p.Normalised := by
  induction k generalizing t with
  | zero => cases h
  | succ k ih =>
    unfold normalize at h
    split_ifs at h with hmsb
    · cases h
      exact hmsb
    · exact ih h

theorem words_eq_zero_iff (t : TempReal) : t.a = 0 ∧ t.b = 0 ↔ t.words = 0 := by
  constructor
  · rintro ⟨ha, hb⟩
    unfold TempReal.words
    rw [ha, hb]
    rfl
  · intro h
    have ha : t.a = low t.words := (low_join _ _).symm
    have hb : t.b = high t.words := (high_join _ _).symm
    rw [ha, hb, h]
    exact ⟨rfl, rfl⟩

theorem unsignify_zero (h : t.words = 0) : unsignify t = some { t with exponent := 0 } :=
  if_pos ((words_eq_zero_iff t).mpr h)

/-- The number that is not 0 is shifted up, its exponent counted down. -/
theorem unsignify_spec (h : t.words ≠ 0) :
    ∃ k < 64, ∃ p, unsignify t = some p ∧ p.Normalised ∧ p.mantissa = t.words.toInt.natAbs * 2 ^ k ∧
      p.exponent = (if t.words.toInt < 0 then t.exponent &&& 0x7fff ||| 0x8000 else t.exponent &&& 0x7fff) -
        BitVec.ofNat 16 k := by
  have hlt := t.words.isLt
  have hmsb : t.b.msb ↔ t.words.toInt < 0 := by
    rw [msb_iff, TempReal.mantissa_eq, BitVec.toInt_eq_toNat_cond]
    split_ifs <;> omega
  have hne : t.words.toNat ≠ 0 := fun h0 => h (BitVec.eq_of_toNat_eq h0)
  -- the number whose sign has been taken out of the mantissa
  let u : TempReal := if t.b.msb then { t.negint with exponent := t.exponent &&& 0x7fff ||| 0x8000 }
    else { t with exponent := t.exponent &&& 0x7fff }
  have hmag : u.mantissa = t.words.toInt.natAbs := by
    by_cases hb : t.b.msb
    · have hu : u = { t.negint with exponent := t.exponent &&& 0x7fff ||| 0x8000 } := if_pos hb
      have hm : u.mantissa = (-t.words).toNat := by
        rw [hu, ← words_negint]
        rfl
      have hneg := hmsb.mp hb
      rw [BitVec.toInt_eq_toNat_cond] at hneg ⊢
      rw [hm, BitVec.toNat_neg, Nat.mod_eq_of_lt (by omega)]
      split_ifs at hneg ⊢ <;> omega
    · have hu : u = { t with exponent := t.exponent &&& 0x7fff } := if_neg hb
      have hm : u.mantissa = t.words.toNat := by
        rw [hu]
        rfl
      have hpos := mt hmsb.mpr hb
      rw [BitVec.toInt_eq_toNat_cond] at hpos ⊢
      rw [hm]
      split_ifs at hpos ⊢ <;> omega
  have hexp : u.exponent =
      if t.words.toInt < 0 then t.exponent &&& 0x7fff ||| 0x8000 else t.exponent &&& 0x7fff := by
    by_cases hb : t.b.msb
    · rw [if_pos (hmsb.mp hb)]
      exact congrArg TempReal.exponent (if_pos hb)
    · rw [if_neg (mt hmsb.mpr hb)]
      exact congrArg TempReal.exponent (if_neg hb)
  have hne' : u.mantissa ≠ 0 := by
    rw [hmag, Int.natAbs_ne_zero]
    intro h0
    exact h (BitVec.eq_of_toInt_eq h0)
  obtain ⟨k, hk, p, hp, hm, he⟩ := normalize_spec (k := 63) hne' (by omega)
  refine ⟨k, by omega, p, ?_, normalize_msb hp, by rw [hm, hmag], by rw [he, hexp]⟩
  exact (if_neg (mt (words_eq_zero_iff t).mp h)).trans hp

/-- Every sum has a result. -/
theorem unsignify_isSome (t : TempReal) : ∃ p, unsignify t = some p := by
  by_cases h : t.words = 0
  · exact ⟨_, unsignify_zero h⟩
  · obtain ⟨-, -, p, hp, -⟩ := unsignify_spec h
    exact ⟨p, hp⟩

theorem fadd_isSome (s t : TempReal) : ∃ p, fadd s t = some p := by
  unfold fadd
  dsimp only
  split_ifs
  · exact ⟨_, rfl⟩
  · exact unsignify_isSome _

theorem toNat_or_sign {e : BitVec 16} (he : e.toNat < 2 ^ 15) : (e ||| 0x8000).toNat = e.toNat + 2 ^ 15 := by
  have hor := Nat.two_pow_add_eq_or_of_lt he 1
  rw [BitVec.toNat_or, Nat.or_comm, Nat.add_comm]
  exact hor.symm

/-- With room for the exponent the value stays as it is. -/
theorem unsignify_value (h : t.words ≠ 0) (he : 64 ≤ t.biased) :
    ∃ p, unsignify t = some p ∧ p.Normalised ∧ p.value = t.words.toInt * t.ulp := by
  obtain ⟨k, hk, p, hp, hn, hm, hexp⟩ := unsignify_spec h
  have hlt : t.biased < 2 ^ 15 := by
    unfold TempReal.biased
    rw [BitVec.toNat_and]
    exact lt_of_le_of_lt Nat.and_le_right (by decide)
  have hpacked : p.exponent =
      BitVec.ofNat 16 (t.biased - k) ||| if decide (t.words.toInt < 0) then 0x8000 else 0 := by
    have hval : (BitVec.ofNat 16 (t.biased - k)).toNat = t.biased - k := by
      rw [BitVec.toNat_ofNat]
      exact Nat.mod_eq_of_lt (by omega)
    have hkval : (BitVec.ofNat 16 k).toNat = k := by
      rw [BitVec.toNat_ofNat]
      exact Nat.mod_eq_of_lt (by omega)
    apply BitVec.eq_of_toNat_eq
    rw [hexp, BitVec.toNat_sub, hkval]
    by_cases hneg : t.words.toInt < 0
    · rw [if_pos hneg, if_pos (decide_eq_true hneg), toNat_or_sign hlt, toNat_or_sign (by omega), hval]
      unfold TempReal.biased at *
      omega
    · have hor : BitVec.ofNat 16 (t.biased - k) ||| 0 = BitVec.ofNat 16 (t.biased - k) := BitVec.or_zero
      rw [if_neg hneg, if_neg (by simpa using hneg), hor, hval]
      unfold TempReal.biased at *
      omega
  obtain ⟨hsign, hbiased⟩ := packed_spec (decide (t.words.toInt < 0)) (i := t.biased - k) (by omega)
  rw [← hpacked] at hsign hbiased
  refine ⟨p, hp, hn, ?_⟩
  have hulp : p.ulp = 2 ^ ((t.biased : ℤ) - k - 16446) := by
    rw [TempReal.ulp, TempReal.biased, hbiased, Nat.cast_sub (by omega)]
  have hpow : (2 : ℚ) ^ k * 2 ^ ((t.biased : ℤ) - k - 16446) = t.ulp := by
    rw [TempReal.ulp, ← zpow_natCast, ← zpow_add₀ two_ne_zero]
    congr 1
    omega
  rw [TempReal.value, hsign, hm, hulp]
  push_cast
  rw [mul_assoc, hpow]
  rw [Nat.cast_natAbs]
  by_cases hneg : t.words.toInt < 0
  · rw [decide_eq_true hneg, abs_of_neg hneg, signed, if_pos rfl]
    push_cast
    ring
  · rw [decide_eq_false hneg, abs_of_nonneg (not_lt.mp hneg), signed, if_neg Bool.false_ne_true]

/-! ## The sum -/

variable {s t : TempReal}

/-- The two numbers that `fadd` adds, as signed words -/
def addends (s t : TempReal) : BitVec 64 × BitVec 64 :=
  ((signify (order s t).1).words, (signify ((order s t).2.1.align (order s t).2.2)).words)

theorem abs_signed_lt {negative : Bool} {n : ℕ} (h : n < 2 ^ 62) : |signed negative (n : ℤ)| < 2 ^ 62 := by
  cases negative with
  | false =>
    change |(n : ℤ)| < _
    rw [abs_of_nonneg (Int.natCast_nonneg n)]
    exact_mod_cast h
  | true =>
    change |-(n : ℤ)| < _
    rw [abs_neg, abs_of_nonneg (Int.natCast_nonneg n)]
    exact_mod_cast h

theorem signify_sum (s t : TempReal) :
    ((signify s).words + (signify t).words).toInt = (signify s).words.toInt + (signify t).words.toInt := by
  have hsmall : ∀ u : TempReal, |(signify u).words.toInt| < 2 ^ 62 := by
    intro u
    rw [signify_words]
    apply abs_signed_lt
    have := u.mantissa_lt
    omega
  have hs := abs_lt.mp (hsmall s)
  have ht := abs_lt.mp (hsmall t)
  rw [BitVec.toInt_add]
  exact Int.bmod_eq_of_le (by omega) (by omega)

theorem order_spec (s t : TempReal) :
    ((order s t).1 = s ∧ (order s t).2.1 = t ∨ (order s t).1 = t ∧ (order s t).2.1 = s) ∧
      (order s t).1.biased = (order s t).2.1.biased + (order s t).2.2 := by
  unfold order TempReal.biased
  dsimp only
  split_ifs
  · exact ⟨.inl ⟨rfl, rfl⟩, by dsimp only; omega⟩
  · exact ⟨.inr ⟨rfl, rfl⟩, by dsimp only; omega⟩

theorem toNat_exponent_field (w : BitVec 16) : (w &&& 0x7fff).toNat = w.toNat % 2 ^ 15 := by
  rw [BitVec.toNat_and]
  exact Nat.and_two_pow_sub_one_eq_mod w.toNat 15

theorem exponent_add_two {e : BitVec 16} (h : (e &&& 0x7fff).toNat ≤ 0x7ffd) :
    (e + 2).msb = e.msb ∧ ((e + 2) &&& 0x7fff).toNat = (e &&& 0x7fff).toNat + 2 := by
  have hadd : (e + 2).toNat = (e.toNat + 2) % 2 ^ 16 := BitVec.toNat_add ..
  have hlt := e.isLt
  rw [toNat_exponent_field] at h
  rw [toNat_exponent_field, toNat_exponent_field, BitVec.msb_eq_decide, BitVec.msb_eq_decide, decide_eq_decide, hadd]
  omega

/-! ## Equal exponents -/

theorem fadd_of_biased_eq (h : s.biased = t.biased) :
    fadd s t = unsignify ((signify t).plus (signify (s.align 0))) := by
  have horder : order s t = (t, s, 0) := by
    unfold TempReal.biased at h
    unfold order
    dsimp only
    rw [h, if_neg (lt_irrefl _), Nat.sub_self]
  unfold fadd
  rw [horder]
  exact if_neg (by decide)

theorem words_of_biased_eq (s t : TempReal) :
    ((signify t).plus (signify (s.align 0))).words.toInt =
      signed (t.exponent + 2).msb ((t.mantissa / 4 : ℕ) : ℤ) +
        signed (s.exponent + 2).msb ((s.mantissa / 4 : ℕ) : ℤ) := by
  rw [words_plus, signify_sum, signify_words, signify_words, align_exponent, mantissa_align, pow_zero, Nat.div_one]

theorem unsignify_of_toInt_zero (h : t.words.toInt = 0) : unsignify t = some ⟨0, 0, 0⟩ := by
  have hzero : t.words = 0 := BitVec.eq_of_toInt_eq h
  obtain ⟨ha, hb⟩ := (words_eq_zero_iff t).mpr hzero
  rw [unsignify_zero hzero, ha, hb]

theorem add_two_msb {e f : BitVec 16} (hlow : e &&& 0x7fff = f &&& 0x7fff) (hmsb : e.msb = !f.msb) :
    (e + 2).msb = !(f + 2).msb := by
  have hadd : ∀ w : BitVec 16, (w + 2).toNat = (w.toNat + 2) % 2 ^ 16 := fun w => BitVec.toNat_add ..
  have hlow' : e.toNat % 2 ^ 15 = f.toNat % 2 ^ 15 := by
    rw [← toNat_exponent_field, ← toNat_exponent_field, hlow]
  have he := e.isLt
  have hf := f.isLt
  rw [BitVec.msb_eq_decide, BitVec.msb_eq_decide, ← decide_not, decide_eq_decide] at hmsb ⊢
  rw [hadd, hadd]
  omega

theorem ext_words (hwords : s.words = t.words) (hexp : s.exponent = t.exponent) : s = t := by
  have ha : s.a = t.a := by
    rw [← low_join s.a s.b, ← low_join t.a t.b]
    exact congrArg low hwords
  have hb : s.b = t.b := by
    rw [← high_join s.a s.b, ← high_join t.a t.b]
    exact congrArg high hwords
  cases s
  cases t
  cases ha
  cases hb
  cases hexp
  rfl

theorem align_zero (t : TempReal) : t.align 0 = t := by
  apply ext_words _ (align_exponent t 0)
  apply BitVec.eq_of_toNat_eq
  exact (mantissa_align t 0).trans (Nat.div_one _)

theorem add_two_low {e f : BitVec 16} (hlow : e &&& 0x7fff = f &&& 0x7fff) :
    (e + 2) &&& 0x7fff = (f + 2) &&& 0x7fff := by
  have hadd : ∀ w : BitVec 16, (w + 2).toNat = (w.toNat + 2) % 2 ^ 16 := fun w => BitVec.toNat_add ..
  have hlow' : e.toNat % 2 ^ 15 = f.toNat % 2 ^ 15 := by
    rw [← toNat_exponent_field, ← toNat_exponent_field, hlow]
  apply BitVec.eq_of_toNat_eq
  rw [toNat_exponent_field, toNat_exponent_field, hadd, hadd]
  omega

theorem order_comm (h : s.biased ≠ t.biased) : order s t = order t s := by
  change (if s.biased > t.biased then (s, t, s.biased - t.biased) else (t, s, t.biased - s.biased)) =
    if t.biased > s.biased then (t, s, t.biased - s.biased) else (s, t, s.biased - t.biased)
  by_cases hgt : s.biased > t.biased
  · rw [if_pos hgt, if_neg (by omega)]
  · rw [if_neg hgt, if_pos (by omega)]

theorem fadd_comm (s t : TempReal) : fadd s t = fadd t s := by
  by_cases h : s.biased = t.biased
  · rw [fadd_of_biased_eq h, fadd_of_biased_eq h.symm, align_zero, align_zero]
    refine congrArg unsignify (ext_words ?_ ?_)
    · rw [words_plus, words_plus, BitVec.add_comm]
    · change (signify t).exponent = (signify s).exponent
      rw [signify_exponent, signify_exponent]
      exact (add_two_low (BitVec.eq_of_toNat_eq h)).symm
  · unfold fadd
    rw [order_comm h]

/-- A number and the one with the other sign -/
theorem fadd_opposite (hlow : s.exponent &&& 0x7fff = t.exponent &&& 0x7fff)
    (hmsb : s.exponent.msb = !t.exponent.msb) (hm : s.mantissa = t.mantissa) : fadd s t = some ⟨0, 0, 0⟩ := by
  rw [fadd_of_biased_eq (congrArg BitVec.toNat hlow)]
  apply unsignify_of_toInt_zero
  rw [words_of_biased_eq, add_two_msb hlow hmsb, hm]
  cases (t.exponent + 2).msb with
  | false => exact add_neg_cancel _
  | true => exact neg_add_cancel _

/-- Two numbers with the same exponent and sign -/
theorem fadd_same (hexp : s.exponent = t.exponent) :
    (s.mantissa < 4 → t.mantissa < 4 → fadd s t = some ⟨0, 0, 0⟩) ∧
      (4 ≤ s.mantissa ∨ 4 ≤ t.mantissa → ∃ p, fadd s t = some p ∧ p.Normalised) := by
  have hbiased : s.biased = t.biased := by rw [TempReal.biased, TempReal.biased, hexp]
  have hwords := words_of_biased_eq s t
  rw [hexp] at hwords
  rw [fadd_of_biased_eq hbiased]
  constructor
  · intro hs ht
    apply unsignify_of_toInt_zero
    rw [hwords, Nat.div_eq_of_lt hs, Nat.div_eq_of_lt ht]
    cases (t.exponent + 2).msb <;> rfl
  · intro hbig
    have hne : ((signify t).plus (signify (s.align 0))).words ≠ 0 := by
      intro h0
      rw [h0] at hwords
      have hpos : 0 < t.mantissa / 4 + s.mantissa / 4 := by omega
      generalize (t.exponent + 2).msb = negative at hwords
      cases negative with
      | false =>
        change (0 : ℤ) = ((t.mantissa / 4 : ℕ) : ℤ) + ((s.mantissa / 4 : ℕ) : ℤ) at hwords
        omega
      | true =>
        change (0 : ℤ) = -((t.mantissa / 4 : ℕ) : ℤ) + -((s.mantissa / 4 : ℕ) : ℤ) at hwords
        omega
    obtain ⟨-, -, p, hp, hn, -⟩ := unsignify_spec hne
    exact ⟨p, hp, hn⟩

/-! ## The exact sum -/

theorem signed_mul (negative : Bool) (x y : ℚ) : signed negative (x * y) = signed negative x * y := by
  cases negative with
  | false => rfl
  | true => exact (neg_mul x y).symm

theorem cast_signed (negative : Bool) (n : ℕ) :
    ((signed negative (n : ℤ) : ℤ) : ℚ) = signed negative (n : ℚ) := by
  cases negative with
  | false => rfl
  | true => exact Int.cast_neg _

/-- What the two shifts take from a mantissa -/
theorem cut_lt (negative : Bool) (m d : ℕ) :
    |signed negative ((m / 2 ^ d / 4 : ℕ) : ℚ) * 4 - signed negative ((m : ℚ) / 2 ^ d)| < 4 := by
  have hlow : 4 * ((m / 2 ^ d / 4 : ℕ) : ℚ) ≤ (m : ℚ) / 2 ^ d := by
    rw [le_div_iff₀ (by positivity)]
    have hle : 4 * (m / 2 ^ d / 4) * 2 ^ d ≤ m :=
      le_trans (Nat.mul_le_mul_right _ (Nat.mul_div_le _ 4)) (Nat.div_mul_le_self m _)
    exact_mod_cast hle
  have hhigh : (m : ℚ) / 2 ^ d < 4 * ((m / 2 ^ d / 4 : ℕ) : ℚ) + 4 := by
    rw [div_lt_iff₀ (by positivity)]
    have hlt : m < (4 * (m / 2 ^ d / 4) + 4) * 2 ^ d := by
      rw [← Nat.div_lt_iff_lt_mul (by positivity)]
      omega
    exact_mod_cast hlt
  cases negative with
  | false =>
    change |((m / 2 ^ d / 4 : ℕ) : ℚ) * 4 - (m : ℚ) / 2 ^ d| < 4
    rw [abs_lt]
    constructor <;> linarith
  | true =>
    change |-((m / 2 ^ d / 4 : ℕ) : ℚ) * 4 - -((m : ℚ) / 2 ^ d)| < 4
    rw [abs_lt]
    constructor <;> linarith

theorem sum_biased (hhigh : a.biased ≤ 0x7ffb) :
    ((signify a).plus (signify (b.align d))).biased = a.biased + 2 := by
  obtain ⟨-, habiased⟩ := exponent_add_two (e := a.exponent) (by unfold TempReal.biased at hhigh; omega)
  unfold TempReal.biased
  rw [← habiased, ← signify_exponent]
  change ((signify a).exponent &&& 0x7fff).toNat = _
  rw [signify_exponent, BitVec.and_assoc]
  rfl

theorem sum_words (hexp : a.biased = b.biased + d) (hhigh : a.biased ≤ 0x7ffb) :
    (((signify a).plus (signify (b.align d))).words.toInt : ℚ) =
      signed a.exponent.msb ((a.mantissa / 2 ^ 0 / 4 : ℕ) : ℚ) +
        signed b.exponent.msb ((b.mantissa / 2 ^ d / 4 : ℕ) : ℚ) := by
  obtain ⟨hamsb, -⟩ := exponent_add_two (e := a.exponent) (by unfold TempReal.biased at hhigh; omega)
  obtain ⟨hbmsb, -⟩ := exponent_add_two (e := b.exponent) (by unfold TempReal.biased at hhigh hexp; omega)
  rw [words_plus, signify_sum, signify_words, signify_words, align_exponent, mantissa_align, hamsb, hbmsb,
    pow_zero, Nat.div_one, Int.cast_add, cast_signed, cast_signed]

theorem value_add (hexp : a.biased = b.biased + d) : a.value + b.value =
    (signed a.exponent.msb ((a.mantissa : ℚ) / 2 ^ 0) + signed b.exponent.msb ((b.mantissa : ℚ) / 2 ^ d)) * a.ulp := by
  have hbulp : b.ulp = a.ulp / 2 ^ d := by
    rw [TempReal.ulp, TempReal.ulp, hexp, ← zpow_natCast, ← zpow_sub₀ two_ne_zero]
    congr 1
    push_cast
    omega
  rw [TempReal.value, TempReal.value, hbulp, signed_mul, pow_zero, div_one, add_mul, mul_div_assoc',
    ← div_mul_eq_mul_div, signed_mul]

/-- The sum of numbers in order -/
theorem sum_accurate (hexp : a.biased = b.biased + d) (hlow : 64 ≤ a.biased) (hhigh : a.biased ≤ 0x7ffb) :
    ∃ p, unsignify ((signify a).plus (signify (b.align d))) = some p ∧ (p.mantissa = 0 ∨ p.Normalised) ∧
      |p.value - (a.value + b.value)| < 8 * a.ulp := by
  have hwords := sum_words hexp hhigh
  have hbiased : ((signify a).plus (signify (b.align d))).biased = a.biased + 2 := sum_biased hhigh
  generalize (signify a).plus (signify (b.align d)) = u at hwords hbiased
  have hulp : u.ulp = 4 * a.ulp := by
    rw [TempReal.ulp, hbiased, TempReal.ulp, show (4 : ℚ) = 2 ^ (2 : ℤ) by norm_num, ← zpow_add₀ two_ne_zero]
    congr 1
    push_cast
    omega
  have hcuta := cut_lt a.exponent.msb a.mantissa 0
  have hcutb := cut_lt b.exponent.msb b.mantissa d
  have hclose : |(u.words.toInt : ℚ) * u.ulp - (a.value + b.value)| < 8 * a.ulp := by
    have herr : (u.words.toInt : ℚ) * u.ulp - (a.value + b.value) =
        ((signed a.exponent.msb ((a.mantissa / 2 ^ 0 / 4 : ℕ) : ℚ) * 4 -
            signed a.exponent.msb ((a.mantissa : ℚ) / 2 ^ 0)) +
          (signed b.exponent.msb ((b.mantissa / 2 ^ d / 4 : ℕ) : ℚ) * 4 -
            signed b.exponent.msb ((b.mantissa : ℚ) / 2 ^ d))) * a.ulp := by
      rw [hwords, value_add hexp, hulp]
      ring
    rw [herr, abs_mul, abs_of_pos a.ulp_pos]
    refine mul_lt_mul_of_pos_right (lt_of_le_of_lt (abs_add_le _ _) ?_) a.ulp_pos
    linarith
  by_cases hzero : u.words = 0
  · refine ⟨_, unsignify_zero hzero, .inl (congrArg BitVec.toNat hzero), ?_⟩
    have hvalue : TempReal.value { u with exponent := 0 } = 0 := by
      have hm : TempReal.mantissa { u with exponent := 0 } = 0 := congrArg BitVec.toNat hzero
      rw [← abs_eq_zero, TempReal.abs_value, hm, Nat.cast_zero, zero_mul]
    rw [hzero] at hclose
    rw [hvalue]
    simpa using hclose
  · obtain ⟨p, hp, hn, hvalue⟩ := unsignify_value hzero (by omega)
    rw [← hvalue] at hclose
    exact ⟨p, hp, .inr hn, hclose⟩

theorem biased_eq_of_ulp {s t : TempReal} (h : s.biased ≤ t.biased) : s.ulp ≤ t.ulp :=
  zpow_le_zpow_right₀ one_le_two (by omega)

/-- The result of an addition is 0 or normalised and has an error of less than 8 units in the last place of the
larger operand. The sum inside does not overflow. -/
theorem fadd_accurate (s t : TempReal) (hs : s.Normalised) (ht : t.Normalised)
    (hs' : 64 ≤ s.biased ∧ s.biased ≤ 0x7ffb) (ht' : 64 ≤ t.biased ∧ t.biased ≤ 0x7ffb) :
    (∃ p, fadd s t = some p ∧ (p.mantissa = 0 ∨ p.Normalised) ∧
      |p.value - (s.value + t.value)| < 8 * max s.ulp t.ulp) ∧
    ((addends s t).1 + (addends s t).2).toInt = (addends s t).1.toInt + (addends s t).2.toInt := by
  refine ⟨?_, signify_sum _ _⟩
  obtain ⟨hcases, hexp⟩ := order_spec s t
  generalize hab : order s t = ab at hcases hexp
  obtain ⟨a, b, d⟩ := ab
  dsimp only at hcases hexp
  have ha : a.Normalised ∧ (64 ≤ a.biased ∧ a.biased ≤ 0x7ffb) := by
    rcases hcases with ⟨rfl, rfl⟩ | ⟨rfl, rfl⟩
    · exact ⟨hs, hs'⟩
    · exact ⟨ht, ht'⟩
  have hsum : s.value + t.value = a.value + b.value := by
    rcases hcases with ⟨rfl, rfl⟩ | ⟨rfl, rfl⟩
    · rfl
    · exact add_comm ..
  have hulp : max s.ulp t.ulp = a.ulp := by
    have hle : b.ulp ≤ a.ulp := biased_eq_of_ulp (by omega)
    rcases hcases with ⟨rfl, rfl⟩ | ⟨rfl, rfl⟩
    · exact max_eq_left hle
    · exact max_eq_right hle
  unfold fadd
  rw [hab, hsum, hulp]
  dsimp only
  by_cases hd : 64 ≤ d
  · -- the smaller number is below one unit
    refine ⟨a, if_pos hd, .inr ha.1, ?_⟩
    have hsmall : |b.value| < a.ulp := by
      rw [b.abs_value]
      have hbulp : b.ulp * 2 ^ 64 ≤ a.ulp := by
        rw [TempReal.ulp, TempReal.ulp, hexp, ← zpow_natCast, ← zpow_add₀ two_ne_zero]
        exact zpow_le_zpow_right₀ one_le_two (by push_cast; omega)
      have hm : (b.mantissa : ℚ) < 2 ^ 64 := by exact_mod_cast b.mantissa_lt
      calc (b.mantissa : ℚ) * b.ulp < 2 ^ 64 * b.ulp := mul_lt_mul_of_pos_right hm b.ulp_pos
        _ ≤ a.ulp := by linarith
    rw [show a.value - (a.value + b.value) = -b.value by ring, abs_neg]
    linarith [a.ulp_pos]
  · rw [if_neg hd]
    exact sum_accurate hexp ha.2.1 ha.2.2

theorem fadd_accurate_threeHalves :
    (∃ p, fadd minusThreeHalves minusThreeHalves = some p ∧ (p.mantissa = 0 ∨ p.Normalised) ∧
      |p.value - (minusThreeHalves.value + minusThreeHalves.value)| <
        8 * max minusThreeHalves.ulp minusThreeHalves.ulp) ∧
    ((addends minusThreeHalves minusThreeHalves).1 + (addends minusThreeHalves minusThreeHalves).2).toInt =
      (addends minusThreeHalves minusThreeHalves).1.toInt + (addends minusThreeHalves minusThreeHalves).2.toInt :=
  fadd_accurate minusThreeHalves minusThreeHalves (by decide) (by decide) (by decide) (by decide)

end Linux012.Math
