import Linux012.Kernel.Math.Sum

/-! # Comparisons

The sum of two numbers with two spare bits has the sign of the exact one, and is 0 only if that is.
-/

namespace Linux012.Math

open Roundings

variable {s t p a b : TempReal} {d : ℕ} {q : ℚ} {swd : Long}

/-! ## The test -/

/-- `p` is 0 or normalised, and shows the sign of `q`. -/
structure Shows (p : TempReal) (q : ℚ) : Prop where
  zero : p.words = 0 → p.exponent = 0
  normalised : p.words ≠ 0 → p.Normalised
  eq_zero_iff : p.words = 0 ↔ q = 0
  negative_iff : p.words ≠ 0 → (p.exponent.msb ↔ q < 0)

theorem normalizeFrom_of_msb {x : BitVec 64} (h : x.msb) (i : ℕ) : normalizeFrom i x = (i, x) := by
  cases i with
  | zero => rfl
  | succ i => exact if_pos h

theorem words_msb (t : TempReal) : t.words.msb = t.b.msb := BitVec.msb_append.trans (if_neg (by decide))

theorem exponent_parts (e : BitVec 16) : BitVec.ofNat 16 (e &&& 0x7fff).toNat ||| e &&& 0x8000 = e := by
  rw [BitVec.ofNat_toNat, BitVec.setWidth_eq]
  ext i hi
  interval_cases i <;> simp

theorem normalizeReal_of_normalised (h : t.Normalised) : normalizeReal t = t := by
  have hne : ¬ (t.a = 0 ∧ t.b = 0) := by
    rintro ⟨-, h0⟩
    rw [TempReal.Normalised, h0] at h
    exact absurd h (by decide)
  have hmsb : (join t.a t.b).msb := (words_msb t).trans h
  unfold normalizeReal
  rw [if_neg hne, normalizeFrom_of_msb hmsb]
  dsimp only
  rw [low_join, high_join, exponent_parts]

/-- The condition bits of a number with the sign of `q` -/
def condition (q : ℚ) (swd : Long) : Long :=
  if q < 0 then setC0 (clearCx swd) else if q = 0 then setC3 (clearCx swd) else clearCx swd

theorem ftst_shows (h : Shows p q) (swd : Long) : ftst p swd = condition q swd := by
  unfold ftst condition
  by_cases h0 : p.words = 0
  · have hq := h.eq_zero_iff.mp h0
    obtain ⟨ha, hb⟩ := (words_eq_zero_iff p).mpr h0
    have hn : normalizeReal p = ⟨0, 0, 0⟩ := by
      unfold normalizeReal
      rw [if_pos ⟨ha, hb⟩, ha, hb]
    dsimp only
    rw [hn, if_neg (by decide), hq, if_neg (lt_irrefl 0), if_pos rfl]
  · have hn := normalizeReal_of_normalised (h.normalised h0)
    have hq := mt h.eq_zero_iff.mpr h0
    have hab : p.a ≠ 0 ∨ p.b ≠ 0 ∨ p.exponent ≠ 0 := by
      by_contra hno
      push Not at hno
      exact h0 ((words_eq_zero_iff p).mp ⟨hno.1, hno.2.1⟩)
    dsimp only
    rw [hn, if_pos hab]
    by_cases hneg : q < 0
    · rw [if_pos hneg, if_pos ((h.negative_iff h0).mpr hneg)]
    · rw [if_neg hneg, if_neg hq, if_neg (mt (h.negative_iff h0).mp hneg)]

/-! ## The sum -/

/-- Normalised with two bits to spare, or 0 -/
def TempReal.Spare (t : TempReal) : Prop :=
  t.Normalised ∧ 64 ≤ t.biased ∧ t.biased ≤ 0x7ffb ∧ t.mantissa % 4 = 0 ∨ t.mantissa = 0 ∧ t.biased = 0

theorem value_neg_iff (h : t.mantissa ≠ 0) : t.value < 0 ↔ t.exponent.msb := by
  have hpos : 0 < (t.mantissa : ℚ) * t.ulp := mul_pos (by exact_mod_cast Nat.pos_of_ne_zero h) t.ulp_pos
  unfold TempReal.value
  cases t.exponent.msb with
  | false => exact iff_of_false (not_lt.mpr hpos.le) Bool.false_ne_true
  | true => exact iff_of_true (neg_neg_of_pos hpos) rfl

theorem value_eq_zero_iff (t : TempReal) : t.value = 0 ↔ t.mantissa = 0 := by
  rw [← abs_eq_zero, t.abs_value, mul_eq_zero, or_iff_left t.ulp_pos.ne', Nat.cast_eq_zero]

/-- A normalised number shows its own sign, and that of everything near. -/
theorem Shows.of_normalised (hn : t.Normalised) (hq : q ≠ 0) (hsign : t.value < 0 ↔ q < 0) : Shows t q := by
  have hm : t.mantissa ≠ 0 := by
    have := hn.le
    omega
  have hw : t.words ≠ 0 := fun h0 => hm (congrArg BitVec.toNat h0)
  exact ⟨fun h => absurd h hw, fun _ => hn, iff_of_false hw hq, fun _ => by rw [← hsign, value_neg_iff hm]⟩

/-- The larger part of a sum gives the sign. -/
theorem dominated (negative : Bool) {x y : ℚ} (h : |y| < x) :
    (signed negative x + y < 0 ↔ negative = true) ∧ signed negative x + y ≠ 0 := by
  have hy := abs_lt.mp h
  cases negative with
  | false =>
    change (x + y < 0 ↔ _) ∧ x + y ≠ 0
    exact ⟨iff_of_false (by linarith) Bool.false_ne_true, by linarith⟩
  | true =>
    change (-x + y < 0 ↔ _) ∧ -x + y ≠ 0
    exact ⟨iff_of_true (by linarith) rfl, by linarith⟩

/-- Two shifted mantissas have the sum 0 or below 0 just if the whole ones have. -/
theorem coarse_sign {m n : ℕ} (sa sb : Bool) (hm : 2 ^ 63 ≤ m) (hm4 : m % 4 = 0) (hn : n < 2 ^ 64)
    (hn4 : n % 4 = 0) :
    let v := signed sa ((m / 2 ^ 0 / 4 : ℕ) : ℚ) + signed sb ((n / 2 ^ d / 4 : ℕ) : ℚ)
    let w := signed sa ((m : ℚ) / 2 ^ 0) + signed sb ((n : ℚ) / 2 ^ d)
    (v < 0 ↔ w < 0) ∧ (v = 0 ↔ w = 0) := by
  intro v w
  rcases Nat.eq_zero_or_pos d with rfl | hd
  · have hquarter : ∀ k : ℕ, k % 4 = 0 → ((k / 2 ^ 0 / 4 : ℕ) : ℚ) = (k : ℚ) / 2 ^ 0 * (1 / 4) := by
      intro k hk
      have hk' : k = 4 * (k / 4) := by omega
      rw [pow_zero, Nat.div_one, pow_zero, div_one]
      have hcast : (k : ℚ) = 4 * (k / 4 : ℕ) := by exact_mod_cast hk'
      linarith
    have hv : v = w * (1 / 4) := by
      change signed sa _ + signed sb _ = (signed sa _ + signed sb _) * _
      rw [hquarter m hm4, hquarter n hn4, signed_mul, signed_mul, add_mul]
    rw [hv]
    constructor <;> constructor <;> intro h <;> linarith
  · have hpow : 2 ≤ 2 ^ d := Nat.le_self_pow hd.ne' 2
    have hhalf : n / 2 ^ d ≤ n / 2 := Nat.div_le_div_left hpow two_pos
    have hv : |signed sb ((n / 2 ^ d / 4 : ℕ) : ℚ)| < ((m / 2 ^ 0 / 4 : ℕ) : ℚ) := by
      rw [abs_signed _ (Nat.cast_nonneg _), pow_zero, Nat.div_one, Nat.cast_lt]
      omega
    have hw : |signed sb ((n : ℚ) / 2 ^ d)| < (m : ℚ) / 2 ^ 0 := by
      have hm' : (2 : ℚ) ^ 63 ≤ m := by exact_mod_cast hm
      have hn' : (n : ℚ) < 2 ^ 64 := by exact_mod_cast hn
      have hpow' : (2 : ℚ) ≤ 2 ^ d := by exact_mod_cast hpow
      rw [abs_signed _ (by positivity), pow_zero, div_one, div_lt_iff₀ (by positivity)]
      nlinarith
    obtain ⟨hvneg, hvne⟩ := dominated sa hv
    obtain ⟨hwneg, hwne⟩ := dominated sa hw
    exact ⟨hvneg.trans hwneg.symm, iff_of_false hvne hwne⟩

theorem mul_neg_iff_of_pos {x u : ℚ} (hu : 0 < u) : x * u < 0 ↔ x < 0 := by
  constructor
  · intro h
    by_contra hx
    exact absurd h (not_lt.mpr (mul_nonneg (not_lt.mp hx) hu.le))
  · exact fun h => mul_neg_of_neg_of_pos h hu

/-- Numbers in order that are less than 64 places apart -/
theorem sum_shows (hexp : a.biased = b.biased + d) (hlow : 64 ≤ a.biased) (hhigh : a.biased ≤ 0x7ffb)
    (ha : 2 ^ 63 ≤ a.mantissa) (ha4 : a.mantissa % 4 = 0) (hb4 : b.mantissa % 4 = 0) :
    ∃ p, unsignify ((signify a).plus (signify (b.align d))) = some p ∧ Shows p (a.value + b.value) := by
  have hwords := sum_words hexp hhigh
  have hbiased : ((signify a).plus (signify (b.align d))).biased = a.biased + 2 := sum_biased hhigh
  generalize (signify a).plus (signify (b.align d)) = u at hwords hbiased
  have hsign := coarse_sign (d := d) a.exponent.msb b.exponent.msb ha ha4 b.mantissa_lt hb4
  dsimp only at hsign
  rw [← hwords] at hsign
  have hneg : a.value + b.value < 0 ↔ u.words.toInt < 0 := by
    rw [value_add hexp, mul_neg_iff_of_pos a.ulp_pos, ← hsign.1]
    exact_mod_cast Iff.rfl
  have hzero : a.value + b.value = 0 ↔ u.words.toInt = 0 := by
    rw [value_add hexp, mul_eq_zero, or_iff_left a.ulp_pos.ne', ← hsign.2]
    exact_mod_cast Iff.rfl
  by_cases h0 : u.words = 0
  · refine ⟨_, unsignify_zero h0, fun _ => rfl, fun h => absurd h0 h, iff_of_true h0 (hzero.mpr ?_),
      fun h => absurd h0 h⟩
    rw [h0]
    rfl
  · obtain ⟨p, hp, hn, hvalue⟩ := unsignify_value h0 (by omega)
    have hne : u.words.toInt ≠ 0 := fun h => h0 (BitVec.eq_of_toInt_eq h)
    refine ⟨p, hp, .of_normalised hn (mt hzero.mp hne) ?_⟩
    rw [hneg, hvalue, mul_neg_iff_of_pos u.ulp_pos]
    exact_mod_cast Iff.rfl

/-- Shifted by 64 places a mantissa is less than one unit. -/
theorem far_small (negative : Bool) (hd : 64 ≤ d) (ha : 2 ^ 63 ≤ a.mantissa) :
    |signed negative ((b.mantissa : ℚ) / 2 ^ d)| < (a.mantissa : ℚ) / 2 ^ 0 := by
  have hm : (1 : ℚ) ≤ a.mantissa := by exact_mod_cast le_trans Nat.one_le_two_pow ha
  have hlt : b.mantissa < 2 ^ d := lt_of_lt_of_le b.mantissa_lt (Nat.pow_le_pow_right two_pos hd)
  have hone : (b.mantissa : ℚ) / 2 ^ d < 1 := by
    rw [div_lt_one (pow_pos two_pos d)]
    exact_mod_cast hlt
  have hnonneg : (0 : ℚ) ≤ (b.mantissa : ℚ) / 2 ^ d := div_nonneg (Nat.cast_nonneg _) (pow_pos two_pos d).le
  rw [abs_signed negative hnonneg, pow_zero, div_one]
  exact lt_of_lt_of_le hone hm

/-- The sum of two zeros -/
theorem zeros_show (hexp : a.biased = b.biased + d) (hhigh : a.biased ≤ 0x7ffb) (ha : a.mantissa = 0)
    (hb : b.mantissa = 0) :
    ∃ p, unsignify ((signify a).plus (signify (b.align d))) = some p ∧ Shows p (a.value + b.value) := by
  have hwords := sum_words hexp hhigh
  generalize (signify a).plus (signify (b.align d)) = u at hwords
  have hzero : u.words = 0 := by
    apply BitVec.eq_of_toInt_eq
    have hint : ((u.words.toInt : ℤ) : ℚ) = 0 := by
      rw [hwords, ha, hb, Nat.zero_div, Nat.zero_div, Nat.zero_div]
      cases a.exponent.msb <;> cases b.exponent.msb <;> simp [signed]
    exact_mod_cast hint
  have hvalue : a.value + b.value = 0 := by
    rw [(value_eq_zero_iff a).mpr ha, (value_eq_zero_iff b).mpr hb, add_zero]
  exact ⟨_, unsignify_zero hzero, fun _ => rfl, fun h => absurd hzero h, iff_of_true hzero hvalue,
    fun h => absurd hzero h⟩

/-- The sum of two numbers with bits to spare shows the sign of the exact one. -/
theorem fadd_shows (hs : s.Spare) (ht : t.Spare) : ∃ p, fadd s t = some p ∧ Shows p (s.value + t.value) := by
  obtain ⟨hcases, hexp⟩ := order_spec s t
  generalize hab : order s t = ab at hcases hexp
  obtain ⟨a, b, d⟩ := ab
  dsimp only at hcases hexp
  have hspare : a.Spare ∧ b.Spare := by
    rcases hcases with ⟨rfl, rfl⟩ | ⟨rfl, rfl⟩
    · exact ⟨hs, ht⟩
    · exact ⟨ht, hs⟩
  have hsum : s.value + t.value = a.value + b.value := by
    rcases hcases with ⟨rfl, rfl⟩ | ⟨rfl, rfl⟩
    · rfl
    · exact add_comm ..
  unfold fadd
  rw [hab, hsum]
  dsimp only
  obtain ⟨ha | ⟨ha0, haexp⟩, hb⟩ := hspare
  · obtain ⟨han, halow, hahigh, ha4⟩ := ha
    by_cases hd : 64 ≤ d
    · -- the smaller number is below a unit of the larger one
      have hsmall := far_small (b := b) b.exponent.msb hd han.le
      obtain ⟨hneg, hne⟩ := dominated a.exponent.msb hsmall
      have hm : a.mantissa ≠ 0 := by
        have := han.le
        omega
      refine ⟨a, if_pos hd, .of_normalised han ?_ ?_⟩
      · rw [value_add hexp]
        exact mul_ne_zero hne a.ulp_pos.ne'
      · rw [value_add hexp, mul_neg_iff_of_pos a.ulp_pos, hneg, value_neg_iff hm]
    · rw [if_neg hd]
      have hb4 : b.mantissa % 4 = 0 := hb.elim (fun h => h.2.2.2) fun h => by rw [h.1]
      exact sum_shows hexp halow hahigh han.le ha4 hb4
  · -- both are 0
    have hb0 : b.mantissa = 0 ∧ d = 0 := by
      rcases hb with ⟨-, hblow, -⟩ | ⟨hb0, -⟩
      · omega
      · exact ⟨hb0, by omega⟩
    rw [if_neg (by omega)]
    exact zeros_show hexp (by omega) ha0 hb0.1

/-! ## Comparing -/

theorem neg_exponent (t : TempReal) :
    t.neg.exponent.msb = !t.exponent.msb ∧ t.neg.exponent &&& 0x7fff = t.exponent &&& 0x7fff := by
  constructor
  · change (t.exponent ^^^ 0x8000).msb = _
    rw [BitVec.msb_xor, show (0x8000 : BitVec 16).msb = true by decide, Bool.xor_true]
  · change (t.exponent ^^^ 0x8000) &&& 0x7fff = _
    ext i hi
    interval_cases i <;> simp

theorem biased_neg (t : TempReal) : t.neg.biased = t.biased := congrArg BitVec.toNat (neg_exponent t).2

theorem value_neg (t : TempReal) : t.neg.value = -t.value := by
  have hulp : t.neg.ulp = t.ulp := by
    unfold TempReal.ulp
    rw [biased_neg]
  unfold TempReal.value
  rw [hulp, (neg_exponent t).1]
  cases t.exponent.msb with
  | false => rfl
  | true => exact (neg_neg _).symm

theorem spare_neg (h : s.Spare) : s.neg.Spare := by
  unfold TempReal.Spare
  rw [biased_neg]
  exact h

/-- With two bits to spare a comparison is exact. -/
theorem fcom_spare (hs : s.Spare) (ht : t.Spare) (swd : Long) :
    fcom s t swd = some (condition (t.value - s.value) swd) := by
  obtain ⟨p, hp, hshows⟩ := fadd_shows (spare_neg hs) ht
  unfold fcom
  rw [hp, Option.map_some, ftst_shows hshows, value_neg, neg_add_eq_sub]

/-! ## Doubles -/

def LongReal.exponent (z : LongReal) : ℕ := (z.b >>> 20 &&& (0x7ff : Long)).toNat

def LongReal.fraction (z : LongReal) : ℕ := (z.b &&& 0xfffff).toNat * 2 ^ 32 + z.a.toNat

/-- The number that a double stands for -/
def LongReal.value (z : LongReal) : ℚ :=
  signed z.b.msb (if z.exponent = 0 then z.fraction * 2 ^ (-1074 : ℤ)
    else (2 ^ 52 + z.fraction) * 2 ^ ((z.exponent : ℤ) - 1075))

def LongReal.Normal (z : LongReal) : Prop := z.exponent ≠ 0 ∧ z.exponent ≠ 0x7ff

def LongReal.Zero (z : LongReal) : Prop := z.exponent = 0 ∧ z.fraction = 0

theorem toNat_upper_word (x y : Long) :
    (upper x y).toNat = 2 ^ 31 + (y &&& 0xfffff).toNat * 2 ^ 11 + x.toNat / 2 ^ 21 := by
  have hy : (y &&& 0xfffff).toNat < 2 ^ 20 := by
    rw [BitVec.toNat_and]
    exact lt_of_le_of_lt Nat.and_le_right (by decide)
  have hx : x.toNat / 2 ^ 21 < 2 ^ 11 := by
    have := x.isLt
    omega
  have hparts : upper x y = (0x80000000 : Long) ||| ((y &&& 0xfffff) <<< 11 ||| x >>> 21) := by
    unfold upper
    ext i hi
    interval_cases i <;> simp
  have hlow : ((y &&& 0xfffff) <<< 11 ||| x >>> 21).toNat =
      (y &&& 0xfffff).toNat * 2 ^ 11 + x.toNat / 2 ^ 21 := by
    rw [BitVec.toNat_or, BitVec.toNat_shiftLeft, Nat.shiftLeft_eq, Nat.mod_eq_of_lt (by omega),
      BitVec.toNat_ushiftRight, Nat.shiftRight_eq_div_pow, Nat.mul_comm]
    exact (Nat.two_pow_add_eq_or_of_lt hx _).symm
  have hsum : (y &&& 0xfffff).toNat * 2 ^ 11 + x.toNat / 2 ^ 21 < 2 ^ 31 := by omega
  have hor := Nat.two_pow_add_eq_or_of_lt hsum 1
  rw [hparts, BitVec.toNat_or, hlow, show (0x80000000 : Long).toNat = 2 ^ 31 * 1 from rfl]
  omega

theorem mantissa_longToTemp (z : LongReal) (e : BitVec 16) :
    (⟨z.a <<< 11, upper z.a z.b, e⟩ : TempReal).mantissa = (2 ^ 52 + z.fraction) * 2 ^ 11 := by
  have hm : (⟨z.a <<< 11, upper z.a z.b, e⟩ : TempReal).mantissa =
      (upper z.a z.b).toNat * 2 ^ 32 + (z.a <<< 11).toNat :=
    toNat_join ..
  have ha := z.a.isLt
  unfold LongReal.fraction
  rw [hm, toNat_upper_word, BitVec.toNat_shiftLeft, Nat.shiftLeft_eq]
  omega

theorem longExponent_biased (sign : Bool) (f : BitVec 11) :
    (longExponent sign f &&& 0x7fff).toNat = f.toNat + 15360 := by
  have he : (f.setWidth 32 - 1023 + 16383 : Long).setWidth 16 = f.setWidth 16 + 15360 := by bv_omega
  have hlt : (f.setWidth 16 + 15360 : BitVec 16).toNat < 2 ^ 15 := by bv_omega
  unfold longExponent
  dsimp only
  rw [he, signed_exponent sign hlt]
  bv_omega

theorem exponent_field (y : Long) : ((y >>> 20).setWidth 11).toNat = (y >>> 20 &&& (0x7ff : Long)).toNat := by
  rw [BitVec.toNat_setWidth, BitVec.toNat_and]
  exact (Nat.and_two_pow_sub_one_eq_mod _ 11).symm

theorem significand_spare (f : ℕ) : 2 ^ 63 ≤ (2 ^ 52 + f) * 2 ^ 11 ∧ (2 ^ 52 + f) * 2 ^ 11 % 4 = 0 := by
  omega

/-- A normal double has eleven bits to spare. -/
theorem longToTemp_normal {z : LongReal} (h : z.Normal) :
    (longToTemp z).Spare ∧ (longToTemp z).value = z.value := by
  have hne : ¬ (z.a = 0 ∧ z.b &&& 0x7fffffff = 0) := by
    rintro ⟨-, h0⟩
    have hexp : z.b >>> 20 &&& (0x7ff : Long) = (z.b &&& 0x7fffffff) >>> 20 &&& (0x7ff : Long) := by
      ext i hi
      interval_cases i <;> simp
    apply h.1
    unfold LongReal.exponent
    rw [hexp, h0]
    rfl
  have hbiased : (longToTemp z).biased = z.exponent + 15360 := by
    rw [longToTemp_of_ne_zero hne]
    exact (longExponent_biased _ _).trans (congrArg (· + 15360) (exponent_field z.b))
  have hmant : (longToTemp z).mantissa = (2 ^ 52 + z.fraction) * 2 ^ 11 := by
    rw [longToTemp_of_ne_zero hne, mantissa_longToTemp]
  have hsign : (longToTemp z).exponent.msb = z.b.msb := by
    rw [longToTemp_of_ne_zero hne]
    exact (longExponent_spec _ _).2.1
  have hlt : z.exponent < 2 ^ 11 := by
    unfold LongReal.exponent
    rw [BitVec.toNat_and]
    exact lt_of_le_of_lt Nat.and_le_right (by decide)
  have hexp : z.exponent ≠ 0x7ff := h.2
  constructor
  · refine .inl ⟨(msb_iff _).mpr ?_, ?_, ?_, ?_⟩
    · rw [hmant]
      exact (significand_spare _).1
    · rw [hbiased]
      omega
    · rw [hbiased]
      omega
    · rw [hmant]
      exact (significand_spare _).2
  · have hulp : (longToTemp z).ulp = 2 ^ ((z.exponent : ℤ) - 1075) / 2 ^ 11 := by
      have he : ((z.exponent + 15360 : ℕ) : ℤ) - 16446 = (z.exponent : ℤ) - 1075 - (11 : ℕ) := by
        push_cast
        ring
      rw [TempReal.ulp, hbiased, he, zpow_sub₀ two_ne_zero, zpow_natCast]
    rw [TempReal.value, hmant, hsign, hulp, LongReal.value, if_neg h.1]
    congr 1
    push_cast
    ring

theorem longToTemp_zero {z : LongReal} (h : z.Zero) : (longToTemp z).Spare ∧ (longToTemp z).value = z.value := by
  obtain ⟨hexp, hfrac⟩ := h
  have ha : z.a = 0 := by
    apply BitVec.eq_of_toNat_eq
    unfold LongReal.fraction at hfrac
    exact (Nat.add_eq_zero_iff.mp hfrac).2
  have hb : z.b &&& 0x7fffffff = 0 := by
    have hf : (z.b &&& 0xfffff).toNat = 0 := by
      unfold LongReal.fraction at hfrac
      omega
    have hf' : z.b &&& 0xfffff = 0 := BitVec.eq_of_toNat_eq hf
    have he' : z.b >>> 20 &&& (0x7ff : Long) = 0 := BitVec.eq_of_toNat_eq hexp
    have hparts : z.b &&& (0x7fffffff : Long) = (z.b >>> 20 &&& (0x7ff : Long)) <<< 20 ||| (z.b &&& 0xfffff) := by
      ext i hi
      interval_cases i <;> simp
    rw [hparts, hf', he']
    rfl
  have hz : longToTemp z = ⟨0, 0, if z.b ≠ 0 then 0x8000 else 0⟩ := if_pos ⟨ha, hb⟩
  have hm : (longToTemp z).mantissa = 0 := by
    rw [hz]
    exact toNat_join 0 0
  have hbiased : (longToTemp z).biased = 0 := by
    rw [hz]
    unfold TempReal.biased
    dsimp only
    split_ifs <;> rfl
  refine ⟨.inr ⟨hm, hbiased⟩, ?_⟩
  rw [(value_eq_zero_iff _).mpr hm, LongReal.value, if_pos hexp, hfrac, Nat.cast_zero, zero_mul]
  cases z.b.msb with
  | false => rfl
  | true => exact neg_zero.symm

/-- The condition bits and the rest of the status word -/
theorem condition_bits (q : ℚ) (swd : Long) :
    (condition q swd &&& 0x0100 ≠ 0 ↔ q < 0) ∧ (condition q swd &&& 0x4000 ≠ 0 ↔ q = 0) ∧
      condition q swd &&& 0x0400 = 0 ∧ condition q swd &&& ~~~0x4500 = swd &&& ~~~0x4500 := by
  have hclear : clearCx swd &&& 0x0100 = 0 ∧ clearCx swd &&& 0x4000 = 0 ∧ clearCx swd &&& 0x0400 = 0 ∧
      clearCx swd &&& ~~~0x4500 = swd &&& ~~~0x4500 := by
    unfold clearCx
    refine ⟨?_, ?_, ?_, ?_⟩ <;> ext i hi <;> interval_cases i <;> simp
  unfold condition
  generalize clearCx swd = w at hclear ⊢
  obtain ⟨hc0, hc3, hc2, hrest⟩ := hclear
  have hor : ∀ x m : Long, (w ||| x) &&& m = (w &&& m) ||| (x &&& m) := fun x m => BitVec.and_or_distrib_right ..
  have hkept : ∀ x : Long, x &&& ~~~0x4500 = 0 → (w ||| x) &&& ~~~0x4500 = swd &&& ~~~0x4500 := by
    intro x hx
    rw [hor, hrest, hx]
    exact BitVec.or_zero
  by_cases hneg : q < 0
  · rw [if_pos hneg]
    unfold setC0
    refine ⟨iff_of_true ?_ hneg, iff_of_false ?_ hneg.ne, ?_, hkept 0x0100 (by decide)⟩
    · rw [hor, hc0]
      decide
    · rw [hor, hc3]
      decide
    · rw [hor, hc2]
      decide
  · rw [if_neg hneg]
    by_cases hzero : q = 0
    · rw [if_pos hzero]
      unfold setC3
      refine ⟨iff_of_false ?_ hneg, iff_of_true ?_ hzero, ?_, hkept 0x4000 (by decide)⟩
      · rw [hor, hc0]
        decide
      · rw [hor, hc3]
        decide
      · rw [hor, hc2]
        decide
    · rw [if_neg hzero]
      exact ⟨iff_of_false (not_not.mpr hc0) hneg, iff_of_false (not_not.mpr hc3) hzero, hc2, hrest⟩

/-- A comparison of doubles sets C0 just if the second one is less, C3 just if they are equal, and nothing
else. -/
theorem fcom_exact (src st0 : LongReal) (hsrc : src.Normal ∨ src.Zero) (hst0 : st0.Normal ∨ st0.Zero)
    (swd : Long) :
    ∃ swd', fcom (longToTemp src) (longToTemp st0) swd = some swd' ∧
      (swd' &&& 0x0100 ≠ 0 ↔ st0.value < src.value) ∧ (swd' &&& 0x4000 ≠ 0 ↔ st0.value = src.value) ∧
      swd' &&& 0x0400 = 0 ∧ swd' &&& ~~~0x4500 = swd &&& ~~~0x4500 := by
  have hload : ∀ z : LongReal, z.Normal ∨ z.Zero → (longToTemp z).Spare ∧ (longToTemp z).value = z.value :=
    fun z h => h.elim longToTemp_normal longToTemp_zero
  obtain ⟨hs, hsv⟩ := hload src hsrc
  obtain ⟨ht, htv⟩ := hload st0 hst0
  refine ⟨_, fcom_spare hs ht swd, ?_⟩
  rw [hsv, htv]
  obtain ⟨h0, h3, h2, hrest⟩ := condition_bits (st0.value - src.value) swd
  exact ⟨h0.trans sub_neg, h3.trans sub_eq_zero, h2, hrest⟩

/-- One and a half, and zero with a sign -/
def threeHalves : LongReal := ⟨0, 0x3ff80000⟩

def minusZero : LongReal := ⟨0, 0x80000000⟩

theorem fcom_exact_minusZero :
    ∃ swd', fcom (longToTemp threeHalves) (longToTemp minusZero) 0 = some swd' ∧
      (swd' &&& 0x0100 ≠ 0 ↔ minusZero.value < threeHalves.value) ∧
      (swd' &&& 0x4000 ≠ 0 ↔ minusZero.value = threeHalves.value) ∧
      swd' &&& 0x0400 = 0 ∧ swd' &&& ~~~0x4500 = (0 : Long) &&& ~~~0x4500 :=
  fcom_exact threeHalves minusZero (.inl (by unfold LongReal.Normal; decide))
    (.inr (by unfold LongReal.Zero; decide)) 0

end Linux012.Math
