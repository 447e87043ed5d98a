import Linux012.Kernel.Math.Basic

/-! # Integers and decimal numbers through the emulator

An integer of up to 64 bits becomes a real whose mantissa is the integer shifted to the top. Shifting back
leaves nothing to round.
-/

namespace Linux012.Math

open Function

variable {r : Rounding} {t : TempReal} {n : TempInt} {a b u : Long} {x : BitVec 64} {k s v : ℕ}

/-! ## Pairs of words -/

theorem toNat_append_words (a b : Long) : (b ++ a).toNat = b.toNat * 2 ^ 32 + a.toNat := by
  rw [BitVec.toNat_append, ← Nat.shiftLeft_add_eq_or_of_lt a.isLt, Nat.shiftLeft_eq]

theorem toNat_join (a b : Long) : (join a b).toNat = b.toNat * 2 ^ 32 + a.toNat := toNat_append_words a b

theorem toNat_low (x : BitVec 64) : (low x).toNat = x.toNat % 2 ^ 32 := BitVec.toNat_setWidth ..

theorem toNat_high (x : BitVec 64) : (high x).toNat = x.toNat / 2 ^ 32 := by
  unfold high
  rw [BitVec.toNat_setWidth, BitVec.toNat_ushiftRight, Nat.shiftRight_eq_div_pow]
  have h := x.isLt
  omega

@[simp] theorem join_low_high (x : BitVec 64) : join (low x) (high x) = x := by
  apply BitVec.eq_of_toNat_eq
  rw [toNat_join, toNat_low, toNat_high]
  omega

@[simp] theorem low_join (a b : Long) : low (join a b) = a := by
  apply BitVec.eq_of_toNat_eq
  rw [toNat_low, toNat_join]
  have h := a.isLt
  omega

@[simp] theorem high_join (a b : Long) : high (join a b) = b := by
  apply BitVec.eq_of_toNat_eq
  rw [toNat_high, toNat_join]
  have h := a.isLt
  omega

theorem toNat_shrd (s : ℕ) (a b : Long) : (shrd s b a).toNat = (b.toNat * 2 ^ 32 + a.toNat) / 2 ^ s % 2 ^ 32 := by
  unfold shrd
  rw [BitVec.toNat_setWidth, BitVec.toNat_ushiftRight, toNat_append_words, Nat.shiftRight_eq_div_pow]

/-- Two words shifted to the right. -/
theorem div_pow_words (b a s : ℕ) (ha : a < 2 ^ 32) :
    (b * 2 ^ 32 + a) / 2 ^ s = b / 2 ^ s * 2 ^ 32 + (b * 2 ^ 32 + a) / 2 ^ s % 2 ^ 32 := by
  have hb : (b * 2 ^ 32 + a) / 2 ^ s / 2 ^ 32 = b / 2 ^ s := by
    rw [Nat.div_right_comm]
    congr 1
    omega
  have h := Nat.div_add_mod ((b * 2 ^ 32 + a) / 2 ^ s) (2 ^ 32)
  rw [hb] at h
  omega

/-- The three instructions shift the three words together. -/
theorem shifted_eq (hs : s ≤ 32) (sign : Bool) :
    (join (shifted b a u s sign).1.a (shifted b a u s sign).1.b).toNat * 2 ^ 32 + (shifted b a u s sign).2.toNat =
      ((b.toNat * 2 ^ 32 + a.toNat) * 2 ^ 32 + u.toNat) / 2 ^ s := by
  have hlow : ((b.toNat * 2 ^ 32 + a.toNat) * 2 ^ 32 + u.toNat) / 2 ^ s % 2 ^ 32 =
      (a.toNat * 2 ^ 32 + u.toNat) / 2 ^ s % 2 ^ 32 := by
    have hpow : 2 ^ 64 = 2 ^ s * (2 ^ (32 - s) * 2 ^ 32) := by
      rw [← Nat.mul_assoc, ← Nat.pow_add, ← Nat.pow_add]
      congr 1
      omega
    have hsum : (b.toNat * 2 ^ 32 + a.toNat) * 2 ^ 32 + u.toNat =
        a.toNat * 2 ^ 32 + u.toNat + 2 ^ s * (b.toNat * 2 ^ (32 - s) * 2 ^ 32) := by
      calc (b.toNat * 2 ^ 32 + a.toNat) * 2 ^ 32 + u.toNat
          = a.toNat * 2 ^ 32 + u.toNat + b.toNat * 2 ^ 64 := by ring
        _ = _ := by rw [hpow]; ring
    rw [hsum, Nat.add_mul_div_left _ _ (by positivity), Nat.add_mul_mod_self_right]
  unfold shifted
  dsimp only
  rw [toNat_join, toNat_shrd, toNat_shrd, BitVec.toNat_ushiftRight, Nat.shiftRight_eq_div_pow,
    ← div_pow_words b.toNat a.toNat s a.isLt, div_pow_words (b.toNat * 2 ^ 32 + a.toNat) u.toNat s u.isLt, hlow]

/-- Nothing is lost below the words. -/
theorem shifted_exact (hs : s ≤ 32) (sign : Bool)
    (h : (b.toNat * 2 ^ 32 + a.toNat) * 2 ^ 32 + u.toNat = v * 2 ^ 32 * 2 ^ s) :
    (join (shifted b a u s sign).1.a (shifted b a u s sign).1.b).toNat = v ∧ (shifted b a u s sign).2 = 0 := by
  have heq := shifted_eq (b := b) (a := a) (u := u) hs sign
  rw [h, Nat.mul_div_cancel _ (by positivity)] at heq
  have hlt := (shifted b a u s sign).2.isLt
  refine ⟨by omega, BitVec.eq_of_toNat_eq ?_⟩
  have h0 : (0 : Long).toNat = 0 := rfl
  omega

theorem rounded_exact (r : Rounding) {p : TempInt × Long} (h : p.2 = 0) : rounded r p = p.1 := by
  obtain ⟨n, u⟩ := p
  obtain rfl : u = 0 := h
  cases r with
  | nearest =>
    refine if_neg ?_
    have h0 : (0 : Long).toNat = 0 := rfl
    rw [h0, Nat.zero_add]
    exact Nat.not_le.mpr (BitVec.isLt _)
  | up => exact if_neg fun h => h.2 rfl
  | down => exact if_neg fun h => h.2 rfl
  | zero => rfl

/-! ## Integers and their reals -/

def TempReal.mantissa (t : TempReal) : ℕ := (join t.a t.b).toNat

def TempInt.magnitude (n : TempInt) : ℕ := (join n.a n.b).toNat

theorem msb_iff (t : TempReal) : t.b.msb ↔ 2 ^ 63 ≤ t.mantissa := by
  unfold TempReal.mantissa
  rw [toNat_join, BitVec.msb_eq_decide, decide_eq_true_iff]
  have h := t.a.isLt
  omega

theorem mantissa_double (h : t.mantissa < 2 ^ 63) : t.double.mantissa = t.mantissa * 2 := by
  unfold TempReal.mantissa at h ⊢
  unfold TempReal.double
  rw [join_low_high, BitVec.toNat_add]
  omega

/-- The loop shifts the mantissa until the upper bit is set. -/
theorem normalize_spec (hpos : t.mantissa ≠ 0) (h : 2 ^ 63 ≤ t.mantissa * 2 ^ k) :
    ∃ s ≤ k, ∃ t', normalize (k + 1) t = some t' ∧ t'.mantissa = t.mantissa * 2 ^ s ∧
      t'.exponent = t.exponent - BitVec.ofNat 16 s := by
  induction k generalizing t with
  | zero =>
    rw [pow_zero, Nat.mul_one] at h
    refine ⟨0, le_rfl, t, if_pos ((msb_iff t).mpr h), by rw [pow_zero, Nat.mul_one], ?_⟩
    exact (BitVec.sub_zero _).symm
  | succ k ih =>
    unfold normalize
    by_cases hmsb : t.b.msb
    · refine ⟨0, Nat.zero_le _, t, if_pos hmsb, by rw [pow_zero, Nat.mul_one], ?_⟩
      exact (BitVec.sub_zero _).symm
    · have hlt : t.mantissa < 2 ^ 63 := not_le.mp (mt (msb_iff t).mpr hmsb)
      have hdouble := mantissa_double hlt
      have hne : t.double.mantissa ≠ 0 := by omega
      have hle : 2 ^ 63 ≤ t.double.mantissa * 2 ^ k := by
        rw [hdouble, Nat.mul_assoc, ← pow_succ']
        exact h
      obtain ⟨s, hs, t', ht', hm, he⟩ := ih hne hle
      refine ⟨s + 1, by omega, t', (if_neg hmsb).trans ht', ?_, ?_⟩
      · rw [hm, hdouble, Nat.mul_assoc, ← pow_succ']
      · rw [he]
        unfold TempReal.double
        bv_omega

/-- The exponent of an integer whose mantissa has been shifted `k` times. -/
def exponentOf (sign : Bool) (k : ℕ) : BitVec 16 := 16383 + 63 + (if sign then 0x8000 else 0) - BitVec.ofNat 16 k

theorem exponentOf_spec (sign : Bool) (hk : k < 64) :
    (exponentOf sign k &&& 0x7fff).toNat = 16446 - k ∧ (exponentOf sign k).msb = sign := by
  have h : ∀ k : Fin 64, ∀ sign : Bool,
      (exponentOf sign k &&& 0x7fff).toNat = 16446 - k ∧ (exponentOf sign k).msb = sign := by decide
  exact h ⟨k, hk⟩ sign

theorem ext_magnitude {m : TempInt} (h : m.magnitude = n.magnitude) (hs : m.sign = n.sign) : m = n := by
  have hjoin : join m.a m.b = join n.a n.b := BitVec.eq_of_toNat_eq h
  obtain ⟨a, b, sign⟩ := m
  obtain ⟨a', b', sign'⟩ := n
  have ha : a = a' := by rw [← low_join a b, ← low_join a' b', hjoin]
  have hb : b = b' := by rw [← high_join a b, ← high_join a' b', hjoin]
  obtain rfl : sign = sign' := hs
  rw [ha, hb]

/-- A mantissa that is an integer shifted to the top, with its exponent, is that integer. -/
theorem realToInt_of_shifted (r : Rounding) (hk : k < 64) (hm : t.mantissa = n.magnitude * 2 ^ k)
    (he : t.exponent = exponentOf n.sign k) : (realToInt r t).1 = n := by
  obtain ⟨hexp, hsign⟩ := exponentOf_spec n.sign hk
  have hshift : shiftOf t = k := by
    unfold shiftOf
    rw [he, hexp]
    omega
  unfold TempReal.mantissa at hm
  rw [toNat_join] at hm
  unfold realToInt
  dsimp only
  rw [hshift, he, hsign, if_neg (by omega)]
  have h0 : (0 : Long).toNat = 0 := rfl
  by_cases hlt : k < 32
  · rw [if_pos (by omega), Int.toNat_natCast]
    have hexact : (t.b.toNat * 2 ^ 32 + t.a.toNat) * 2 ^ 32 + (0 : Long).toNat = n.magnitude * 2 ^ 32 * 2 ^ k := by
      rw [hm, h0]
      ring
    obtain ⟨hv, hu⟩ := shifted_exact (by omega) n.sign hexact
    exact (rounded_exact r hu).trans (ext_magnitude hv rfl)
  · rw [if_neg (by omega), if_pos (by omega), show ((k : ℤ) - 32).toNat = k - 32 by omega]
    have hexact : ((0 : Long).toNat * 2 ^ 32 + t.b.toNat) * 2 ^ 32 + t.a.toNat =
        n.magnitude * 2 ^ 32 * 2 ^ (k - 32) := by
      rw [h0, Nat.zero_mul, Nat.zero_add, hm, Nat.mul_assoc, ← pow_add]
      congr 2
      omega
    obtain ⟨hv, hu⟩ := shifted_exact (by omega) n.sign hexact
    exact (rounded_exact r hu).trans (ext_magnitude hv rfl)

/-- Every integer but a negative zero survives. -/
theorem realToInt_intToReal (r : Rounding) (h : n.magnitude ≠ 0 ∨ n.sign = false) :
    ∃ t, intToReal n = some t ∧ (realToInt r t).1 = n := by
  have hmag : n.magnitude = n.b.toNat * 2 ^ 32 + n.a.toNat := toNat_join _ _
  have hne : n.magnitude ≠ 0 ↔ n.a ≠ 0 ∨ n.b ≠ 0 := by
    rw [hmag, ← not_and_or, not_iff_not]
    constructor
    · intro h0
      exact ⟨BitVec.eq_of_toNat_eq (by change n.a.toNat = 0; omega),
        BitVec.eq_of_toNat_eq (by change n.b.toNat = 0; omega)⟩
    · rintro ⟨ha, hb⟩
      rw [ha, hb]
      rfl
  unfold intToReal
  by_cases h0 : n.a ≠ 0 ∨ n.b ≠ 0
  · rw [if_pos h0]
    have hpos := hne.mpr h0
    obtain ⟨k, hk, t, ht, hm, he⟩ := normalize_spec (k := 63)
      (t := ⟨n.a, n.b, 16383 + 63 + if n.sign then 0x8000 else 0⟩) hpos (by
        have hle := Nat.one_le_iff_ne_zero.mpr hpos
        exact le_trans (by norm_num) (Nat.mul_le_mul_right _ hle))
    exact ⟨t, ht, realToInt_of_shifted r (by omega) hm he⟩
  · rw [if_neg h0]
    refine ⟨_, rfl, ?_⟩
    have hsign := h.resolve_left (mt hne.mp h0)
    obtain ⟨ha, hb⟩ := not_or.mp h0
    obtain ⟨a, b, sign⟩ := n
    dsimp only at hsign ha hb
    rw [not_not.mp ha, not_not.mp hb, hsign]
    rfl

/-! ## Signed words -/

/-- What `get_short_int` and `get_long_int` make of a word. -/
def unsigned (a : Long) : TempInt := ⟨if a.msb then -a else a, 0, a.msb⟩

theorem unsigned_intToReal (r : Rounding) (a : Long) :
    ∃ t, intToReal (unsigned a) = some t ∧ (realToInt r t).1 = unsigned a := by
  apply realToInt_intToReal
  by_cases hmsb : a.msb
  · left
    have hmag : (unsigned a).magnitude = (-a).toNat := by
      unfold TempInt.magnitude unsigned
      rw [toNat_join, if_pos hmsb]
      exact (congrArg (· + (-a).toNat) (Nat.zero_mul _)).trans (Nat.zero_add _)
    rw [hmag]
    intro h0
    have hneg : -a = 0 := BitVec.eq_of_toNat_eq h0
    rw [BitVec.neg_eq_zero_iff.mp hneg] at hmsb
    exact absurd hmsb (by decide)
  · exact .inr (Bool.eq_false_iff.mpr hmsb)

/-- The sign is put back. -/
theorem signed_unsigned (a : Long) : (if (unsigned a).sign then -(unsigned a).a else (unsigned a).a) = a := by
  unfold unsigned
  by_cases hmsb : a.msb
  · dsimp only
    rw [if_pos hmsb, if_pos hmsb, BitVec.neg_neg]
  · dsimp only
    rw [if_neg hmsb, if_neg hmsb]

theorem long_round_trip (r : Rounding) (a : Long) : ∃ t, getLongInt a = some t ∧ putLongInt r t = a := by
  obtain ⟨t, ht, hn⟩ := unsigned_intToReal r a
  refine ⟨t, ht, ?_⟩
  unfold putLongInt
  dsimp only
  rw [hn]
  exact signed_unsigned a

theorem short_round_trip (r : Rounding) (w : BitVec 16) : ∃ t, getShortInt w = some t ∧ putShortInt r t = w := by
  obtain ⟨t, ht, hn⟩ := unsigned_intToReal r (w.signExtend 32)
  refine ⟨t, ht, ?_⟩
  unfold putShortInt
  dsimp only
  rw [hn, signed_unsigned]
  ext i hi
  rw [BitVec.getElem_setWidth, BitVec.getLsbD_signExtend, if_pos hi]
  simp [show i < 32 by omega, BitVec.getLsbD_eq_getElem hi]

theorem join_neg (n : TempInt) : join n.neg.a n.neg.b = -join n.a n.b := by
  unfold TempInt.neg TempInt.succ
  dsimp only
  rw [join_low_high, BitVec.neg_eq_not_add]
  unfold join
  rw [BitVec.not_append]
  rfl

theorem neg_neg_eq (n : TempInt) : n.neg.neg = n := by
  apply ext_magnitude
  · unfold TempInt.magnitude
    rw [join_neg, join_neg, BitVec.neg_neg]
  · rfl

theorem longlong_round_trip (r : Rounding) (a b : Long) :
    ∃ t, getLonglongInt a b = some t ∧ putLonglongInt r t = (a, b) := by
  have hround : ∃ t, getLonglongInt a b = some t ∧
      (realToInt r t).1 = if b.msb then (⟨a, b, b.msb⟩ : TempInt).neg else ⟨a, b, b.msb⟩ := by
    apply realToInt_intToReal
    by_cases hmsb : b.msb
    · left
      rw [if_pos hmsb]
      unfold TempInt.magnitude
      rw [join_neg]
      intro h0
      have hneg : -join a b = 0 := BitVec.eq_of_toNat_eq h0
      have hb : b = 0 := by
        rw [← high_join a b, BitVec.neg_eq_zero_iff.mp hneg]
        rfl
      rw [hb] at hmsb
      exact absurd hmsb (by decide)
    · rw [if_neg hmsb]
      exact .inr (Bool.eq_false_iff.mpr hmsb)
  obtain ⟨t, ht, hn⟩ := hround
  refine ⟨t, ht, ?_⟩
  unfold putLonglongInt
  dsimp only
  rw [hn]
  by_cases hmsb : b.msb
  · have hsign : (⟨a, b, b.msb⟩ : TempInt).neg.sign = true := hmsb
    rw [if_pos hmsb, if_pos hsign, neg_neg_eq]
  · rw [if_neg hmsb, if_neg hmsb]

/-! ## Decimal numbers -/

/-- The number that a byte holds. -/
def number (c : BitVec 8) : ℕ := (c >>> 4).toNat * 10 + (c &&& 0xf).toNat

/-- The number in `k` bytes from `i` on, the first one being the lowest. -/
def numberFrom (mem : ℕ → BitVec 8) : ℕ → ℕ → ℕ
  | _, 0 => 0
  | i, k + 1 => number (mem i) + 100 * numberFrom mem (i + 1) k

def Digits (c : BitVec 8) : Prop := (c >>> 4).toNat < 10 ∧ (c &&& 0xf).toNat < 10

/-- Eighteen digits and a sign, and not negative zero. -/
structure Packed (mem : ℕ → BitVec 8) : Prop where
  digits : ∀ i < 9, Digits (mem i)
  sign : mem 9 = 0 ∨ mem 9 = 0x80 ∧ ∃ i < 9, mem i ≠ 0

variable {mem mem' : ℕ → BitVec 8} {c : BitVec 8} {i j : ℕ}

theorem byte_eq (c : BitVec 8) : (c >>> 4).toNat * 16 + (c &&& 0xf).toNat = c.toNat := by
  revert c
  decide

theorem Digits.number_lt (h : Digits c) : number c < 100 := by
  obtain ⟨hhi, hlo⟩ := h
  unfold number
  omega

theorem number_eq_zero (h : number c = 0) : c = 0 := by
  apply BitVec.eq_of_toNat_eq
  have hbyte := byte_eq c
  unfold number at h
  change c.toNat = 0
  omega

theorem numberFrom_succ_last (mem : ℕ → BitVec 8) (i k : ℕ) :
    numberFrom mem i (k + 1) = numberFrom mem i k + number (mem (i + k)) * 100 ^ k := by
  induction k generalizing i with
  | zero => simp [numberFrom]
  | succ k ih =>
    rw [numberFrom, ih, numberFrom, show i + 1 + k = i + (k + 1) by omega]
    ring

theorem numberFrom_lt (h : ∀ j, i ≤ j → j < i + k → Digits (mem j)) : numberFrom mem i k < 100 ^ k := by
  induction k generalizing i with
  | zero => exact Nat.zero_lt_one
  | succ k ih =>
    have hrest := ih (i := i + 1) fun j hj hlt => h j (by omega) (by omega)
    have hfirst := (h i le_rfl (by omega)).number_lt
    rw [numberFrom, pow_succ]
    omega

theorem toNat_MUL10 (h : 10 * x.toNat < 2 ^ 64) : (MUL10 x).toNat = 10 * x.toNat := by
  unfold MUL10
  simp only [BitVec.toNat_add]
  omega

theorem toNat_ADD64 (h : x.toNat + c.toNat < 2 ^ 64) : (ADD64 c x).toNat = x.toNat + c.toNat := by
  unfold ADD64
  rw [BitVec.toNat_add, BitVec.toNat_setWidth]
  have hc := c.isLt
  omega

theorem toNat_addDigits (hc : Digits c) (h : (x.toNat + 1) * 100 ≤ 2 ^ 64) :
    (addDigits x c).toNat = x.toNat * 100 + number c := by
  obtain ⟨hhi, hlo⟩ := hc
  have h₁ : (MUL10 x).toNat = 10 * x.toNat := toNat_MUL10 (by omega)
  have h₂ : (ADD64 (c >>> 4) (MUL10 x)).toNat = 10 * x.toNat + (c >>> 4).toNat := by
    rw [toNat_ADD64, h₁]
    omega
  have h₃ : (MUL10 (ADD64 (c >>> 4) (MUL10 x))).toNat = 10 * (10 * x.toNat + (c >>> 4).toNat) := by
    rw [toNat_MUL10, h₂]
    omega
  unfold addDigits number
  rw [toNat_ADD64, h₃] <;> omega

/-- The loop of `get_BCD` shifts in the digits from the top. -/
theorem toNat_digits (hd : ∀ i < k, Digits (mem i)) (h : (x.toNat + 1) * 100 ^ k ≤ 2 ^ 64) :
    (digits mem k x).toNat = x.toNat * 100 ^ k + numberFrom mem 0 k := by
  induction k generalizing x with
  | zero => simp [digits, numberFrom]
  | succ k ih =>
    have hpow : 1 ≤ 100 ^ k := Nat.one_le_pow _ _ (by decide)
    rw [pow_succ', ← Nat.mul_assoc] at h
    have hfit : (x.toNat + 1) * 100 ≤ 2 ^ 64 := le_trans (Nat.le_mul_of_pos_right _ hpow) h
    have hadd := toNat_addDigits (hd k (by omega)) hfit
    have hlt := (hd k (by omega)).number_lt
    have hrec : ((addDigits x (mem k)).toNat + 1) * 100 ^ k ≤ 2 ^ 64 := by
      refine le_trans (Nat.mul_le_mul_right _ ?_) h
      omega
    rw [digits, ih (fun i hi => hd i (by omega)) hrec, hadd, numberFrom_succ_last, Nat.zero_add]
    ring

/-- A round of the loop of `put_BCD` gives back the lowest byte. -/
theorem digitsOf_eq {y : ℕ} (hc : Digits c) (hx : x.toNat = number c + 100 * y) :
    digitsOf x = c ∧ (x / 10 / 10).toNat = y := by
  obtain ⟨hhi, hlo⟩ := hc
  unfold number at hx
  have h10 : (10 : BitVec 64).toNat = 10 := rfl
  have hrest : (x / 10 / 10).toNat = y := by
    rw [BitVec.toNat_udiv, BitVec.toNat_udiv, h10]
    omega
  refine ⟨BitVec.eq_of_toNat_eq ?_, hrest⟩
  have hfirst : ((x % 10).setWidth 8).toNat = (c &&& 0xf).toNat := by
    rw [BitVec.toNat_setWidth, BitVec.toNat_umod, h10]
    omega
  have hsecond : ((x / 10 % 10).setWidth 8).toNat = (c >>> 4).toNat := by
    rw [BitVec.toNat_setWidth, BitVec.toNat_umod, BitVec.toNat_udiv, h10]
    omega
  have hbyte := byte_eq c
  unfold digitsOf
  rw [BitVec.toNat_add, BitVec.toNat_shiftLeft, hfirst, hsecond, Nat.shiftLeft_eq]
  omega

theorem putDigits_spec (hd : ∀ j, i ≤ j → j < i + k → Digits (mem j)) (hx : x.toNat = numberFrom mem i k) :
    putDigits k i x mem' j = if i ≤ j ∧ j < i + k then mem j else mem' j := by
  induction k generalizing i x mem' with
  | zero => exact (if_neg (by omega)).symm
  | succ k ih =>
    obtain ⟨hbyte, hrest⟩ := digitsOf_eq (hd i le_rfl (by omega)) hx
    rw [putDigits, ih (fun j hj hlt => hd j (by omega) (by omega)) hrest, hbyte]
    rcases lt_trichotomy j i with hlt | rfl | hgt
    · rw [if_neg (by omega), if_neg (by omega), update_of_ne hlt.ne]
    · rw [if_neg (by omega), if_pos (by omega), update_self]
    · by_cases hj : j < i + (k + 1)
      · rw [if_pos (by omega), if_pos (by omega)]
      · rw [if_neg (by omega), if_neg (by omega), update_of_ne hgt.ne']

theorem numberFrom_ne_zero (hi : i ≤ j) (hj : j < i + k) (hne : mem j ≠ 0) : numberFrom mem i k ≠ 0 := by
  induction k generalizing i with
  | zero => omega
  | succ k ih =>
    rw [numberFrom]
    rcases eq_or_lt_of_le hi with rfl | hlt
    · have := mt number_eq_zero hne
      omega
    · have := ih (i := i + 1) hlt (by omega)
      omega

theorem BCD_round_trip (r : Rounding) (h : Packed mem) :
    ∃ t, getBCD mem = some t ∧ ∀ mem', ∀ i < 10, putBCD r t mem' i = mem i := by
  have hx : (digits mem 9 0).toNat = numberFrom mem 0 9 := by
    rw [toNat_digits h.digits (by decide)]
    exact (congrArg (· + numberFrom mem 0 9) (Nat.zero_mul _)).trans (Nat.zero_add _)
  have hjoin : join (low (digits mem 9 0)) (high (digits mem 9 0)) = digits mem 9 0 := join_low_high _
  have hround : ∃ t, getBCD mem = some t ∧
      (realToInt r t).1 = ⟨low (digits mem 9 0), high (digits mem 9 0), 0x80 &&& mem 9 ≠ 0⟩ := by
    apply realToInt_intToReal
    rcases h.sign with h0 | ⟨-, j, hj, hne⟩
    · right
      dsimp only
      rw [h0]
      rfl
    · left
      unfold TempInt.magnitude
      dsimp only
      rw [hjoin, hx]
      exact numberFrom_ne_zero (Nat.zero_le _) (by omega) hne
  obtain ⟨t, ht, hn⟩ := hround
  refine ⟨t, ht, fun mem' i hi => ?_⟩
  unfold putBCD
  have hdigits (j : ℕ) (_ : 0 ≤ j) (hj : j < 0 + 9) : Digits (mem j) := h.digits j (by omega)
  rw [hn, hjoin, putDigits_spec hdigits hx]
  by_cases hlt : i < 9
  · exact if_pos ⟨Nat.zero_le _, by omega⟩
  · obtain rfl : i = 9 := by omega
    rw [if_neg (by omega), update_self]
    rcases h.sign with h0 | ⟨h0, -⟩
    · rw [h0]
      rfl
    · rw [h0]
      rfl

/-- Whatever is loaded as an integer or as a decimal number is stored as it was. -/
theorem integers_round_trip (r : Rounding) :
    (∀ w, ∃ t, getShortInt w = some t ∧ putShortInt r t = w) ∧
    (∀ a, ∃ t, getLongInt a = some t ∧ putLongInt r t = a) ∧
    (∀ a b, ∃ t, getLonglongInt a b = some t ∧ putLonglongInt r t = (a, b)) ∧
    ∀ mem, Packed mem → ∃ t, getBCD mem = some t ∧ ∀ mem', ∀ i < 10, putBCD r t mem' i = mem i :=
  ⟨short_round_trip r, long_round_trip r, longlong_round_trip r, fun _ h => BCD_round_trip r h⟩

/-- Minus one. -/
def minusOne (i : ℕ) : BitVec 8 := if i = 0 then 1 else if i = 9 then 0x80 else 0

theorem minusOne_packed : Packed minusOne := by
  refine ⟨?_, .inr ⟨rfl, 0, by decide, by decide⟩⟩
  unfold Digits
  decide

theorem minusOne_round_trip :
    ∃ t, getBCD minusOne = some t ∧ ∀ mem', ∀ i < 10, putBCD .up t mem' i = minusOne i :=
  (integers_round_trip .up).2.2.2 minusOne minusOne_packed

end Linux012.Math
