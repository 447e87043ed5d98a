import Linux012.Kernel.Math.Arith
import Linux012.Kernel.Math.Values
import Linux012.Kernel.Math.Reals

/-! # Products and quotients

The product of two mantissas has 128 bits, of which 64 are kept; the quotient is found bit by bit.
-/

namespace Linux012.Math

open Carries Roundings

variable {a b c : Quad} {s t : TempReal} {i k : ℕ} {swd : Long}

/-! ## Numbers of four words -/

def Quad.toNat (c : Quad) : ℕ :=
  c.c0.toNat + 2 ^ 32 * c.c1.toNat + 2 ^ 64 * c.c2.toNat + 2 ^ 96 * c.c3.toNat

theorem Quad.toNat_lt (c : Quad) : c.toNat < 2 ^ 128 := by
  unfold Quad.toNat
  have h0 := c.c0.isLt
  have h1 := c.c1.isLt
  have h2 := c.c2.isLt
  have h3 := c.c3.isLt
  omega

theorem Quad.msb_iff (c : Quad) : c.c3.msb ↔ 2 ^ 127 ≤ c.toNat := by
  unfold Quad.toNat
  rw [BitVec.msb_eq_decide, decide_eq_true_iff]
  have h0 := c.c0.isLt
  have h1 := c.c1.isLt
  have h2 := c.c2.isLt
  omega

theorem toNat_shift (h : c.toNat < 2 ^ 127) : c.shift.toNat = 2 * c.toNat := by
  unfold Quad.shift
  have h0 := adc_spec (by decide) c.c0 c.c0 false
  have h1 := adc_spec (by decide) c.c1 c.c1 (adc c.c0 c.c0 false).2
  have h2 := adc_spec (by decide) c.c2 c.c2 (adc c.c1 c.c1 (adc c.c0 c.c0 false).2).2
  have h3 := adc_spec (by decide) c.c3 c.c3 (adc c.c2 c.c2 (adc c.c1 c.c1 (adc c.c0 c.c0 false).2).2).2
  dsimp only
  unfold Quad.toNat at h ⊢
  dsimp only
  rw [Bool.toNat_false] at h0
  have hc := c.c3.isLt
  omega

theorem toNat_shiftRight (c : Quad) : c.shiftRight.toNat = c.toNat / 2 := by
  unfold Quad.shiftRight
  have h3 := rcr_spec (by decide) c.c3 false
  have h2 := rcr_spec (by decide) c.c2 (rcr c.c3 false).2
  have h1 := rcr_spec (by decide) c.c1 (rcr c.c2 (rcr c.c3 false).2).2
  have h0 := rcr_spec (by decide) c.c0 (rcr c.c1 (rcr c.c2 (rcr c.c3 false).2).2).2
  have hlast := (rcr c.c0 (rcr c.c1 (rcr c.c2 (rcr c.c3 false).2).2).2).2.toNat_le
  dsimp only
  unfold Quad.toNat
  dsimp only
  rw [Bool.toNat_false] at h3
  omega

theorem trySub_spec (a b : Quad) :
    ((trySub a b).2 = true ↔ a.toNat ≤ b.toNat) ∧
      (a.toNat ≤ b.toNat → (trySub a b).1.toNat = b.toNat - a.toNat) := by
  unfold trySub
  have h0 := sbb_spec (by decide) b.c0 a.c0 false
  have h1 := sbb_spec (by decide) b.c1 a.c1 (sbb b.c0 a.c0 false).2
  have h2 := sbb_spec (by decide) b.c2 a.c2 (sbb b.c1 a.c1 (sbb b.c0 a.c0 false).2).2
  have h3 := sbb_spec (by decide) b.c3 a.c3 (sbb b.c2 a.c2 (sbb b.c1 a.c1 (sbb b.c0 a.c0 false).2).2).2
  generalize hborrow : sbb b.c3 a.c3 (sbb b.c2 a.c2 (sbb b.c1 a.c1 (sbb b.c0 a.c0 false).2).2).2 = last at *
  have hlast := (⟨(sbb b.c0 a.c0 false).1, (sbb b.c1 a.c1 (sbb b.c0 a.c0 false).2).1,
    (sbb b.c2 a.c2 (sbb b.c1 a.c1 (sbb b.c0 a.c0 false).2).2).1, last.1⟩ : Quad).toNat_lt
  have hb := b.toNat_lt
  dsimp only
  rw [hborrow]
  unfold Quad.toNat at *
  dsimp only at *
  rw [Bool.toNat_false] at h0
  cases hl : last.2 with
  | false =>
    rw [hl, Bool.toNat_false] at h3
    exact ⟨iff_of_true rfl (by omega), fun _ => by omega⟩
  | true =>
    rw [hl, Bool.toNat_true] at h3
    exact ⟨iff_of_false (by decide) (by omega), fun _ => by omega⟩

theorem toNat_addMiddle {eax edx : Long} (h : c.toNat + 2 ^ 32 * (eax.toNat + 2 ^ 32 * edx.toNat) < 2 ^ 128) :
    (c.addMiddle eax edx).toNat = c.toNat + 2 ^ 32 * (eax.toNat + 2 ^ 32 * edx.toNat) := by
  unfold Quad.addMiddle
  have h1 := adc_spec (by decide) c.c1 eax false
  have h2 := adc_spec (by decide) c.c2 edx (adc c.c1 eax false).2
  have h3 := adc_spec (by decide) c.c3 0 (adc c.c2 edx (adc c.c1 eax false).2).2
  rw [show (0 : Long).toNat = 0 from rfl] at h3
  dsimp only
  unfold Quad.toNat at h ⊢
  dsimp only
  rw [Bool.toNat_false] at h1
  have hc := c.c3.isLt
  omega

/-- The four partial products make up the product. -/
theorem toNat_mul64 (s t : TempReal) : (mul64 s t).toNat = s.mantissa * t.mantissa := by
  have hs : s.mantissa = s.b.toNat * 2 ^ 32 + s.a.toNat := toNat_join ..
  have ht : t.mantissa = t.b.toNat * 2 ^ 32 + t.a.toNat := toNat_join ..
  have hlow := mul_spec s.a t.a
  have hhigh := mul_spec s.b t.b
  have hfirst := mul_spec s.a t.b
  have hsecond := mul_spec s.b t.a
  have hprod : s.mantissa * t.mantissa = s.a.toNat * t.a.toNat + 2 ^ 32 * (s.a.toNat * t.b.toNat) +
      2 ^ 32 * (s.b.toNat * t.a.toNat) + 2 ^ 64 * (s.b.toNat * t.b.toNat) := by
    rw [hs, ht]
    ring
  have hlt : s.mantissa * t.mantissa < 2 ^ 128 := by
    calc s.mantissa * t.mantissa < 2 ^ 64 * 2 ^ 64 := Nat.mul_lt_mul'' s.mantissa_lt t.mantissa_lt
      _ = 2 ^ 128 := by norm_num
  rw [hprod, ← hlow, ← hhigh, ← hfirst, ← hsecond] at hlt
  have hstart : (⟨(mul s.a t.a).1, (mul s.a t.a).2, (mul s.b t.b).1, (mul s.b t.b).2⟩ : Quad).toNat =
      (mul s.a t.a).1.toNat + 2 ^ 32 * (mul s.a t.a).2.toNat +
        2 ^ 64 * ((mul s.b t.b).1.toNat + 2 ^ 32 * (mul s.b t.b).2.toNat) := by
    unfold Quad.toNat
    dsimp only
    omega
  unfold mul64
  dsimp only
  rw [toNat_addMiddle, toNat_addMiddle, hstart, hprod, ← hlow, ← hhigh, ← hfirst, ← hsecond]
  · omega
  · rw [hstart]
    omega
  · rw [toNat_addMiddle, hstart]
    · omega
    · rw [hstart]
      omega

theorem Quad.ext_toNat {c c' : Quad} (h : c.toNat = c'.toNat) : c = c' := by
  have hw : ∀ d : Quad, d.c0.toNat < 2 ^ 32 ∧ d.c1.toNat < 2 ^ 32 ∧ d.c2.toNat < 2 ^ 32 ∧ d.c3.toNat < 2 ^ 32 :=
    fun d => ⟨d.c0.isLt, d.c1.isLt, d.c2.isLt, d.c3.isLt⟩
  obtain ⟨h0, h1, h2, h3⟩ := hw c
  obtain ⟨h0', h1', h2', h3'⟩ := hw c'
  unfold Quad.toNat at h
  have e0 : c.c0 = c'.c0 := BitVec.eq_of_toNat_eq (by omega)
  have e1 : c.c1 = c'.c1 := BitVec.eq_of_toNat_eq (by omega)
  have e2 : c.c2 = c'.c2 := BitVec.eq_of_toNat_eq (by omega)
  have e3 : c.c3 = c'.c3 := BitVec.eq_of_toNat_eq (by omega)
  cases c
  cases c'
  cases e0
  cases e1
  cases e2
  cases e3
  rfl

theorem mul64_comm (s t : TempReal) : mul64 s t = mul64 t s := by
  apply Quad.ext_toNat
  rw [toNat_mul64, toNat_mul64, Nat.mul_comm]

theorem fmul_comm (s t : TempReal) (swd : Long) : fmul s t swd = fmul t s swd := by
  have hsign : signOf s t = signOf t s := by
    unfold signOf
    rw [BitVec.xor_comm]
  unfold fmul
  dsimp only
  rw [hsign, mul64_comm, add_comm ((s.exponent &&& 0x7fff).toNat : ℤ)]

theorem any_iff (c : Quad) : c.any ↔ c.toNat ≠ 0 := by
  unfold Quad.any Quad.toNat
  rw [decide_eq_true_iff]
  simp only [Ne, ← BitVec.toNat_inj]
  have h0 : (0 : Long).toNat = 0 := rfl
  rw [h0]
  omega

/-! ## Normalising -/

/-- The loop shifts until the exponent is 0 or the upper bit is set. -/
theorem normalizeQuad_spec (i : ℕ) (c : Quad) :
    ∃ k ≤ i, (normalizeQuad i c).1 = i - k ∧ (normalizeQuad i c).2.toNat = c.toNat * 2 ^ k ∧
      (k = i ∨ (normalizeQuad i c).2.c3.msb) := by
  induction i generalizing c with
  | zero => exact ⟨0, le_rfl, rfl, (Nat.mul_one _).symm, .inl rfl⟩
  | succ i ih =>
    unfold normalizeQuad
    by_cases hmsb : c.c3.msb
    · rw [if_pos hmsb]
      exact ⟨0, Nat.zero_le _, rfl, (Nat.mul_one _).symm, .inr hmsb⟩
    · rw [if_neg hmsb]
      have hlt : c.toNat < 2 ^ 127 := not_le.mp (mt (Quad.msb_iff c).mpr hmsb)
      obtain ⟨k, hk, h1, h2, h3⟩ := ih c.shift
      have hpow : c.shift.toNat * 2 ^ k = c.toNat * 2 ^ (k + 1) := by
        rw [toNat_shift hlt, pow_succ]
        ring
      exact ⟨k + 1, by omega, by omega, h2.trans hpow, h3.imp (congrArg (· + 1)) id⟩

/-! ## The quotient -/

/-- Where the next bit of the quotient stands is `index` words and `j` bits up. -/
def Division.At (d : Division) (pos : ℕ) : Prop :=
  ∃ j < 32, d.mask.toNat = 2 ^ j ∧ d.index * 32 + j = pos

variable {d : Division} {pos A B Q : ℕ}

theorem Division.At.next (h : d.At (pos + 1)) (hpos : 32 ≤ pos) : d.next.At pos := by
  obtain ⟨j, hj, hmask, hidx⟩ := h
  have hhalf : (d.mask >>> 1).toNat = 2 ^ j / 2 := by
    rw [BitVec.toNat_ushiftRight, Nat.shiftRight_eq_div_pow, pow_one, hmask]
  unfold Division.next
  cases j with
  | zero =>
    rw [if_pos (BitVec.eq_of_toNat_eq hhalf)]
    exact ⟨31, by decide, rfl, by dsimp only; omega⟩
  | succ j =>
    have hval : (d.mask >>> 1).toNat = 2 ^ j := by
      rw [hhalf, pow_succ]
      omega
    have hne : d.mask >>> 1 ≠ 0 := by
      intro h0
      rw [h0] at hval
      exact absurd hval.symm (by positivity)
    rw [if_neg hne]
    exact ⟨j, by omega, hval, by dsimp only; omega⟩

/-- A bit is set that was clear. -/
theorem toNat_or_bit {x mask : Long} {j q : ℕ} (hx : x.toNat = 2 ^ (j + 1) * q) (hmask : mask.toNat = 2 ^ j) :
    (x ||| mask).toNat = x.toNat + 2 ^ j := by
  rw [BitVec.toNat_or, hx, hmask]
  exact (Nat.two_pow_add_eq_or_of_lt (Nat.pow_lt_pow_right one_lt_two (Nat.lt_succ_self j)) q).symm

theorem toNat_orWord (h : d.At pos) (hpos : 64 ≤ pos) (hpos' : pos < 128) (hc : c.toNat = Q * 2 ^ (pos + 1)) :
    (c.orWord d.index d.mask).toNat = c.toNat + 2 ^ pos := by
  obtain ⟨j, hj, hmask, hidx⟩ := h
  have h0 := c.c0.isLt
  have h1 := c.c1.isLt
  have h2 := c.c2.isLt
  have hindex : d.index = 2 ∨ d.index = 3 := by omega
  rcases hindex with hindex | hindex
  · obtain rfl : pos = 64 + j := by omega
    have hval : c.toNat = 2 ^ 64 * (2 ^ (j + 1) * Q) := by
      rw [hc, add_assoc, pow_add]
      ring
    have hword : c.c2.toNat = 2 ^ (j + 1) * (Q % 2 ^ (31 - j)) := by
      have hmod : c.c2.toNat = 2 ^ (j + 1) * Q % 2 ^ 32 := by
        unfold Quad.toNat at hval
        omega
      rw [hmod, show 2 ^ 32 = 2 ^ (j + 1) * 2 ^ (31 - j) by rw [← pow_add]; congr 1; omega, Nat.mul_mod_mul_left]
    rw [hindex]
    change (⟨c.c0, c.c1, c.c2 ||| d.mask, c.c3⟩ : Quad).toNat = _
    unfold Quad.toNat
    rw [toNat_or_bit hword hmask, pow_add]
    dsimp only
    omega
  · obtain rfl : pos = 96 + j := by omega
    have hval : c.toNat = 2 ^ 96 * (2 ^ (j + 1) * Q) := by
      rw [hc, add_assoc, pow_add]
      ring
    have hword : c.c3.toNat = 2 ^ (j + 1) * Q := by
      unfold Quad.toNat at hval
      omega
    rw [hindex]
    change (⟨c.c0, c.c1, c.c2, c.c3 ||| d.mask⟩ : Quad).toNat = _
    unfold Quad.toNat
    rw [toNat_or_bit hword hmask, pow_add]
    dsimp only
    omega

/-- After `k` rounds: `A` is divided by twice `b`, and the quotient stands at the top of `c`. -/
structure Division.Inv (A B k : ℕ) (d : Division) (Q : ℕ) : Prop where
  position : (k = 0 ∧ d.index = 4 ∧ d.mask = 0) ∨ d.At (128 - k)
  divisor : d.b.toNat * 2 ^ k = B
  rest : A = Q * (2 * d.b.toNat) + d.a.toNat
  small : d.a.toNat < 2 * d.b.toNat
  quotient : d.c.toNat = Q * 2 ^ (128 - k)

@[simp] theorem Division.next_a (d : Division) : d.next.a = d.a := by
  unfold Division.next
  split_ifs <;> rfl

@[simp] theorem Division.next_b (d : Division) : d.next.b = d.b := by
  unfold Division.next
  split_ifs <;> rfl

@[simp] theorem Division.next_c (d : Division) : d.next.c = d.c := by
  unfold Division.next
  split_ifs <;> rfl

theorem Division.Inv.next_at (h : d.Inv A B k Q) (hk : k < 64) : d.next.At (127 - k) := by
  rcases h.position with ⟨rfl, hidx, hmask⟩ | hat
  · unfold Division.next
    rw [hmask, if_pos (by decide)]
    exact ⟨31, by decide, rfl, by dsimp only; omega⟩
  · rw [show 128 - k = 127 - k + 1 by omega] at hat
    exact hat.next (by omega)

theorem Division.Inv.round (h : d.Inv A (2 ^ 64 * B) k Q) (hk : k < 64) :
    ∃ Q', d.round.Inv A (2 ^ 64 * B) (k + 1) Q' := by
  have hat := h.next_at hk
  have hpow : 2 ^ (128 - k) = 2 * 2 ^ (127 - k) := by
    rw [← pow_succ']
    congr 1
    omega
  -- the divisor has still zeros to lose
  have heven : 2 * d.b.shiftRight.toNat = d.b.toNat := by
    have hdiv := h.divisor
    rw [show 2 ^ 64 = 2 * 2 ^ (63 - k) * 2 ^ k by rw [← pow_succ', ← pow_add]; congr 1; omega,
      Nat.mul_right_comm _ _ B] at hdiv
    have hb := Nat.eq_of_mul_eq_mul_right (by positivity) hdiv
    rw [toNat_shiftRight, hb, Nat.mul_assoc]
    omega
  have hnew : d.b.shiftRight.toNat * 2 ^ (k + 1) = 2 ^ 64 * B := by
    rw [← h.divisor, ← heven, pow_succ]
    ring
  have hsub := trySub_spec d.b d.a
  have hrest := h.rest
  have hsmall := h.small
  unfold Division.round
  dsimp only
  rw [d.next_a, d.next_b]
  generalize htry : trySub d.b d.a = res at hsub
  obtain ⟨tmp, ok⟩ := res
  cases ok with
  | true =>
    have hle : d.b.toNat ≤ d.a.toNat := hsub.1.mp rfl
    have htmp := hsub.2 hle
    dsimp only at htmp ⊢
    refine ⟨2 * Q + 1, .inr (by rw [show 128 - (k + 1) = 127 - k by omega]; exact hat), hnew, ?_, ?_, ?_⟩
    · dsimp only
      rw [heven, htmp]
      have hmul : Q * (2 * d.b.toNat) = 2 * Q * d.b.toNat := by ring
      rw [add_mul, one_mul]
      omega
    · dsimp only
      rw [heven, htmp]
      omega
    · dsimp only
      rw [toNat_orWord hat (by omega) (by omega) (Q := Q), d.next_c, h.quotient, hpow]
      · rw [show 128 - (k + 1) = 127 - k by omega]
        ring
      · rw [d.next_c, h.quotient, show 127 - k + 1 = 128 - k by omega]
  | false =>
    have hlt : d.a.toNat < d.b.toNat := by
      by_contra hge
      exact absurd (hsub.1.mpr (not_lt.mp hge)) Bool.false_ne_true
    simp only [d.next_a, d.next_b, d.next_c]
    refine ⟨2 * Q, .inr (by rw [show 128 - (k + 1) = 127 - k by omega]; exact hat), hnew, ?_, ?_, ?_⟩
    · dsimp only
      rw [heven, hrest]
      ring
    · dsimp only
      rw [heven]
      exact hlt
    · dsimp only
      rw [h.quotient, hpow, show 128 - (k + 1) = 127 - k by omega]
      ring

/-- The quotient of two numbers in the upper words, with 63 bits after the point. -/
theorem div64_spec {m n : ℕ} (ha : a.toNat = m * 2 ^ 64) (hb : b.toNat = n * 2 ^ 64) (hlt : m < 2 * n) :
    (div64 a b).toNat = m * 2 ^ 63 / n * 2 ^ 64 := by
  have hinv : ∀ k ≤ 64, ∃ Q,
      (Division.round^[k] ⟨a, b, ⟨0, 0, 0, 0⟩, 4, 0⟩).Inv (m * 2 ^ 64) (2 ^ 64 * n) k Q := by
    intro k hk
    induction k with
    | zero =>
      refine ⟨0, .inl ⟨rfl, rfl, rfl⟩, ?_, ?_, ?_, ?_⟩
      · exact (Nat.mul_one _).trans (hb.trans (Nat.mul_comm _ _))
      · exact ha.symm.trans (by rw [Nat.zero_mul, Nat.zero_add]; rfl)
      · change a.toNat < 2 * b.toNat
        omega
      · have hzero : (⟨0, 0, 0, 0⟩ : Quad).toNat = 0 := by decide
        exact hzero.trans (Nat.zero_mul _).symm
    | succ k ih =>
      obtain ⟨Q, hQ⟩ := ih (by omega)
      rw [Function.iterate_succ_apply']
      exact hQ.round (by omega)
  obtain ⟨Q, hQ⟩ := hinv 64 le_rfl
  unfold div64
  generalize Division.round^[64] ⟨a, b, ⟨0, 0, 0, 0⟩, 4, 0⟩ = d at hQ
  have hn : d.b.toNat = n :=
    Nat.eq_of_mul_eq_mul_right (by positivity) (hQ.divisor.trans (Nat.mul_comm _ _))
  have hrest := hQ.rest
  have hsmall := hQ.small
  rw [hn] at hrest hsmall
  have hQeq : m * 2 ^ 63 / n = Q := by
    have hdiv : m * 2 ^ 64 / (2 * n) = Q := by
      rw [hrest, Nat.mul_comm Q, Nat.mul_add_div (by omega), Nat.div_eq_of_lt hsmall, Nat.add_zero]
    rw [← hdiv, show m * 2 ^ 64 = 2 * (m * 2 ^ 63) by ring, Nat.mul_div_mul_left _ _ two_pos]
  rw [hQ.quotient, hQeq]

/-! ## Results -/

theorem sign_bit (w : BitVec 16) : w &&& 0x8000 = if w.msb then 0x8000 else 0 := by
  rw [BitVec.msb_eq_getLsbD_last]
  split_ifs with h
  · ext i hi
    interval_cases i <;> simp_all
  · ext i hi
    interval_cases i <;> simp_all

theorem signOf_eq (s t : TempReal) : signOf s t = if s.exponent.msb ^^ t.exponent.msb then 0x8000 else 0 := by
  unfold signOf
  rw [sign_bit, BitVec.msb_xor]

/-- An exponent with a sign -/
theorem packed_spec (negative : Bool) (hi : i < 2 ^ 15) :
    (BitVec.ofNat 16 i ||| if negative then 0x8000 else 0).msb = negative ∧
      ((BitVec.ofNat 16 i ||| if negative then 0x8000 else 0) &&& 0x7fff).toNat = i := by
  have hval : (BitVec.ofNat 16 i).toNat = i := by
    rw [BitVec.toNat_ofNat]
    exact Nat.mod_eq_of_lt (by omega)
  have heq : (BitVec.ofNat 16 i ||| if negative then 0x8000 else 0) =
      if negative then BitVec.ofNat 16 i ||| 0x8000 else BitVec.ofNat 16 i := by
    cases negative with
    | false => exact BitVec.or_zero
    | true => rfl
  rw [heq, signed_msb negative (by omega), signed_exponent negative (by omega)]
  exact ⟨rfl, hval⟩

/-- `p` is a magnitude cut off, with an error of less than so many units in the last place. -/
structure Truncated (x : ℚ) (negative : Bool) (units : ℕ) (p : TempReal) : Prop where
  normalised : p.Normalised
  sign : p.exponent.msb = negative
  le : |p.value| ≤ x
  lt : x < |p.value| + units * p.ulp

def productExponent (s t : TempReal) : ℤ := s.biased + t.biased - 16382

def quotientExponent (s t : TempReal) : ℤ := s.biased - t.biased + 16383

theorem Truncated.of_quotient {x : ℚ} {negative : Bool} {units m d e : ℕ} {p : TempReal}
    (hn : p.Normalised) (hs : p.exponent.msb = negative) (hm : p.mantissa = m / d * 2 ^ e)
    (hx : x = (m : ℚ) / d * 2 ^ e * p.ulp) (he : 2 ^ e ≤ units) : Truncated x negative units p := by
  have hulp := p.ulp_pos
  have hpow : (0 : ℚ) < 2 ^ e := by positivity
  have hle : ((m / d : ℕ) : ℚ) ≤ (m : ℚ) / d := Nat.cast_div_le
  have hlt : (m : ℚ) / d < (m / d : ℕ) + 1 := by
    rw [← Nat.floor_div_eq_div (K := ℚ)]
    exact Nat.lt_floor_add_one _
  have hunits : (2 : ℚ) ^ e ≤ units := by exact_mod_cast he
  refine ⟨hn, hs, ?_, ?_⟩
  · rw [p.abs_value, hm, hx]
    push_cast
    gcongr
  · rw [p.abs_value, hm, hx, ← add_mul]
    push_cast
    refine mul_lt_mul_of_pos_right ?_ hulp
    calc (m : ℚ) / d * 2 ^ e < ((m / d : ℕ) + 1) * 2 ^ e := mul_lt_mul_of_pos_right hlt hpow
      _ = (m / d : ℕ) * 2 ^ e + 2 ^ e := by ring
      _ ≤ (m / d : ℕ) * 2 ^ e + units := by linarith

/-- The upper two words of a number -/
theorem upper_words (c : Quad) (e : BitVec 16) : (⟨c.c2, c.c3, e⟩ : TempReal).mantissa = c.toNat / 2 ^ 64 := by
  have hm : (⟨c.c2, c.c3, e⟩ : TempReal).mantissa = c.c3.toNat * 2 ^ 32 + c.c2.toNat := toNat_join ..
  have h0 := c.c0.isLt
  have h1 := c.c1.isLt
  rw [hm]
  unfold Quad.toNat
  omega

/-- From 2^126 on one shift at most is needed. -/
theorem normalizeQuad_of_le (hi : 1 ≤ i) (hc : 2 ^ 126 ≤ c.toNat) :
    ∃ k ≤ 1, k ≤ i ∧ (normalizeQuad i c).1 = i - k ∧ (normalizeQuad i c).2.toNat = c.toNat * 2 ^ k ∧
      (normalizeQuad i c).2.c3.msb := by
  obtain ⟨k, hk, hexp, hval, hend⟩ := normalizeQuad_spec i c
  have hlt := (normalizeQuad i c).2.toNat_lt
  rw [hval] at hlt
  have hk1 : k ≤ 1 := by
    by_contra hge
    have hpow : 2 ^ 2 ≤ 2 ^ k := Nat.pow_le_pow_right two_pos (by omega)
    have hmul : 2 ^ 126 * 2 ^ 2 ≤ c.toNat * 2 ^ k := Nat.mul_le_mul hc hpow
    omega
  refine ⟨k, hk1, hk, hexp, hval, hend.elim (fun h => ?_) id⟩
  obtain rfl : k = 1 := by omega
  rw [Quad.msb_iff, hval]
  omega

theorem fmul_accurate (hs : s.Normalised) (ht : t.Normalised) (swd : Long) (hlow : 1 ≤ productExponent s t)
    (hhigh : productExponent s t ≤ 0x7fff) :
    ∃ p, fmul s t swd = (some p, swd) ∧
      Truncated |s.value * t.value| (s.exponent.msb ^^ t.exponent.msb) 1 p := by
  obtain ⟨i, hi⟩ : ∃ i : ℕ, productExponent s t = i := ⟨_, (Int.toNat_of_nonneg (by omega)).symm⟩
  have hint : ((s.exponent &&& 0x7fff).toNat + (t.exponent &&& 0x7fff).toNat - 16383 + 1 : ℤ) = i := by
    rw [← hi]
    unfold productExponent TempReal.biased
    omega
  have hprod : 2 ^ 126 ≤ (mul64 s t).toNat := by
    rw [toNat_mul64]
    calc 2 ^ 126 = 2 ^ 63 * 2 ^ 63 := by norm_num
      _ ≤ s.mantissa * t.mantissa := Nat.mul_le_mul hs.le ht.le
  rw [hi] at hlow hhigh
  obtain ⟨k, -, hk, hexp, hval, hmsb⟩ := normalizeQuad_of_le (i := i) (by omega) hprod
  obtain ⟨hsign, hbiased⟩ := packed_spec (s.exponent.msb ^^ t.exponent.msb) (i := i - k) (by omega)
  let p : TempReal := ⟨(normalizeQuad i (mul64 s t)).2.c2, (normalizeQuad i (mul64 s t)).2.c3,
    .ofNat 16 (i - k) ||| signOf s t⟩
  have hp : fmul s t swd = (some p, swd) := by
    unfold fmul
    dsimp only
    rw [hint, if_neg (by omega), if_neg (by omega), Int.toNat_natCast, if_pos ((any_iff _).mpr (by omega)), hexp]
  refine ⟨p, hp, .of_quotient (m := (mul64 s t).toNat * 2 ^ k) (d := 2 ^ 64) (e := 0) hmsb ?_ ?_ ?_ le_rfl⟩
  · rw [← hsign, ← signOf_eq]
  · rw [pow_zero, Nat.mul_one, ← hval]
    exact upper_words _ _
  · have hulp : p.ulp = 2 ^ ((i : ℤ) - k - 16446) := by
      rw [TempReal.ulp, TempReal.biased, ← Nat.cast_sub hk, ← hbiased, ← signOf_eq]
    have hulps : s.ulp * t.ulp = 2 ^ k / 2 ^ 64 * 2 ^ ((i : ℤ) - k - 16446) := by
      unfold productExponent at hi
      unfold TempReal.ulp
      rw [← zpow_add₀ two_ne_zero, ← zpow_natCast, ← zpow_natCast, ← zpow_sub₀ two_ne_zero,
        ← zpow_add₀ two_ne_zero]
      congr 1
      push_cast
      omega
    rw [abs_mul, s.abs_value, t.abs_value, hulp, toNat_mul64]
    calc s.mantissa * s.ulp * (t.mantissa * t.ulp) = s.mantissa * t.mantissa * (s.ulp * t.ulp) := by ring
      _ = _ := by rw [hulps]; push_cast; ring

/-! ## Division -/

/-- The loop over the divisor ends for every number but 0. -/
theorem shiftDivisor_spec (h : 2 ^ 127 ≤ b.toNat * 2 ^ k) :
    ∃ l ≤ k, ∃ b', shiftDivisor (k + 1) b = some (l, b') ∧ b'.toNat = b.toNat * 2 ^ l ∧ b'.c3.msb := by
  induction k generalizing b with
  | zero =>
    have hmsb : b.c3.msb := by
      rw [Quad.msb_iff]
      omega
    exact ⟨0, le_rfl, b, if_pos hmsb, (Nat.mul_one _).symm, hmsb⟩
  | succ k ih =>
    unfold shiftDivisor
    by_cases hmsb : b.c3.msb
    · exact ⟨0, Nat.zero_le _, b, if_pos hmsb, (Nat.mul_one _).symm, hmsb⟩
    · have hdouble := toNat_shift (not_le.mp (mt (Quad.msb_iff b).mpr hmsb))
      have hpow : ∀ l, b.shift.toNat * 2 ^ l = b.toNat * 2 ^ (l + 1) := by
        intro l
        rw [hdouble, pow_succ]
        ring
      obtain ⟨l, hl, b', hb', hval, hmsb'⟩ := ih (b := b.shift) (by rwa [hpow])
      refine ⟨l + 1, by omega, b', ?_, hval.trans (hpow l), hmsb'⟩
      rw [if_neg hmsb, hb']
      rfl

theorem toNat_upper (t : TempReal) : (⟨0, 0, t.a, t.b⟩ : Quad).toNat = t.mantissa * 2 ^ 64 := by
  have hm : t.mantissa = t.b.toNat * 2 ^ 32 + t.a.toNat := toNat_join ..
  have h0 : (0 : Long).toNat = 0 := rfl
  unfold Quad.toNat
  dsimp only
  rw [hm, h0]
  omega

theorem fdiv_accurate (hs : s.Normalised) (ht : t.Normalised) (swd : Long) (hlow : 1 ≤ quotientExponent s t)
    (hhigh : quotientExponent s t ≤ 0x7fff) :
    ∃ p swd', fdiv s t swd = some (some p, swd') ∧
      Truncated |s.value / t.value| (s.exponent.msb ^^ t.exponent.msb) 2 p := by
  obtain ⟨i, hi⟩ : ∃ i : ℕ, quotientExponent s t = i := ⟨_, (Int.toNat_of_nonneg (by omega)).symm⟩
  have hint : ((s.exponent &&& 0x7fff).toNat - (t.exponent &&& 0x7fff).toNat + 16383 : ℤ) = i := hi
  rw [hi] at hlow hhigh
  have hslt := s.mantissa_lt
  have hsle := hs.le
  have htlt := t.mantissa_lt
  have htle := ht.le
  have hquot : (div64 ⟨0, 0, s.a, s.b⟩ ⟨0, 0, t.a, t.b⟩).toNat = s.mantissa * 2 ^ 63 / t.mantissa * 2 ^ 64 :=
    div64_spec (toNat_upper s) (toNat_upper t) (by omega)
  generalize hq : div64 ⟨0, 0, s.a, s.b⟩ ⟨0, 0, t.a, t.b⟩ = q at hquot
  have hge : 2 ^ 126 ≤ q.toNat := by
    have hdiv : 2 ^ 62 ≤ s.mantissa * 2 ^ 63 / t.mantissa := by
      rw [Nat.le_div_iff_mul_le (by omega)]
      omega
    rw [hquot]
    omega
  obtain ⟨k, hk1, hk, hexp, hval, hmsb⟩ := normalizeQuad_of_le (i := i) (by omega) hge
  obtain ⟨hsign, hbiased⟩ := packed_spec (s.exponent.msb ^^ t.exponent.msb) (i := i - k) (by omega)
  let p : TempReal := ⟨(normalizeQuad i q).2.c2, (normalizeQuad i q).2.c3, .ofNat 16 (i - k) ||| signOf s t⟩
  have hp : ∃ swd', fdiv s t swd = some (some p, swd') := by
    have hne : ¬ (t.a = 0 ∧ t.b = 0) := by
      rintro ⟨-, h0⟩
      rw [TempReal.Normalised, h0] at ht
      exact absurd ht (by decide)
    have hshift : shiftDivisor 64 ⟨0, 0, t.a, t.b⟩ = some (0, ⟨0, 0, t.a, t.b⟩) := if_pos ht
    unfold fdiv
    dsimp only
    rw [if_neg hne, hint, if_neg (by omega), hshift, Option.map_some, hq, Int.toNat_natCast, Nat.add_zero]
    unfold finishDivision
    dsimp only
    rw [if_pos ((any_iff _).mpr (by omega)), hexp, if_neg (by omega)]
    exact ⟨_, rfl⟩
  obtain ⟨swd', hp⟩ := hp
  refine ⟨p, swd', hp, .of_quotient (m := s.mantissa * 2 ^ 63) (d := t.mantissa) (e := k) hmsb ?_ ?_ ?_ ?_⟩
  · rw [← hsign, ← signOf_eq]
  · refine (upper_words _ _).trans ?_
    rw [hval, hquot, Nat.mul_right_comm, Nat.mul_div_cancel _ (by positivity)]
  · have hulp : p.ulp = 2 ^ ((i : ℤ) - k - 16446) := by
      rw [TempReal.ulp, TempReal.biased, ← Nat.cast_sub hk, ← hbiased, ← signOf_eq]
    have hulps : s.ulp = 2 ^ 63 * 2 ^ k * 2 ^ ((i : ℤ) - k - 16446) * t.ulp := by
      unfold quotientExponent at hi
      unfold TempReal.ulp
      rw [← zpow_natCast, ← zpow_natCast, ← zpow_add₀ two_ne_zero, ← zpow_add₀ two_ne_zero,
        ← zpow_add₀ two_ne_zero]
      congr 1
      push_cast
      omega
    have hne : t.ulp ≠ 0 := t.ulp_pos.ne'
    rw [abs_div, s.abs_value, t.abs_value, hulp, hulps]
    push_cast
    field_simp
    norm_num
  · calc 2 ^ k ≤ 2 ^ 1 := Nat.pow_le_pow_right two_pos hk1
      _ = 2 := rfl

/-- A product is cut off at its last place, and a quotient within two units of it. -/
theorem fmul_fdiv_accurate (s t : TempReal) (hs : s.Normalised) (ht : t.Normalised) (swd : Long) :
    (1 ≤ productExponent s t → productExponent s t ≤ 0x7fff → ∃ p, fmul s t swd = (some p, swd) ∧
      Truncated |s.value * t.value| (s.exponent.msb ^^ t.exponent.msb) 1 p) ∧
    (1 ≤ quotientExponent s t → quotientExponent s t ≤ 0x7fff → ∃ p swd', fdiv s t swd = some (some p, swd') ∧
      Truncated |s.value / t.value| (s.exponent.msb ^^ t.exponent.msb) 2 p) :=
  ⟨fmul_accurate hs ht swd, fdiv_accurate hs ht swd⟩

/-- Minus one and a half -/
def minusThreeHalves : TempReal := ⟨0, 0xc0000000, 0xbfff⟩

theorem fmul_fdiv_accurate_threeHalves :
    (∃ p, fmul minusThreeHalves minusThreeHalves 0 = (some p, 0) ∧
      Truncated |minusThreeHalves.value * minusThreeHalves.value| false 1 p) ∧
    ∃ p swd', fdiv minusThreeHalves minusThreeHalves 0 = some (some p, swd') ∧
      Truncated |minusThreeHalves.value / minusThreeHalves.value| false 2 p := by
  have h := fmul_fdiv_accurate minusThreeHalves minusThreeHalves (by decide) (by decide) 0
  exact ⟨h.1 (by decide) (by decide), h.2 (by decide) (by decide)⟩

end Linux012.Math
