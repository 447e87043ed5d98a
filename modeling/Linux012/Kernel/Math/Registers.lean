import Linux012.Kernel.Math.Encodings

/-! # Arithmetic between registers

The forms of the arithmetic instructions with two registers, and when the register of the result holds what the
operation gives on the operands as they were.
-/

namespace Linux012.Math

open Function

variable {s : Emulator} {t tmp v x y : TempReal} {swd w mask : Long} {result written : Option TempReal}

/-! ## Forms -/

/-- The operations: in `sub` and `div` ST(0) comes first, in `subr` and `divr` the other
register. -/
inductive Operation | add | mul | sub | subr | div | divr
  deriving DecidableEq

/-- The escape bytes: the result goes to ST(0), to the other register, or there and ST(0) is popped. -/
inductive Escape | d8 | dc | de
  deriving DecidableEq

/-- The numbers of the cases -/
def group : Escape → Operation → BitVec 13
  | .d8, .add => 0x18
  | .d8, .mul => 0x19
  | .d8, .sub => 0x1c
  | .d8, .subr => 0x1d
  | .d8, .div => 0x1e
  | .d8, .divr => 0x1f
  | .dc, .add => 0x98
  | .dc, .mul => 0x99
  | .dc, .sub => 0x9c
  | .dc, .subr => 0x9d
  | .dc, .div => 0x9e
  | .dc, .divr => 0x9f
  | .de, .add => 0xd8
  | .de, .mul => 0xd9
  | .de, .sub => 0xdc
  | .de, .subr => 0xdd
  | .de, .div => 0xde
  | .de, .divr => 0xdf

structure Arithmetic where
  escape : Escape
  operation : Operation
  i : BitVec 3

def Arithmetic.code (f : Arithmetic) : BitVec 16 := encode (group f.escape f.operation) f.i

/-- The register that the form names -/
def Arithmetic.other (f : Arithmetic) : BitVec 16 := f.i.setWidth 16

/-- The register of the result -/
def Arithmetic.dest (f : Arithmetic) : BitVec 16 :=
  match f.escape with
  | .d8 => 0
  | .dc | .de => f.other

def Arithmetic.pops (f : Arithmetic) : ℕ :=
  match f.escape with
  | .d8 | .dc => 0
  | .de => 1

/-- The routine of an operation, with the result if there is one and the status word -/
def Operation.apply (st0 sti : TempReal) (swd : Long) : Operation → Option (Option TempReal × Long)
  | add => (fadd st0 sti).map fun t => (some t, swd)
  | mul => some (fmul st0 sti swd)
  | sub => (fadd st0 sti.neg).map fun t => (some t, swd)
  | subr => (fadd sti st0.neg).map fun t => (some t, swd)
  | div => fdiv st0 sti swd
  | divr => fdiv sti st0 swd

/-- After the instruction the destination holds `v`, no other register of the stack has changed, and the status
word is that of the operation, popped if the form pops. -/
def Arithmetic.Leaves (f : Arithmetic) (s : Emulator) (v : TempReal) (swd : Long) (tmp : TempReal) : Prop :=
  ∃ s', doEmu tmp s = .ok () s' ∧ s'.i387.stSpace = update s.i387.stSpace (s.i387.index f.dest) v ∧
    s'.i387.swd = fpopSwd^[f.pops] swd

/-- A value that does not depend on what `tmp` holds is stored, and it is the result of the operation on the
operands before the instruction where that has one. -/
def Arithmetic.Agrees (f : Arithmetic) (s : Emulator) : Prop :=
  ∃ result swd v, f.operation.apply (s.i387.st 0) (s.i387.st f.other) s.i387.busy.swd = some (result, swd) ∧
    (∀ r, result = some r → v = r) ∧ ∀ tmp, f.Leaves s v swd tmp

/-! ## The condition -/

/-- The digits that `div64` computes: the divisor has been shifted up. -/
def quotientDigits (m n : ℕ) : ℕ := m * 2 ^ 63 / (n * 2 ^ (63 - n.log2))

/-- The divisor is not 0 and the exponent of the quotient, once it is normalised, fits. -/
def Divides (x y : TempReal) : Prop :=
  y.mantissa ≠ 0 ∧ (quotientDigits x.mantissa y.mantissa = 0 ∨
    x.biased + 16383 + (quotientDigits x.mantissa y.mantissa).log2 ≤ 0x7fff + y.biased + y.mantissa.log2)

instance (x y : TempReal) : Decidable (Divides x y) := inferInstanceAs (Decidable (_ ∧ _))

/-- When a form agrees. The forms that change a sign in place do with different registers, and with a number whose
mantissa is lost. -/
def Arithmetic.InRange (f : Arithmetic) (st0 sti : TempReal) : Prop :=
  match f.operation, f.escape with
  | .add, _ => True
  | .mul, _ => st0.biased + sti.biased ≤ 0x7fff + 16382
  | .sub, .d8 => True
  | .sub, _ => f.i ≠ 0 ∨ st0.mantissa < 4
  | .subr, .d8 => f.i ≠ 0 ∨ st0.mantissa < 4
  | .subr, _ => True
  | .div, _ => Divides st0 sti
  | .divr, _ => Divides sti st0

/-! ## Results that are written -/

theorem top_set_OE (swd : Long) : top (set_OE swd) = top swd := top_or (by decide) swd

theorem top_set_DE (swd : Long) : top (set_DE swd) = top swd := top_or (by decide) swd

theorem top_set_PE (swd : Long) : top (set_PE swd) = top swd := top_or (by decide) swd

theorem top_ite {p : Prop} [Decidable p] (h : top w = top swd) : top (if p then w else swd) = top swd := by
  split_ifs
  · exact h
  · rfl

theorem fmul_spec (x y : TempReal) (swd : Long) : top (fmul x y swd).2 = top swd ∧
    ((fmul x y swd).1.isSome ↔ x.biased + y.biased ≤ 0x7fff + 16382) := by
  have hsum : ((x.exponent &&& 0x7fff).toNat + (y.exponent &&& 0x7fff).toNat - 16383 + 1 : ℤ) =
      ((x.biased + y.biased : ℕ) : ℤ) - 16382 := by
    unfold TempReal.biased
    push_cast
    ring
  unfold fmul
  dsimp only
  rw [hsum]
  by_cases hneg : ((x.biased + y.biased : ℕ) : ℤ) - 16382 < 0
  · rw [if_pos hneg]
    exact ⟨rfl, iff_of_true rfl (by omega)⟩
  · rw [if_neg hneg]
    by_cases hbig : 0x7fff < ((x.biased + y.biased : ℕ) : ℤ) - 16382
    · rw [if_pos hbig]
      exact ⟨top_set_OE swd, iff_of_false Bool.false_ne_true (by omega)⟩
    · rw [if_neg hbig]
      exact ⟨rfl, iff_of_true rfl (by omega)⟩

theorem log2_of_bounds {n k : ℕ} (hlow : 2 ^ k ≤ n) (hhigh : n < 2 ^ (k + 1)) : n.log2 = k := by
  have hne : n ≠ 0 := by
    rintro rfl
    exact absurd hlow (not_le.mpr (by positivity))
  exact (Nat.log2_eq_iff hne).mpr ⟨hlow, hhigh⟩

/-- Whether the exponent fits after the loop -/
theorem normalizeQuad_fits {i : ℕ} {c : Quad} (hc : c.toNat ≠ 0) :
    (normalizeQuad i c).1 ≤ 0x7fff ↔ i + c.toNat.log2 ≤ 0x7fff + 127 := by
  obtain ⟨k, hk, hexp, hval, hend⟩ := normalizeQuad_spec i c
  have hlt := (normalizeQuad i c).2.toNat_lt
  have hlog : c.toNat.log2 + k ≤ 127 := by
    have hle : 2 ^ (c.toNat.log2 + k) ≤ c.toNat * 2 ^ k := by
      rw [pow_add]
      exact Nat.mul_le_mul_right _ (Nat.log2_self_le hc)
    rw [← hval] at hle
    have hpow := lt_of_le_of_lt hle hlt
    have := (Nat.pow_lt_pow_iff_right (by decide : 1 < 2)).mp hpow
    omega
  rw [hexp]
  rcases hend with rfl | hmsb
  · exact iff_of_true (by omega) (by omega)
  · have hge : 2 ^ 127 ≤ c.toNat * 2 ^ k := by
      rw [← hval]
      exact (Quad.msb_iff _).mp hmsb
    have hlog' : 127 ≤ c.toNat.log2 + k := by
      have hlt' : c.toNat * 2 ^ k < 2 ^ (c.toNat.log2 + 1 + k) := by
        rw [pow_add]
        exact Nat.mul_lt_mul_of_pos_right Nat.lt_log2_self (by positivity)
      have := (Nat.pow_lt_pow_iff_right (by decide : 1 < 2)).mp (lt_of_le_of_lt hge hlt')
      omega
    omega

theorem finishDivision_spec (i : ℕ) (sign : BitVec 16) (c : Quad) (swd : Long) :
    top (finishDivision i sign c swd).2 = top swd ∧
      ((finishDivision i sign c swd).1.isSome ↔ c.toNat = 0 ∨ i + c.toNat.log2 ≤ 0x7fff + 127) := by
  have hfits : (if c.any then normalizeQuad i c else (0, c)).1 ≤ 0x7fff ↔
      c.toNat = 0 ∨ i + c.toNat.log2 ≤ 0x7fff + 127 := by
    by_cases hany : c.toNat = 0
    · rw [if_neg (mt (any_iff c).mp (not_not.mpr hany))]
      exact iff_of_true (Nat.zero_le _) (.inl hany)
    · rw [if_pos ((any_iff c).mpr hany), normalizeQuad_fits hany, or_iff_right hany]
  unfold finishDivision
  dsimp only
  generalize (if c.any then normalizeQuad i c else (0, c)) = q at hfits
  by_cases hbig : 0x7fff < q.1
  · rw [if_pos hbig]
    refine ⟨?_, iff_of_false Bool.false_ne_true (mt hfits.mpr (not_le.mpr hbig))⟩
    exact (top_set_OE _).trans (top_ite (top_set_DE swd))
  · rw [if_neg hbig]
    refine ⟨?_, iff_of_true rfl (hfits.mp (not_lt.mp hbig))⟩
    exact (top_ite (top_set_PE _)).trans (top_ite (top_set_DE swd))

theorem log2_mul_two_pow {n k : ℕ} (h : n ≠ 0) : (n * 2 ^ k).log2 = n.log2 + k := by
  apply log2_of_bounds
  · rw [pow_add]
    exact Nat.mul_le_mul_right _ (Nat.log2_self_le h)
  · rw [show n.log2 + k + 1 = n.log2 + 1 + k by omega, pow_add]
    exact Nat.mul_lt_mul_of_pos_right Nat.lt_log2_self (by positivity)

/-- The divisor is shifted until its upper bit is set. -/
theorem shiftDivisor_log2 {y : TempReal} (hm : y.mantissa ≠ 0) : ∃ b,
    shiftDivisor 64 ⟨0, 0, y.a, y.b⟩ = some (63 - y.mantissa.log2, b) ∧
      b.toNat = y.mantissa * 2 ^ (63 - y.mantissa.log2) * 2 ^ 64 ∧ 2 ^ 127 ≤ b.toNat := by
  have hroom : 2 ^ 127 ≤ (⟨0, 0, y.a, y.b⟩ : Quad).toNat * 2 ^ 63 := by
    rw [toNat_upper]
    omega
  obtain ⟨k, -, b, hshift, hval, hmsb⟩ := shiftDivisor_spec hroom
  have hval' : b.toNat = y.mantissa * 2 ^ k * 2 ^ 64 := by
    rw [hval, toNat_upper]
    ring
  have hge := (Quad.msb_iff b).mp hmsb
  have hk : k = 63 - y.mantissa.log2 := by
    have hlt := b.toNat_lt
    rw [hval'] at hge hlt
    have hlog : (y.mantissa * 2 ^ k).log2 = 63 := log2_of_bounds (by omega) (by omega)
    rw [log2_mul_two_pow hm] at hlog
    omega
  subst hk
  exact ⟨b, hshift, hval', hge⟩

theorem fdiv_spec (x y : TempReal) (swd : Long) : ∃ result w, fdiv x y swd = some (result, w) ∧ top w = top swd ∧
    (result.isSome ↔ Divides x y) := by
  unfold fdiv
  dsimp only
  by_cases hzero : y.a = 0 ∧ y.b = 0
  · have hm : y.mantissa = 0 := congrArg BitVec.toNat ((words_eq_zero_iff y).mp hzero)
    rw [if_pos hzero]
    exact ⟨none, _, rfl, top_or (by decide) swd, iff_of_false Bool.false_ne_true fun h => h.1 hm⟩
  · have hm : y.mantissa ≠ 0 := fun h => hzero ((words_eq_zero_iff y).mpr (BitVec.eq_of_toNat_eq h))
    have hylog : y.mantissa.log2 < 64 := (Nat.log2_lt hm).mpr y.mantissa_lt
    have hbiased : y.biased < 2 ^ 15 := by
      unfold TempReal.biased
      rw [BitVec.toNat_and]
      exact lt_of_le_of_lt Nat.and_le_right (by decide)
    obtain ⟨b, hshift, hval, hge⟩ := shiftDivisor_log2 hm
    have hdiv : (div64 ⟨0, 0, x.a, x.b⟩ b).toNat = quotientDigits x.mantissa y.mantissa * 2 ^ 64 := by
      have hxlt := x.mantissa_lt
      exact div64_spec (toNat_upper x) hval (by omega)
    have hsum : ((x.exponent &&& 0x7fff).toNat - (y.exponent &&& 0x7fff).toNat + 16383 : ℤ) =
        (x.biased : ℤ) - y.biased + 16383 := rfl
    rw [if_neg hzero, hsum]
    generalize hq : div64 ⟨0, 0, x.a, x.b⟩ b = q at hdiv
    have hqlt := q.toNat_lt
    generalize hdigits : quotientDigits x.mantissa y.mantissa = d at hdiv
    have hiff : Divides x y ↔ d = 0 ∨ x.biased + 16383 + d.log2 ≤ 0x7fff + y.biased + y.mantissa.log2 := by
      unfold Divides
      rw [hdigits, and_iff_right hm]
    by_cases hneg : (x.biased : ℤ) - y.biased + 16383 < 0
    · rw [if_pos hneg]
      refine ⟨_, _, rfl, top_or (by decide) swd, iff_of_true rfl (hiff.mpr ?_)⟩
      by_cases h0 : d = 0
      · exact .inl h0
      · have hdlog : d.log2 < 64 := (Nat.log2_lt h0).mpr (by omega)
        right
        omega
    · rw [if_neg hneg, hshift, Option.map_some, hq]
      obtain ⟨htop, hsome⟩ := finishDivision_spec
        (((x.biased : ℤ) - y.biased + 16383).toNat + (63 - y.mantissa.log2)) (signOf x y) q swd
      generalize finishDivision _ (signOf x y) q swd = r at htop hsome ⊢
      obtain ⟨result, w⟩ := r
      refine ⟨result, w, rfl, htop, hsome.trans (.trans ?_ hiff.symm)⟩
      rw [hdiv]
      by_cases h0 : d = 0
      · rw [h0]
        exact iff_of_true (.inl (Nat.zero_mul _)) (.inl rfl)
      · have hne : d * 2 ^ 64 ≠ 0 := by omega
        rw [log2_mul_two_pow h0, or_iff_right hne, or_iff_right h0]
        omega

/-! ## Runs -/

/-- The status word has been set and a register written. -/
def Emulator.stored (s : Emulator) (dest : BitVec 16) (v : TempReal) (swd : Long) : Emulator :=
  { s with i387 := { s.i387 with swd := swd, stSpace := update s.i387.stSpace (s.i387.index dest) v } }

theorem setST_run (htop : top w = top s.i387.swd) (dest : BitVec 16) (v : TempReal) :
    setST dest v (s.flagged w) = .ok () (s.stored dest v w) := by
  have hindex : (s.flagged w).i387.index dest = s.i387.index dest := by
    rw [I387.index_eq, I387.index_eq]
    exact congrArg (fun x : BitVec 3 => (BitVec.setWidth 3 dest + x).toFin) htop
  change EStateM.Result.ok () { s with i387 := (s.flagged w).i387.setSt dest v } = _
  unfold I387.setSt
  rw [hindex]
  rfl

/-- An operation of two registers whose result is stored -/
theorem arith_run {op : TempReal → TempReal → TempReal → Emu TempReal} {i j : BitVec 16}
    (hop : op (s.i387.st i) (s.i387.st j) tmp s = .ok v (s.flagged w)) (htop : top w = top s.i387.swd)
    (dest : BitVec 16) : arith op tmp i j dest s = .ok () (s.stored dest v w) := by
  refine (bind_ok rfl).trans ((bind_ok rfl).trans ((bind_ok hop).trans ?_))
  exact setST_run htop dest v

theorem emuAdd_run (h : fadd x y = some v) (tmp : TempReal) (s : Emulator) :
    emuAdd x y tmp s = .ok v (s.flagged s.i387.swd) := by
  unfold emuAdd
  rw [h]
  rfl

theorem emuMul_run (x y tmp : TempReal) (s : Emulator) : emuMul x y tmp s =
    .ok ((fmul x y s.i387.swd).1.getD tmp) (s.flagged (fmul x y s.i387.swd).2) := rfl

theorem emuDiv_run (h : fdiv x y s.i387.swd = some (result, w)) (tmp : TempReal) :
    emuDiv x y tmp s = .ok (result.getD tmp) (s.flagged w) := by
  unfold emuDiv
  rw [h]
  rfl

theorem subtract_run {i j : BitVec 16} (h : fadd (s.i387.st i) (s.i387.st j).neg = some v) (dest : BitVec 16) :
    subtract i j dest s = .ok () (s.stored dest v s.i387.swd) := by
  refine (bind_ok rfl).trans ((bind_ok rfl).trans ((bind_ok (emuAdd_run h _ s)).trans ?_))
  exact setST_run rfl dest v

/-- The number whose sign is changed has it changed before both operands are read. -/
theorem reverse_run {i dest : BitVec 16}
    (h : fadd ((s.i387.setSt dest (s.i387.st dest).neg).st 0) ((s.i387.setSt dest (s.i387.st dest).neg).st i) =
      some v) (tmp : TempReal) : reverse tmp i dest s = .ok () (s.stored dest v s.i387.swd) := by
  have hset : setST dest (s.i387.st dest).neg s = .ok () (s.stored dest (s.i387.st dest).neg s.i387.swd) :=
    setST_run rfl dest _
  refine (bind_ok rfl).trans ((bind_ok hset).trans ?_)
  rw [arith_run (emuAdd_run h tmp _) rfl]
  have hindex : (s.stored dest (s.i387.st dest).neg s.i387.swd).i387.index dest = s.i387.index dest := rfl
  unfold Emulator.stored at hindex ⊢
  dsimp only at hindex ⊢
  rw [hindex, update_idem]

theorem index_inj {c : I387} {i : BitVec 3} (h : i ≠ 0) : c.index (i.setWidth 16) ≠ c.index 0 := by
  rw [I387.index_eq, I387.index_eq]
  intro heq
  have hadd := (BitVec.add_left_inj (top c.swd)).mp (congrArg BitVec.ofFin heq)
  apply h
  rw [BitVec.setWidth_setWidth_of_le _ (by decide), BitVec.setWidth_eq] at hadd
  exact hadd

theorem setSt_same (c : I387) (i : BitVec 16) (v : TempReal) : (c.setSt i v).st i = v := update_self ..

theorem setSt_other {c : I387} {i j : BitVec 16} (h : c.index i ≠ c.index j) (v : TempReal) :
    (c.setSt j v).st i = c.st i := update_of_ne h ..

/-! ## The cases -/

/-- The case of a form, before the stack is popped -/
def Arithmetic.act (tmp : TempReal) (f : Arithmetic) : Emu Unit :=
  match f.operation, f.escape with
  | .add, .de => arith emuAdd tmp f.other 0 f.dest
  | .add, _ => arith emuAdd tmp 0 f.other f.dest
  | .mul, .de => arith emuMul tmp f.other 0 f.dest
  | .mul, _ => arith emuMul tmp 0 f.other f.dest
  | .sub, .d8 => subtract 0 f.other f.dest
  | .sub, _ => reverse tmp f.other f.dest
  | .subr, .d8 => reverse tmp f.other f.dest
  | .subr, _ => subtract f.other 0 f.dest
  | .div, _ => arith emuDiv tmp 0 f.other f.dest
  | .divr, _ => arith emuDiv tmp f.other 0 f.dest

/-- The case of a form -/
def Arithmetic.run (tmp : TempReal) (f : Arithmetic) : Emu Unit :=
  match f.escape with
  | .d8 | .dc => f.act tmp
  | .de => popping (f.act tmp)

theorem execute_arithmetic (tmp : TempReal) (f : Arithmetic) : execute tmp f.code = f.run tmp := by
  obtain ⟨escape, operation, i⟩ := f
  apply execute_encode
  · apply Option.isNone_iff_eq_none.mp
    revert i
    cases escape <;> cases operation <;> decide +kernel
  · cases escape <;> cases operation <;> rfl

/-- What a form stores: none where `tmp` is not written. -/
structure Arithmetic.Outcome (f : Arithmetic) (s : Emulator) (result written : Option TempReal) (w : Long) : Prop where
  apply : f.operation.apply (s.i387.st 0) (s.i387.st f.other) s.i387.swd = some (result, w)
  act : ∀ tmp, f.act tmp s = .ok () (s.stored f.dest (written.getD tmp) w)

variable {f : Arithmetic}

/-- The value that is stored is the result, if there is one. -/
def Right (result written : Option TempReal) : Prop := ∃ v, written = some v ∧ ∀ r, result = some r → v = r

theorem right_self (result : Option TempReal) : Right result result ↔ result.isSome := by
  constructor
  · rintro ⟨v, rfl, -⟩
    rfl
  · intro h
    obtain ⟨v, rfl⟩ := Option.isSome_iff_exists.mp h
    exact ⟨v, rfl, fun r hr => Option.some.inj hr⟩

theorem applied (h : fadd x y = some v) (swd : Long) :
    (fadd x y).map (fun t => (some t, swd)) = some (some v, swd) := by
  rw [h]
  rfl

theorem outcome_add (escape : Escape) (i : BitVec 3) (s : Emulator) :
    ∃ v, (Arithmetic.mk escape .add i).Outcome s (some v) (some v) s.i387.swd := by
  obtain ⟨v, hv⟩ := fadd_isSome (s.i387.st 0) (s.i387.st (i.setWidth 16))
  have hv' : fadd (s.i387.st (i.setWidth 16)) (s.i387.st 0) = some v := (fadd_comm ..).trans hv
  refine ⟨v, applied hv _, fun tmp => ?_⟩
  cases escape with
  | d8 => exact arith_run (emuAdd_run hv tmp s) rfl _
  | dc => exact arith_run (emuAdd_run hv tmp s) rfl _
  | de => exact arith_run (emuAdd_run hv' tmp s) rfl _

theorem outcome_mul (escape : Escape) (i : BitVec 3) (s : Emulator) :
    let p := fmul (s.i387.st 0) (s.i387.st (i.setWidth 16)) s.i387.swd
    (Arithmetic.mk escape .mul i).Outcome s p.1 p.1 p.2 := by
  intro p
  have htop : top p.2 = top s.i387.swd := (fmul_spec ..).1
  have hp : fmul (s.i387.st (i.setWidth 16)) (s.i387.st 0) s.i387.swd = p := fmul_comm ..
  refine ⟨rfl, fun tmp => ?_⟩
  cases escape with
  | d8 => exact arith_run (emuMul_run _ _ tmp s) htop _
  | dc => exact arith_run (emuMul_run _ _ tmp s) htop _
  | de =>
    have hop := emuMul_run (s.i387.st (i.setWidth 16)) (s.i387.st 0) tmp s
    rw [hp] at hop
    exact arith_run hop htop _

theorem outcome_div (escape : Escape) (i : BitVec 3) (s : Emulator) :
    ∃ result w, (Arithmetic.mk escape .div i).Outcome s result result w ∧
      (result.isSome ↔ Divides (s.i387.st 0) (s.i387.st (i.setWidth 16))) := by
  obtain ⟨result, w, hdiv, htop, hsome⟩ := fdiv_spec (s.i387.st 0) (s.i387.st (i.setWidth 16)) s.i387.swd
  refine ⟨result, w, ⟨hdiv, fun tmp => ?_⟩, hsome⟩
  exact arith_run (emuDiv_run hdiv tmp) htop _

theorem outcome_divr (escape : Escape) (i : BitVec 3) (s : Emulator) :
    ∃ result w, (Arithmetic.mk escape .divr i).Outcome s result result w ∧
      (result.isSome ↔ Divides (s.i387.st (i.setWidth 16)) (s.i387.st 0)) := by
  obtain ⟨result, w, hdiv, htop, hsome⟩ := fdiv_spec (s.i387.st (i.setWidth 16)) (s.i387.st 0) s.i387.swd
  refine ⟨result, w, ⟨hdiv, fun tmp => ?_⟩, hsome⟩
  exact arith_run (emuDiv_run hdiv tmp) htop _

/-- A difference from a copy with the other sign -/
theorem outcome_sub (i : BitVec 3) (s : Emulator) :
    ∃ v, (Arithmetic.mk .d8 .sub i).Outcome s (some v) (some v) s.i387.swd := by
  obtain ⟨v, hv⟩ := fadd_isSome (s.i387.st 0) (s.i387.st (i.setWidth 16)).neg
  exact ⟨v, applied hv _, fun tmp => subtract_run hv _⟩

theorem outcome_subr {escape : Escape} (hescape : escape ≠ .d8) (i : BitVec 3) (s : Emulator) :
    ∃ v, (Arithmetic.mk escape .subr i).Outcome s (some v) (some v) s.i387.swd := by
  obtain ⟨v, hv⟩ := fadd_isSome (s.i387.st (i.setWidth 16)) (s.i387.st 0).neg
  refine ⟨v, applied hv _, fun tmp => ?_⟩
  cases escape with
  | d8 => exact absurd rfl hescape
  | dc => exact subtract_run hv _
  | de => exact subtract_run hv _

/-- What is written when the sign has been changed in place, with two different registers -/
theorem reverse_right {i : BitVec 3} (hi : i ≠ 0) (s : Emulator) :
    (∃ v, (Arithmetic.mk .d8 .subr i).Outcome s (some v) (some v) s.i387.swd) ∧
      ∀ escape ≠ .d8, ∃ v, (Arithmetic.mk escape .sub i).Outcome s (some v) (some v) s.i387.swd := by
  have hne := index_inj (c := s.i387) hi
  constructor
  · obtain ⟨v, hv⟩ := fadd_isSome (s.i387.st (i.setWidth 16)) (s.i387.st 0).neg
    have hrev : fadd ((s.i387.setSt 0 (s.i387.st 0).neg).st 0)
        ((s.i387.setSt 0 (s.i387.st 0).neg).st (i.setWidth 16)) = some v := by
      rw [setSt_same, setSt_other hne, fadd_comm, hv]
    exact ⟨v, applied hv _, reverse_run hrev⟩
  · intro escape hescape
    obtain ⟨v, hv⟩ := fadd_isSome (s.i387.st 0) (s.i387.st (i.setWidth 16)).neg
    have hrev : fadd ((s.i387.setSt (i.setWidth 16) (s.i387.st (i.setWidth 16)).neg).st 0)
        ((s.i387.setSt (i.setWidth 16) (s.i387.st (i.setWidth 16)).neg).st (i.setWidth 16)) = some v := by
      rw [setSt_same, setSt_other hne.symm, hv]
    refine ⟨v, applied hv _, fun tmp => ?_⟩
    cases escape with
    | d8 => exact absurd rfl hescape
    | dc => exact reverse_run hrev tmp
    | de => exact reverse_run hrev tmp

/-- With one register its sign is changed twice over: minus twice the number, where the difference is 0. -/
theorem reverse_wrong (s : Emulator) : ∃ v, (v = ⟨0, 0, 0⟩ ↔ (s.i387.st 0).mantissa < 4) ∧
    (Arithmetic.mk .d8 .subr 0).Outcome s (some ⟨0, 0, 0⟩) (some v) s.i387.swd ∧
      ∀ escape ≠ .d8, (Arithmetic.mk escape .sub 0).Outcome s (some ⟨0, 0, 0⟩) (some v) s.i387.swd := by
  obtain ⟨hmsb, hlow⟩ := neg_exponent (s.i387.st 0)
  have hzero : fadd (s.i387.st 0) (s.i387.st 0).neg = some ⟨0, 0, 0⟩ :=
    (fadd_comm ..).trans (fadd_opposite hlow hmsb rfl)
  obtain ⟨v, hv⟩ := fadd_isSome (s.i387.st 0).neg (s.i387.st 0).neg
  have hrev : fadd ((s.i387.setSt 0 (s.i387.st 0).neg).st 0) ((s.i387.setSt 0 (s.i387.st 0).neg).st 0) = some v := by
    rw [setSt_same, hv]
  refine ⟨v, ?_, ⟨applied hzero _, reverse_run hrev⟩, fun escape hescape => ⟨applied hzero _, fun tmp => ?_⟩⟩
  · obtain ⟨hsmall, hbig⟩ := fadd_same (s := (s.i387.st 0).neg) rfl
    constructor
    · rintro rfl
      by_contra hge
      obtain ⟨p, hp, hn⟩ := hbig (.inl (not_lt.mp hge))
      cases hv.symm.trans hp
      exact absurd hn (by decide)
    · intro hlt
      exact Option.some.inj (hv.symm.trans (hsmall hlt hlt))
  · cases escape with
    | d8 => exact absurd rfl hescape
    | dc => exact reverse_run hrev tmp
    | de => exact reverse_run hrev tmp

theorem right_zero : Right (some t) (some v) ↔ v = t := by
  constructor
  · rintro ⟨w, hw, h⟩
    exact (Option.some.inj hw).trans (h t rfl)
  · rintro rfl
    exact (right_self _).mpr rfl

theorem inRange_sub {escape : Escape} (hescape : escape ≠ .d8) (i : BitVec 3) :
    (Arithmetic.mk escape .sub i).InRange x y ↔ i ≠ 0 ∨ x.mantissa < 4 := by
  cases escape with
  | d8 => exact absurd rfl hescape
  | dc => exact .rfl
  | de => exact .rfl

theorem inRange_subr {escape : Escape} (hescape : escape ≠ .d8) (i : BitVec 3) :
    (Arithmetic.mk escape .subr i).InRange x y := by
  cases escape with
  | d8 => exact absurd rfl hescape
  | dc => exact trivial
  | de => exact trivial

/-- What each form does -/
theorem outcome_exists (f : Arithmetic) (s : Emulator) : ∃ result written w, f.Outcome s result written w ∧
    (Right result written ↔ f.InRange (s.i387.st 0) (s.i387.st f.other)) := by
  have hsome : ∀ v : TempReal, Right (some v) (some v) := fun v => (right_self _).mpr rfl
  obtain ⟨escape, operation, i⟩ := f
  cases operation with
  | add =>
    obtain ⟨v, h⟩ := outcome_add escape i s
    exact ⟨_, _, _, h, iff_of_true (hsome v) trivial⟩
  | mul => exact ⟨_, _, _, outcome_mul escape i s, (right_self _).trans (fmul_spec ..).2⟩
  | sub =>
    by_cases hescape : escape = .d8
    · subst hescape
      obtain ⟨v, h⟩ := outcome_sub i s
      exact ⟨_, _, _, h, iff_of_true (hsome v) trivial⟩
    by_cases hi : i = 0
    · subst hi
      obtain ⟨v, hv, -, h⟩ := reverse_wrong s
      refine ⟨_, _, _, h escape hescape, right_zero.trans (hv.trans ?_)⟩
      rw [inRange_sub hescape, or_iff_right (not_not.mpr rfl)]
    · obtain ⟨v, h⟩ := (reverse_right hi s).2 escape hescape
      exact ⟨_, _, _, h, iff_of_true (hsome v) ((inRange_sub hescape i).mpr (.inl hi))⟩
  | subr =>
    by_cases hescape : escape = .d8
    · subst hescape
      by_cases hi : i = 0
      · subst hi
        obtain ⟨v, hv, h, -⟩ := reverse_wrong s
        exact ⟨_, _, _, h, right_zero.trans (hv.trans (or_iff_right (not_not.mpr rfl)).symm)⟩
      · obtain ⟨v, h⟩ := (reverse_right hi s).1
        exact ⟨_, _, _, h, iff_of_true (hsome v) (.inl hi)⟩
    · obtain ⟨v, h⟩ := outcome_subr hescape i s
      exact ⟨_, _, _, h, iff_of_true (hsome v) (inRange_subr hescape i)⟩
  | div =>
    obtain ⟨result, w, h, hdiv⟩ := outcome_div escape i s
    exact ⟨_, _, _, h, (right_self _).trans hdiv⟩
  | divr =>
    obtain ⟨result, w, h, hdiv⟩ := outcome_divr escape i s
    exact ⟨_, _, _, h, (right_self _).trans hdiv⟩

/-! ## The instruction -/

theorem leaves_of_outcome (hcs : s.info.cs.setWidth 16 = (0x000f : BitVec 16)) (hcode : s.instruction = f.code)
    (h : f.Outcome s.started result written w) (tmp : TempReal) : f.Leaves s (written.getD tmp) w tmp := by
  have hindex : s.started.i387.index f.dest = s.i387.index f.dest := by
    rw [I387.index_eq, I387.index_eq]
    exact congrArg (fun x : BitVec 3 => (BitVec.setWidth 3 f.dest + x).toFin) (top_busy s.i387)
  have hst : (s.started.stored f.dest (written.getD tmp) w).i387.stSpace =
      update s.i387.stSpace (s.i387.index f.dest) (written.getD tmp) := by
    rw [← hindex]
    rfl
  have hact := h.act tmp
  unfold Arithmetic.Leaves
  rw [doEmu_eq hcs, hcode, execute_arithmetic]
  obtain ⟨escape, operation, i⟩ := f
  cases escape with
  | d8 => exact ⟨_, hact, hst, rfl⟩
  | dc => exact ⟨_, hact, hst, rfl⟩
  | de => exact ⟨_, popping_run hact, hst, rfl⟩

/-- What is left tells the value that was stored. -/
theorem leaves_inj {v' : TempReal} (h : f.Leaves s v w tmp) (h' : f.Leaves s v' swd tmp) : v = v' := by
  obtain ⟨e, hrun, hst, -⟩ := h
  obtain ⟨e', hrun', hst', -⟩ := h'
  cases hrun.symm.trans hrun'
  have heq := congrFun (hst.symm.trans hst') (s.i387.index f.dest)
  rwa [update_self, update_self] at heq

theorem agrees_iff_right (hcs : s.info.cs.setWidth 16 = (0x000f : BitVec 16)) (hcode : s.instruction = f.code)
    (h : f.Outcome s.started result written w) : f.Agrees s ↔ Right result written := by
  have happly := h.apply
  rw [started_st, started_st] at happly
  constructor
  · rintro ⟨result', w', v, happly', hresult, hleaves⟩
    cases happly.symm.trans happly'
    have hstored : ∀ tmp, v = written.getD tmp := fun tmp =>
      leaves_inj (hleaves tmp) (leaves_of_outcome hcs hcode h tmp)
    cases written with
    | none => exact absurd (hstored v.neg).symm (neg_ne v)
    | some v' => exact ⟨v, congrArg some (hstored v).symm, hresult⟩
  · rintro ⟨v, rfl, hresult⟩
    exact ⟨result, w, v, happly, hresult, leaves_of_outcome hcs hcode h⟩

/-- An arithmetic form agrees with its operation just if the sign that it changes in place is that of one operand
only, the divisor is not 0 and the exponent of the result fits. -/
theorem arithmetic_agrees_iff (f : Arithmetic) (s : Emulator) (hcs : s.info.cs.setWidth 16 = (0x000f : BitVec 16))
    (hcode : s.instruction = f.code) : f.Agrees s ↔ f.InRange (s.i387.st 0) (s.i387.st f.other) := by
  obtain ⟨result, written, w, h, hright⟩ := outcome_exists f s.started
  rw [started_st, started_st] at hright
  exact (agrees_iff_right hcs hcode h).trans hright

/-- `fsubr %st(0),%st` -/
def fsubr : Arithmetic := ⟨.d8, .subr, 0⟩

theorem arithmetic_agrees_iff_fsubr : fsubr.Agrees (running 0xd8 0xe8) ↔
    fsubr.InRange ((running 0xd8 0xe8).i387.st 0) ((running 0xd8 0xe8).i387.st fsubr.other) :=
  arithmetic_agrees_iff fsubr (running 0xd8 0xe8) (by decide) (by decide +kernel)

theorem not_arithmetic_agrees : ¬ ∀ (f : Arithmetic) (s : Emulator),
    s.info.cs.setWidth 16 = (0x000f : BitVec 16) → s.instruction = f.code → f.Agrees s := by
  intro h
  have hcode : (running 0xd8 0xe8).instruction = fsubr.code := by decide +kernel
  obtain ⟨v, hv, houtcome, -⟩ := reverse_wrong (running 0xd8 0xe8).started
  have hright := (agrees_iff_right (by decide) hcode houtcome).mp (h fsubr _ (by decide) hcode)
  have hlt := hv.mp (right_zero.mp hright)
  rw [started_st] at hlt
  exact absurd hlt (by decide +kernel)

end Linux012.Math
