import Linux012.Kernel.Vsprintf.Basic

/-! # The text of a number

The text that the flags, the field width and the precision ask for, how it is read back, and when `number`
writes it: the counter `size` must not wrap around in one of the four loops that pad.
-/

namespace Linux012.Vsprintf

/-- The number that is printed -/
def value (type : Flags) (num : Word) : ℤ := if type.sign then num.toInt else num.toNat

def magnitude (type : Flags) (num : Word) : ℕ := (value type num).natAbs

def signText (type : Flags) (num : Word) : List Byte :=
  if value type num < 0 then [ascii '-']
  else if type.plus then [ascii '+']
  else if type.space then [ascii ' ']
  else []

def prefixText (type : Flags) (base : ℕ) : List Byte :=
  if type.special ∧ base = 8 then [ascii '0']
  else if type.special ∧ base = 16 then [ascii '0', ascii (if type.small then 'x' else 'X')]
  else []

/-- The digits of a number, the first one first -/
def numeral (small : Bool) (base n : ℕ) : List Byte :=
  if n = 0 then [ascii '0'] else (Nat.digits base n).reverse.map (digit small)

/-! ## Reading back -/

def digitValue (c : Byte) : ℕ :=
  if isDigit c then c.toNat - 48
  else if ascii 'A' ≤ c ∧ c ≤ ascii 'Z' then c.toNat - 55
  else c.toNat - 87

def isNumeral (c : Byte) : Bool :=
  isDigit c ∨ (ascii 'A' ≤ c ∧ c ≤ ascii 'Z') ∨ (ascii 'a' ≤ c ∧ c ≤ ascii 'z')

def readNumeral (base : ℕ) (text : List Byte) : ℕ :=
  (text.takeWhile isNumeral).foldl (fun n c => n * base + digitValue c) 0

/-- The number in a text, after blanks, a sign and the prefix -/
def parse (type : Flags) (base : ℕ) (text : List Byte) : ℤ :=
  match text.dropWhile (· = ascii ' ') with
  | [] => 0
  | c :: rest =>
    if c = ascii '-' then -(readNumeral base (rest.drop (prefixText type base).length))
    else if c = ascii '+' then readNumeral base (rest.drop (prefixText type base).length)
    else readNumeral base ((c :: rest).drop (prefixText type base).length)

/-! ## What is asked for -/

/-- The length of the number, without the padding for the field width -/
def bare (num base precision : Word) (type : Flags) : ℤ :=
  (signText type num).length + (prefixText type base.toNat).length +
    max ((numeral type.small base.toNat (magnitude type num)).length : ℤ) precision.toInt

/-- Padding, sign, prefix, zeros, digits and trailing blanks -/
structure Formatted (num base size precision : Word) (type : Flags) (text : List Byte) : Prop where
  layout : ∃ blanks zeros trailing,
    text = List.replicate blanks (ascii ' ') ++ signText type num ++ prefixText type base.toNat ++
      List.replicate zeros (ascii '0') ++ numeral type.small base.toNat (magnitude type num) ++
      List.replicate trailing (ascii ' ') ∧
    precision.toInt ≤ zeros + (numeral type.small base.toNat (magnitude type num)).length ∧
    (type.left ∨ type.zeropad → blanks = 0) ∧
    (type.left ∨ ¬ type.zeropad →
      zeros = (precision.toInt - (numeral type.small base.toNat (magnitude type num)).length).toNat) ∧
    (¬ type.left → trailing = 0)
  length : (text.length : ℤ) = max size.toInt (bare num base precision type)
  parse : parse type base.toNat text = value type num

/-- What the field width leaves for padding -/
def room (num base size precision : Word) (type : Flags) : ℤ := size.toInt - bare num base precision type

/-- The loops before the last one that pads -/
def Flags.loops (type : Flags) : ℤ := if type.left then 0 else if type.zeropad then 1 else 2

/-- There is room, or what `size` is then is not above 0 and stays so. -/
def Fits (num base size precision : Word) (type : Flags) : Prop :=
  0 < room num base size precision type ∨
    (-2 ^ 31 + type.loops ≤ (room num base size precision type).bmod (2 ^ 32) ∧
      (room num base size precision type).bmod (2 ^ 32) ≤ 0)

instance {num base size precision : Word} {type : Flags} : Decidable (Fits num base size precision type) :=
  inferInstanceAs (Decidable (_ ∨ _))

variable {num base size precision : Word} {type : Flags}

/-! ## The loops -/

theorem padFrom_eq (c : Byte) (len size : Word) :
    padFrom c len size =
      (List.replicate (size.toInt - len.toInt).toNat c, if len.slt size then len - 1 else size - 1) := by
  fun_induction padFrom with
  | case1 size hlt ih =>
    have hsub := toInt_sub_one hlt
    rw [ih, if_pos hlt]
    rw [BitVec.slt_iff_toInt_lt] at hlt
    have hcount : (size.toInt - len.toInt).toNat = (size.toInt - 1 - len.toInt).toNat + 1 := by omega
    apply Prod.ext
    · rw [hsub, hcount, List.replicate_succ]
    · dsimp only
      split
      · rfl
      · rename_i hend
        rw [BitVec.slt_iff_toInt_lt, not_lt] at hend
        have : size - 1 = len := by
          apply BitVec.eq_of_toInt_eq
          omega
        rw [this]
  | case2 size hle =>
    rw [if_neg hle]
    rw [BitVec.slt_iff_toInt_lt] at hle
    rw [show (size.toInt - len.toInt).toNat = 0 by omega, List.replicate_zero]

theorem pad_eq (c : Byte) (size : Word) :
    pad c size = (List.replicate size.toInt.toNat c, if 0 < size.toInt then -1 else size - 1) := by
  rw [pad, padFrom_eq, show (0 : Word).toInt = 0 from rfl, sub_zero,
    if_congr (show BitVec.slt 0 size = true ↔ 0 < size.toInt by
      rw [BitVec.slt_iff_toInt_lt, show (0 : Word).toInt = 0 from rfl]) rfl rfl]
  rfl

theorem digitsLoop_eq (small : Bool) (hbase : 2 ≤ base.toNat) (num : Word) :
    digitsLoop small base hbase num = (Nat.digits base.toNat num.toNat).map (digit small) := by
  fun_induction digitsLoop with
  | case1 => simp
  | case2 num hnum ih =>
    have hpos : 0 < num.toNat := Nat.pos_of_ne_zero fun h0 => hnum (BitVec.eq_of_toNat_eq h0)
    rw [ih, Nat.digits_def' hbase hpos, List.map_cons, BitVec.toNat_umod, BitVec.toNat_udiv]

theorem tmp_reverse (small : Bool) (hbase : 2 ≤ base.toNat) (num : Word) :
    (tmp small base hbase num).reverse = numeral small base.toNat num.toNat := by
  unfold tmp numeral
  rw [digitsLoop_eq]
  by_cases h : num = 0
  · subst h
    cases small <;> rfl
  · have hpos : num.toNat ≠ 0 := fun h0 => h (BitVec.eq_of_toNat_eq h0)
    rw [if_neg h, if_neg hpos, List.map_reverse]

theorem numeral_length_pos (small : Bool) (b n : ℕ) : 1 ≤ (numeral small b n).length := by
  unfold numeral
  split
  · exact le_rfl
  · rename_i h
    rw [List.length_map, List.length_reverse]
    exact List.length_pos_iff.mpr (Nat.digits_ne_nil_iff_ne_zero.mpr h)

theorem numeral_length_le (small : Bool) {b n : ℕ} (hb : 2 ≤ b) (hn : n < 2 ^ 32) :
    (numeral small b n).length ≤ 32 := by
  unfold numeral
  split
  · exact Nat.le_of_ble_eq_true rfl
  · rw [List.length_map, List.length_reverse, Nat.digits_length_le_iff hb]
    exact hn.trans_le (Nat.pow_le_pow_left hb 32)

/-! ## Sign and prefix -/

theorem slt_zero : num.slt 0 ↔ num.toInt < 0 := by
  rw [BitVec.slt_iff_toInt_lt, show (0 : Word).toInt = 0 from rfl]

theorem signOf_fst (type : Flags) (num : Word) : (signOf type num).1 = signText type num := by
  unfold signOf signText value
  cases hs : type.sign
  · rw [if_neg (fun h : false = true ∧ _ => Bool.false_ne_true h.1), if_neg Bool.false_ne_true,
      if_neg (not_lt.mpr (Int.natCast_nonneg _))]
  · rw [if_pos rfl]
    by_cases hn : num.slt 0
    · rw [if_pos ⟨rfl, hn⟩, if_pos (slt_zero.mp hn)]
    · rw [if_neg (fun h : true = true ∧ _ => hn h.2), if_neg (fun h => hn (slt_zero.mpr h))]

theorem signOf_snd (type : Flags) (num : Word) : (signOf type num).2.toNat = magnitude type num := by
  have hcond := BitVec.toInt_eq_toNat_cond num
  have hlt := num.isLt
  unfold signOf magnitude value
  cases hs : type.sign
  · rw [if_neg (fun h : false = true ∧ _ => Bool.false_ne_true h.1), if_neg Bool.false_ne_true]
    rfl
  · by_cases hn : num.slt 0
    · have hneg := slt_zero.mp hn
      rw [if_pos ⟨rfl, hn⟩, if_pos rfl]
      dsimp only
      rw [BitVec.toNat_neg]
      omega
    · have hpos : ¬ num.toInt < 0 := fun h => hn (slt_zero.mpr h)
      rw [if_neg (fun h : true = true ∧ _ => hn h.2), if_pos rfl]
      dsimp only
      omega

theorem magnitude_lt (type : Flags) (num : Word) : magnitude type num < 2 ^ 32 := by
  rw [← signOf_snd]
  exact BitVec.isLt _

theorem prefixOf_eq (type : Flags) (base : Word) : prefixOf type base = prefixText type base.toNat := by
  have h8 : base = 8 ↔ base.toNat = 8 := ⟨fun h => by rw [h]; rfl, fun h => BitVec.eq_of_toNat_eq h⟩
  have h16 : base = 16 ↔ base.toNat = 16 := ⟨fun h => by rw [h]; rfl, fun h => BitVec.eq_of_toNat_eq h⟩
  have hx : digit type.small 33 = ascii (if type.small then 'x' else 'X') := by
    cases type.small <;> rfl
  unfold prefixOf prefixText
  rw [hx, if_congr h8 rfl rfl, if_congr h16 rfl rfl]
  cases type.special
  · simp
  · simp

theorem ofInt_sub (x y : ℤ) : BitVec.ofInt 32 (x - y) = BitVec.ofInt 32 x - BitVec.ofInt 32 y := by
  apply BitVec.eq_of_toInt_eq
  rw [BitVec.toInt_sub, BitVec.toInt_ofInt, BitVec.toInt_ofInt, BitVec.toInt_ofInt]
  exact Int.sub_bmod ..

/-! ## The counter -/

theorem size_sign (sign : List Byte) (hsign : sign.length ≤ 1) :
    (if sign ≠ [] then size - 1 else size) = size - BitVec.ofInt 32 sign.length := by
  match sign, hsign with
  | [], _ => simp
  | [_], _ => rfl

theorem signText_length_le (type : Flags) (num : Word) : (signText type num).length ≤ 1 := by
  unfold signText
  split_ifs <;> simp

theorem size_prefix (type : Flags) (base size : Word) :
    (if type.special then if base = 16 then size - 2 else if base = 8 then size - 1 else size else size) =
      size - BitVec.ofInt 32 (prefixText type base.toNat).length := by
  rw [← prefixOf_eq]
  unfold prefixOf
  cases type.special
  · simp
  · by_cases h16 : base = 16
    · subst h16
      rfl
    · by_cases h8 : base = 8
      · subst h8
        rfl
      · rw [if_pos rfl, if_pos rfl, if_neg h16, if_neg h8, if_neg h8, if_neg h16]
        exact (BitVec.sub_zero size).symm

/-- The digits, with the zeros that the precision asks for -/
theorem precision_toInt (precision : Word) {n : ℕ} (hn : n ≤ 32) :
    (if precision.slt (BitVec.ofNat 32 n) then BitVec.ofNat 32 n else precision).toInt =
      max (n : ℤ) precision.toInt := by
  have htoInt : (BitVec.ofNat 32 n).toInt = n := by
    rw [BitVec.toInt_eq_toNat_cond, BitVec.toNat_ofNat]
    omega
  by_cases h : precision.slt (BitVec.ofNat 32 n)
  · rw [if_pos h]
    rw [BitVec.slt_iff_toInt_lt] at h
    omega
  · rw [if_neg h]
    rw [BitVec.slt_iff_toInt_lt] at h
    omega

/-- A loop that pads, with what `size` is after it -/
theorem pad_toInt (c : Byte) (size : Word) :
    (pad c size).1 = List.replicate size.toInt.toNat c ∧
      (pad c size).2.toInt =
        if 0 < size.toInt then -1 else if size.toInt = -2 ^ 31 then 2 ^ 31 - 1 else size.toInt - 1 := by
  rw [pad_eq]
  refine ⟨rfl, ?_⟩
  dsimp only
  split
  · rfl
  · have hlow := size.le_toInt
    have hhigh := size.toInt_lt
    rw [BitVec.toInt_sub, show (1 : Word).toInt = 1 from rfl]
    split
    · rename_i hmin
      rw [hmin]
      rfl
    · exact Int.bmod_eq_of_le (by omega) (by omega)

/-- The blanks, the fill and the trailing blanks when the counter is `rest` -/
def padding (type : Flags) (rest : ℤ) : ℕ × ℕ × ℕ :=
  if type.left then (0, 0, rest.toNat)
  else if type.zeropad then (0, rest.toNat, if rest = -2 ^ 31 then 2 ^ 31 - 1 else 0)
  else (rest.toNat, if rest = -2 ^ 31 then 2 ^ 31 - 1 else 0, if rest = -2 ^ 31 + 1 then 2 ^ 31 - 1 else 0)

/-- The zeros that the precision asks for -/
def zerosOf (num base precision : Word) (type : Flags) : ℕ :=
  (precision.toInt - (numeral type.small base.toNat (magnitude type num)).length).toNat

def fillChar (type : Flags) : Byte := if type.zeropad ∧ ¬ type.left then ascii '0' else ascii ' '

def laidOut (num base precision : Word) (type : Flags) (p : ℕ × ℕ × ℕ) : List Byte :=
  List.replicate p.1 (ascii ' ') ++ signText type num ++ prefixText type base.toNat ++
    List.replicate p.2.1 (fillChar type) ++ List.replicate (zerosOf num base precision type) (ascii '0') ++
    numeral type.small base.toNat (magnitude type num) ++ List.replicate p.2.2 (ascii ' ')

/-- The three loops around the number -/
theorem loops_eq (type : Flags) (rest : Word) :
    let blanks := if ¬ type.zeropad ∧ ¬ type.left then pad (ascii ' ') rest else ([], rest)
    let fill := if ¬ type.left then pad (fillChar type) blanks.2 else ([], blanks.2)
    (blanks.1, fill.1, (pad (ascii ' ') fill.2).1) =
      (List.replicate (padding type rest.toInt).1 (ascii ' '),
        List.replicate (padding type rest.toInt).2.1 (fillChar type),
        List.replicate (padding type rest.toInt).2.2 (ascii ' ')) := by
  have hlow := rest.le_toInt
  have hhigh := rest.toInt_lt
  unfold padding fillChar
  cases hl : type.left
  · cases hz : type.zeropad
    · obtain ⟨hb, hb'⟩ := pad_toInt (ascii ' ') rest
      obtain ⟨hf, hf'⟩ := pad_toInt (ascii ' ') (pad (ascii ' ') rest).2
      obtain ⟨ht, -⟩ := pad_toInt (ascii ' ') (pad (ascii ' ') (pad (ascii ' ') rest).2).2
      simp only [Bool.false_eq_true, not_false_eq_true, and_self, if_true, false_and, if_false]
      rw [hb, hf, ht, hf', hb']
      refine Prod.ext rfl (Prod.ext ?_ ?_)
      · dsimp only
        congr 1
        split_ifs <;> omega
      · dsimp only
        congr 1
        split_ifs <;> omega
    · obtain ⟨hf, hf'⟩ := pad_toInt (ascii '0') rest
      obtain ⟨ht, -⟩ := pad_toInt (ascii ' ') (pad (ascii '0') rest).2
      simp only [Bool.false_eq_true, not_false_eq_true, not_true_eq_false, and_true, if_true, if_false]
      rw [hf, ht, hf']
      refine Prod.ext rfl (Prod.ext rfl ?_)
      dsimp only
      congr 1
      split_ifs <;> omega
  · obtain ⟨ht, -⟩ := pad_toInt (ascii ' ') rest
    simp only [not_true_eq_false, and_false, if_true, if_false]
    rw [ht]
    rfl

/-- The counter after the sign, the prefix and the digits -/
theorem rest_toInt {p : Word}
    (hp : p.toInt = max ((numeral type.small base.toNat (magnitude type num)).length : ℤ) precision.toInt) :
    (size - BitVec.ofInt 32 (signText type num).length - BitVec.ofInt 32 (prefixText type base.toNat).length -
      p).toInt = (room num base size precision type).bmod (2 ^ 32) := by
  have hsize : size - BitVec.ofInt 32 (signText type num).length -
      BitVec.ofInt 32 (prefixText type base.toNat).length - p =
        BitVec.ofInt 32 (room num base size precision type) := by
    rw [room, bare, ← hp, ← sub_sub, ofInt_sub, ← sub_sub, ofInt_sub, ofInt_sub, BitVec.ofInt_toInt,
      BitVec.ofInt_toInt]
  rw [hsize, BitVec.toInt_ofInt]

theorem zeros_eq {n : ℕ} (hn : n ≤ 32) {p : Word} (hp : p.toInt = max (n : ℤ) precision.toInt) :
    (padFrom (ascii '0') (BitVec.ofNat 32 n) p).1 = List.replicate (precision.toInt - n).toNat (ascii '0') := by
  have hn' : (BitVec.ofNat 32 n).toInt = n := by
    rw [BitVec.toInt_eq_toNat_cond, BitVec.toNat_ofNat]
    omega
  rw [padFrom_eq, hn', hp]
  dsimp only
  congr 1
  omega

theorem number_eq_of (num size precision : Word) (type : Flags) (h2 : 2 ≤ base.toInt) (h36 : base.toInt ≤ 36)
    (hleft : type.left = true → type.zeropad = false) :
    number num base size precision type =
      some (laidOut num base precision type
        (padding type ((room num base size precision type).bmod (2 ^ 32)))) := by
  have hbase : ¬ (base.slt 2 ∨ BitVec.slt 36 base) := by
    rw [not_or, BitVec.slt_iff_toInt_lt, BitVec.slt_iff_toInt_lt, show (2 : Word).toInt = 2 from rfl,
      show (36 : Word).toInt = 36 from rfl]
    omega
  have htype : (if type.left then { type with zeropad := false } else type) = type := by
    split
    · rename_i hl
      rw [← hleft hl]
    · rfl
  have hc : (if type.zeropad then ascii '0' else ascii ' ') = fillChar type := by
    unfold fillChar
    cases hl : type.left
    · simp
    · simp [hleft hl]
  have hrev := tmp_reverse type.small (two_le hbase) (signOf type num).2
  rw [signOf_snd] at hrev
  have hlen := congrArg List.length hrev
  rw [List.length_reverse] at hlen
  have hle := numeral_length_le type.small (two_le hbase) (magnitude_lt type num)
  have hp := precision_toInt precision hle
  unfold number
  simp only [htype, dif_neg hbase, signOf_fst, hrev, hlen, hc, size_sign _ (signText_length_le type num),
    size_prefix, prefixOf_eq, zeros_eq hle hp]
  have hloops := loops_eq type (size - BitVec.ofInt 32 (signText type num).length -
    BitVec.ofInt 32 (prefixText type base.toNat).length -
      (if precision.slt (BitVec.ofNat 32 (numeral type.small base.toNat (magnitude type num)).length) then
        BitVec.ofNat 32 (numeral type.small base.toNat (magnitude type num)).length else precision))
  rw [rest_toInt hp] at hloops
  simp only [Prod.mk.injEq] at hloops
  obtain ⟨hblanks, hfill, htrailing⟩ := hloops
  rw [hblanks, hfill, htrailing]
  rfl

/-- Left adjustment puts zero padding out of action. -/
theorem number_eq (h2 : 2 ≤ base.toInt) (h36 : base.toInt ≤ 36) :
    number num base size precision type =
      some (laidOut num base precision type
        (padding type ((room num base size precision type).bmod (2 ^ 32)))) := by
  obtain ⟨zeropad, sign, plus, space, left, special, small⟩ := type
  cases left
  · exact number_eq_of _ _ _ _ h2 h36 fun h => absurd h Bool.false_ne_true
  · have hclear := number_eq_of num size precision ⟨false, sign, plus, space, true, special, small⟩ h2 h36
      fun _ => rfl
    cases zeropad
    · exact hclear
    · calc
        _ = number num base size precision ⟨false, sign, plus, space, true, special, small⟩ := rfl
        _ = _ := hclear

/-! ## The padding that is asked for -/

def asked (type : Flags) (n : ℕ) : ℕ × ℕ × ℕ :=
  if type.left then (0, 0, n) else if type.zeropad then (0, n, 0) else (n, 0, 0)

theorem bare_bounds (num precision : Word) (type : Flags) (h2 : 2 ≤ base.toInt) :
    1 ≤ bare num base precision type ∧ bare num base precision type ≤ 2 ^ 31 + 2 := by
  have hbase : 2 ≤ base.toNat := by
    have := BitVec.toInt_eq_toNat_cond base
    omega
  have hpos := numeral_length_pos type.small base.toNat (magnitude type num)
  have hle := numeral_length_le type.small hbase (magnitude_lt type num)
  have hsign := signText_length_le type num
  have hprefix : (prefixText type base.toNat).length ≤ 2 := by
    unfold prefixText
    split_ifs <;> simp
  have hhigh := precision.toInt_lt
  unfold bare
  omega

theorem room_bmod (num size precision : Word) (type : Flags) (h2 : 2 ≤ base.toInt) :
    ∃ rest, (room num base size precision type).bmod (2 ^ 32) = rest ∧ -2 ^ 31 ≤ rest ∧ rest < 2 ^ 31 ∧
      room num base size precision type < 2 ^ 31 ∧
      (rest = room num base size precision type ∨ rest = room num base size precision type + 2 ^ 32) := by
  obtain ⟨hpos, hle⟩ := bare_bounds num precision type h2
  have hlow := size.le_toInt
  have hhigh := size.toInt_lt
  have hroom : room num base size precision type = size.toInt - bare num base precision type := rfl
  refine ⟨_, rfl, ?_⟩
  rw [Int.bmod_def]
  omega

theorem padding_of_fits (h2 : 2 ≤ base.toInt) (h : Fits num base size precision type) :
    padding type ((room num base size precision type).bmod (2 ^ 32)) =
      asked type (room num base size precision type).toNat := by
  obtain ⟨rest, hrest, hlow, hhigh, hroom, hcases⟩ := room_bmod num size precision type h2
  unfold Fits Flags.loops at h
  rw [hrest] at h ⊢
  unfold padding asked
  cases hl : type.left
  · cases hz : type.zeropad
    · simp only [hl, hz, Bool.false_eq_true, if_false] at h ⊢
      rw [if_neg (show ¬ rest = -2 ^ 31 by omega), if_neg (show ¬ rest = -2 ^ 31 + 1 by omega)]
      refine Prod.ext ?_ rfl
      dsimp only
      omega
    · simp only [hl, hz, Bool.false_eq_true, if_false, if_true] at h ⊢
      rw [if_neg (show ¬ rest = -2 ^ 31 by omega)]
      refine Prod.ext rfl (Prod.ext ?_ rfl)
      dsimp only
      omega
  · simp only [hl, if_true] at h ⊢
    refine Prod.ext rfl (Prod.ext rfl ?_)
    dsimp only
    omega

theorem fits_of_padding (h2 : 2 ≤ base.toInt) {p : ℕ × ℕ × ℕ}
    (hp : padding type ((room num base size precision type).bmod (2 ^ 32)) = p)
    (hsum : p.1 + p.2.1 + p.2.2 = (room num base size precision type).toNat) :
    Fits num base size precision type := by
  obtain ⟨rest, hrest, hlow, hhigh, hroom, hcases⟩ := room_bmod num size precision type h2
  subst hp
  unfold Fits Flags.loops
  rw [hrest] at hsum ⊢
  unfold padding at hsum
  cases hl : type.left
  · cases hz : type.zeropad
    · simp only [hl, hz, Bool.false_eq_true, if_false] at hsum ⊢
      split_ifs at hsum <;> omega
    · simp only [hl, hz, Bool.false_eq_true, if_false, if_true] at hsum ⊢
      split_ifs at hsum <;> omega
  · simp only [hl, if_true] at hsum ⊢
    omega

theorem laidOut_length (num base precision : Word) (type : Flags) (p : ℕ × ℕ × ℕ) :
    ((laidOut num base precision type p).length : ℤ) =
      bare num base precision type + (p.1 + p.2.1 + p.2.2 : ℕ) := by
  unfold laidOut bare zerosOf
  simp only [List.length_append, List.length_replicate]
  omega

/-! ## Reading back -/

theorem digit_spec (small : Bool) {d : ℕ} (hd : d < 36) :
    isNumeral (digit small d) = true ∧ digitValue (digit small d) = d := by
  have hall : ∀ d : Fin 36, isNumeral (digit small d) = true ∧ digitValue (digit small d) = d := by
    cases small <;> decide
  exact hall ⟨d, hd⟩

theorem numeral_spec (small : Bool) {b n : ℕ} (h2 : 2 ≤ b) (h36 : b ≤ 36) :
    (∀ c ∈ numeral small b n, isNumeral c = true) ∧
      (numeral small b n).foldl (fun n c => n * b + digitValue c) 0 = n := by
  unfold numeral
  split
  · rename_i hn
    subst hn
    refine ⟨by decide +kernel, ?_⟩
    rw [List.foldl_cons, zero_mul]
    rfl
  · have hdigits : ∀ d ∈ Nat.digits b n, d < 36 := fun d hd => (Nat.digits_lt_base h2 hd).trans_le h36
    constructor
    · intro c hc
      obtain ⟨d, hd, rfl⟩ := List.mem_map.mp hc
      exact (digit_spec small (hdigits d (List.mem_reverse.mp hd))).1
    · rw [List.foldl_map, List.foldl_reverse]
      have hfold : ∀ l : List ℕ, (∀ d ∈ l, d < 36) →
          l.foldr (fun d n => n * b + digitValue (digit small d)) 0 = Nat.ofDigits b l := by
        intro l
        induction l with
        | nil =>
          intro _
          rfl
        | cons d l ih =>
          intro hl
          rw [List.foldr_cons, ih fun d hd => hl d (List.mem_cons_of_mem _ hd),
            (digit_spec small (hl d List.mem_cons_self)).2, Nat.ofDigits_cons]
          ring
      rw [hfold _ hdigits, Nat.ofDigits_digits]

theorem readNumeral_digits (small : Bool) {b : ℕ} (n z t : ℕ) (h2 : 2 ≤ b) (h36 : b ≤ 36) :
    readNumeral b (List.replicate z (ascii '0') ++ numeral small b n ++ List.replicate t (ascii ' ')) = n := by
  obtain ⟨hall, hfold⟩ := numeral_spec small (n := n) h2 h36
  have hnum : ∀ c ∈ List.replicate z (ascii '0') ++ numeral small b n, isNumeral c = true := by
    intro c hc
    rcases List.mem_append.mp hc with hz | hd
    · rw [List.eq_of_mem_replicate hz]
      rfl
    · exact hall c hd
  have htail : (List.replicate t (ascii ' ')).takeWhile isNumeral = [] := by
    cases t <;> rfl
  have hzeros : (List.replicate z (ascii '0')).foldl (fun n c => n * b + digitValue c) 0 = 0 := by
    induction z with
    | zero => rfl
    | succ z ih =>
      rw [List.replicate_succ, List.foldl_cons, zero_mul, zero_add, show digitValue (ascii '0') = 0 by decide]
      exact ih (by
        intro c hc
        exact hnum c (by rw [List.replicate_succ]; exact List.mem_cons_of_mem _ hc))
  unfold readNumeral
  rw [List.takeWhile_append_of_pos hnum, htail, List.append_nil, List.foldl_append, hzeros, hfold]

theorem dropWhile_blanks (n : ℕ) (text : List Byte) :
    (List.replicate n (ascii ' ') ++ text).dropWhile (· = ascii ' ') = text.dropWhile (· = ascii ' ') := by
  induction n with
  | zero => rfl
  | succ n ih => rw [List.replicate_succ, List.cons_append, List.dropWhile_cons_of_pos (by simp), ih]

theorem isNumeral_prefixText (type : Flags) (b : ℕ) : ∀ c ∈ prefixText type b, isNumeral c = true := by
  unfold prefixText
  cases type.small
  · split_ifs <;> decide +kernel
  · split_ifs <;> decide +kernel

/-- The text without the sign begins with a digit. -/
theorem body_cons {b : ℕ} (z t n : ℕ) (type : Flags) (h2 : 2 ≤ b) (h36 : b ≤ 36) :
    ∃ c rest, prefixText type b ++ (List.replicate z (ascii '0') ++ numeral type.small b n ++
      List.replicate t (ascii ' ')) = c :: rest ∧ isNumeral c = true := by
  have hall : ∀ c ∈ prefixText type b ++ List.replicate z (ascii '0') ++ numeral type.small b n,
      isNumeral c = true := by
    intro c hc
    rcases List.mem_append.mp hc with hc | hc
    · rcases List.mem_append.mp hc with hc | hc
      · exact isNumeral_prefixText type b c hc
      · rw [List.eq_of_mem_replicate hc]
        rfl
    · exact (numeral_spec type.small h2 h36).1 c hc
  have hne : prefixText type b ++ List.replicate z (ascii '0') ++ numeral type.small b n ≠ [] := by
    intro h
    have := numeral_length_pos type.small b n
    rw [List.append_eq_nil_iff] at h
    rw [h.2] at this
    exact absurd this (by decide)
  obtain ⟨c, rest, hcons⟩ := List.exists_cons_of_ne_nil hne
  refine ⟨c, rest ++ List.replicate t (ascii ' '), ?_, hall c (by rw [hcons]; exact List.mem_cons_self)⟩
  rw [← List.cons_append, ← hcons, List.append_assoc, List.append_assoc, List.append_assoc]

theorem parse_cons {b : ℕ} {text rest : List Byte} {c : Byte}
    (h : text.dropWhile (· = ascii ' ') = c :: rest) :
    parse type b text =
      if c = ascii '-' then -(readNumeral b (rest.drop (prefixText type b).length) : ℤ)
      else if c = ascii '+' then (readNumeral b (rest.drop (prefixText type b).length) : ℤ)
      else (readNumeral b ((c :: rest).drop (prefixText type b).length) : ℤ) := by
  unfold parse
  rw [h]

theorem parse_layout {b : ℕ} (blanks z t : ℕ) (type : Flags) (num : Word) (h2 : 2 ≤ b) (h36 : b ≤ 36) :
    parse type b (List.replicate blanks (ascii ' ') ++ signText type num ++ prefixText type b ++
      List.replicate z (ascii '0') ++ numeral type.small b (magnitude type num) ++
      List.replicate t (ascii ' ')) = value type num := by
  obtain ⟨c, rest, hbody, hc⟩ := body_cons z t (magnitude type num) type h2 h36
  have hread : readNumeral b ((c :: rest).drop (prefixText type b).length) = magnitude type num := by
    rw [← hbody, List.drop_left]
    exact readNumeral_digits type.small _ z t h2 h36
  have htext : List.replicate blanks (ascii ' ') ++ signText type num ++ prefixText type b ++
      List.replicate z (ascii '0') ++ numeral type.small b (magnitude type num) ++
      List.replicate t (ascii ' ') =
        List.replicate blanks (ascii ' ') ++ (signText type num ++ (c :: rest)) := by
    rw [← hbody]
    simp only [List.append_assoc]
  have hblank : ¬ c = ascii ' ' := by
    rintro rfl
    exact absurd hc (by decide)
  have hminus : ¬ c = ascii '-' := by
    rintro rfl
    exact absurd hc (by decide)
  have hplus : ¬ c = ascii '+' := by
    rintro rfl
    exact absurd hc (by decide)
  have hbare : (c :: rest).dropWhile (· = ascii ' ') = c :: rest :=
    List.dropWhile_cons_of_neg (by simpa using hblank)
  have hmag : magnitude type num = (value type num).natAbs := rfl
  rw [htext]
  by_cases hneg : value type num < 0
  · have hsign : signText type num = [ascii '-'] := if_pos hneg
    have hstart : (List.replicate blanks (ascii ' ') ++ (signText type num ++ (c :: rest))).dropWhile
        (· = ascii ' ') = ascii '-' :: c :: rest := by
      rw [dropWhile_blanks, hsign]
      rfl
    rw [parse_cons hstart, if_pos rfl, hread]
    omega
  · have habs : (magnitude type num : ℤ) = value type num := by omega
    have hsign : signText type num = [ascii '+'] ∨ signText type num = [ascii ' '] ∨ signText type num = [] := by
      unfold signText
      rw [if_neg hneg]
      split_ifs <;> simp
    rcases hsign with hsign | hsign | hsign
    · have hstart : (List.replicate blanks (ascii ' ') ++ (signText type num ++ (c :: rest))).dropWhile
          (· = ascii ' ') = ascii '+' :: c :: rest := by
        rw [dropWhile_blanks, hsign]
        rfl
      rw [parse_cons hstart, if_neg (by decide), if_pos rfl, hread, habs]
    all_goals
      have hstart : (List.replicate blanks (ascii ' ') ++ (signText type num ++ (c :: rest))).dropWhile
          (· = ascii ' ') = c :: rest := by
        rw [dropWhile_blanks, hsign]
        exact hbare
      rw [parse_cons hstart, if_neg hminus, if_neg hplus, hread, habs]

/-! ## When the text is right -/

theorem formatted_asked (h2 : 2 ≤ base.toInt) (h36 : base.toInt ≤ 36) :
    Formatted num base size precision type
      (laidOut num base precision type (asked type (room num base size precision type).toNat)) := by
  have hcond := BitVec.toInt_eq_toNat_cond base
  obtain ⟨hpos, -⟩ := bare_bounds num precision type h2
  have hroom : room num base size precision type = size.toInt - bare num base precision type := rfl
  have hzeros : precision.toInt ≤ zerosOf num base precision type +
      (numeral type.small base.toNat (magnitude type num)).length := by
    unfold zerosOf
    omega
  have hlen := laidOut_length num base precision type (asked type (room num base size precision type).toNat)
  have hsum : ((asked type (room num base size precision type).toNat).1 +
      (asked type (room num base size precision type).toNat).2.1 +
      (asked type (room num base size precision type).toNat).2.2 : ℕ) =
        (room num base size precision type).toNat := by
    unfold asked
    split_ifs <;> simp
  obtain ⟨zeros, htext, hz⟩ : ∃ zeros,
      laidOut num base precision type (asked type (room num base size precision type).toNat) =
        List.replicate (asked type (room num base size precision type).toNat).1 (ascii ' ') ++ signText type num ++
          prefixText type base.toNat ++ List.replicate zeros (ascii '0') ++
          numeral type.small base.toNat (magnitude type num) ++
          List.replicate (asked type (room num base size precision type).toNat).2.2 (ascii ' ') ∧
      zeros = (if type.left then 0 else if type.zeropad then (room num base size precision type).toNat else 0) +
        zerosOf num base precision type := by
    refine ⟨_, ?_, rfl⟩
    unfold laidOut asked fillChar
    cases type.left
    · cases type.zeropad
      · simp
      · simp only [Bool.false_eq_true, if_false, if_true, not_false_eq_true, and_true, List.append_assoc,
          List.replicate_add]
    · simp
  constructor
  · refine ⟨_, zeros, _, htext, ?_, ?_, ?_, ?_⟩
    · omega
    · unfold asked
      rintro (hl | hz)
      · rw [if_pos hl]
      · rw [if_pos hz]
        split <;> rfl
    · rintro (hl | hz')
      · rw [hz, if_pos hl, zero_add]
        rfl
      · rw [hz, if_neg hz', ite_self, zero_add]
        rfl
    · intro hl
      unfold asked
      rw [if_neg hl]
      split <;> rfl
  · rw [hlen, hsum]
    omega
  · rw [htext]
    exact parse_layout _ _ _ type num (by omega) (by omega)

/-- `number` writes what is asked for as long as the counter `size` does not wrap around. -/
theorem number_formats (num base size precision : Word) (type : Flags) (h2 : 2 ≤ base.toInt)
    (h36 : base.toInt ≤ 36) :
    ∃ text, number num base size precision type = some text ∧
      (Formatted num base size precision type text ↔ Fits num base size precision type) := by
  refine ⟨_, number_eq h2 h36, ?_, ?_⟩
  · intro hformatted
    have hlen := hformatted.length
    rw [laidOut_length] at hlen
    refine fits_of_padding h2 rfl ?_
    have hroom : room num base size precision type = size.toInt - bare num base precision type := rfl
    omega
  · intro hfits
    rw [padding_of_fits h2 hfits]
    exact formatted_asked h2 h36

/-- `%+08d` of the least integer -/
theorem number_formats_least :
    ∃ text, number (-2 ^ 31) 10 8 (-1) ⟨true, true, true, false, false, false, false⟩ = some text ∧
      (Formatted (-2 ^ 31) 10 8 (-1) ⟨true, true, true, false, false, false, false⟩ text ↔
        Fits (-2 ^ 31) 10 8 (-1) ⟨true, true, true, false, false, false, false⟩) :=
  number_formats (-2 ^ 31) 10 8 (-1) ⟨true, true, true, false, false, false, false⟩ (by decide) (by decide)

/-- With the greatest precision and no field width, blanks are written. -/
theorem number_wraps : ∃ text, number 5 10 (-1) (2 ^ 31 - 1) noFlags = some text ∧
    ¬ Formatted 5 10 (-1) (2 ^ 31 - 1) noFlags text := by
  refine ⟨_, number_eq (by decide) (by decide), fun hformatted => ?_⟩
  have hlen := hformatted.length
  rw [laidOut_length] at hlen
  have hmag : magnitude noFlags 5 = 5 := by decide
  have hbare : bare 5 10 (2 ^ 31 - 1) noFlags = 2 ^ 31 - 1 := by
    unfold bare
    rw [hmag, show numeral noFlags.small (10 : Word).toNat 5 = [ascii '5'] by simp [numeral]; decide]
    decide
  have hpad : padding noFlags ((room 5 10 (-1) (2 ^ 31 - 1) noFlags).bmod (2 ^ 32)) = (0, 2 ^ 31 - 1, 0) := by
    unfold room
    rw [hbare]
    rfl
  rw [hpad, hbare] at hlen
  exact absurd hlen (by decide)

end Linux012.Vsprintf
