import Linux012.Kernel.Vsprintf.Scan

/-! # Stars in formats

What a format with `*` stands for: the one with the decimal text of the argument in its place. `vsprintf`
takes the argument, but does not step over the star, and prints it.
-/

namespace Linux012.Vsprintf

/-! ## Formats with stars -/

inductive Field where
  | digits (ds : List Byte)
  | star
  deriving DecidableEq

def Field.text : Field → List Byte
  | .digits ds => ds
  | .star => [ascii '*']

def Field.stars : Field → ℕ
  | .digits _ => 0
  | .star => 1

def fieldPart : List Byte → Field × List Byte
  | [] => (.digits [], [])
  | c :: s =>
    if c = ascii '*' then (.star, s) else (.digits ((c :: s).takeWhile isDigit), (c :: s).dropWhile isDigit)

def dotPart : List Byte → Option Field × List Byte
  | [] => (none, [])
  | c :: s => if c = ascii '.' then (some (fieldPart s).1, (fieldPart s).2) else (none, c :: s)

/-- A conversion whose field width and precision can be stars -/
structure Conversion where
  flags : List Byte
  width : Field
  precision : Option Field
  qualifier : Option Byte
  letter : Option Byte
  deriving DecidableEq

def Conversion.text (d : Conversion) : List Byte :=
  Directive.text ⟨d.flags, d.width.text, d.precision.map Field.text, d.qualifier, d.letter⟩

def Conversion.stars (d : Conversion) : ℕ := d.width.stars + d.precision.elim 0 Field.stars

/-- The conversion after a `%`, and the format after it -/
def starred (s : List Byte) : Conversion × List Byte :=
  let s₁ := s.dropWhile isFlag
  let s₂ := (fieldPart s₁).2
  let s₃ := (dotPart s₂).2
  let s₄ := (qualifierPart s₃).2
  (⟨s.takeWhile isFlag, (fieldPart s₁).1, (dotPart s₂).1, (qualifierPart s₃).1, s₄.head?⟩, s₄.tail)

theorem fieldPart_text (s : List Byte) : (fieldPart s).1.text ++ (fieldPart s).2 = s := by
  match s with
  | [] => rfl
  | c :: s =>
    rw [fieldPart]
    split
    · rename_i h
      rw [h]
      rfl
    · exact List.takeWhile_append_dropWhile

theorem dotPart_text (s : List Byte) :
    (((dotPart s).1.map Field.text).elim [] fun p => ascii '.' :: p) ++ (dotPart s).2 = s := by
  match s with
  | [] => rfl
  | c :: s =>
    rw [dotPart]
    split
    · rename_i h
      rw [h]
      exact congrArg _ (fieldPart_text s)
    · rfl

theorem starred_text (s : List Byte) : (starred s).1.text ++ (starred s).2 = ascii '%' :: s := by
  unfold starred Conversion.text Directive.text
  simp only [List.cons_append, List.append_assoc]
  rw [head_tail, qualifierPart_text, dotPart_text, fieldPart_text, List.takeWhile_append_dropWhile]

theorem starred_length_le (s : List Byte) : (starred s).2.length ≤ s.length := by
  have h := congrArg List.length (starred_text s)
  rw [List.length_append, List.length_cons, Conversion.text, Directive.text, List.length_cons] at h
  omega

/-- The characters that are copied, and the conversions -/
def conversions : List Byte → List (Byte ⊕ Conversion)
  | [] => []
  | c :: s => if c = ascii '%' then .inr (starred s).1 :: conversions (starred s).2 else .inl c :: conversions s
termination_by s => s.length
decreasing_by
  · exact Nat.lt_succ_of_le (starred_length_le s)
  · exact Nat.lt_succ_self _

def partText : Byte ⊕ Conversion → List Byte
  | .inl c => [c]
  | .inr d => d.text

theorem conversions_text (fmt : List Byte) : (conversions fmt).flatMap partText = fmt := by
  fun_induction conversions with
  | case1 => rfl
  | case2 s ih =>
    rw [List.flatMap_cons, ih]
    exact starred_text s
  | case3 c s hc ih =>
    rw [List.flatMap_cons, ih]
    rfl

/-- The stars of a format that stand for a field width or a precision -/
def stars (fmt : List Byte) : ℕ := ((conversions fmt).map (Sum.elim (fun _ => 0) Conversion.stars)).sum

/-! ## The format without them -/

def decimal (n : ℕ) : List Byte := numeral false 10 n

/-- A negative field width is its absolute value after `-`. -/
def Field.width (f : Field) (args : Args) : List Byte × Args :=
  match f with
  | .digits ds => (ds, args)
  | .star =>
    (if args.head.toInt < 0 then ascii '-' :: decimal args.head.toInt.natAbs else decimal args.head.toInt.natAbs,
      args.tail)

/-- A negative precision is 0. -/
def Field.precision (f : Field) (args : Args) : List Byte × Args :=
  match f with
  | .digits ds => (ds, args)
  | .star => (decimal args.head.toInt.toNat, args.tail)

def dotText (p : Option Field) (args : Args) : Option (List Byte) × Args :=
  match p with
  | none => (none, args)
  | some f => (some (f.precision args).1, (f.precision args).2)

/-- The conversion with the decimal texts, and the arguments after them -/
def Conversion.literal (d : Conversion) (args : Args) : Directive × Args :=
  let w := d.width.width args
  let p := dotText d.precision w.2
  (⟨d.flags, w.1, p.1, d.qualifier, d.letter⟩, p.2)

/-- The format without stars, and the arguments that are left -/
def expand : List (Byte ⊕ Conversion) → Args → List Byte × Args
  | [], args => ([], args)
  | .inl c :: ps, args => (c :: (expand ps args).1, (expand ps args).2)
  | .inr d :: ps, args =>
    let (d', args) := d.literal args
    if d.letter.getD 0 ∈ letters then
      (d'.text ++ (expand ps args.tail).1, Stream'.cons args.head (expand ps args.tail).2)
    else (d'.text ++ (expand ps args).1, (expand ps args).2)

def literalFormat (fmt : List Byte) (args : Args) : List Byte := (expand (conversions fmt) args).1

def literalArgs (fmt : List Byte) (args : Args) : Args := (expand (conversions fmt) args).2

/-- What a conversion has done with its argument -/
def Use.effect (str : Word → List Byte) (u : Use) : Byte × Word × List Byte := (u.letter, u.arg, u.written str)

/-- The format and the one without stars do the same. -/
def StarLiteral (str : Word → List Byte) (fmt : List Byte) (args : Args) : Prop :=
  ∃ st st', vsprintf str fmt args (fmt.length + 1) = some st ∧
    vsprintf str (literalFormat fmt args) (literalArgs fmt args) ((literalFormat fmt args).length + 1) =
      some st' ∧
    st.buf = st'.buf ∧ st.args = st'.args ∧ st.stores = st'.stores ∧
    st.uses.map (Use.effect str) = st'.uses.map (Use.effect str)

variable {str : Word → List Byte} {fmt s : List Byte} {args : Args} {st : State}

/-! ## Stars are printed -/

def starCount (text : List Byte) : ℕ := text.count (ascii '*')

@[simp] theorem starCount_nil : starCount [] = 0 := rfl

@[simp] theorem starCount_append (a b : List Byte) : starCount (a ++ b) = starCount a + starCount b :=
  List.count_append

theorem starCount_cons (c : Byte) (s : List Byte) : starCount (c :: s) = starCount [c] + starCount s :=
  starCount_append [c] s

theorem starCount_takeWhile (p : Byte → Bool) (hp : p (ascii '*') = false) (s : List Byte) :
    starCount (s.takeWhile p) = 0 := by
  apply List.count_eq_zero.mpr
  intro hmem
  have hstar := List.all_eq_true.mp List.all_takeWhile _ hmem
  rw [hp] at hstar
  exact Bool.noConfusion hstar

/-- In a conversion as it is read, only the last character can be a star. -/
theorem directive_starCount (s : List Byte) :
    starCount (directive s).1.text = starCount (directive s).1.letter.toList := by
  have hprecision : ∀ s, starCount ((precisionPart s).1.elim [] fun p => ascii '.' :: p) = 0 := by
    intro s
    match s with
    | [] => rfl
    | c :: s =>
      rw [precisionPart]
      split
      · exact starCount_takeWhile isDigit rfl s
      · rfl
  have hqualifier : ∀ s, starCount (qualifierPart s).1.toList = 0 := by
    intro s
    match s with
    | [] => rfl
    | c :: s =>
      rw [qualifierPart]
      split
      · rename_i hq
        apply List.count_eq_zero.mpr
        intro hmem
        rw [← List.mem_singleton.mp hmem] at hq
        exact absurd hq (by decide)
      · rfl
  unfold directive Directive.text
  dsimp only
  rw [starCount_cons, starCount_append, starCount_append, starCount_append, starCount_append,
    starCount_takeWhile isFlag (by decide), starCount_takeWhile isDigit rfl, hprecision, hqualifier]
  show 0 + _ = _
  omega

def usesStars (str : Word → List Byte) (st : State) : ℕ := (st.uses.map fun u => starCount (u.written str)).sum

/-- What a conversion writes has no more stars than its last character and the text of its argument. -/
theorem perform_starCount (c : Byte) (flags : Flags) (width precision : Word) (st : State) :
    starCount (perform str c flags width precision st).buf + usesStars str st =
      starCount st.buf + starCount [c] + usesStars str (perform str c flags width precision st) := by
  unfold perform usesStars
  split
  · rename_i hc
    have hstar : starCount [c] = 0 := by
      apply List.count_eq_zero.mpr
      intro hmem
      rw [← List.mem_singleton.mp hmem] at hc
      exact absurd hc (by decide)
    simp only [starCount_append, List.map_append, List.sum_append, List.map_cons, List.map_nil, List.sum_cons,
      List.sum_nil]
    omega
  · have hpercent : starCount [ascii '%'] = 0 := rfl
    have hzero : starCount [(0 : Byte)] = 0 := rfl
    by_cases hc : c ≠ ascii '%'
    · rw [if_pos hc]
      by_cases h0 : c ≠ 0
      · rw [if_pos h0]
        simp only [State.write, starCount_append]
        omega
      · rw [if_neg h0, not_not.mp h0]
        simp only [State.write, starCount_append]
        omega
    · rw [if_neg hc]
      by_cases h0 : c ≠ 0
      · rw [if_pos h0]
        simp only [State.write, starCount_append]
      · rw [if_neg h0, not_not.mp h0]
        rfl

theorem exec_starCount (str : Word → List Byte) (s : List Byte) (st : State) :
    starCount ((directive s).1.exec str st).buf + usesStars str st =
      starCount st.buf + starCount (directive s).1.text + usesStars str ((directive s).1.exec str st) := by
  have hletter : starCount [(directive s).1.letter.getD 0] = starCount (directive s).1.letter.toList := by
    cases (directive s).1.letter <;> rfl
  rw [directive_starCount, ← hletter]
  exact perform_starCount _ _ _ _ _

/-- Every star of a format is printed, beside those of the texts of the arguments. -/
theorem run_starCount (str : Word → List Byte) (fmt : List Byte) (st : State) :
    starCount (run str (pieces fmt) st).buf + usesStars str st =
      starCount st.buf + starCount fmt + usesStars str (run str (pieces fmt) st) := by
  fun_induction pieces generalizing st with
  | case1 => rfl
  | case2 s ih =>
    have hrun := ih ((directive s).1.exec str st)
    have hexec := exec_starCount str s st
    have htext := congrArg starCount (directive_text s)
    rw [starCount_append] at htext
    show starCount (run str (pieces (directive s).2) ((directive s).1.exec str st)).buf + _ =
      _ + _ + usesStars str (run str (pieces (directive s).2) ((directive s).1.exec str st))
    omega
  | case3 c s hc ih =>
    have hrun := ih (st.write [c])
    have huses : usesStars str (st.write [c]) = usesStars str st := rfl
    rw [huses, show (st.write [c]).buf = st.buf ++ [c] from rfl, starCount_append] at hrun
    show starCount (run str (pieces s) (st.write [c])).buf + _ =
      _ + _ + usesStars str (run str (pieces s) (st.write [c]))
    rw [starCount_cons]
    omega

/-! ## The format without stars has fewer -/

theorem starCount_decimal (n : ℕ) : starCount (decimal n) = 0 := by
  apply List.count_eq_zero.mpr
  intro hmem
  exact absurd ((numeral_spec false (by decide) (by decide)).1 _ hmem) (by decide)

theorem Field.width_starCount (f : Field) (args : Args) :
    starCount (f.width args).1 + f.stars = starCount f.text := by
  cases f with
  | digits ds => rfl
  | star =>
    unfold Field.width
    dsimp only
    split
    · rw [starCount_cons, starCount_decimal]
      rfl
    · rw [starCount_decimal]
      rfl

theorem Field.precision_starCount (f : Field) (args : Args) :
    starCount (f.precision args).1 + f.stars = starCount f.text := by
  cases f with
  | digits ds => rfl
  | star =>
    unfold Field.precision
    dsimp only
    rw [starCount_decimal]
    rfl

theorem Conversion.literal_starCount (d : Conversion) (args : Args) :
    starCount (d.literal args).1.text + d.stars = starCount d.text := by
  obtain ⟨flags, width, precision, qualifier, letter⟩ := d
  have hwidth := width.width_starCount args
  unfold Conversion.literal Conversion.text Conversion.stars Directive.text
  cases precision with
  | none =>
    simp only [dotText, Option.map_none, Option.elim_none]
    rw [starCount_cons, starCount_cons (ascii '%') (flags ++ _)]
    simp only [starCount_append, starCount_nil]
    omega
  | some f =>
    have hprecision := f.precision_starCount (width.width args).2
    simp only [dotText, Option.map_some, Option.elim_some]
    rw [starCount_cons, starCount_cons (ascii '%') (flags ++ _)]
    simp only [starCount_append]
    rw [starCount_cons (ascii '.') (f.precision _).1, starCount_cons (ascii '.') f.text]
    omega

theorem expand_starCount (ps : List (Byte ⊕ Conversion)) (args : Args) :
    starCount (expand ps args).1 + (ps.map (Sum.elim (fun _ => 0) Conversion.stars)).sum =
      starCount (ps.flatMap partText) := by
  induction ps generalizing args with
  | nil => rfl
  | cons p ps ih =>
    cases p with
    | inl c =>
      have hrest := ih args
      rw [List.flatMap_cons, starCount_append, List.map_cons, List.sum_cons, Sum.elim_inl, zero_add]
      show starCount (c :: (expand ps args).1) + _ = starCount [c] + _
      rw [starCount_cons]
      omega
    | inr d =>
      have hliteral := d.literal_starCount args
      rw [List.flatMap_cons, starCount_append, List.map_cons, List.sum_cons, Sum.elim_inr]
      show starCount (expand (.inr d :: ps) args).1 + _ = starCount d.text + _
      unfold expand
      dsimp only
      split
      · have hrest := ih (d.literal args).2.tail
        rw [starCount_append]
        omega
      · have hrest := ih (d.literal args).2
        rw [starCount_append]
        omega

theorem literalFormat_starCount (fmt : List Byte) (args : Args) :
    starCount (literalFormat fmt args) + stars fmt = starCount fmt := by
  have h := expand_starCount (conversions fmt) args
  rwa [conversions_text] at h

/-! ## A format without stars -/

theorem Field.text_eq_width {f : Field} (h : f.stars = 0) (args : Args) : f.width args = (f.text, args) := by
  cases f with
  | digits ds => rfl
  | star => exact absurd h Nat.one_ne_zero

theorem Field.text_eq_precision {f : Field} (h : f.stars = 0) (args : Args) :
    f.precision args = (f.text, args) := by
  cases f with
  | digits ds => rfl
  | star => exact absurd h Nat.one_ne_zero

theorem Conversion.literal_eq {d : Conversion} (h : d.stars = 0) (args : Args) :
    (d.literal args).1.text = d.text ∧ (d.literal args).2 = args := by
  obtain ⟨flags, width, precision, qualifier, letter⟩ := d
  unfold Conversion.stars at h
  unfold Conversion.literal Conversion.text
  dsimp only at h ⊢
  rw [Field.text_eq_width (by omega)]
  cases precision with
  | none => exact ⟨rfl, rfl⟩
  | some f =>
    unfold dotText
    dsimp only
    rw [Field.text_eq_precision (show f.stars = 0 by rw [Option.elim_some] at h; omega)]
    exact ⟨rfl, rfl⟩

theorem expand_eq {ps : List (Byte ⊕ Conversion)} (h : (ps.map (Sum.elim (fun _ => 0) Conversion.stars)).sum = 0)
    (args : Args) : expand ps args = (ps.flatMap partText, args) := by
  induction ps generalizing args with
  | nil => rfl
  | cons p ps ih =>
    rw [List.map_cons, List.sum_cons, Nat.add_eq_zero_iff] at h
    obtain ⟨hp, hps⟩ := h
    rw [List.flatMap_cons]
    cases p with
    | inl c =>
      unfold expand
      rw [ih hps]
      rfl
    | inr d =>
      obtain ⟨htext, hargs⟩ := Conversion.literal_eq hp args
      unfold expand
      dsimp only
      rw [htext, hargs, ih hps, ih hps]
      split
      · exact Prod.ext rfl (Stream'.eta args)
      · rfl

theorem literal_eq_self (h : stars fmt = 0) (args : Args) :
    literalFormat fmt args = fmt ∧ literalArgs fmt args = args := by
  unfold literalFormat literalArgs
  rw [expand_eq h, conversions_text]
  exact ⟨rfl, rfl⟩

/-! ## No NUL comes in -/

theorem nul_notMem_decimal (n : ℕ) : 0 ∉ decimal n := by
  intro hmem
  exact absurd ((numeral_spec false (by decide) (by decide)).1 _ hmem) (by decide)

theorem Field.nul_width {f : Field} (h : 0 ∉ f.text) (args : Args) : 0 ∉ (f.width args).1 := by
  cases f with
  | digits ds => exact h
  | star =>
    unfold Field.width
    dsimp only
    split
    · intro hmem
      rcases List.mem_cons.mp hmem with h0 | hmem
      · exact absurd h0 (by decide)
      · exact nul_notMem_decimal _ hmem
    · exact nul_notMem_decimal _

theorem Field.nul_precision {f : Field} (h : 0 ∉ f.text) (args : Args) : 0 ∉ (f.precision args).1 := by
  cases f with
  | digits ds => exact h
  | star => exact nul_notMem_decimal _

theorem Conversion.nul_literal {d : Conversion} (h : 0 ∉ d.text) (args : Args) :
    0 ∉ (d.literal args).1.text := by
  obtain ⟨flags, width, precision, qualifier, letter⟩ := d
  unfold Conversion.literal
  unfold Conversion.text at h
  unfold Directive.text at h ⊢
  dsimp only at h ⊢
  cases precision with
  | none =>
    simp only [dotText, Option.map_none, Option.elim_none, List.mem_cons, List.mem_append, List.not_mem_nil, not_or,
      not_false_eq_true, true_and] at h ⊢
    exact ⟨h.1, h.2.1, Field.nul_width h.2.2.1 args, h.2.2.2⟩
  | some f =>
    simp only [dotText, Option.map_some, Option.elim_some, List.mem_cons, List.mem_append, not_or] at h ⊢
    exact ⟨h.1, h.2.1, Field.nul_width h.2.2.1 args, ⟨h.2.2.2.1.1, Field.nul_precision h.2.2.2.1.2 _⟩, h.2.2.2.2⟩

theorem nul_expand {ps : List (Byte ⊕ Conversion)} (h : 0 ∉ ps.flatMap partText) (args : Args) :
    0 ∉ (expand ps args).1 := by
  induction ps generalizing args with
  | nil => exact List.not_mem_nil
  | cons p ps ih =>
    rw [List.flatMap_cons, List.mem_append, not_or] at h
    obtain ⟨hp, hps⟩ := h
    cases p with
    | inl c =>
      intro hmem
      rcases List.mem_cons.mp hmem with h0 | hmem
      · exact hp (h0 ▸ List.mem_singleton_self c)
      · exact ih hps args hmem
    | inr d =>
      unfold expand
      dsimp only
      split
      · rw [List.mem_append, not_or]
        exact ⟨Conversion.nul_literal hp args, ih hps _⟩
      · rw [List.mem_append, not_or]
        exact ⟨Conversion.nul_literal hp args, ih hps _⟩

theorem nul_literalFormat (hfmt : 0 ∉ fmt) (args : Args) : 0 ∉ literalFormat fmt args :=
  nul_expand (by rwa [conversions_text]) args

/-! ## Stars and decimal texts -/

theorem usesStars_eq {st st' : State} (h : st.uses.map (Use.effect str) = st'.uses.map (Use.effect str)) :
    usesStars str st = usesStars str st' := by
  have hmap := congrArg (fun l => (l.map fun e => starCount e.2.2).sum) h
  rwa [List.map_map, List.map_map] at hmap

theorem stars_eq_zero (hfmt : 0 ∉ fmt) (h : StarLiteral str fmt args) : stars fmt = 0 := by
  obtain ⟨st, st', hst, hst', hbuf, -, -, huses⟩ := h
  rw [vsprintf_eq str args hfmt (Nat.lt_succ_self _), Option.some_inj] at hst
  rw [vsprintf_eq str _ (nul_literalFormat hfmt args) (Nat.lt_succ_self _), Option.some_inj] at hst'
  have hcount := run_starCount str fmt ⟨[], args, [], []⟩
  have hcount' := run_starCount str (literalFormat fmt args) ⟨[], literalArgs fmt args, [], []⟩
  have hliteral := literalFormat_starCount fmt args
  rw [hst] at hcount
  rw [hst', ← hbuf, ← usesStars_eq huses] at hcount'
  have hempty : ∀ args, usesStars str ⟨[], args, [], []⟩ = 0 := fun _ => rfl
  rw [hempty] at hcount hcount'
  show stars fmt = 0
  rw [starCount_nil] at hcount hcount'
  omega

/-- A format agrees with the one that has the decimal texts only where it has no star. -/
theorem star_literal_iff (str : Word → List Byte) (fmt : List Byte) (args : Args) (hfmt : 0 ∉ fmt) :
    StarLiteral str fmt args ↔ stars fmt = 0 := by
  constructor
  · exact stars_eq_zero hfmt
  · intro hstars
    obtain ⟨hformat, hargs⟩ := literal_eq_self hstars args
    unfold StarLiteral
    rw [hformat, hargs]
    exact ⟨_, _, vsprintf_eq str args hfmt (Nat.lt_succ_self _), vsprintf_eq str args hfmt (Nat.lt_succ_self _),
      rfl, rfl, rfl, rfl⟩

theorem star_literal_iff_precision :
    StarLiteral (fun _ => []) ("a%-8.*ld".toList.map ascii) (fun _ => 5) ↔
      stars ("a%-8.*ld".toList.map ascii) = 0 :=
  star_literal_iff (fun _ => []) ("a%-8.*ld".toList.map ascii) (fun _ => 5) (by decide)

/-- `%*d` -/
theorem star_printed : ¬ StarLiteral (fun _ => []) ("%*d".toList.map ascii) (fun _ => 5) := by
  intro h
  have hstars := stars_eq_zero (by decide) h
  have hone : stars ("%*d".toList.map ascii) = 1 := by
    unfold stars
    rw [show "%*d".toList.map ascii = [ascii '%', ascii '*', ascii 'd'] from rfl, conversions, if_pos rfl,
      show (starred [ascii '*', ascii 'd']).2 = [] from rfl, conversions]
    rfl
  omega

end Linux012.Vsprintf
