import Linux012.Kernel.Vsprintf.Number

/-! # Reading a format

A format is cut into characters that are copied and conversions. `vsprintf` carries them out one after
another, and stops at the NUL.
-/

namespace Linux012.Vsprintf

/-! ## The pieces of a format -/

def isFlag (c : Byte) : Bool := c ∈ "-+ #0".toList.map ascii

/-- What stands between `%` and the end of a conversion; a format can end before the last character. -/
structure Directive where
  flags : List Byte
  width : List Byte
  precision : Option (List Byte)
  qualifier : Option Byte
  letter : Option Byte
  deriving DecidableEq

def Directive.text (d : Directive) : List Byte :=
  ascii '%' :: (d.flags ++ (d.width ++ ((d.precision.elim [] fun p => ascii '.' :: p) ++
    (d.qualifier.toList ++ d.letter.toList))))

def precisionPart : List Byte → Option (List Byte) × List Byte
  | [] => (none, [])
  | c :: s => if c = ascii '.' then (some (s.takeWhile isDigit), s.dropWhile isDigit) else (none, c :: s)

def qualifierPart : List Byte → Option Byte × List Byte
  | [] => (none, [])
  | c :: s => if isQualifier c then (some c, s) else (none, c :: s)

/-- The conversion after a `%`, and the format after it -/
def directive (s : List Byte) : Directive × List Byte :=
  let s₁ := s.dropWhile isFlag
  let s₂ := s₁.dropWhile isDigit
  let s₃ := (precisionPart s₂).2
  let s₄ := (qualifierPart s₃).2
  (⟨s.takeWhile isFlag, s₁.takeWhile isDigit, (precisionPart s₂).1, (qualifierPart s₃).1, s₄.head?⟩, s₄.tail)

theorem precisionPart_text (s : List Byte) :
    ((precisionPart s).1.elim [] fun p => ascii '.' :: p) ++ (precisionPart s).2 = s := by
  match s with
  | [] => rfl
  | c :: s =>
    rw [precisionPart]
    split
    · rename_i h
      rw [h]
      exact congrArg _ (List.takeWhile_append_dropWhile)
    · rfl

theorem qualifierPart_text (s : List Byte) : (qualifierPart s).1.toList ++ (qualifierPart s).2 = s := by
  match s with
  | [] => rfl
  | c :: s =>
    rw [qualifierPart]
    split <;> rfl

theorem head_tail (s : List Byte) : s.head?.toList ++ s.tail = s := by
  cases s <;> rfl

theorem directive_text (s : List Byte) : (directive s).1.text ++ (directive s).2 = ascii '%' :: s := by
  unfold directive Directive.text
  simp only [List.cons_append, List.append_assoc]
  rw [head_tail, qualifierPart_text, precisionPart_text, List.takeWhile_append_dropWhile,
    List.takeWhile_append_dropWhile]

theorem directive_length_le (s : List Byte) : (directive s).2.length ≤ s.length := by
  have h := congrArg List.length (directive_text s)
  rw [List.length_append, List.length_cons, Directive.text, List.length_cons] at h
  omega

inductive Piece where
  | char (c : Byte)
  | directive (d : Directive)
  deriving DecidableEq

def Piece.text : Piece → List Byte
  | .char c => [c]
  | .directive d => d.text

def pieces : List Byte → List Piece
  | [] => []
  | c :: s => if c = ascii '%' then .directive (directive s).1 :: pieces (directive s).2 else .char c :: pieces s
termination_by s => s.length
decreasing_by
  · exact Nat.lt_succ_of_le (directive_length_le s)
  · exact Nat.lt_succ_self _

theorem pieces_text (fmt : List Byte) : (pieces fmt).flatMap Piece.text = fmt := by
  fun_induction pieces with
  | case1 => rfl
  | case2 s ih =>
    rw [List.flatMap_cons, ih]
    exact directive_text s
  | case3 c s hc ih =>
    rw [List.flatMap_cons, ih]
    rfl

/-! ## What they do -/

def Flags.set (flags : Flags) (c : Byte) : Flags := (flags.add c).getD flags

def atoi (digits : List Byte) : Word := digits.foldl (fun n c => n * 10 + BitVec.ofNat 32 c.toNat - 48) 0

/-- The field width, if it is of these digits or the star follows -/
def widthOf (digits : List Byte) (star : Bool) (flags : Flags) (args : Args) : Word × Flags × Args :=
  if digits ≠ [] then (atoi digits, flags, args)
  else if star then
    if args.head.slt 0 then (-args.head, { flags with left := true }, args.tail)
    else (args.head, flags, args.tail)
  else (-1, flags, args)

def precisionValue (digits : Option (List Byte)) (star : Bool) (args : Args) : Word × Args :=
  match digits with
  | none => (-1, args)
  | some digits =>
    let p := if digits ≠ [] then (atoi digits, args) else if star then (args.head, args.tail) else (-1, args)
    (if p.1.slt 0 then 0 else p.1, p.2)

/-- A star where a field may stand is read as the last character as well. -/
def Directive.starred (d : Directive) : Bool := d.qualifier = none ∧ d.letter = some (ascii '*')

def Use.written (str : Word → List Byte) (u : Use) : List Byte := (u.text str).getD []

def perform (str : Word → List Byte) (c : Byte) (flags : Flags) (width precision : Word) (st : State) : State :=
  if c ∈ letters then
    let u : Use := ⟨c, flags, width, precision, st.args.head⟩
    { buf := st.buf ++ u.written str
      args := st.args.tail
      stores := if c = ascii 'n' then st.stores ++ [(u.arg, BitVec.ofNat 32 st.buf.length)] else st.stores
      uses := st.uses ++ [u] }
  else
    let st := if c ≠ ascii '%' then st.write [ascii '%'] else st
    if c ≠ 0 then st.write [c] else st

def Directive.exec (str : Word → List Byte) (d : Directive) (st : State) : State :=
  let w := widthOf d.width (d.precision = none ∧ d.starred) (d.flags.foldl Flags.set noFlags) st.args
  let p := precisionValue d.precision d.starred w.2.2
  perform str (d.letter.getD 0) w.2.1 w.1 p.1 { st with args := p.2 }

def Piece.exec (str : Word → List Byte) : Piece → State → State
  | .char c, st => st.write [c]
  | .directive d, st => d.exec str st

def run (str : Word → List Byte) (ps : List Piece) (st : State) : State :=
  ps.foldl (fun st p => p.exec str st) st

variable {str : Word → List Byte} {fmt s : List Byte} {i : ℕ} {flags : Flags} {args : Args} {st : State}

/-! ## The index -/

/-- The rest of the format from the index on -/
structure Rest (fmt : List Byte) (i : ℕ) (s : List Byte) : Prop where
  le : i ≤ fmt.length
  drop : fmt.drop i = s

/-- At the end it is the NUL that is read. -/
theorem Rest.rd (h : Rest fmt i s) : rd fmt i = some (s.headD 0) := by
  obtain ⟨hle, rfl⟩ := h
  unfold Vsprintf.rd
  rcases Nat.lt_or_eq_of_le hle with hlt | rfl
  · rw [List.getElem?_append_left hlt, List.drop_eq_getElem_cons hlt, List.getElem?_eq_getElem hlt]
    rfl
  · rw [List.getElem?_append_right le_rfl, List.drop_length, Nat.sub_self]
    rfl

theorem Rest.next {c : Byte} (h : Rest fmt i (c :: s)) : Rest fmt (i + 1) s := by
  obtain ⟨hle, hdrop⟩ := h
  have hlen := congrArg List.length hdrop
  rw [List.length_drop, List.length_cons] at hlen
  refine ⟨by omega, ?_⟩
  rw [← List.tail_drop, hdrop]
  rfl

/-- The `++fmt` of the loop; at the end of the format it makes up for the `--fmt`. -/
theorem Rest.last (h : Rest fmt i s) (hi : 0 < i) (hz : 0 ∉ s) :
    Rest fmt ((if s.headD 0 = 0 then i - 1 else i) + 1) s.tail := by
  match s, h, hz with
  | [], h, _ =>
    show Rest fmt (i - 1 + 1) []
    rw [Nat.sub_add_cancel hi]
    exact h
  | c :: s, h, hz =>
    have hc : ¬ (c :: s).headD 0 = 0 := fun h0 => hz (h0 ▸ List.mem_cons_self)
    rw [if_neg hc]
    exact h.next

theorem Rest.mono (h : Rest fmt i s) (hz : 0 ∉ fmt) : 0 ∉ s := by
  rw [← h.drop]
  exact fun h0 => hz (List.mem_of_mem_drop h0)

theorem flagsLoop_unfold (fmt : List Byte) (i : ℕ) (flags : Flags) :
    flagsLoop fmt i flags = (rd fmt (i + 1)).bind fun c =>
      (flags.add c).elim (some (i + 1, flags)) fun flags => flagsLoop fmt (i + 1) flags := by
  rw [flagsLoop]
  split
  · rename_i h
    rw [h]
    rfl
  · rename_i c h
    rw [h, Option.bind_some]
    split
    · rename_i h
      rw [h]
      rfl
    · rename_i h
      rw [h]
      rfl

theorem skipAtoi_unfold (fmt : List Byte) (i : ℕ) (n : Word) :
    skipAtoi fmt i n = (rd fmt i).bind fun c =>
      if isDigit c then skipAtoi fmt (i + 1) (n * 10 + BitVec.ofNat 32 c.toNat - 48) else some (i, n) := by
  rw [skipAtoi]
  split
  · rename_i h
    rw [h]
    rfl
  · rename_i c h
    rw [h]
    rfl

theorem add_eq (flags : Flags) (c : Byte) : flags.add c = if isFlag c then some (flags.set c) else none := by
  have hsome : (flags.add c).isSome = isFlag c := by
    unfold Flags.add
    split_ifs with h₁ h₂ h₃ h₄ h₅
    · rw [h₁]
      rfl
    · rw [h₂]
      rfl
    · rw [h₃]
      rfl
    · rw [h₄]
      rfl
    · rw [h₅]
      rfl
    · symm
      apply decide_eq_false
      intro hmem
      obtain ⟨k, hk, rfl⟩ := List.mem_map.mp hmem
      rw [show "-+ #0".toList = ['-', '+', ' ', '#', '0'] from rfl] at hk
      simp only [List.mem_cons, List.not_mem_nil, or_false] at hk
      rcases hk with rfl | rfl | rfl | rfl | rfl
      · exact h₁ rfl
      · exact h₂ rfl
      · exact h₃ rfl
      · exact h₄ rfl
      · exact h₅ rfl
  unfold Flags.set
  cases hadd : flags.add c with
  | none =>
    rw [hadd] at hsome
    rw [← hsome]
    rfl
  | some f =>
    rw [hadd] at hsome
    rw [← hsome]
    rfl

theorem Rest.flagsLoop (h : Rest fmt (i + 1) s) (flags : Flags) :
    ∃ j, Vsprintf.flagsLoop fmt i flags = some (j, (s.takeWhile isFlag).foldl Flags.set flags) ∧ 0 < j ∧
      Rest fmt j (s.dropWhile isFlag) := by
  induction s generalizing i flags with
  | nil =>
    rw [flagsLoop_unfold, h.rd]
    exact ⟨i + 1, rfl, Nat.succ_pos _, h⟩
  | cons c s ih =>
    rw [flagsLoop_unfold, h.rd, Option.bind_some, List.headD_cons, add_eq]
    cases hc : isFlag c
    · rw [List.takeWhile_cons_of_neg (by simp [hc]), List.dropWhile_cons_of_neg (by simp [hc])]
      exact ⟨i + 1, rfl, Nat.succ_pos _, h⟩
    · rw [List.takeWhile_cons_of_pos hc, List.dropWhile_cons_of_pos hc, List.foldl_cons]
      exact ih h.next (flags.set c)

theorem Rest.skipAtoi (h : Rest fmt i s) (n : Word) :
    ∃ j, Vsprintf.skipAtoi fmt i n =
        some (j, (s.takeWhile isDigit).foldl (fun n c => n * 10 + BitVec.ofNat 32 c.toNat - 48) n) ∧ i ≤ j ∧
      Rest fmt j (s.dropWhile isDigit) := by
  induction s generalizing i n with
  | nil =>
    rw [skipAtoi_unfold, h.rd]
    exact ⟨i, rfl, le_rfl, h⟩
  | cons c s ih =>
    rw [skipAtoi_unfold, h.rd, Option.bind_some, List.headD_cons]
    cases hc : isDigit c
    · rw [List.takeWhile_cons_of_neg (by simp [hc]), List.dropWhile_cons_of_neg (by simp [hc])]
      exact ⟨i, rfl, le_rfl, h⟩
    · rw [List.takeWhile_cons_of_pos hc, List.dropWhile_cons_of_pos hc, List.foldl_cons]
      obtain ⟨j, hj, hle, hrest⟩ := ih h.next (n * 10 + BitVec.ofNat 32 c.toNat - 48)
      exact ⟨j, hj, by omega, hrest⟩

theorem takeWhile_ne_nil (s : List Byte) : s.takeWhile isDigit ≠ [] ↔ isDigit (s.headD 0) = true := by
  cases s with
  | nil => exact ⟨fun h => absurd rfl h, fun h => absurd h (by decide)⟩
  | cons c s =>
    cases hc : isDigit c
    · rw [List.takeWhile_cons_of_neg (by simp [hc]), List.headD_cons, hc]
      simp
    · rw [List.takeWhile_cons_of_pos hc, List.headD_cons, hc]
      simp

theorem dropWhile_of_head {s : List Byte} (h : ¬ isDigit (s.headD 0) = true) : s.dropWhile isDigit = s := by
  cases s with
  | nil => rfl
  | cons c s => exact List.dropWhile_cons_of_neg h

/-- The field width, with the star where a digit does not stand -/
theorem Rest.fieldWidth (h : Rest fmt i s) (flags : Flags) (args : Args) :
    ∃ j, Vsprintf.fieldWidth fmt i flags args =
        some (j, widthOf (s.takeWhile isDigit) ((s.dropWhile isDigit).headD 0 == ascii '*') flags args) ∧ i ≤ j ∧
      Rest fmt j (s.dropWhile isDigit) := by
  unfold Vsprintf.fieldWidth widthOf
  rw [h.rd]
  by_cases hc : isDigit (s.headD 0) = true
  · obtain ⟨j, hj, hle, hrest⟩ := h.skipAtoi 0
    refine ⟨j, ?_, hle, hrest⟩
    simp only [Option.bind_eq_bind, Option.bind_some, if_pos hc, if_pos ((takeWhile_ne_nil s).mpr hc), hj]
    rfl
  · refine ⟨i, ?_, le_rfl, by rw [dropWhile_of_head hc]; exact h⟩
    rw [dropWhile_of_head hc]
    simp only [Option.bind_eq_bind, Option.bind_some, if_neg hc, if_neg (fun h => hc ((takeWhile_ne_nil s).mp h)),
      beq_iff_eq]
    split_ifs <;> rfl

theorem Rest.precisionOf (h : Rest fmt i s) (args : Args) :
    ∃ j, Vsprintf.precisionOf fmt i args =
        some (j, precisionValue (precisionPart s).1 ((precisionPart s).2.headD 0 == ascii '*') args) ∧ i ≤ j ∧
      Rest fmt j (precisionPart s).2 := by
  unfold Vsprintf.precisionOf
  rw [h.rd]
  match s, h with
  | [], h => exact ⟨i, rfl, le_rfl, h⟩
  | c :: s, h =>
    unfold precisionPart
    simp only [Option.bind_eq_bind, Option.bind_some, List.headD_cons]
    by_cases hdot : c = ascii '.'
    · rw [if_pos hdot, if_pos hdot, h.next.rd, Option.bind_some]
      unfold precisionValue
      by_cases hc : isDigit (s.headD 0) = true
      · obtain ⟨j, hj, hle, hrest⟩ := h.next.skipAtoi 0
        refine ⟨j, ?_, by omega, hrest⟩
        simp only [if_pos hc, if_pos ((takeWhile_ne_nil s).mpr hc), hj]
        rfl
      · refine ⟨i + 1, ?_, Nat.le_succ i, by rw [dropWhile_of_head hc]; exact h.next⟩
        rw [dropWhile_of_head hc]
        simp only [if_neg hc, if_neg (fun h => hc ((takeWhile_ne_nil s).mp h)), beq_iff_eq]
        split_ifs <;> rfl
    · rw [if_neg hdot, if_neg hdot]
      exact ⟨i, rfl, le_rfl, h⟩

theorem Rest.qualifier (h : Rest fmt i s) :
    ∃ j, Vsprintf.qualifier fmt i = some j ∧ i ≤ j ∧ Rest fmt j (qualifierPart s).2 := by
  unfold Vsprintf.qualifier
  rw [h.rd]
  match s, h with
  | [], h => exact ⟨i, rfl, le_rfl, h⟩
  | c :: s, h =>
    unfold qualifierPart
    simp only [Option.bind_eq_bind, Option.bind_some, List.headD_cons]
    by_cases hq : isQualifier c = true
    · rw [if_pos hq, if_pos hq]
      exact ⟨i + 1, rfl, Nat.le_succ i, h.next⟩
    · rw [if_neg hq, if_neg hq]
      exact ⟨i, rfl, le_rfl, h⟩

/-! ## The end of a conversion -/

theorem number_isSome {num base size precision : Word} {type : Flags} (h2 : 2 ≤ base.toInt)
    (h36 : base.toInt ≤ 36) : (number num base size precision type).isSome = true := by
  rw [number_eq h2 h36]
  rfl

theorem text_eq (str : Word → List Byte) (u : Use) : u.text str = some (u.written str) := by
  have hsome : (u.text str).isSome = true := by
    unfold Use.text
    split_ifs
    · rfl
    · rfl
    · exact number_isSome (by decide) (by decide)
    · exact number_isSome (by decide) (by decide)
    · exact number_isSome (by decide) (by decide)
    · exact number_isSome (by decide) (by decide)
    · exact number_isSome (by decide) (by decide)
    · exact number_isSome (by decide) (by decide)
    · exact number_isSome (by decide) (by decide)
    · rfl
  obtain ⟨text, htext⟩ := Option.isSome_iff_exists.mp hsome
  rw [Use.written, htext]
  rfl

theorem convert_eq (str : Word → List Byte) (i : ℕ) (c : Byte) (flags : Flags) (width precision : Word)
    (st : State) :
    convert str i c flags width precision st =
      some (if c = 0 then i - 1 else i, perform str c flags width precision st) := by
  unfold convert perform
  by_cases hc : c ∈ letters
  · have h0 : c ≠ 0 := by
      rintro rfl
      exact absurd hc (by decide)
    rw [if_pos hc, if_pos hc, if_neg h0]
    dsimp only
    rw [text_eq]
    rfl
  · rw [if_neg hc, if_neg hc]
    by_cases h0 : c = 0
    · simp only [h0, ne_eq, not_true_eq_false, if_false, if_true]
    · simp only [h0, ne_eq, not_false_eq_true, if_false, if_true]

/-- The star is neither a qualifier nor a dot. -/
theorem star_next (s : List Byte) :
    (s.headD 0 == ascii '*') =
      decide ((qualifierPart s).1 = none ∧ (qualifierPart s).2.head? = some (ascii '*')) := by
  match s with
  | [] => rfl
  | c :: s =>
    rw [qualifierPart, List.headD_cons]
    by_cases hq : isQualifier c = true
    · have hstar : c ≠ ascii '*' := by
        rintro rfl
        exact absurd hq (by decide)
      rw [if_pos hq, beq_eq_false_iff_ne.mpr hstar]
      rfl
    · rw [if_neg hq]
      simp only [true_and, List.head?_cons, Option.some_inj]
      exact Bool.eq_iff_iff.mpr (by simp)

theorem star_dot (s : List Byte) :
    (s.headD 0 == ascii '*') =
      decide ((precisionPart s).1 = none ∧ ((precisionPart s).2.headD 0 == ascii '*') = true) := by
  match s with
  | [] => rfl
  | c :: s =>
    rw [precisionPart]
    by_cases hdot : c = ascii '.'
    · rw [if_pos hdot, hdot]
      rfl
    · rw [if_neg hdot]
      simp only [true_and, Bool.decide_eq_true]

theorem conversion_eq (str : Word → List Byte) (hfmt : 0 ∉ fmt) (h : Rest fmt i (ascii '%' :: s)) (st : State) :
    ∃ j, conversion str fmt i st = some (j, (directive s).1.exec str st) ∧ Rest fmt (j + 1) (directive s).2 := by
  obtain ⟨j₁, hflags, hpos, h₁⟩ := h.next.flagsLoop noFlags
  obtain ⟨j₂, hwidth, hle₂, h₂⟩ := h₁.fieldWidth ((s.takeWhile isFlag).foldl Flags.set noFlags) st.args
  obtain ⟨j₃, hprecision, hle₃, h₃⟩ := h₂.precisionOf
    (widthOf ((s.dropWhile isFlag).takeWhile isDigit)
      (((s.dropWhile isFlag).dropWhile isDigit).headD 0 == ascii '*')
      ((s.takeWhile isFlag).foldl Flags.set noFlags) st.args).2.2
  obtain ⟨j₄, hqualifier, hle₄, h₄⟩ := h₃.qualifier
  refine ⟨_, ?_, h₄.last (by omega) (h₄.mono hfmt)⟩
  unfold conversion
  simp only [Option.bind_eq_bind, hflags, Option.bind_some, hwidth, hprecision, hqualifier, h₄.rd, convert_eq]
  unfold Directive.exec directive
  rw [star_dot, star_next]
  simp only [List.headD_eq_head?_getD, Directive.starred, decide_eq_true_eq]

/-- The loop carries the pieces out and stops at the NUL. -/
theorem loop_eq (hfmt : 0 ∉ fmt) (h : Rest fmt i s) {fuel : ℕ} (hfuel : s.length < fuel) (st : State) :
    loop str fmt fuel i st = some (run str (pieces s) st) := by
  fun_induction pieces s generalizing i fuel st with
  | case1 =>
    obtain ⟨fuel, rfl⟩ := Nat.exists_eq_succ_of_ne_zero (Nat.ne_zero_of_lt hfuel)
    rw [loop, h.rd]
    rfl
  | case2 s ih =>
    obtain ⟨fuel, rfl⟩ := Nat.exists_eq_succ_of_ne_zero (Nat.ne_zero_of_lt hfuel)
    obtain ⟨j, hj, hrest⟩ := conversion_eq str hfmt h st
    have hlen := directive_length_le s
    rw [List.length_cons] at hfuel
    rw [loop, h.rd]
    simp only [Option.bind_eq_bind, Option.bind_some, List.headD_cons, hj]
    exact ih hrest (by omega) _
  | case3 c s hc ih =>
    obtain ⟨fuel, rfl⟩ := Nat.exists_eq_succ_of_ne_zero (Nat.ne_zero_of_lt hfuel)
    have h0 : c ≠ 0 := fun h0 => h.mono hfmt (h0 ▸ List.mem_cons_self)
    rw [List.length_cons] at hfuel
    rw [loop, h.rd]
    simp only [Option.bind_eq_bind, Option.bind_some, List.headD_cons, if_neg h0, if_pos hc]
    exact ih h.next (by omega) _

theorem vsprintf_eq (str : Word → List Byte) (args : Args) (hfmt : 0 ∉ fmt) {fuel : ℕ}
    (hfuel : fmt.length < fuel) :
    vsprintf str fmt args fuel = some (run str (pieces fmt) ⟨[], args, [], []⟩) :=
  loop_eq hfmt ⟨Nat.zero_le _, rfl⟩ hfuel _

/-! ## What is written -/

/-- What can be written for a piece -/
inductive Written : Piece → List Byte → Prop
  | char (c : Byte) : Written (.char c) [c]
  | directive (d : Directive) (text : List Byte) : Written (.directive d) text

theorem exec_buf (str : Word → List Byte) (p : Piece) (st : State) : ∃ text, Written p text ∧ (p.exec str st).buf = st.buf ++ text := by
  cases p with
  | char c => exact ⟨[c], .char c, rfl⟩
  | directive d =>
    have hperform : ∀ c flags width precision (st : State),
        ∃ text, (perform str c flags width precision st).buf = st.buf ++ text := by
      intro c flags width precision st
      unfold perform
      split
      · exact ⟨_, rfl⟩
      · split
        · split
          · exact ⟨_, List.append_assoc _ _ _⟩
          · exact ⟨_, rfl⟩
        · split
          · exact ⟨_, rfl⟩
          · exact ⟨[], (List.append_nil _).symm⟩
    obtain ⟨text, htext⟩ := hperform _ _ _ _ _
    exact ⟨text, .directive d text, htext⟩

theorem run_buf (str : Word → List Byte) (ps : List Piece) (st : State) :
    ∃ texts, List.Forall₂ Written ps texts ∧ (run str ps st).buf = st.buf ++ texts.flatten := by
  induction ps generalizing st with
  | nil => exact ⟨[], .nil, (List.append_nil _).symm⟩
  | cons p ps ih =>
    obtain ⟨text, hp, hbuf⟩ := exec_buf str p st
    obtain ⟨texts, hps, hrun⟩ := ih (p.exec str st)
    refine ⟨text :: texts, .cons hp hps, ?_⟩
    rw [List.flatten_cons, ← List.append_assoc, ← hbuf]
    exact hrun

/-- `vsprintf` comes to the NUL and reads nothing beyond it; what is not part of a conversion is copied. -/
theorem vsprintf_scans (str : Word → List Byte) (fmt : List Byte) (args : Args) (hfmt : 0 ∉ fmt) :
    ∃ st, (∀ fuel, fmt.length < fuel → vsprintf str fmt args fuel = some st) ∧
      (pieces fmt).flatMap Piece.text = fmt ∧
      ∃ texts, List.Forall₂ Written (pieces fmt) texts ∧ st.buf = texts.flatten := by
  obtain ⟨texts, hwritten, hbuf⟩ := run_buf str (pieces fmt) ⟨[], args, [], []⟩
  exact ⟨_, fun fuel hfuel => vsprintf_eq str args hfmt hfuel, pieces_text fmt, texts, hwritten, hbuf⟩

/-- A format that ends after the dot of a precision -/
theorem vsprintf_scans_short :
    ∃ st, (∀ fuel, ("a %-5.".toList.map ascii).length < fuel →
        vsprintf (fun _ => []) ("a %-5.".toList.map ascii) (fun _ => 0) fuel = some st) ∧
      (pieces ("a %-5.".toList.map ascii)).flatMap Piece.text = "a %-5.".toList.map ascii ∧
      ∃ texts, List.Forall₂ Written (pieces ("a %-5.".toList.map ascii)) texts ∧ st.buf = texts.flatten :=
  vsprintf_scans (fun _ => []) ("a %-5.".toList.map ascii) (fun _ => 0) (by decide)

end Linux012.Vsprintf
