import Mathlib.Data.List.DropRight
import Linux012.Kernel.Tty.Lines

/-! # Editing a line

In canonical mode the secondary queue holds the completed lines and the current one, which ERASE and KILL
edit. While nobody reads it, `copy_to_cooked` turns what is typed into the lines that it stands for.
-/

namespace Linux012.Tty

open Function Runs

/-! ## The lines of a text -/

namespace Termios

def hasI (t : Termios) (f : UInt32) : Bool := t.iflag &&& f ≠ 0
def hasL (t : Termios) (f : UInt32) : Bool := t.lflag &&& f ≠ 0

/-- The character is the control character, which is not disabled. -/
def is (t : Termios) (i : ℕ) (c : UInt8) : Bool := t.cc i ≠ POSIX_VDISABLE ∧ c = t.cc i

/-- CR, NL and case mapping; `none` is a character that is ignored. -/
def translate (t : Termios) (c : UInt8) : Option UInt8 :=
  let c' :=
    if c = 13 then (if t.hasI ICRNL then some 10 else if t.hasI IGNCR then none else some c)
    else if c = 10 ∧ t.hasI INLCR then some 13
    else some c
  if t.hasI IUCLC then c'.map fun c => if 65 ≤ c ∧ c ≤ 90 then c + 32 else c else c'

/-- Flow control and signals -/
def removed (t : Termios) (c : UInt8) : Bool :=
  t.hasI IXON ∧ (t.is VSTOP c ∨ t.is VSTART c) ∨ t.hasL ISIG ∧ (t.is VINTR c ∨ t.is VQUIT c ∨ t.is VSUSP c)

end Termios

structure Lines where
  completed : List UInt8
  current : List UInt8
  deriving DecidableEq

def Lines.text (l : Lines) : List UInt8 := l.completed ++ l.current

def Lines.edit (t : Termios) (l : Lines) (c : UInt8) : Lines :=
  match t.translate c with
  | none => l
  | some c =>
    if t.delimits c then ⟨l.completed ++ (l.current ++ [c]), []⟩
    else if t.removed c then l
    else if t.is VERASE c then { l with current := l.current.dropLast }
    else if t.is VKILL c then { l with current := [] }
    else { l with current := l.current ++ [c] }

def linesOf (t : Termios) (input : List UInt8) : Lines := input.foldl (Lines.edit t) ⟨[], []⟩

/-- What comes before the current line -/
def completed (t : Termios) (text : List UInt8) : List UInt8 := text.rdropWhile fun c => ¬ t.delimits c

def specials : List ℕ := [VINTR, VQUIT, VERASE, VKILL, VEOF, VSTART, VSTOP, VSUSP]

/-- Canonical mode, and the control characters that are not disabled are distinct. -/
structure Editing (t : Termios) : Prop where
  icanon : t.hasL ICANON = true
  distinct : ∀ i ∈ specials, ∀ j ∈ specials, t.cc i ≠ POSIX_VDISABLE → t.cc i = t.cc j → i = j
  newline : ∀ i ∈ specials, t.cc i ≠ 10
  carriage : ∀ i ∈ specials, t.cc i ≠ 13

/-! ## `copy_to_cooked` without interruption -/

namespace Term

/-- The loop that kills a line -/
def killLine (s : Term) : Term := if s.erasable then killLine (s.output s.rubout).erase else s
termination_by s.secondary.chars
decreasing_by
  rename_i h
  have : (s.output s.rubout).erase.secondary.chars = s.erase.secondary.chars := rfl
  have := chars_erase h
  omega

/-- A round of the outer loop, with all of the loop that kills a line -/
def round (s : Term) : Term :=
  match s.effect s.readQ.first with
  | .kill => { s with readQ := s.readQ.getch }.killLine
  | e => { s with readQ := s.readQ.getch }.apply e

end Term

variable {t : Termios} {s s' : Term} {a : Act} {c : UInt8} {input consumed : List UInt8} {l : Lines}

namespace Term

theorem output_nil (s : Term) : s.output [] = s := by
  unfold output
  rw [List.foldl_nil, List.append_nil]

theorem apply_kill (s : Term) : s.apply .kill = { s with killing := s.killing + 1 } := by
  unfold apply
  rw [show s.echo .kill = [] from rfl, output_nil]

/-- What an effect does not touch -/
theorem apply_readQ (s : Term) (e : Effect) : (s.apply e).readQ = s.readQ := by
  cases e with
  | erase =>
    unfold apply
    dsimp only
    split <;> rfl
  | _ => rfl

theorem killLine_readQ (s : Term) : s.killLine.readQ = s.readQ := by
  fun_induction killLine with
  | case1 s _ ih => exact ih
  | case2 => rfl

theorem round_readQ (s : Term) : s.round.readQ = s.readQ.getch := by
  unfold round
  split
  · exact killLine_readQ _
  · exact apply_readQ _ _

/-- `copy_to_cooked` -/
def copyToCooked (s : Term) : Term := if s.idle then s else copyToCooked s.round
termination_by s.readQ.chars
decreasing_by
  rename_i h
  have hempty : ¬ s.readQ.Empty := fun he => h (decide_eq_true (.inl he))
  rw [round_readQ]
  have := Queue.chars_getch hempty
  omega

theorem killLine_not_erasable (s : Term) : s.killLine.erasable = false := by
  fun_induction killLine with
  | case1 s _ ih => exact ih
  | case2 s h => exact Bool.eq_false_iff.mpr h

theorem copyToCooked_idle (s : Term) : s.copyToCooked.idle = true := by
  fun_induction copyToCooked with
  | case1 s h => exact h
  | case2 s _ ih => exact ih

/-- The loop that kills a line is a run of its rounds. -/
theorem killLine_run (s : Term) :
    ∃ n, runList step (List.replicate n .killOne) { s with killing := s.killing + 1 } = some s.killLine := by
  fun_induction killLine with
  | case1 s h ih =>
    obtain ⟨n, hn⟩ := ih
    refine ⟨n + 1, ?_⟩
    rw [List.replicate_succ, runList_cons]
    have hone : step .killOne { s with killing := s.killing + 1 } =
        some { (s.output s.rubout).erase with killing := (s.output s.rubout).erase.killing + 1 } := by
      show (if s.killing + 1 = 0 then none else some (Term.killOne _)) = _
      rw [if_neg (Nat.succ_ne_zero _)]
      unfold Term.killOne
      exact congrArg some (if_pos h)
    rw [hone]
    exact hn
  | case2 s h =>
    refine ⟨1, ?_⟩
    show (if s.killing + 1 = 0 then none else some (Term.killOne _)).bind _ = _
    rw [if_neg (Nat.succ_ne_zero _)]
    unfold Term.killOne
    exact congrArg some (if_neg h)

theorem killLine_killing (s : Term) : s.killLine.killing = s.killing := by
  fun_induction killLine with
  | case1 s _ ih => exact ih
  | case2 => rfl

theorem round_run (hidle : s.idle = false) :
    ∃ n, runList step (.cook :: List.replicate n .killOne) s = some s.round := by
  have hcook : step .cook s = some ({ s with readQ := s.readQ.getch }.apply (s.effect s.readQ.first)) := by
    show some s.cook = _
    unfold Term.cook
    rw [hidle]
    rfl
  simp only [runList_cons, hcook]
  unfold round
  cases heffect : s.effect s.readQ.first with
  | kill =>
    obtain ⟨n, hn⟩ := killLine_run { s with readQ := s.readQ.getch }
    rw [apply_kill]
    exact ⟨n, hn⟩
  | _ => exact ⟨0, rfl⟩

end Term

/-! ## The fold over the input -/

theorem is_iff {i : ℕ} : t.is i c = true ↔ t.cc i ≠ POSIX_VDISABLE ∧ c = t.cc i := decide_eq_true_iff

theorem isCc_eq_is {i : ℕ} (ht : s.termios = t) (hc : c < 128) : s.isCc i c = t.is i c := by
  rw [Bool.eq_iff_iff, isCc_iff, is_iff, ht]
  constructor
  · rintro ⟨hd, heq, -⟩
    exact ⟨hd, heq⟩
  · rintro ⟨hd, heq⟩
    exact ⟨hd, heq, hc⟩

theorem endsLine_eq (ht : s.termios = t) (hc : c < 128) : s.endsLine c = t.delimits c := by
  unfold Term.endsLine Termios.delimits
  rw [isCc_eq_is ht hc]
  unfold Termios.is
  simp only [decide_eq_true_eq]

theorem mapped_eq (ht : s.termios = t) (hc : c < 128) : s.mapped c = t.translate c := by
  subst ht
  have hlower : ∀ c : UInt8, c < 128 → s.tolower c = if 65 ≤ c ∧ c ≤ 90 then c + 32 else c := by
    intro c hc
    unfold Term.tolower Term.isupper
    rw [if_pos hc]
    simp only [decide_eq_true_eq]
  unfold Term.mapped Termios.translate Termios.hasI Term.hasI
  by_cases hcr : c = 13
  · simp only [hcr, if_true]
    split_ifs <;> simp [hlower]
  · simp only [hcr, if_false]
    split_ifs <;> simp [hlower _ hc, hlower]

theorem lower_lt (hc : c < 128) : (if 65 ≤ c ∧ c ≤ 90 then c + 32 else c) < 128 := by
  split
  · rename_i h
    have hle := UInt8.le_iff_toNat_le.mp h.2
    rw [UInt8.lt_iff_toNat_lt, UInt8.toNat_add]
    change c.toNat ≤ 90 at hle
    change (c.toNat + 32) % 2 ^ 8 < 128
    omega
  · exact hc

/-- A character that is translated stays below 128. -/
theorem translate_lt {c' : UInt8} (hc : c < 128) (h : t.translate c = some c') : c' < 128 := by
  have hmap : ∀ {o : Option UInt8}, (∀ x, o = some x → x < 128) →
      (if t.hasI IUCLC then o.map fun c => if 65 ≤ c ∧ c ≤ 90 then c + 32 else c else o) = some c' →
      c' < 128 := by
    intro o ho h
    split at h
    · obtain ⟨x, hx, rfl⟩ := Option.map_eq_some_iff.mp h
      exact lower_lt (ho x hx)
    · exact ho c' h
  refine hmap ?_ h
  intro x hx
  split_ifs at hx
  · cases hx
    decide
  · cases hx
    exact hc
  · cases hx
    decide
  · cases hx
    exact hc

namespace Editing

variable {i j : ℕ}

theorem unique (ht : Editing t) (hi : i ∈ specials) (hj : j ∈ specials) (h : t.is i c = true)
    (h' : t.is j c = true) : i = j := by
  obtain ⟨hd, rfl⟩ := is_iff.mp h
  obtain ⟨-, heq⟩ := is_iff.mp h'
  exact ht.distinct i hi j hj hd heq

theorem not_is (ht : Editing t) (hi : i ∈ specials) (hj : j ∈ specials) (hne : i ≠ j) (h : t.is i c = true) :
    t.is j c = false :=
  Bool.eq_false_iff.mpr fun h' => hne (ht.unique hi hj h h')

theorem not_delimits (ht : Editing t) (hi : i ∈ specials) (hne : i ≠ VEOF) (h : t.is i c = true) :
    t.delimits c = false := by
  apply Bool.eq_false_iff.mpr
  intro hd
  rcases delimits_iff (s := { boot t false fun _ => 0 with termios := t }).mp hd with h10 | heof
  · obtain ⟨-, rfl⟩ := is_iff.mp h
    exact ht.newline i hi h10
  · exact hne (ht.unique hi (by decide) h (is_iff.mpr heof))

theorem not_removed (ht : Editing t) (hi : i ∈ specials) (hne : i ∉ [VSTOP, VSTART, VINTR, VQUIT, VSUSP])
    (h : t.is i c = true) : t.removed c = false := by
  have hnot : ∀ j ∈ [VSTOP, VSTART, VINTR, VQUIT, VSUSP], t.is j c = false := by
    intro j hj
    refine ht.not_is hi ?_ (fun heq => hne (heq ▸ hj)) h
    revert j
    decide
  unfold Termios.removed
  rw [hnot VSTOP (by decide), hnot VSTART (by decide), hnot VINTR (by decide), hnot VQUIT (by decide),
    hnot VSUSP (by decide)]
  simp

end Editing

/-- What the effect of a character is for the lines -/
theorem effect_edit (ht : Editing t) (hs : s.termios = t) (hc : c < 128) (l : Lines) :
    match s.effect c with
    | .store c' => c' < 128 ∧ l.edit t c =
        if t.delimits c' then ⟨l.completed ++ (l.current ++ [c']), []⟩
        else { l with current := l.current ++ [c'] }
    | .kill => l.edit t c = { l with current := [] }
    | .erase => l.edit t c = { l with current := l.current.dropLast }
    | _ => l.edit t c = l := by
  unfold Term.effect Lines.edit
  rw [mapped_eq hs hc]
  cases htranslate : t.translate c with
  | none => rfl
  | some c' =>
    have hc' := translate_lt hc htranslate
    have hcanon : s.hasL ICANON = true := by
      have := ht.icanon
      rwa [← hs] at this
    have hI : ∀ f, s.hasI f = t.hasI f := by
      intro f
      rw [← hs]
      rfl
    have hL : ∀ f, s.hasL f = t.hasL f := by
      intro f
      rw [← hs]
      rfl
    dsimp only
    simp only [hcanon, true_and, isCc_eq_is hs hc', hI, hL]
    by_cases hkill : t.is VKILL c' = true
    · rw [if_pos hkill, ht.not_delimits (by decide) (by decide) hkill,
        ht.not_removed (by decide) (by decide) hkill, ht.not_is (by decide) (by decide) (by decide) hkill,
        hkill]
      rfl
    · rw [if_neg hkill]
      by_cases herase : t.is VERASE c' = true
      · rw [if_pos herase, ht.not_delimits (by decide) (by decide) herase,
          ht.not_removed (by decide) (by decide) herase, herase]
        rfl
      · rw [if_neg herase]
        by_cases hstop : t.hasI IXON = true ∧ t.is VSTOP c' = true
        · have hremoved : t.removed c' = true := decide_eq_true (.inl ⟨hstop.1, .inl hstop.2⟩)
          rw [if_pos hstop, ht.not_delimits (by decide) (by decide) hstop.2, hremoved]
          rfl
        · rw [if_neg hstop]
          by_cases hstart : t.hasI IXON = true ∧ t.is VSTART c' = true
          · have hremoved : t.removed c' = true := decide_eq_true (.inl ⟨hstart.1, .inr hstart.2⟩)
            rw [if_pos hstart, ht.not_delimits (by decide) (by decide) hstart.2, hremoved]
            rfl
          · rw [if_neg hstart]
            by_cases hsignal : t.hasL ISIG = true ∧
                (t.is VINTR c' = true ∨ t.is VQUIT c' = true ∨ t.is VSUSP c' = true)
            · have hremoved : t.removed c' = true := decide_eq_true (.inr hsignal)
              have hdelimits : t.delimits c' = false := by
                rcases hsignal.2 with h | h | h
                · exact ht.not_delimits (by decide) (by decide) h
                · exact ht.not_delimits (by decide) (by decide) h
                · exact ht.not_delimits (by decide) (by decide) h
              rw [if_pos hsignal, hdelimits, hremoved]
              rfl
            · rw [if_neg hsignal]
              have hremoved : ¬ t.removed c' = true := by
                intro h
                rcases of_decide_eq_true h with ⟨hx, hs | hs⟩ | h
                · exact hstop ⟨hx, hs⟩
                · exact hstart ⟨hx, hs⟩
                · exact hsignal h
              refine ⟨hc', ?_⟩
              rw [if_neg hremoved, if_neg herase, if_neg hkill]

/-! ## The queue -/

/-- The current line has no delimiter, the completed ones end with one, and all characters are below 128. -/
structure Lines.Shaped (t : Termios) (l : Lines) : Prop where
  current : ∀ c ∈ l.current, t.delimits c = false
  completed : l.completed = [] ∨ ∃ front c, l.completed = front ++ [c] ∧ t.delimits c = true
  ascii : ∀ c ∈ l.text, c < 128

theorem linesOf_append (t : Termios) (input : List UInt8) (c : UInt8) :
    linesOf t (input ++ [c]) = (linesOf t input).edit t c := by
  unfold linesOf
  rw [List.foldl_append]
  rfl

theorem edit_cases (t : Termios) (l : Lines) (c : UInt8) :
    l.edit t c = l ∨ l.edit t c = { l with current := l.current.dropLast } ∨
      l.edit t c = { l with current := [] } ∨
      ∃ c', t.translate c = some c' ∧ l.edit t c =
        if t.delimits c' then ⟨l.completed ++ (l.current ++ [c']), []⟩
        else { l with current := l.current ++ [c'] } := by
  unfold Lines.edit
  cases htranslate : t.translate c with
  | none => exact .inl rfl
  | some c' =>
    dsimp only
    by_cases hd : t.delimits c' = true
    · exact .inr (.inr (.inr ⟨c', rfl, by rw [if_pos hd, if_pos hd]⟩))
    · rw [if_neg hd]
      by_cases hr : t.removed c' = true
      · exact .inl (if_pos hr)
      · rw [if_neg hr]
        by_cases he : t.is VERASE c' = true
        · exact .inr (.inl (if_pos he))
        · rw [if_neg he]
          by_cases hk : t.is VKILL c' = true
          · exact .inr (.inr (.inl (if_pos hk)))
          · exact .inr (.inr (.inr ⟨c', rfl, by rw [if_neg hk, if_neg hd]⟩))

theorem Lines.Shaped.edit (h : l.Shaped t) (hc : c < 128) : (l.edit t c).Shaped t := by
  rcases edit_cases t l c with heq | heq | heq | ⟨c', htranslate, heq⟩
  · rw [heq]
    exact h
  · rw [heq]
    refine ⟨fun x hx => h.current x (List.mem_of_mem_dropLast hx), h.completed, fun x hx => h.ascii x ?_⟩
    rcases List.mem_append.mp hx with hx | hx
    · exact List.mem_append_left _ hx
    · exact List.mem_append_right _ (List.mem_of_mem_dropLast hx)
  · rw [heq]
    exact ⟨fun x hx => (nomatch hx), h.completed, fun x hx => h.ascii x
      (List.mem_append_left _ (by simpa [Lines.text] using hx))⟩
  · have hc' := translate_lt hc htranslate
    have hascii : ∀ x ∈ l.completed ++ (l.current ++ [c']), x < 128 := by
      intro x hx
      rw [← List.append_assoc] at hx
      rcases List.mem_append.mp hx with hx | hx
      · exact h.ascii x hx
      · rw [List.mem_singleton.mp hx]
        exact hc'
    rw [heq]
    split
    · rename_i hd
      refine ⟨fun x hx => (nomatch hx), .inr ⟨l.completed ++ l.current, c', (List.append_assoc _ _ _).symm, hd⟩, ?_⟩
      simpa [Lines.text] using hascii
    · rename_i hd
      refine ⟨fun x hx => ?_, h.completed, hascii⟩
      rcases List.mem_append.mp hx with hx | hx
      · exact h.current x hx
      · rw [List.mem_singleton.mp hx]
        exact Bool.eq_false_iff.mpr hd

theorem shaped_linesOf (t : Termios) (hascii : ∀ c ∈ input, c < 128) : (linesOf t input).Shaped t := by
  induction input using List.reverseRecOn with
  | nil => exact ⟨fun x hx => (nomatch hx), .inl rfl, fun x hx => nomatch hx⟩
  | append_singleton input c ih =>
    rw [linesOf_append]
    exact (ih fun x hx => hascii x (List.mem_append_left _ hx)).edit
      (hascii c (List.mem_append_right _ (List.mem_singleton_self c)))

/-- Lines that are complete stay as they are. -/
theorem completed_prefix (t : Termios) (input more : List UInt8) :
    (linesOf t input).completed <+: (linesOf t (input ++ more)).completed := by
  induction more using List.reverseRecOn with
  | nil => rw [List.append_nil]
  | append_singleton more c ih =>
    rw [← List.append_assoc, linesOf_append]
    refine ih.trans ?_
    rcases edit_cases t (linesOf t (input ++ more)) c with heq | heq | heq | ⟨c', -, heq⟩
    · rw [heq]
    · rw [heq]
    · rw [heq]
    · rw [heq]
      split
      · exact List.prefix_append _ _
      · exact List.prefix_refl _

/-- What is before the current line is what is complete, whatever is left of that line. -/
theorem completed_append {kept : List UInt8} (h : l.Shaped t) (hkept : ∀ c ∈ kept, t.delimits c = false) :
    completed t (l.completed ++ kept) = l.completed := by
  unfold completed
  induction kept using List.reverseRecOn with
  | nil =>
    rw [List.append_nil]
    rcases h.completed with hnil | ⟨front, c, heq, hd⟩
    · rw [hnil]
      rfl
    · rw [heq]
      exact List.rdropWhile_concat_neg _ _ _ (by simp [hd])
  | append_singleton kept c ih =>
    rw [← List.append_assoc, List.rdropWhile_concat_pos _ _ _ (by
      simp [hkept c (List.mem_append_right _ (List.mem_singleton_self c))])]
    exact ih fun x hx => hkept x (List.mem_append_left _ hx)

/-! ## Runs -/

/-- What the secondary queue holds when `consumed` of the input has gone through `copy_to_cooked`; while a
line is killed a part of it is there. -/
structure Holds (t : Termios) (consumed : List UInt8) (s : Term) : Prop where
  termios : s.termios = t
  ascii : ∀ c ∈ consumed, c < 128
  queue : ∃ kept, s.secondary.contents = (linesOf t consumed).completed ++ kept ∧
    (∀ c ∈ kept, t.delimits c = false) ∧
    (s.killing = 0 ∧ kept = (linesOf t consumed).current ∨
      s.killing = 1 ∧ (linesOf t consumed).current = [] ∧ ∀ c ∈ kept, c < 128)

/-- The loop that erases stops at the end of the completed lines. -/
theorem erasable_iff {kept : List UInt8} (h : l.Shaped t) (hs : s.termios = t)
    (hqueue : s.secondary.contents = l.completed ++ kept) (hkept : ∀ c ∈ kept, t.delimits c = false)
    (hascii : ∀ c ∈ kept, c < 128) :
    s.erasable = true ↔ kept ≠ [] := by
  have hempty : s.secondary.Empty ↔ s.secondary.contents = [] := by
    rw [Queue.empty_iff, ← Queue.length_contents, List.length_eq_zero_iff]
  have hlast : ∀ {front c}, s.secondary.contents = front ++ [c] → s.secondary.last = c := by
    intro front c heq
    have hne : ¬ s.secondary.Empty := by
      rw [hempty, heq]
      simp
    rw [Queue.contents_dec hne] at heq
    exact List.singleton_inj.mp (List.append_inj_right' heq rfl)
  constructor
  · rintro he rfl
    obtain ⟨hne, hends⟩ := of_decide_eq_true he
    rw [List.append_nil] at hqueue
    rcases h.completed with hnil | ⟨front, c, heq, hd⟩
    · exact hne (hempty.mpr (hqueue.trans hnil))
    · apply hends
      have hc : c < 128 := h.ascii c (List.mem_append_left _ (by rw [heq]; simp))
      rw [hlast (hqueue.trans heq), endsLine_eq hs hc]
      exact hd
  · intro hne
    obtain ⟨front, c, rfl⟩ := List.eq_nil_or_concat' kept |>.resolve_left hne
    rw [← List.append_assoc] at hqueue
    refine decide_eq_true ⟨?_, ?_⟩
    · rw [hempty, hqueue]
      simp
    · have hmem : c ∈ front ++ [c] := List.mem_append_right _ (List.mem_singleton_self c)
      rw [hlast hqueue, endsLine_eq hs (hascii c hmem), hkept c hmem]
      exact Bool.false_ne_true

theorem Holds.congr (h : Holds t input s) (ht : s'.termios = s.termios) (hq : s'.secondary = s.secondary)
    (hk : s'.killing = s.killing) : Holds t input s' := by
  refine ⟨ht.trans h.termios, h.ascii, ?_⟩
  rw [hq, hk]
  exact h.queue

theorem contents_of_dec {q : Queue} {front kept : List UInt8} (h : ¬ q.Empty)
    (hq : q.contents = front ++ kept) (hne : kept ≠ []) : q.dec.contents = front ++ kept.dropLast := by
  obtain ⟨kept, c, rfl⟩ := List.eq_nil_or_concat' kept |>.resolve_left hne
  rw [Queue.contents_dec h, ← List.append_assoc] at hq
  rw [List.dropLast_concat]
  exact List.append_inj_left' hq rfl

/-- What a character does to the queue is what it does to the lines. -/
theorem holds_cook (ht : Editing t) (h : Holds t input s) (hk : s.killing = 0) (hidle : s.idle = false)
    (hc : s.readQ.first < 128) : Holds t (input ++ [s.readQ.first]) s.cook := by
  have hshaped := shaped_linesOf t h.ascii
  have hedit := effect_edit ht h.termios hc (linesOf t input)
  obtain ⟨kept, hqueue, hkept, hcur⟩ := h.queue
  obtain rfl : kept = (linesOf t input).current := by
    rcases hcur with ⟨-, heq⟩ | ⟨h1, -⟩
    · exact heq
    · omega
  have hascii : ∀ c ∈ (linesOf t input).current, c < 128 := fun x hx =>
    hshaped.ascii x (List.mem_append_right _ hx)
  have hcook : s.cook = { s with readQ := s.readQ.getch }.apply (s.effect s.readQ.first) := by
    unfold Term.cook
    rw [hidle]
    rfl
  have hnext : ∀ x ∈ input ++ [s.readQ.first], x < 128 := by
    intro x hx
    rcases List.mem_append.mp hx with hx | hx
    · exact h.ascii x hx
    · rw [List.mem_singleton.mp hx]
      exact hc
  have hlines := linesOf_append t input s.readQ.first
  rw [hcook]
  generalize s.effect s.readQ.first = e at hedit ⊢
  have hsame : ∀ s' : Term, s'.termios = s.termios → s'.secondary = s.secondary → s'.killing = s.killing →
      linesOf t (input ++ [s.readQ.first]) = linesOf t input → Holds t (input ++ [s.readQ.first]) s' := by
    intro s' ht' hq' hk' heq
    refine ⟨ht'.trans h.termios, hnext, _, ?_, hkept, .inl ⟨hk'.trans hk, ?_⟩⟩
    · rw [hq', hqueue, heq]
    · rw [heq]
  cases e with
  | discard => exact hsame _ rfl rfl rfl (hlines.trans hedit)
  | stop => exact hsame _ rfl rfl rfl (hlines.trans hedit)
  | start => exact hsame _ rfl rfl rfl (hlines.trans hedit)
  | signal => exact hsame _ rfl rfl rfl (hlines.trans hedit)
  | kill =>
    have hl := hlines.trans hedit
    rw [Term.apply_kill]
    refine ⟨h.termios, hnext, _, ?_, hkept, .inr ⟨?_, ?_, hascii⟩⟩
    · rw [hl]
      exact hqueue
    · exact congrArg (· + 1) hk
    · rw [hl]
  | erase =>
    have hl := hlines.trans hedit
    have herasable := erasable_iff hshaped h.termios hqueue hkept hascii
    have happly : ({ s with readQ := s.readQ.getch } : Term).apply .erase =
        if s.erasable then
          (({ s with readQ := s.readQ.getch } : Term).output
            (({ s with readQ := s.readQ.getch } : Term).echo .erase)).erase
        else ({ s with readQ := s.readQ.getch } : Term).output
          (({ s with readQ := s.readQ.getch } : Term).echo .erase) := rfl
    rw [happly]
    by_cases he : s.erasable = true
    · rw [if_pos he]
      refine ⟨h.termios, hnext, (linesOf t input).current.dropLast, ?_, ?_, .inl ⟨hk, ?_⟩⟩
      · rw [hl]
        exact contents_of_dec (of_decide_eq_true he).1 hqueue (herasable.mp he)
      · exact fun x hx => hkept x (List.mem_of_mem_dropLast hx)
      · rw [hl]
    · rw [if_neg he]
      have hnil : (linesOf t input).current = [] := by
        by_contra hne
        exact he (herasable.mpr hne)
      refine ⟨h.termios, hnext, (linesOf t input).current, ?_, hkept, .inl ⟨hk, ?_⟩⟩
      · rw [hl]
        exact hqueue
      · rw [hl, hnil]
        rfl
  | store c' =>
    obtain ⟨hc', hl⟩ := hedit
    have hfull : ¬ s.secondary.Full := fun hf => Bool.false_ne_true (hidle.symm.trans (decide_eq_true (.inr hf)))
    have hcontents : (({ s with readQ := s.readQ.getch } : Term).apply (.store c')).secondary.contents =
        s.secondary.contents ++ [c'] :=
      contents_store (s := ({ s with readQ := s.readQ.getch } : Term).output
        (({ s with readQ := s.readQ.getch } : Term).echo (.store c'))) hfull
    have hl' := hlines.trans hl
    by_cases hd : t.delimits c' = true
    · rw [if_pos hd] at hl'
      refine ⟨h.termios, hnext, [], ?_, fun x hx => (nomatch hx), .inl ⟨hk, ?_⟩⟩
      · rw [hcontents, hqueue, hl', List.append_nil, List.append_assoc]
      · rw [hl']
    · rw [if_neg hd] at hl'
      refine ⟨h.termios, hnext, (linesOf t input).current ++ [c'], ?_, ?_, .inl ⟨hk, ?_⟩⟩
      · rw [hcontents, hqueue, hl', List.append_assoc]
      · intro x hx
        rcases List.mem_append.mp hx with hx | hx
        · exact hkept x hx
        · rw [List.mem_singleton.mp hx]
          exact Bool.eq_false_iff.mpr hd
      · rw [hl']

theorem holds_killOne (h : Holds t input s) (hk : s.killing ≠ 0) : Holds t input s.killOne := by
  have hshaped := shaped_linesOf t h.ascii
  obtain ⟨kept, hqueue, hkept, hcur⟩ := h.queue
  obtain ⟨hone, hnil, hascii⟩ := hcur.resolve_left fun h0 => hk h0.1
  have herasable := erasable_iff hshaped h.termios hqueue hkept hascii
  unfold Term.killOne
  by_cases he : s.erasable = true
  · rw [if_pos he]
    refine ⟨h.termios, h.ascii, kept.dropLast, ?_, ?_, .inr ⟨hone, hnil, ?_⟩⟩
    · exact contents_of_dec (of_decide_eq_true he).1 hqueue (herasable.mp he)
    · exact fun x hx => hkept x (List.mem_of_mem_dropLast hx)
    · exact fun x hx => hascii x (List.mem_of_mem_dropLast hx)
  · rw [if_neg he]
    have hkept' : kept = [] := by
      by_contra hne
      exact he (herasable.mpr hne)
    refine ⟨h.termios, h.ascii, kept, hqueue, hkept, .inl ⟨?_, ?_⟩⟩
    · show s.killing - 1 = 0
      omega
    · rw [hkept', hnil]

/-- Nobody reads or changes the settings, what is typed has room, and one character after the other goes
through `copy_to_cooked`. -/
def Undisturbed (s : Term) : Act → Prop
  | .typed cs => cs.length ≤ s.readQ.left ∧ ∀ c ∈ cs, c < 128
  | .cook => s.killing = 0
  | .testRead | .again | .get | .setTermios _ => False
  | _ => True

/-- What has been typed -/
def typedOf (acts : List Act) : List UInt8 :=
  acts.flatMap fun
    | .typed cs => cs
    | _ => []

/-- The input is what has gone through `copy_to_cooked`, and what is still in the read queue. -/
structure Follows (t : Termios) (input consumed : List UInt8) (s : Term) : Prop where
  input : input = consumed ++ s.readQ.contents
  holds : Holds t consumed s
  ascii : ∀ c ∈ s.readQ.contents, c < 128

theorem Follows.congr (h : Follows t input consumed s) (ht : s'.termios = s.termios)
    (hq : s'.secondary = s.secondary) (hk : s'.killing = s.killing) (hr : s'.readQ = s.readQ) :
    Follows t input consumed s' := by
  refine ⟨?_, h.holds.congr ht hq hk, ?_⟩
  · rw [hr]
    exact h.input
  · rw [hr]
    exact h.ascii

theorem follows_step (ht : Editing t) (h : Follows t input consumed s) (hok : Undisturbed s a)
    (hs : step a s = some s') : ∃ more, Follows t (input ++ typedOf [a]) (consumed ++ more) s' := by
  cases a with
  | typed cs =>
    cases hs
    obtain ⟨heq, hholds, hascii⟩ := h
    obtain ⟨hroom, hcs⟩ := hok
    have hcontents : (s.typed cs).readQ.contents = s.readQ.contents ++ cs := by
      unfold Term.typed
      rw [if_pos hroom]
      exact Queue.contents_foldl_putch hroom
    refine ⟨[], ?_, ?_, ?_⟩
    · rw [hcontents, heq, List.append_nil, List.append_assoc]
      simp [typedOf]
    · unfold Term.typed
      rw [if_pos hroom, List.append_nil]
      exact hholds.congr rfl rfl rfl
    · intro x hx
      rw [hcontents] at hx
      rcases List.mem_append.mp hx with hx | hx
      · exact hascii x hx
      · exact hcs x hx
  | cook =>
    cases hs
    obtain ⟨heq, hholds, hascii⟩ := h
    rw [show typedOf [.cook] = [] from rfl, List.append_nil]
    cases hidle : s.idle with
    | true =>
      have hcook : s.cook = s := by
        unfold Term.cook
        rw [hidle]
        rfl
      rw [hcook]
      exact ⟨[], by rwa [List.append_nil], by rwa [List.append_nil], hascii⟩
    | false =>
      have hempty : ¬ s.readQ.Empty := fun he => Bool.false_ne_true (hidle.symm.trans (decide_eq_true (.inl he)))
      have hread := Queue.contents_getch hempty
      have hcook : s.cook.readQ = s.readQ.getch := by
        unfold Term.cook
        rw [hidle]
        exact Term.apply_readQ _ _
      refine ⟨[s.readQ.first], ?_, ?_, ?_⟩
      · rw [hcook, heq, hread, List.append_assoc, List.singleton_append]
      · exact holds_cook ht hholds hok hidle (hascii _ (by rw [hread]; exact List.mem_cons_self))
      · rw [hcook]
        exact fun x hx => hascii x (by rw [hread]; exact List.mem_cons_of_mem _ hx)
  | killOne =>
    dsimp only [step] at hs
    split_ifs at hs with hk
    cases hs
    rw [show typedOf [.killOne] = [] from rfl, List.append_nil]
    obtain ⟨heq, hholds, hascii⟩ := h
    have hread : s.killOne.readQ = s.readQ := by
      unfold Term.killOne
      split <;> rfl
    refine ⟨[], ?_, by rw [List.append_nil]; exact holds_killOne hholds hk, ?_⟩
    · rw [hread, List.append_nil]
      exact heq
    · rw [hread]
      exact hascii
  | testWrite w =>
    cases hs
    rw [show typedOf [.testWrite w] = [] from rfl, List.append_nil]
    exact ⟨[], by rw [List.append_nil]; exact h.congr rfl rfl rfl rfl⟩
  | write w c =>
    dsimp only [step] at hs
    split_ifs at hs
    cases hs
    rw [show typedOf [.write w c] = [] from rfl, List.append_nil]
    exact ⟨[], by rw [List.append_nil]; exact h.congr rfl rfl rfl rfl⟩
  | take =>
    dsimp only [step] at hs
    split_ifs at hs
    cases hs
    rw [show typedOf [.take] = [] from rfl, List.append_nil]
    exact ⟨[], by rw [List.append_nil]; exact h.congr rfl rfl rfl rfl⟩
  | testRead => exact hok.elim
  | again => exact hok.elim
  | get => exact hok.elim
  | setTermios _ => exact hok.elim

theorem follows_run (ht : Editing t) {acts : List Act} (h : Follows t input consumed s)
    (hacts : Each step Undisturbed acts s) (hrun : runList step acts s = some s') :
    ∃ more, Follows t (input ++ typedOf acts) (consumed ++ more) s' := by
  induction acts generalizing s input consumed with
  | nil =>
    cases hrun
    refine ⟨[], ?_⟩
    rw [show typedOf [] = [] from rfl, List.append_nil, List.append_nil]
    exact h
  | cons a acts ih =>
    obtain ⟨s₁, h₁, h₂⟩ := Option.bind_eq_some_iff.mp hrun
    obtain ⟨hok, hrest⟩ := hacts s₁ h₁
    obtain ⟨more, hstep⟩ := follows_step ht h hok h₁
    obtain ⟨more', hlast⟩ := ih hstep hrest h₂
    refine ⟨more ++ more', ?_⟩
    rwa [List.append_assoc, List.append_assoc,
      show typedOf [a] ++ typedOf acts = typedOf (a :: acts) by simp [typedOf]] at hlast

theorem Follows.completed_eq (h : Follows t input consumed s) :
    completed t s.secondary.contents = (linesOf t consumed).completed := by
  obtain ⟨kept, hqueue, hkept, -⟩ := h.holds.queue
  rw [hqueue]
  exact completed_append (shaped_linesOf t h.holds.ascii) hkept

theorem Follows.text_eq (h : Follows t input consumed s) (hk : s.killing = 0) :
    s.secondary.contents = (linesOf t consumed).text := by
  obtain ⟨kept, hqueue, -, hcur⟩ := h.holds.queue
  rcases hcur with ⟨-, heq⟩ | ⟨h1, -⟩
  · rw [hqueue, heq]
    rfl
  · omega

/-! ## `copy_to_cooked` is a run -/

theorem Term.round_killing (s : Term) : s.round.killing = s.killing := by
  unfold Term.round
  split
  · exact Term.killLine_killing _
  · rename_i e hne
    generalize s.effect s.readQ.first = e at hne
    cases e with
    | kill => exact absurd rfl hne
    | erase =>
      unfold Term.apply
      dsimp only
      split <;> rfl
    | _ => rfl

/-- A call of `copy_to_cooked` takes what the secondary queue has room for. -/
theorem follows_copyToCooked (ht : Editing t) (h : Follows t input consumed s) (hk : s.killing = 0) :
    ∃ more, Follows t input (consumed ++ more) s.copyToCooked ∧ s.copyToCooked.killing = 0 := by
  fun_induction Term.copyToCooked generalizing consumed with
  | case1 s =>
    refine ⟨[], ?_, hk⟩
    rw [List.append_nil]
    exact h
  | case2 s hidle ih =>
    obtain ⟨n, hn⟩ := Term.round_run (Bool.eq_false_iff.mpr hidle)
    have heach : ∀ (n : ℕ) (s : Term), Each step Undisturbed (List.replicate n .killOne) s := by
      intro n
      induction n with
      | zero => exact fun _ => trivial
      | succ n ihn => exact fun s s' _ => ⟨trivial, ihn s'⟩
    have hacts : Each step Undisturbed (.cook :: List.replicate n .killOne) s := fun s' _ => ⟨hk, heach n s'⟩
    obtain ⟨more, hround⟩ := follows_run ht h hacts hn
    have hnil : typedOf (.cook :: List.replicate n .killOne) = [] := by
      simp [typedOf]
    rw [hnil, List.append_nil] at hround
    obtain ⟨more', hlast, hk'⟩ := ih hround (s.round_killing.trans hk)
    rw [List.append_assoc] at hlast
    exact ⟨more ++ more', hlast, hk'⟩

/-- When `copy_to_cooked` is done the secondary queue holds the lines that the input stands for, and lines
that were complete at any time before have not changed. -/
theorem canonical_editing {s₀ : Term} {acts : List Act} (ht : Editing t) (h₀ : s₀.termios = t)
    (hempty : s₀.secondary.Empty) (hk₀ : s₀.killing = 0) (hascii : ∀ c ∈ s₀.readQ.contents, c < 128)
    (hacts : Each step Undisturbed acts s₀) (hrun : runList step acts s₀ = some s) (hk : s.killing = 0) :
    (∃ consumed, s₀.readQ.contents ++ typedOf acts = consumed ++ s.copyToCooked.readQ.contents ∧
      s.copyToCooked.secondary.contents = (linesOf t consumed).text) ∧
    (s.copyToCooked.readQ.Empty ∨ s.copyToCooked.secondary.Full) ∧
    ∀ as bs s', acts = as ++ bs → runList step as s₀ = some s' →
      completed t s'.secondary.contents <+: completed t s.copyToCooked.secondary.contents := by
  have hstart : Follows t s₀.readQ.contents [] s₀ := by
    refine ⟨rfl, ⟨h₀, fun x hx => (nomatch hx), [], ?_, fun x hx => (nomatch hx), .inl ⟨hk₀, rfl⟩⟩, hascii⟩
    have hchars := (Queue.empty_iff _).mp hempty
    rw [← Queue.length_contents, List.length_eq_zero_iff] at hchars
    exact hchars
  obtain ⟨more, hs⟩ := follows_run ht hstart hacts hrun
  obtain ⟨more', hcooked, hk'⟩ := follows_copyToCooked ht hs hk
  refine ⟨⟨_, hcooked.input, hcooked.text_eq hk'⟩, of_decide_eq_true s.copyToCooked_idle, ?_⟩
  rintro as bs s' rfl has
  obtain ⟨hfirst, hrest⟩ := hacts.of_append has
  obtain ⟨consumed, hs'⟩ := follows_run ht hstart hfirst has
  have hbs : runList step bs s' = some s := by
    rw [runList_append, has] at hrun
    exact hrun
  obtain ⟨more₁, h₁⟩ := follows_run ht hs' hrest hbs
  obtain ⟨more₂, h₂, -⟩ := follows_copyToCooked ht h₁ hk
  rw [hs'.completed_eq, h₂.completed_eq, List.append_assoc]
  exact completed_prefix t _ _

/-- A console as `tty_init` sets it up, with the control characters of `INIT_C_CC` -/
def initial : Termios :=
  ⟨ICRNL, OPOST ||| ONLCR, ISIG ||| ICANON ||| ECHO,
    fun i => [3, 28, 127, 21, 4, 0, 1, 0, 17, 19, 26].getD i 0⟩

theorem editing_initial : Editing initial := ⟨by decide, by decide, by decide, by decide⟩

/-- `ab`, ERASE and a newline -/
theorem canonical_editing_erase :
    let s₀ := boot initial false fun _ => 0
    let s := s₀.typed [97, 98, 127, 13]
    (∃ consumed, s₀.readQ.contents ++ typedOf [.typed [97, 98, 127, 13]] =
        consumed ++ s.copyToCooked.readQ.contents ∧
      s.copyToCooked.secondary.contents = (linesOf initial consumed).text) ∧
    (s.copyToCooked.readQ.Empty ∨ s.copyToCooked.secondary.Full) ∧
    ∀ as bs s', [.typed [97, 98, 127, 13]] = as ++ bs → runList step as s₀ = some s' →
      completed initial s'.secondary.contents <+: completed initial s.copyToCooked.secondary.contents :=
  canonical_editing editing_initial rfl rfl rfl (fun x hx => nomatch hx)
    (fun _ _ => ⟨⟨by decide, by decide +kernel⟩, trivial⟩) rfl rfl

example : linesOf initial [97, 98, 127, 13, 99] = ⟨[97, 10], [99]⟩ := by decide

end Linux012.Tty
