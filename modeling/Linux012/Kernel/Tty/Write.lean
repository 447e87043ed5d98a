import Linux012.Kernel.Tty.Output

/-! # Writing to several terminals

Calls of `tty_write` that go on between each other's steps. `cr_flag` says that the CR of a newline has been
put, and there is one for all terminals and all calls.
-/

namespace Linux012.Tty

open Function Runs

/-- Where a call is: before `sleep_if_full`, in it, at the test of the inner loop, at a character, and
back in its caller -/
inductive Pc
  | outer
  | asleep
  | inner
  | fetch
  | ended
  deriving DecidableEq

/-- `used` is `b - buf`, which is returned. What the call has put into the write queue is not in the source. -/
structure Call where
  channel : ℕ
  buf : List UInt8
  used : ℕ
  pc : Pc
  out : List UInt8
  deriving DecidableEq

structure World where
  tty : ℕ → Term
  crFlag : Bool
  calls : ℕ → Option Call

namespace World

def setCall (w : World) (i : ℕ) (c : Call) : World := { w with calls := update w.calls i (some c) }

def setTty (w : World) (ch : ℕ) (s : Term) : World := { w with tty := update w.tty ch s }

/-- The terminal of a call, with the one flag -/
def terminal (w : World) (c : Call) : Term := { w.tty c.channel with crFlag := w.crFlag }

end World

/-- The terminal is there and no job control stops the call. -/
def start (i ch : ℕ) (buf : List UInt8) (w : World) : Option World :=
  if w.calls i = none then some (w.setCall i ⟨ch, buf, 0, if buf = [] then .ended else .outer, []⟩) else none

def sleepIfFull (i : ℕ) (c : Call) (w : World) : Option World :=
  match c.pc with
  | .outer => some (w.setCall i { c with pc := if (w.terminal c).writeQ.Full then .asleep else .inner })
  | .asleep => if (w.terminal c).writeQ.left < 128 then none else some (w.setCall i { c with pc := .inner })
  | _ => none

/-- A signal ends the call. -/
def interrupt (i : ℕ) (c : Call) (w : World) : Option World :=
  match c.pc with
  | .outer | .asleep => some (w.setCall i { c with pc := .ended })
  | _ => none

/-- The test of the inner loop, and `schedule` after it -/
def innerTest (i : ℕ) (c : Call) (w : World) : Option World :=
  match c.pc with
  | .inner =>
    if c.used < c.buf.length then
      some (w.setCall i { c with pc := if (w.terminal c).writeQ.Full then .outer else .fetch })
    else some (w.setCall i { c with pc := .ended })
  | _ => none

/-- A CR that is put before a newline does not use up a character. -/
def putByte (i : ℕ) (c : Call) (w : World) : Option World :=
  match c.pc, c.buf[c.used]? with
  | .fetch, some b =>
    let (byte, cr) := (w.terminal c).processed b
    some ({ w with crFlag := cr }.setTty c.channel ((w.terminal c).output [byte]) |>.setCall i
      { c with used := if cr then c.used else c.used + 1, pc := .inner, out := c.out ++ [byte] })
  | _, _ => none

/-- `drain` and `echo` are what the driver and `copy_to_cooked` do to a write queue. -/
inductive Turn
  | start (i ch : ℕ) (buf : List UInt8)
  | sleepIfFull (i : ℕ)
  | interrupt (i : ℕ)
  | innerTest (i : ℕ)
  | putByte (i : ℕ)
  | drain (ch : ℕ)
  | echo (ch : ℕ) (cs : List UInt8)

def turn : Turn → World → Option World
  | .start i ch buf, w => start i ch buf w
  | .sleepIfFull i, w => (w.calls i).bind fun c => sleepIfFull i c w
  | .interrupt i, w => (w.calls i).bind fun c => interrupt i c w
  | .innerTest i, w => (w.calls i).bind fun c => innerTest i c w
  | .putByte i, w => (w.calls i).bind fun c => putByte i c w
  | .drain ch, w => if (w.tty ch).writeQ.Empty then none else some (w.setTty ch (w.tty ch).take)
  | .echo ch cs, w => some (w.setTty ch ((w.tty ch).output cs))

def World.boot (tty : ℕ → Term) : World := ⟨tty, false, fun _ => none⟩

/-! ## What a terminal makes of a text -/

namespace Term

/-- A character after OCRNL and ONLRET -/
def returned (s : Term) (c : UInt8) : UInt8 :=
  if c = 13 ∧ s.hasO OCRNL then 10 else if c = 10 ∧ s.hasO ONLRET then 13 else c

/-- A newline that gets a CR before it -/
def expands (s : Term) (c : UInt8) : Bool := s.hasO OPOST ∧ s.hasO ONLCR ∧ s.returned c = 10

def mapByte (s : Term) (c : UInt8) : List UInt8 :=
  if s.hasO OPOST then
    (if s.hasO ONLCR ∧ s.returned c = 10 then [13] else []) ++
      [if s.hasO OLCUC then s.toupper (s.returned c) else s.returned c]
  else [c]

def mapText (s : Term) (text : List UInt8) : List UInt8 := text.flatMap s.mapByte

end Term

/-- The call has put a CR and not yet its newline. -/
def Call.half (s : Term) (c : Call) : Bool := (s.mapText (c.buf.take c.used)).length < c.out.length

/-- The write queue has got the text as far as it is used, and perhaps the CR of the next character. A
call that has ended has used what it has put. -/
def Call.Mapped (s : Term) (c : Call) : Prop :=
  c.out = s.mapText (c.buf.take c.used) ∨
    c.pc ≠ .ended ∧ (c.buf[c.used]?.any s.expands = true) ∧ c.out = s.mapText (c.buf.take c.used) ++ [13]

def Mapped (w : World) : Prop := ∀ i c, w.calls i = some c → c.Mapped (w.tty c.channel)

/-- At a newline that is expanded the flag is that of the call, and no call ends between CR and newline. -/
def Own (w : World) : Turn → Prop
  | .putByte i => ∀ c ∈ w.calls i, ∀ b ∈ c.buf[c.used]?,
      (w.tty c.channel).expands b = true → w.crFlag = c.half (w.tty c.channel)
  | .interrupt i => ∀ c ∈ w.calls i, c.half (w.tty c.channel) = false
  | _ => True

variable {w w' : World} {s s' : Term} {c c' : Call} {i : ℕ} {a : Turn} {b : UInt8}

/-! ## One call -/

/-- The settings that the mapping depends on -/
def Agree (s s' : Term) : Prop := s'.termios = s.termios ∧ s'.below = s.below

theorem Agree.hasO (h : Agree s s') (f : UInt32) : s'.hasO f = s.hasO f := by
  unfold Term.hasO
  rw [h.1]

theorem Agree.returned (h : Agree s s') (b : UInt8) : s'.returned b = s.returned b := by
  unfold Term.returned
  rw [h.hasO, h.hasO]

theorem Agree.expands (h : Agree s s') : s'.expands = s.expands := by
  funext b
  unfold Term.expands
  rw [h.hasO, h.hasO, h.returned]

theorem Agree.toupper (h : Agree s s') (b : UInt8) : s'.toupper b = s.toupper b := by
  unfold Term.toupper Term.islower
  rw [h.2]

theorem Agree.mapText (h : Agree s s') (text : List UInt8) : s'.mapText text = s.mapText text := by
  unfold Term.mapText Term.mapByte
  simp only [h.hasO, h.returned, h.toupper]

theorem Agree.mapped (h : Agree s s') : c.Mapped s' ↔ c.Mapped s := by
  unfold Call.Mapped
  rw [h.mapText, h.expands]

theorem agree_output (s : Term) (cs : List UInt8) : Agree s (s.output cs) := ⟨rfl, rfl⟩

/-- The call changes, and the settings of the terminals do not. -/
theorem mapped_setCall (h : Mapped w) (hcalls : w'.calls = update w.calls i (some c))
    (htty : ∀ ch, Agree (w.tty ch) (w'.tty ch)) : Mapped w' ↔ c.Mapped (w.tty c.channel) := by
  constructor
  · intro h'
    have := h' i c (by rw [hcalls, update_self])
    rwa [(htty c.channel).mapped] at this
  · intro hc j c' hj
    rw [(htty c'.channel).mapped]
    rw [hcalls] at hj
    by_cases hij : j = i
    · subst hij
      rw [update_self, Option.some_inj] at hj
      rw [← hj]
      exact hc
    · rw [update_of_ne hij] at hj
      exact h j c' hj

theorem mapped_set (h : Mapped w) (i : ℕ) (c : Call) : Mapped (w.setCall i c) ↔ c.Mapped (w.tty c.channel) :=
  mapped_setCall h rfl fun _ => ⟨rfl, rfl⟩

/-- A place in the code before the end makes no difference. -/
theorem Call.Mapped.go (h : c.Mapped s) {pc : Pc} (hpc : pc ≠ .ended) : ({ c with pc := pc } : Call).Mapped s := by
  rcases h with h | ⟨-, hnext, hout⟩
  · exact .inl h
  · exact .inr ⟨hpc, hnext, hout⟩

theorem Call.Mapped.half_iff (h : c.Mapped s) :
    c.half s = false ↔ c.out = s.mapText (c.buf.take c.used) := by
  unfold Call.half
  rcases h with h | ⟨-, -, hout⟩
  · rw [h]
    simp
  · rw [hout]
    simp

theorem Call.Mapped.end_iff (h : c.Mapped s) : ({ c with pc := .ended } : Call).Mapped s ↔ c.half s = false := by
  rw [h.half_iff]
  constructor
  · rintro (h' | ⟨hpc, -⟩)
    · exact h'
    · exact absurd rfl hpc
  · exact .inl

/-- The character that is put for another one, beside a CR before it -/
def Term.plain (s : Term) (b : UInt8) : UInt8 :=
  if s.hasO OPOST then (if s.hasO OLCUC then s.toupper (s.returned b) else s.returned b) else b

theorem mapByte_eq (s : Term) (b : UInt8) : s.mapByte b = if s.expands b then [13, s.plain b] else [s.plain b] := by
  unfold Term.mapByte Term.expands Term.plain
  by_cases hpost : s.hasO OPOST = true
  · by_cases hcr : s.hasO ONLCR = true ∧ s.returned b = 10
    · simp [hpost, hcr]
    · simp [hpost, hcr]
  · simp [hpost]

theorem processed_eq (s : Term) (b : UInt8) :
    s.processed b = if s.expands b ∧ ¬ s.crFlag then (13, true) else (s.plain b, false) := by
  unfold Term.processed Term.expands Term.plain Term.returned
  by_cases hpost : s.hasO OPOST = true
  · simp only [hpost, if_true, true_and, decide_eq_true_eq]
    generalize (if b = 13 ∧ s.hasO OCRNL = true then (10 : UInt8)
      else if b = 10 ∧ s.hasO ONLRET = true then 13 else b) = x
    by_cases hx : x = 10
    · simp [hx, and_comm]
    · simp [hx]
  · simp [hpost]

theorem mapText_succ (hb : c.buf[c.used]? = some b) :
    s.mapText (c.buf.take (c.used + 1)) = s.mapText (c.buf.take c.used) ++ s.mapByte b := by
  unfold Term.mapText
  rw [List.take_add_one, hb, List.flatMap_append]
  exact congrArg _ (List.append_nil _)

/-! ## Runs -/

theorem mapped_sleepIfFull (h : Mapped w) (hc : w.calls i = some c) (hs : sleepIfFull i c w = some w') :
    Mapped w' := by
  have hgo {pc : Pc} (hpc : pc ≠ .ended) : Mapped (w.setCall i { c with pc := pc }) :=
    (mapped_set h i _).mpr ((h i c hc).go hpc)
  unfold sleepIfFull at hs
  split at hs
  · cases hs
    split
    · exact hgo (by decide)
    · exact hgo (by decide)
  · split at hs
    · cases hs
    · cases hs
      exact hgo (by decide)
  · cases hs

theorem mapped_interrupt_iff (h : Mapped w) (hc : w.calls i = some c) (hs : interrupt i c w = some w') :
    Mapped w' ↔ c.half (w.tty c.channel) = false := by
  have hend : Mapped (w.setCall i { c with pc := .ended }) ↔ c.half (w.tty c.channel) = false := by
    rw [mapped_set h]
    exact (h i c hc).end_iff
  unfold interrupt at hs
  split at hs
  · cases hs
    exact hend
  · cases hs
    exact hend
  · cases hs

theorem mapped_innerTest (h : Mapped w) (hc : w.calls i = some c) (hs : innerTest i c w = some w') :
    Mapped w' := by
  have hgo {pc : Pc} (hpc : pc ≠ .ended) : Mapped (w.setCall i { c with pc := pc }) :=
    (mapped_set h i _).mpr ((h i c hc).go hpc)
  unfold innerTest at hs
  split at hs
  · split at hs
    · cases hs
      split
      · exact hgo (by decide)
      · exact hgo (by decide)
    · -- The text is used up, so no CR is left without its newline.
      rename_i hlen
      cases hs
      refine (mapped_set h i _).mpr ?_
      rcases h i c hc with hout | ⟨-, hnext, -⟩
      · exact .inl hout
      · rw [List.getElem?_eq_none (not_lt.mp hlen)] at hnext
        exact absurd hnext Bool.false_ne_true
  · cases hs

/-- The call puts a character and goes on. -/
def Call.put (c : Call) (used : ℕ) (byte : UInt8) : Call :=
  { c with used := used, pc := .inner, out := c.out ++ [byte] }

theorem mapped_put (h : Mapped w) {cr : Bool} {used : ℕ} {byte : UInt8} {cs : List UInt8} :
    Mapped (({ w with crFlag := cr }.setTty c.channel ((w.terminal c).output cs)).setCall i (c.put used byte)) ↔
      (c.put used byte).Mapped (w.tty c.channel) := by
  refine mapped_setCall (c := c.put used byte) h rfl fun ch => ?_
  by_cases hch : ch = c.channel
  · subst hch
    show Agree _ (update w.tty c.channel _ c.channel)
    rw [update_self]
    exact ⟨rfl, rfl⟩
  · show Agree _ (update w.tty c.channel _ ch)
    rw [update_of_ne hch]
    exact ⟨rfl, rfl⟩

/-- A character that is not expanded -/
theorem Call.Mapped.put_plain (h : c.Mapped s) (hb : c.buf[c.used]? = some b) (hexpands : s.expands b = false) :
    (c.put (c.used + 1) (s.plain b)).Mapped s := by
  have hmap := mapText_succ (s := s) hb
  rw [mapByte_eq, hexpands] at hmap
  rcases h with hout | ⟨-, hany, -⟩
  · exact .inl ((congrArg (· ++ [_]) hout).trans hmap.symm)
  · rw [hb, Option.any_some, hexpands] at hany
    exact absurd hany Bool.false_ne_true

/-- A CR is right exactly when it is the first one. -/
theorem Call.Mapped.put_return_iff (h : c.Mapped s) (hb : c.buf[c.used]? = some b)
    (hexpands : s.expands b = true) : (c.put c.used 13).Mapped s ↔ c.half s = false := by
  rw [h.half_iff]
  constructor
  · intro h'
    have hlen : c.out.length + 1 ≤ (s.mapText (c.buf.take c.used)).length + 1 := by
      rcases h' with hout | ⟨-, -, hout⟩
      · have := congrArg List.length hout
        simp only [put, List.length_append, List.length_singleton] at this
        omega
      · have := congrArg List.length hout
        simp only [put, List.length_append, List.length_singleton] at this
        omega
    rcases h with hout | ⟨-, -, hout⟩
    · exact hout
    · have := congrArg List.length hout
      rw [List.length_append, List.length_singleton] at this
      omega
  · intro hout
    refine .inr ⟨fun hpc => (nomatch hpc), ?_, congrArg (· ++ [13]) hout⟩
    show c.buf[c.used]?.any s.expands = true
    rw [hb]
    exact hexpands

/-- A newline is right exactly when its CR is there. -/
theorem Call.Mapped.put_newline_iff (h : c.Mapped s) (hb : c.buf[c.used]? = some b)
    (hexpands : s.expands b = true) : (c.put (c.used + 1) (s.plain b)).Mapped s ↔ c.half s = true := by
  have hmap := mapText_succ (s := s) hb
  rw [mapByte_eq, hexpands, if_pos rfl] at hmap
  rw [← Bool.not_eq_false, h.half_iff]
  constructor
  · intro h' hout
    have hmaplen := congrArg List.length hmap
    rw [List.length_append, List.length_cons, List.length_singleton] at hmaplen
    rcases h' with hout' | ⟨-, -, hout'⟩
    · have hlen := congrArg List.length hout'
      simp only [put, List.length_append, List.length_singleton, hout] at hlen
      omega
    · have hlen := congrArg List.length hout'
      simp only [put, List.length_append, List.length_singleton, hout] at hlen
      omega
  · intro hne
    obtain ⟨-, -, hout⟩ := h.resolve_left hne
    refine .inl ?_
    show c.out ++ [s.plain b] = s.mapText (c.buf.take (c.used + 1))
    rw [hmap, hout, List.append_assoc]
    rfl

/-- A character: the flag must be that of the call where a newline is expanded. -/
theorem mapped_putByte_iff (h : Mapped w) (hc : w.calls i = some c) (hs : putByte i c w = some w') :
    Mapped w' ↔
      ∀ b ∈ c.buf[c.used]?, (w.tty c.channel).expands b = true → w.crFlag = c.half (w.tty c.channel) := by
  unfold putByte at hs
  split at hs
  · rename_i b hpc hb
    have hcall := h i c hc
    have hcond : (∀ b' ∈ c.buf[c.used]?, (w.tty c.channel).expands b' = true →
        w.crFlag = c.half (w.tty c.channel)) ↔
          ((w.tty c.channel).expands b = true → w.crFlag = c.half (w.tty c.channel)) := by
      rw [hb]
      exact ⟨fun h => h b rfl, fun h b' hb' => Option.some_inj.mp hb' ▸ h⟩
    have hprocessed : (w.terminal c).processed b =
        if (w.tty c.channel).expands b ∧ ¬ w.crFlag then (13, true) else ((w.tty c.channel).plain b, false) :=
      processed_eq (w.terminal c) b
    rw [hcond]
    rw [hprocessed] at hs
    cases hexpands : (w.tty c.channel).expands b with
    | false =>
      rw [hexpands, if_neg fun hx => Bool.false_ne_true hx.1] at hs
      cases hs
      exact iff_of_true ((mapped_put h).mpr (hcall.put_plain hb hexpands)) fun hx => absurd hx Bool.false_ne_true
    | true =>
      rw [imp_iff_right rfl]
      cases hflag : w.crFlag with
      | false =>
        rw [hexpands, hflag, if_pos ⟨rfl, Bool.false_ne_true⟩] at hs
        cases hs
        exact (mapped_put h).trans ((hcall.put_return_iff hb hexpands).trans eq_comm)
      | true =>
        rw [hexpands, hflag, if_neg fun hx => hx.2 rfl] at hs
        cases hs
        exact (mapped_put h).trans ((hcall.put_newline_iff hb hexpands).trans eq_comm)
  · cases hs

theorem mapped_start (h : Mapped w) {ch : ℕ} {buf : List UInt8} (hs : start i ch buf w = some w') : Mapped w' := by
  unfold start at hs
  split at hs
  · cases hs
    exact (mapped_set h i _).mpr (.inl rfl)
  · cases hs

/-- The settings of a terminal stay. -/
theorem mapped_setTty (h : Mapped w) {ch : ℕ} (hs : Agree (w.tty ch) s) : Mapped (w.setTty ch s) := by
  intro i c hc
  have hagree : Agree (w.tty c.channel) ((w.setTty ch s).tty c.channel) := by
    show Agree _ (update w.tty ch s c.channel)
    by_cases hch : c.channel = ch
    · subst hch
      rw [update_self]
      exact hs
    · rw [update_of_ne hch]
      exact ⟨rfl, rfl⟩
  exact hagree.mapped.mpr (h i c hc)

theorem mapped_turn_iff (h : Mapped w) (hs : turn a w = some w') : Mapped w' ↔ Own w a := by
  cases a with
  | start i ch buf => exact iff_of_true (mapped_start h hs) trivial
  | sleepIfFull i =>
    obtain ⟨c, hc, hs⟩ := Option.bind_eq_some_iff.mp hs
    exact iff_of_true (mapped_sleepIfFull h hc hs) trivial
  | interrupt i =>
    obtain ⟨c, hc, hs⟩ := Option.bind_eq_some_iff.mp hs
    rw [mapped_interrupt_iff h hc hs]
    constructor
    · intro hhalf c' hc'
      obtain rfl := Option.some_inj.mp (hc.symm.trans hc')
      exact hhalf
    · exact fun hown => hown c hc
  | innerTest i =>
    obtain ⟨c, hc, hs⟩ := Option.bind_eq_some_iff.mp hs
    exact iff_of_true (mapped_innerTest h hc hs) trivial
  | putByte i =>
    obtain ⟨c, hc, hs⟩ := Option.bind_eq_some_iff.mp hs
    rw [mapped_putByte_iff h hc hs]
    constructor
    · intro hflag c' hc'
      obtain rfl := Option.some_inj.mp (hc.symm.trans hc')
      exact hflag
    · exact fun hown => hown c hc
  | drain ch =>
    dsimp only [turn] at hs
    split_ifs at hs
    cases hs
    exact iff_of_true (mapped_setTty h ⟨rfl, rfl⟩) trivial
  | echo ch cs =>
    cases hs
    exact iff_of_true (mapped_setTty h (agree_output _ cs)) trivial

/-- What every call puts is its text as its terminal maps it, at all times, exactly when the flag is that of
the call wherever a newline is expanded, and no signal comes between CR and newline. -/
theorem output_mapped_iff (tty : ℕ → Term) (acts : List Turn) :
    Throughout turn Mapped acts (.boot tty) ↔ Each turn Own acts (.boot tty) :=
  throughout_iff_each (fun _ h => h) (fun _ _ _ h hown hs => (mapped_turn_iff h hs).mpr hown)
    (fun _ _ _ h hs h' => (mapped_turn_iff h hs).mp h') fun _ _ hc => nomatch hc

theorem buf_size_pos : 0 < TTY_BUF_SIZE := by decide

/-- Consoles as they are set up, with room for one character in the write queue of the first -/
def consoles (ch : ℕ) : Term :=
  let s := Tty.boot ⟨ICRNL, OPOST ||| ONLCR, ICANON ||| ECHO, fun _ => 0⟩ false fun _ => 0
  if ch = 0 then { s with writeQ := ⟨0, 1022, 0, fun _ => 120, by decide, buf_size_pos⟩ } else s

/-- Two newlines: the CR of the first fills the queue, and the second call finds the flag set. -/
def newlines : List Turn :=
  [.start 0 0 [10], .sleepIfFull 0, .innerTest 0, .putByte 0, .innerTest 0,
    .start 1 1 [10], .sleepIfFull 1, .innerTest 1, .putByte 1]

theorem newlines_not_mapped : ¬ Throughout turn Mapped newlines (.boot consoles) := by
  intro h
  have hrun : (runList turn newlines (.boot consoles)).any fun w =>
      (w.calls 1).any fun c =>
        c.out = [10] ∧ c.buf = [10] ∧ c.used = 1 ∧ (w.tty c.channel).mapText [10] = [13, 10] := by
    decide +kernel
  obtain ⟨w, hw, hcall⟩ := (Option.any_eq_true _ _).mp hrun
  obtain ⟨c, hc, hall⟩ := (Option.any_eq_true _ _).mp hcall
  obtain ⟨hout, hbuf, hused, hmap⟩ := of_decide_eq_true hall
  have h' : Throughout turn Mapped (newlines ++ []) (.boot consoles) := h
  have hmapped : Mapped w := h'.drop hw
  have hlen : c.out.length = 2 ∨ c.out.length = 3 := by
    rcases hmapped 1 c hc with hc' | ⟨-, -, hc'⟩
    · rw [hc', hbuf, hused]
      exact .inl (congrArg List.length hmap)
    · rw [hc', hbuf, hused]
      exact .inr (congrArg (fun l => (l ++ [13]).length) hmap)
  rw [hout] at hlen
  exact absurd hlen (by decide)

end Linux012.Tty
