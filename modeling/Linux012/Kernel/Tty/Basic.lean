import Mathlib.Tactic
import Linux012.Lib.Ring
import Linux012.Lib.Runs

/-! # Terminals

The queues of a terminal, `copy_to_cooked`, `tty_read`, `tty_write` and `set_termios`. Characters are
typed and taken by the driver between any two characters that the kernel moves.
-/

namespace Linux012.Tty

open Function

def TTY_BUF_SIZE : ℕ := 1024

structure Queue where
  data : UInt32
  head : ℕ
  tail : ℕ
  buf : ℕ → UInt8
  head_lt : head < TTY_BUF_SIZE
  tail_lt : tail < TTY_BUF_SIZE

namespace Queue

def left (q : Queue) : ℕ := (((q.tail : ℤ) - q.head - 1) % TTY_BUF_SIZE).toNat

def chars (q : Queue) : ℕ := (((q.head : ℤ) - q.tail) % TTY_BUF_SIZE).toNat

def Empty (q : Queue) : Prop := q.head = q.tail

def Full (q : Queue) : Prop := q.left = 0

instance (q : Queue) : Decidable q.Empty := inferInstanceAs (Decidable (_ = _))

instance (q : Queue) : Decidable q.Full := inferInstanceAs (Decidable (_ = _))

def last (q : Queue) : UInt8 := q.buf ((q.head + (TTY_BUF_SIZE - 1)) % TTY_BUF_SIZE)

/-- The character that `GETCH` reads. -/
def first (q : Queue) : UInt8 := q.buf q.tail

/-- What `GETCH` leaves. -/
def getch (q : Queue) : Queue :=
  { q with tail := (q.tail + 1) % TTY_BUF_SIZE, tail_lt := Nat.mod_lt _ (by decide) }

def putch (q : Queue) (c : UInt8) : Queue :=
  { q with
    buf := update q.buf q.head c
    head := (q.head + 1) % TTY_BUF_SIZE
    head_lt := Nat.mod_lt _ (by decide) }

/-- `DEC(head)` -/
def dec (q : Queue) : Queue :=
  { q with head := (q.head + (TTY_BUF_SIZE - 1)) % TTY_BUF_SIZE, head_lt := Nat.mod_lt _ (by decide) }

/-- The characters between the tail and the head. -/
def contents (q : Queue) : List UInt8 := Ring.slice q.buf TTY_BUF_SIZE q.tail q.chars

/-- All that `tty_init` sets up. -/
def initial : Queue := ⟨0, 0, 0, fun _ => 0, by decide, by decide⟩

end Queue

def ICRNL : UInt32 := 0o400
def IGNCR : UInt32 := 0o200
def INLCR : UInt32 := 0o100
def IUCLC : UInt32 := 0o1000
def IXON : UInt32 := 0o2000
def OPOST : UInt32 := 0o1
def OLCUC : UInt32 := 0o2
def ONLCR : UInt32 := 0o4
def OCRNL : UInt32 := 0o10
def ONLRET : UInt32 := 0o40
def ISIG : UInt32 := 0o1
def ICANON : UInt32 := 0o2
def ECHO : UInt32 := 0o10
def ECHOCTL : UInt32 := 0o1000

def VINTR : ℕ := 0
def VQUIT : ℕ := 1
def VERASE : ℕ := 2
def VKILL : ℕ := 3
def VEOF : ℕ := 4
def VSTART : ℕ := 8
def VSTOP : ℕ := 9
def VSUSP : ℕ := 10

def POSIX_VDISABLE : UInt8 := 0

structure Termios where
  iflag : UInt32
  oflag : UInt32
  lflag : UInt32
  cc : ℕ → UInt8

/-- The settings, the queues and the driver of a terminal. The interrupts of a serial line do not look at
`stopped`. `below` is the memory before `_ctype`, where `tolower` and `toupper` look up a negative
character, `killing` counts the loops of `copy_to_cooked` that erase a line, `testing` holds the writers
whose test of the queue has passed and `taking` says that the test of `tty_read` has. `put` and `taken`
are all characters that have been put into `write_q` and taken from it (not in the source). -/
structure Term where
  termios : Termios
  serial : Bool
  stopped : Bool
  readQ : Queue
  writeQ : Queue
  secondary : Queue
  below : UInt8 → UInt8
  crFlag : Bool
  killing : ℕ
  testing : ℕ → Bool
  taking : Bool
  put : List UInt8
  taken : List UInt8

/-- What `copy_to_cooked` does with a character. -/
inductive Effect
  | discard
  | kill
  | erase
  | stop
  | start
  | signal
  | store (c : UInt8)

namespace Term

def hasI (s : Term) (f : UInt32) : Bool := s.termios.iflag &&& f ≠ 0
def hasO (s : Term) (f : UInt32) : Bool := s.termios.oflag &&& f ≠ 0
def hasL (s : Term) (f : UInt32) : Bool := s.termios.lflag &&& f ≠ 0

/-- A signed character is compared with the unsigned one of the settings. -/
def isCc (s : Term) (i : ℕ) (c : UInt8) : Bool :=
  s.termios.cc i ≠ POSIX_VDISABLE ∧ c.toInt8.toInt = (s.termios.cc i).toNat

def isupper (s : Term) (c : UInt8) : Bool :=
  if c < 128 then 65 ≤ c ∧ c ≤ 90 else s.below c &&& 1 ≠ 0

def islower (s : Term) (c : UInt8) : Bool :=
  if c < 128 then 97 ≤ c ∧ c ≤ 122 else s.below c &&& 2 ≠ 0

def tolower (s : Term) (c : UInt8) : UInt8 := if s.isupper c then c + 32 else c

def toupper (s : Term) (c : UInt8) : UInt8 := if s.islower c then c - 32 else c

/-- The character ends a line, as the code tests it. -/
def endsLine (s : Term) (c : UInt8) : Bool := c = 10 ∨ s.isCc VEOF c

/-- There is a character to erase. -/
def erasable (s : Term) : Bool := ¬ s.secondary.Empty ∧ ¬ s.endsLine s.secondary.last

def mapped (s : Term) (c : UInt8) : Option UInt8 :=
  let c' :=
    if c = 13 then (if s.hasI ICRNL then some 10 else if s.hasI IGNCR then none else some c)
    else if c = 10 ∧ s.hasI INLCR then some 13
    else some c
  if s.hasI IUCLC then c'.map s.tolower else c'

def effect (s : Term) (c : UInt8) : Effect :=
  match s.mapped c with
  | none => .discard
  | some c =>
    if s.hasL ICANON ∧ s.isCc VKILL c then .kill
    else if s.hasL ICANON ∧ s.isCc VERASE c then .erase
    else if s.hasI IXON ∧ s.isCc VSTOP c then .stop
    else if s.hasI IXON ∧ s.isCc VSTART c then .start
    else if s.hasL ISIG ∧ (s.isCc VINTR c ∨ s.isCc VQUIT c ∨ s.isCc VSUSP c) then .signal
    else .store c

/-- `c < 32` for a signed character. -/
def control (c : UInt8) : Bool := c.toInt8 < 32

/-- The echo of a character that is erased. -/
def rubout (s : Term) : List UInt8 :=
  if s.hasL ECHO then (if control s.secondary.last then [127, 127] else [127]) else []

def echo (s : Term) : Effect → List UInt8
  | .erase => if s.erasable then s.rubout else []
  | .store c =>
    if s.hasL ECHO then
      if c = 10 then [10, 13]
      else if control c then (if s.hasL ECHOCTL then [94, c + 64] else [])
      else [c]
    else []
  | _ => []

/-- `PUTCH` of some characters into `write_q`. -/
def output (s : Term) (cs : List UInt8) : Term :=
  { s with writeQ := cs.foldl Queue.putch s.writeQ, put := s.put ++ cs }

def erase (s : Term) : Term := { s with secondary := s.secondary.dec }

/-- A delimiter is counted before it is stored. -/
def store (s : Term) (c : UInt8) : Term :=
  { s with
    secondary := { s.secondary with
      data := if s.endsLine c then s.secondary.data + 1 else s.secondary.data }.putch c }

def apply (s : Term) (e : Effect) : Term :=
  let s' := s.output (s.echo e)
  match e with
  | .discard => s'
  | .kill => { s' with killing := s'.killing + 1 }
  | .erase => if s.erasable then s'.erase else s'
  | .stop => { s' with stopped := true }
  | .start => { s' with stopped := false }
  | .signal => s'
  | .store c => s'.store c

/-- `copy_to_cooked` has nothing to do. -/
def idle (s : Term) : Bool := s.readQ.Empty ∨ s.secondary.Full

/-- A round of the outer loop of `copy_to_cooked`. -/
def cook (s : Term) : Term :=
  if s.idle then s else { s with readQ := s.readQ.getch }.apply (s.effect s.readQ.first)

/-- A round of the loop that kills a line. -/
def killOne (s : Term) : Term :=
  if s.erasable then (s.output s.rubout).erase else { s with killing := s.killing - 1 }

/-- The interrupt handlers drop what does not fit. -/
def typed (s : Term) (cs : List UInt8) : Term :=
  if cs.length ≤ s.readQ.left then { s with readQ := cs.foldl Queue.putch s.readQ } else s

/-- The test of the inner loop of `tty_write`. -/
def testWrite (s : Term) (t : ℕ) : Term := { s with testing := update s.testing t (¬ s.writeQ.Full) }

/-- What `tty_write` makes of a character, and `cr_flag`. -/
def processed (s : Term) (c : UInt8) : UInt8 × Bool :=
  if s.hasO OPOST then
    let c := if c = 13 ∧ s.hasO OCRNL then 10 else if c = 10 ∧ s.hasO ONLRET then 13 else c
    if c = 10 ∧ ¬ s.crFlag ∧ s.hasO ONLCR then (13, true)
    else (if s.hasO OLCUC then s.toupper c else c, false)
  else (c, false)

/-- The rest of the inner loop of `tty_write`. -/
def write (s : Term) (t : ℕ) (c : UInt8) : Term :=
  { s.output [(s.processed c).1] with crFlag := (s.processed c).2, testing := update s.testing t false }

/-- The driver takes a character. -/
def take (s : Term) : Term :=
  { s with writeQ := s.writeQ.getch, taken := s.taken ++ [s.writeQ.first] }

/-- `tty_read` has to wait. -/
def mustWait (s : Term) : Bool :=
  s.secondary.Empty ∨ s.hasL ICANON ∧ ¬ s.readQ.Full ∧ s.secondary.data = 0

def get (s : Term) : Term :=
  { s with
    secondary := { s.secondary.getch with
      data := if s.endsLine s.secondary.first then s.secondary.data - 1 else s.secondary.data }
    taking := false }

end Term

/-- A writer may sleep between its test and its character, and other tasks go on. `again` is the test at
the end of the inner loop of `tty_read`, and `setTermios` is the store of any part of the settings. -/
inductive Act
  | typed (cs : List UInt8)
  | cook
  | killOne
  | testWrite (t : ℕ)
  | write (t : ℕ) (c : UInt8)
  | take
  | testRead
  | again
  | get
  | setTermios (t : Termios)

/-- `tty_read` does not sleep between its test and its character. -/
def step : Act → Term → Option Term
  | .typed cs, s => some (s.typed cs)
  | .cook, s => some s.cook
  | .killOne, s => if s.killing = 0 then none else some s.killOne
  | .testWrite t, s => some (s.testWrite t)
  | .write t c, s => if s.testing t then some (s.write t c) else none
  | .take, s => if s.writeQ.Empty ∨ s.stopped ∧ ¬ s.serial then none else some s.take
  | .testRead, s => if s.taking then none else some { s with taking := ¬ s.mustWait }
  | .again, s => if s.taking then none else some { s with taking := ¬ s.secondary.Empty }
  | .get, s => if s.taking then some s.get else none
  | .setTermios t, s => if s.taking then none else some { s with termios := t }

def boot (termios : Termios) (serial : Bool) (below : UInt8 → UInt8) : Term where
  termios := termios
  serial := serial
  stopped := false
  readQ := .initial
  writeQ := .initial
  secondary := .initial
  below := below
  crFlag := false
  killing := 0
  testing _ := false
  taking := false
  put := []
  taken := []

end Linux012.Tty
