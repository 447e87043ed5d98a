import Linux012.Kernel.Tty.Output

/-! # Pseudo-terminals

`pty_copy` and the calls of `copy_to_cooked` and `tty->write` within it, with what is still to be done
as a stack. The two sides of a pair write to each other.
-/

namespace Linux012.Pty

open Function Linux012.Tty

inductive Side
  | master
  | slave
  deriving DecidableEq

def Side.other : Side → Side
  | master => slave
  | slave => master

/-- `sig` is what the tests of `current->signal` find, one after the other. `cooked` is what
`copy_to_cooked` has taken from each read queue (not in the source). -/
structure Pair where
  tty : Side → Term
  sig : ℕ → Bool
  tests : ℕ
  cooked : Side → List UInt8

namespace Pair

def set (p : Pair) (x : Side) (s : Term) : Pair := { p with tty := update p.tty x s }

/-- `GETCH(from->write_q, c)` and `PUTCH(c, to->read_q)` -/
def move (p : Pair) (x : Side) : Pair :=
  let from_ := p.tty x
  let dest := p.tty x.other
  (p.set x from_.take).set x.other { dest with readQ := dest.readQ.putch from_.writeQ.first }

/-- `GETCH(tty->read_q, c)` -/
def getch (p : Pair) (x : Side) : Pair :=
  { p.set x { p.tty x with readQ := (p.tty x).readQ.getch } with
    cooked := update p.cooked x (p.cooked x ++ [(p.tty x).readQ.first]) }

end Pair

/-- Calls, and what `copy_to_cooked` does to the secondary queue when the echo has been written -/
inductive Task
  | copy (x : Side)
  | cook (x : Side)
  | kill (x : Side)
  | erase (x : Side)
  | store (x : Side) (c : UInt8)
  deriving DecidableEq

/-- The echo is put into the write queue, and `tty->write` called if the terminal echoes. -/
def echoing (p : Pair) (x : Side) (cs : List UInt8) : Pair × List Task :=
  (p.set x ((p.tty x).output cs), if (p.tty x).hasL ECHO then [.copy x] else [])

/-- A round of the loop of `pty_copy` -/
def copyRound (x : Side) (p : Pair) : Pair × List Task :=
  if ¬ (p.tty x).stopped ∧ ¬ (p.tty x).writeQ.Empty then
    if (p.tty x.other).readQ.Full then
      if (p.tty x.other).secondary.Full then (p, [.cook x.other])
      else (p, [.cook x.other, .copy x])
    else
      let p := p.move x
      ({ p with tests := p.tests + 1 }, if p.sig p.tests then [.cook x.other] else [.copy x])
  else (p, [.cook x.other])

/-- A round of the outer loop of `copy_to_cooked` -/
def cookRound (x : Side) (p : Pair) : Pair × List Task :=
  let s := p.tty x
  if s.idle then (p, [])
  else
    let p := p.getch x
    match s.effect s.readQ.first with
    | .discard | .signal => (p, [.cook x])
    | .kill => (p, [.kill x, .cook x])
    | .erase =>
      if s.erasable then
        let (p, ts) := echoing p x s.rubout
        (p, ts ++ [.erase x, .cook x])
      else (p, [.cook x])
    | .stop => (p.set x { p.tty x with stopped := true }, [.copy x, .cook x])
    | .start => (p.set x { p.tty x with stopped := false }, [.copy x, .cook x])
    | .store c =>
      let (p, ts) := echoing p x (s.echo (.store c))
      (p, ts ++ [.store x c, .cook x])

/-- A round of the loop that kills a line -/
def killRound (x : Side) (p : Pair) : Pair × List Task :=
  let s := p.tty x
  if s.erasable then
    let (p, ts) := echoing p x s.rubout
    (p, ts ++ [.erase x, .kill x])
  else (p, [])

/-- The next step of a task, and what it leaves to be done -/
def expand : Task → Pair → Pair × List Task
  | .copy x, p => copyRound x p
  | .cook x, p => cookRound x p
  | .kill x, p => killRound x p
  | .erase x, p => (p.set x (p.tty x).erase, [])
  | .store x c, p => (p.set x ((p.tty x).store c), [])

/-- The stack is worked off in so many steps. -/
def exec : ℕ → List Task → Pair → Option Pair
  | _, [], p => some p
  | 0, _ :: _, _ => none
  | fuel + 1, t :: ts, p => exec fuel ((expand t p).2 ++ ts) (expand t p).1

/-- `mpty_write` and `spty_write` -/
def ptyWrite (fuel : ℕ) (x : Side) (p : Pair) : Option Pair := exec fuel [.copy x] p

/-- What has left the write queues since `p` has come to the other side once each and in order. -/
def Delivered (p p' : Pair) : Prop :=
  ∀ x : Side, ∃ sent received,
    (p'.tty x).taken = (p.tty x).taken ++ sent ∧ p'.cooked x.other = p.cooked x.other ++ received ∧
      (p.tty x.other).readQ.contents ++ sent = received ++ (p'.tty x.other).readQ.contents

/-- Why the loop of `pty_copy` ends -/
def Stays (x : Side) (p : Pair) : Prop :=
  (p.tty x).stopped = true ∨ (p.tty x).writeQ.Empty ∨
    (p.tty x.other).readQ.Full ∧ (p.tty x.other).secondary.Full ∨ ∃ n, p.tests = n + 1 ∧ p.sig n = true

/-- The loop of `pty_copy` comes to its end, then `copy_to_cooked` returns. -/
def Transfers (n : ℕ) (x : Side) (p : Pair) : Prop :=
  ∃ p₁ p₂ m, Delivered p p₁ ∧ Stays x p₁ ∧ Delivered p₁ p₂ ∧ exec m [.cook x.other] p₁ = some p₂ ∧
    ptyWrite n x p = some p₂

end Linux012.Pty
