import Linux012.Lib.Coop

/-! # Pipes

The readers and writers of one pipe run `read_pipe` and `write_pipe`. A call sleeps
at an empty or full pipe, and while a page that holds a byte of its buffer is brought
into memory. Waking up is left open: a sleeping call may go on at any time.
-/

namespace Linux012.Pipes

open Function Coop

abbrev PAGE_SIZE : ℕ := 4096
def ERESTARTSYS : ℤ := 512

/-- What the inode of a pipe holds, and all bytes that have been stored in its page and copied
out of it (not in the source). -/
structure Pipe where
  page : ℕ → UInt8
  head : ℕ
  tail : ℕ
  iCount : ℕ
  accepted : List UInt8
  delivered : List UInt8

namespace Pipe

/-- `PIPE_SIZE` -/
def size (p : Pipe) : ℕ := (((p.head : ℤ) - p.tail) % PAGE_SIZE).toNat

/-- An index is an `unsigned short`. -/
def advance (i chars : ℕ) : ℕ := (i + chars) % 65536 % PAGE_SIZE

/-- The byte at the index lies between the tail and the head. -/
def Occupied (p : Pipe) (i : ℕ) : Prop := (((i : ℤ) - p.tail) % PAGE_SIZE).toNat < p.size

/-- A writer may store a byte at the index. -/
def Available (p : Pipe) (i : ℕ) : Prop :=
  (((i : ℤ) - p.head) % PAGE_SIZE).toNat < PAGE_SIZE - 1 - p.size

end Pipe

/-- What a call returns, how many bytes it has moved, and whether it has sent `SIGPIPE`. -/
structure Result where
  ret : ℤ
  moved : ℕ
  sigpipe : Bool

/-- Where a task is. The loops of the calls hold `count` and `read` or `written`; the inner loops
copy `chars` bytes from `at` on. A reader has put `got` into its buffer, a writer has stored
`moved` bytes and `buf` is to come. -/
inductive Frame
  | user (last : Option Result)
  | read (count read : ℕ) (got : List UInt8)
  | putBytes (at_ chars count read : ℕ) (got : List UInt8)
  | write (count : ℕ) (buf : List UInt8) (written moved : ℕ)
  | getBytes (at_ chars count : ℕ) (buf : List UInt8) (written moved : ℕ)

/-- The call a task makes, whether it has a signal that is not blocked, or that the byte it
copies next is not in memory. -/
inductive Choice
  | read (count : ℕ)
  | write (buf : List UInt8)
  | go (signal : Bool)
  | fault

abbrev End := Next Frame Empty Empty

def finish (ret : ℤ) (moved : ℕ) (sigpipe : Bool) : End := .goto (.user (some ⟨ret, moved, sigpipe⟩))

/-- `read_pipe` from the test of its loop up to the copy loop. -/
def readPipe (p : Pipe) (signal : Bool) (count read : ℕ) (got : List UInt8) : Pipe × End :=
  if count = 0 then (p, finish read got.length false)
  else
    let size := p.size
    if size = 0 then
      if p.iCount ≠ 2 then (p, finish read got.length false)
      else if signal then
        (p, finish (if read = 0 then -ERESTARTSYS else read) got.length false)
      else (p, .sleep (.read count read got))
    else
      let chars := min (min (PAGE_SIZE - p.tail) count) size
      ({ p with tail := Pipe.advance p.tail chars },
        .goto (.putBytes p.tail chars (count - chars) (read + chars) got))

/-- One round of the loop with `put_fs_byte`. -/
def putByte (p : Pipe) (i chars count read : ℕ) (got : List UInt8) : Pipe × End :=
  if chars = 0 then (p, .goto (.read count read got))
  else
    ({ p with delivered := p.delivered ++ [p.page i] },
      .goto (.putBytes (i + 1) (chars - 1) count read (got ++ [p.page i])))

/-- `write_pipe` from the test of its loop up to the copy loop. -/
def writePipe (p : Pipe) (count : ℕ) (buf : List UInt8) (written moved : ℕ) : Pipe × End :=
  if count = 0 then (p, finish written moved false)
  else
    let size := PAGE_SIZE - 1 - p.size
    if size = 0 then
      if p.iCount ≠ 2 then (p, finish (if written = 0 then -1 else written) moved true)
      else (p, .sleep (.write count buf written moved))
    else
      let chars := min (min (PAGE_SIZE - p.head) count) size
      ({ p with head := Pipe.advance p.head chars },
        .goto (.getBytes p.head chars (count - chars) buf (written + chars) moved))

/-- One round of the loop with `get_fs_byte`. -/
def getByte (p : Pipe) (i chars count : ℕ) (buf : List UInt8) (written moved : ℕ) : Pipe × End :=
  match chars, buf with
  | 0, _ => (p, .goto (.write count buf written moved))
  | _, [] => (p, .goto (.write count [] written moved))
  | chars + 1, b :: buf =>
    ({ p with page := update p.page i b, accepted := p.accepted ++ [b] },
      .goto (.getBytes (i + 1) chars count buf written (moved + 1)))

variable {n : ℕ}

def exec (_ : Fin n) (c : Choice) (f : Frame) (p : Pipe) : Option (Pipe × End) :=
  match f, c with
  | .user _, .read count => if count < 2 ^ 31 then some (p, .goto (.read count 0 [])) else none
  | .user _, .write buf =>
    if buf.length < 2 ^ 31 then some (p, .goto (.write buf.length buf 0 0)) else none
  | .read count read got, .go signal => some (readPipe p signal count read got)
  | .putBytes i chars count read got, .go _ => some (putByte p i chars count read got)
  | .putBytes i chars count read got, .fault =>
    if chars = 0 then none else some (p, .sleep (.putBytes i chars count read got))
  | .write count buf written moved, .go _ => some (writePipe p count buf written moved)
  | .getBytes i chars count buf written moved, .go _ =>
    some (getByte p i chars count buf written moved)
  | .getBytes i chars count buf written moved, .fault =>
    if chars = 0 then none else some (p, .sleep (.getBytes i chars count buf written moved))
  | _, _ => none

/-- Other tasks open and close ends of the pipe. -/
def setCount (count : ℕ) (p : Pipe) : Option Pipe := some { p with iCount := count }

def program (n : ℕ) : Program n Pipe Frame Empty Choice ℕ Empty where
  exec := exec
  resume := fun _ v => v.elim
  user := fun f => match f with
    | .user _ => true
    | _ => false
  intr := setCount

/-- The new pipe of `sys_pipe`, on a page with any content. -/
def newPipe (n : ℕ) (page : ℕ → UInt8) : State n Pipe Frame Empty where
  shared := { page := page, head := 0, tail := 0, iCount := 2, accepted := [], delivered := [] }
  stack := fun _ => [.user none]
  cpu := none
  panicked := none

end Linux012.Pipes
