import Linux012.Lib.Activations
import Linux012.Fs.Blocks.Basic

/-! # The tasks that use blocks

The machine of the buffer cache with the scripts of `Fs.Blocks.Basic` on top of it; `sync_dev` calls the
script of `sync_inodes`. The rest of the kernel holds the buffers that it has got, calls the functions, stores
into its buffers and changes everything but the cache.
-/

namespace Linux012.Blocks

open Function Coop Scripts Buffer FileDev

/-- What a function returns -/
inductive Kind | buffer | super | int | void
  deriving DecidableEq

def Value.Fits : Kind → Value → Prop
  | .buffer, .buffer _ => True
  | .super, .super _ => True
  | .int, .int _ => True
  | .void, .buffer none => True
  | _, _ => False

def Fn.kind : Fn → Kind
  | .getSuper .. | .getSuperWait .. => .super
  | .waitOnInode _ | .lockInode _ | .truncate _ | .truncateRepeat _ | .readInode _ | .writeInode _
  | .syncInodes => .void
  | _ => .int

namespace Callee

def kind : Callee → Kind
  | .fn f => f.kind
  | .breadPage .. | .brelse _ | .syncDev _ => .void
  | _ => .buffer

/-- The references that a function takes over from its caller -/
def takes : Callee → Multiset ℕ
  | .brelse bh => {bh}
  | _ => 0

end Callee

/-- A returned buffer comes with a reference. -/
def Value.gives : Value → Multiset ℕ
  | .buffer (some bh) => {bh}
  | _ => 0

def loans : Loans Sys Callee Value Kind ℕ where
  count := Sys.count
  takes := Callee.takes
  gives := Value.gives
  kind := Callee.kind
  fits := Value.Fits

/-! ## Frames -/

/-- `held` are the references of an activation (not in the source). -/
inductive Frame
  | cache (f : Buffer.Frame)
  | run (f : Fn) (held : Multiset ℕ) (p : Code Value)
  | wait (f : Fn) (held : Multiset ℕ) (g : Callee) (k : Value → Code Value)
  | kernel (held : Multiset ℕ)
  | kernelWait (held : Multiset ℕ) (g : Callee)

/-- The frame of a call -/
def entryFrame : Callee → Frame
  | .fn f => .run f 0 (body f)
  | .getblk dev block => .cache (.getblk dev block)
  | .getHashTable dev block => .cache (.getHashTable dev block)
  | .bread dev block => .cache (.bread dev block)
  | .breadPage dev b => .cache (.breadPage dev b [])
  | .breada dev first rest => .cache (.breada dev first rest)
  | .brelse bh => .cache (.brelse bh)
  | .syncDev dev => .cache (.syncDev dev false 0)

/-- The only code that the cache calls is `sync_inodes`. -/
def ofCache : Buffer.Frame → Frame
  | .code _ => entryFrame (.fn .syncInodes)
  | f => .cache f

/-- What the rest of the kernel does next. -/
inductive Choice
  | call (g : Callee)
  | store (bh : ℕ) (data : Block)
  | world (w : World)
  | go

inductive Intr
  | endRequest (e : EndRequest Block)
  | clock (time : BitVec 32)

/-- A panic of the cache or of a script -/
abbrev AnyPanic := Buffer.Panic ⊕ Panic

abbrev Piece := Sys × Next Frame Value AnyPanic

def liftNext : Next Buffer.Frame Buffer.Value Buffer.Panic → Next Frame Value AnyPanic
  | .goto f => .goto (ofCache f)
  | .sleep f => .sleep (ofCache f)
  | .call f g => .call (ofCache f) (ofCache g)
  | .ret v => .ret (.buffer v)
  | .panic q => .panic (.inl q)

/-- A piece of the script of `f`. -/
def runScript (f : Fn) (held : Multiset ℕ) (p : Code Value) (s : Sys) : Piece :=
  match p.run s with
  | (s, .ret v) => (s, .ret v)
  | (s, .call g k) => (s, .call (.wait f (held - g.takes) g k) (entryFrame g))
  | (s, .sleep k) => (s, .sleep (.run f held k))
  | (s, .goto g) => (s, .goto (entryFrame g))
  | (s, .panic q) => (s, .panic (.inr q))

/-- The rest of the kernel releases only buffers that it holds. -/
def runKernel (held : Multiset ℕ) (s : Sys) : Choice → Option Piece
  | .call g =>
    if g.takes ≤ held then some (s, .call (.kernelWait (held - g.takes) g) (entryFrame g)) else none
  | .store bh data =>
    if bh ∈ held then
      some (s.setHead bh fun b => { b with bData := data, bUptodate := true, bDirt := true, stored := true },
        .goto (.kernel held))
    else none
  | .world w => some ({ s with toWorld := w }, .goto (.kernel held))
  | .go => none

def exec (ch : Choice) (s : Sys) : Frame → Option Piece
  | .cache f => (Buffer.exec s.cache .done f).map fun r => ({ s with cache := r.1 }, liftNext r.2)
  | .run f held p => some (runScript f held p s)
  | .wait .. => none
  | .kernel held => runKernel held s ch
  | .kernelWait .. => none

def resume : Frame → Value → Option Frame
  | .cache h, .buffer v => (Buffer.resume h v).map .cache
  | .wait f held _ k, v => some (.run f (held + v.gives) (k v))
  | .kernelWait held _, v => some (.kernel (held + v.gives))
  | _, _ => none

def intr : Intr → Sys → Option Sys
  | .endRequest e, s => (endRequest e s.cache).map fun c => { s with cache := c }
  | .clock time, s => some { s with currentTime := time }

variable (n : ℕ)

def program : Program n Sys Frame Value Choice Intr AnyPanic where
  exec _ ch f s := exec ch s f
  resume := resume
  user
    | .kernel _ => true
    | _ => false
  intr := intr

/-- Every task runs code of the kernel that holds no buffer yet. -/
def initial (w : World) (c : Cache Block) : State n Sys Frame AnyPanic where
  shared := { w with cache := c }
  stack _ := [.kernel 0]
  cpu := none
  panicked := none

/-! ## References -/

/-- The references to the buffer `b` that a frame holds. -/
def Frame.refs (b : ℕ) : Frame → ℕ
  | .cache f => f.refs b
  | .run _ held _ => held.count b
  | .wait _ held _ _ => held.count b
  | .kernel held => held.count b
  | .kernelWait held _ => held.count b

def Value.refs (b : ℕ) (v : Value) : ℕ := v.gives.count b

variable {n}

/-- No buffer has more references than an `unsigned char` can count. -/
def Few (s : State n Sys Frame AnyPanic) : Prop := ∀ b, s.total (Frame.refs b) < 256

end Linux012.Blocks
