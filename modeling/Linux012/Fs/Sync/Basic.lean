import Linux012.Fs.Buffer.Tasks
import Linux012.Fs.Inode.Basic

/-! # Inodes on top of the buffer cache

The calls between `fs/inode.c` and `fs/buffer.c`: `read_inode` and `write_inode` hold the lock of
an inode while `bread` gets its block, and `sync_dev` writes out all inodes. The frames of the
buffer cache and of the inode table are those of their own models, except where one calls the
other.
-/

namespace Linux012.Sync

open Function Coop

/-- `sizeof (struct d_inode)` is 32. -/
def INODES_PER_BLOCK : ℕ := 1024 / 32

/-- The inodes in a block. -/
structure Format (D : Type*) where
  dInode : D → ℕ → Inodes.DInode
  setDInode : D → ℕ → Inodes.DInode → D

structure Sys (D : Type*) where
  cache : Buffer.Cache D
  table : Inodes.Table
  /-- Sizes of the bitmaps on each device, from its super block. -/
  sImapBlocks : ℕ → ℕ
  sZmapBlocks : ℕ → ℕ

variable {D : Type*}

inductive Frame
  | code (bufs inodes : List ℕ)
  | cache (f : Buffer.Frame)
  | inode (f : Inodes.Frame)
  | readInodeGot (req : Inodes.Key) (e : ℕ)
  | readInodeCopy (req : Inodes.Key) (e bh : ℕ)
  | readInodeUnlock (req : Inodes.Key) (e : ℕ)
  | writeInodeGot (e : ℕ)
  | writeInodeCopy (e bh : ℕ)
  | writeInodeUnlock (e : ℕ)
  | noInodeBlock
  | syncInodes (i : ℕ)
  | sysSync
  | sysSyncBuffers (i : ℕ)
  deriving DecidableEq

inductive Value
  | cache (v : Buffer.Value)
  | inode (v : Inodes.Value)

inductive Panic
  | cache (q : Buffer.Panic)
  | inode (q : Inodes.Panic)
  | unableToReadInodeBlock
  deriving DecidableEq

/-- What the rest of the kernel does next; `zone` is the device in `i_zone[0]`, and `use` reads and
releases blocks of a file. -/
inductive Choice (D : Type*)
  | cache (ch : Buffer.Choice D)
  | inode (ch : Inodes.Choice)
  | sysSync
  | zone (dev : Buffer.Dev)
  | use

abbrev Piece (D : Type*) := Sys D × Next Frame Value Panic

/-- The same end of a piece of code among other frames. -/
def lift {F V P : Type*} (f : F → Frame) (v : V → Value) (q : P → Panic) :
    Next F V P → Next Frame Value Panic
  | .goto g => .goto (f g)
  | .sleep g => .sleep (f g)
  | .call g h => .call (f g) (f h)
  | .ret x => .ret (v x)
  | .panic x => .panic (q x)

def ofCache (inodes : List ℕ) : Buffer.Frame → Frame
  | .code bufs => .code bufs inodes
  | f => .cache f

def ofInode (bufs : List ℕ) : Inodes.Frame → Frame
  | .code inodes => .code bufs inodes
  | f => .inode f

def liftCache (s : Sys D) (inodes : List ℕ) (r : Buffer.Piece D) : Piece D :=
  ({ s with cache := r.1 }, lift (ofCache inodes) .cache .cache r.2)

def liftInode (s : Sys D) (bufs : List ℕ) (r : Inodes.Piece) : Piece D :=
  ({ s with table := r.1 }, lift (ofInode bufs) .inode .inode r.2)

/-- The code that uses buffers and inodes. -/
def execCode (s : Sys D) (bufs inodes : List ℕ) : Choice D → Option (Piece D)
  | .cache .done =>
    if bufs = [] ∧ inodes = [] then some (s, .ret (.cache none)) else none
  | .cache ch => (Buffer.execCode s.cache bufs ch).map (liftCache s inodes)
  | .inode .done => none
  | .inode (.writeInode _) => none
  | .inode ch => (Inodes.execCode s.table inodes ch).map (liftInode s bufs)
  | .sysSync => some (s, .call (.code bufs inodes) .sysSync)
  | _ => none

/-- The device and the block of an inode. -/
def inodeBlock (s : Sys D) (e : ℕ) : Buffer.Dev × Buffer.BlockNr :=
  let x := s.table.inodes e
  (BitVec.ofNat 16 x.iDev, BitVec.ofNat 32
    (2 + s.sImapBlocks x.iDev + s.sZmapBlocks x.iDev + (x.iNum - 1) / INODES_PER_BLOCK))

def breadInode (s : Sys D) (e : ℕ) (self : Frame) : Piece D :=
  (s, .call self (.cache (.bread (inodeBlock s e).1 (inodeBlock s e).2)))

/-- `read_inode` has the block of the inode. -/
def readInodeCopy (fmt : Format D) (s : Sys D) (req : Inodes.Key) (e bh : ℕ) : Piece D :=
  let x := s.table.inodes e
  let d := fmt.dInode (s.cache.heads bh).bData ((x.iNum - 1) % INODES_PER_BLOCK)
  ({ s with table := s.table.upd e fun x => { x with toDInode := d } },
    .call (.readInodeUnlock req e) (.cache (.brelse bh)))

/-- `write_inode` has the block of the inode. -/
def writeInodeCopy (fmt : Format D) (s : Sys D) (e bh : ℕ) : Piece D :=
  let x := s.table.inodes e
  let nr := (x.iNum - 1) % INODES_PER_BLOCK
  let cache := s.cache.upd bh fun b =>
    { b with bData := fmt.setDInode b.bData nr x.toDInode, bDirt := true, stored := true }
  ({ s with cache := cache, table := s.table.upd e fun x => { x with iDirt := false } },
    .call (.writeInodeUnlock e) (.cache (.brelse bh)))

def unlockInode (T : Inodes.Table) (e : ℕ) : Inodes.Table :=
  T.upd e fun x => { x with iLock := false }

def syncInodes (s : Sys D) (i : ℕ) : Piece D :=
  if i < Inodes.NR_INODE then
    if (s.table.inodes i).iLock then (s, .sleep (.syncInodes i))
    else if (s.table.inodes i).iDirt ∧ ¬ (s.table.inodes i).iPipe then
      (s, .call (.syncInodes (i + 1)) (.inode (.writeInode i)))
    else (s, .goto (.syncInodes (i + 1)))
  else (s, .ret (.cache none))

/-- `sync_dev`, which calls `sync_inodes` after the first of its two passes. -/
def syncDev (s : Sys D) (dev : Buffer.Dev) (again : Bool) (i : ℕ) : Piece D :=
  if i ≥ s.cache.nrBuffers ∧ ¬ again then
    (s, .call (.cache (.syncDev dev true 0)) (.syncInodes 0))
  else liftCache s [] (Buffer.syncDev s.cache dev again i)

/-- The loop of `sys_sync` over all buffers. -/
def sysSyncBuffers (s : Sys D) (i : ℕ) : Piece D :=
  if i < s.cache.nrBuffers then
    if (s.cache.heads i).bLock then (s, .sleep (.sysSyncBuffers i))
    else if (s.cache.heads i).bDirt then
      (s, .call (.sysSyncBuffers (i + 1)) (.cache (.llRwBlock .write i)))
    else (s, .goto (.sysSyncBuffers (i + 1)))
  else (s, .ret (.cache none))

/-- `iput`, which calls `sync_dev` for a block device. -/
def iput (s : Sys D) (e : ℕ) (ch : Choice D) : Option (Piece D) :=
  match Inodes.iput s.table e with
  | (T, .call f _) =>
    match ch with
    | .zone dev => some ({ s with table := T }, .call (.inode f) (.cache (.syncDev dev false 0)))
    | _ => none
  | r => some (liftInode s [] r)

/-- `truncate` reads blocks of the file, and `free_inode` follows. -/
def iputTruncate (s : Sys D) (e : ℕ) : Choice D → Option (Piece D)
  | .use => some (s, .call (.inode (.iputTruncate e)) (.code [] []))
  | .inode ch => some (liftInode s [] (Inodes.iputTruncate s.table e ch))
  | _ => none

/-- Pieces of the inode table that call nothing of the buffer cache. -/
def execInode (s : Sys D) (ch : Choice D) (f : Inodes.Frame) : Option (Piece D) :=
  match ch with
  | .inode ch => (Inodes.exec s.table ch f).map (liftInode s [])
  | _ => none

/-- One uninterrupted piece of code. -/
def exec (fmt : Format D) (s : Sys D) (ch : Choice D) : Frame → Option (Piece D)
  | .code bufs inodes => execCode s bufs inodes ch
  | .cache (.syncDev dev again i) => some (syncDev s dev again i)
  | .cache f => (Buffer.exec s.cache .done f).map (liftCache s [])
  | .inode (.readInodeBread req e) => some (breadInode s e (.readInodeGot req e))
  | .inode (.writeInodeBread e) => some (breadInode s e (.writeInodeGot e))
  | .inode (.iput e) => iput s e ch
  | .inode (.iputTruncate e) => iputTruncate s e ch
  | .inode f => execInode s ch f
  | .readInodeGot .. => none
  | .writeInodeGot _ => none
  | .noInodeBlock => some (s, .panic .unableToReadInodeBlock)
  | .readInodeCopy req e bh => some (readInodeCopy fmt s req e bh)
  | .writeInodeCopy e bh => some (writeInodeCopy fmt s e bh)
  | .readInodeUnlock _ e =>
    some ({ s with table := unlockInode s.table e }, .ret (.inode (.inode e)))
  | .writeInodeUnlock e => some ({ s with table := unlockInode s.table e }, .ret (.inode .null))
  | .syncInodes i => some (syncInodes s i)
  | .sysSync => some (s, .call (.sysSyncBuffers 0) (.syncInodes 0))
  | .sysSyncBuffers i => some (sysSyncBuffers s i)

/-- How a frame goes on with the value returned to it. -/
def resume : Frame → Value → Option Frame
  | .code bufs inodes, .cache v => (Buffer.resume (.code bufs) v).map (ofCache inodes)
  | .code bufs inodes, .inode v => (Inodes.resume (.code inodes) v).map (ofInode bufs)
  | .cache f, .cache v => (Buffer.resume f v).map (ofCache [])
  | .inode f, .inode v => (Inodes.resume f v).map (ofInode [])
  | .inode (.iputWait e), .cache _ => some (.inode (.iputWait e))
  | .inode (.iputTruncate e), .cache _ => some (.inode (.iputTruncate e))
  | .readInodeGot req e, .cache (some bh) => some (.readInodeCopy req e bh)
  | .readInodeGot _ _, .cache none => some .noInodeBlock
  | .readInodeUnlock req e, .cache _ => some (.readInodeUnlock req e)
  | .writeInodeGot e, .cache (some bh) => some (.writeInodeCopy e bh)
  | .writeInodeGot _, .cache none => some .noInodeBlock
  | .writeInodeUnlock e, .cache _ => some (.writeInodeUnlock e)
  | .syncInodes i, .inode _ => some (.syncInodes i)
  | .sysSyncBuffers i, .cache _ => some (.sysSyncBuffers i)
  | _, _ => none

variable (n : ℕ)

def program (fmt : Format D) : Program n (Sys D) Frame Value (Choice D) (Buffer.EndRequest D) Panic
    where
  exec _ ch f s := exec fmt s ch f
  resume := resume
  user
    | .code .. => true
    | _ => false
  intr e s := (Buffer.endRequest e s.cache).map fun c => { s with cache := c }

/-- Every task runs code that holds nothing yet. -/
def initial (s : Sys D) : State n (Sys D) Frame Panic where
  shared := s
  stack _ := [.code [] []]
  cpu := none
  panicked := none

end Linux012.Sync
