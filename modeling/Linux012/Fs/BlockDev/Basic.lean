import Linux012.Lib.Splice
import Linux012.Fs.Buffer.Recycle

/-! # Reading and writing block devices

`block_write` and `block_read` of `fs/block_dev.c` on top of the buffer cache. The tasks
are those that use block devices and those that run the rest of the kernel; the bytes of
a chunk are copied without a page fault.
-/

namespace Linux012.BlockDev

open Function Coop Splice Buffer

/-- The bytes of a block are those below `BLOCK_SIZE`. -/
abbrev Block := ℕ → UInt8

def BLOCK_SIZE_BITS : ℕ := 10

def EIO : ℤ := 5

/-- The variables of `block_write`; `buf` is what is left of the buffer. -/
structure BlockWrite where
  dev : Dev
  pos : ℕ
  block : ℕ
  offset : ℕ
  written : ℕ
  buf : List UInt8

/-- The variables of `block_read`; `got` has been put into user space. -/
structure BlockRead where
  dev : Dev
  pos : ℕ
  block : ℕ
  offset : ℕ
  read : ℕ
  count : ℕ
  got : List UInt8

inductive Result
  | wrote (ret : ℤ)
  | read (ret : ℤ) (data : List UInt8)
  deriving DecidableEq

inductive Frame
  | cache (f : Buffer.Frame)
  | user (last : Option Result)
  | write (w : BlockWrite)
  | writeGot (w : BlockWrite) (chars : ℕ)
  | writeStore (w : BlockWrite) (chars bh : ℕ)
  | read (r : BlockRead)
  | readGot (r : BlockRead) (chars : ℕ)
  | readCopy (r : BlockRead) (chars bh : ℕ)

/-- What a task does next, and what the rest of the kernel does next. -/
inductive Choice
  | blockWrite (dev : Dev) (pos : ℕ) (buf : List UInt8)
  | blockRead (dev : Dev) (pos count : ℕ)
  | syncDev (dev : Dev)
  | cache (ch : Buffer.Choice Block)

structure Sys where
  cache : Cache Block
  /-- The bytes of the devices as they were stored last (not in the source). -/
  bytes : Dev → ℕ → UInt8

abbrev Piece := Cache Block × Next Frame Value Panic

/-- `blk_size`: sizes of the minor devices in blocks, by major number. -/
abbrev BlkSize := ℕ → Option (ℕ → ℕ)

def size (blkSize : BlkSize) (dev : Dev) : ℕ :=
  match blkSize (major dev) with
  | some sizes => sizes (dev.toNat % 256)
  | none => 0x7fffffff

def blockNr (block : ℕ) : BlockNr := BitVec.ofNat 32 block

/-- The blocks that `breada(dev, block, block+1, block+2, -1)` reads ahead; a negative number
ends the list. -/
def ahead (block : ℕ) : List BlockNr :=
  ([block + 1, block + 2].takeWhile (· < 2 ^ 31)).map blockNr

def writeFail (w : BlockWrite) : Frame :=
  .user (some (.wrote (if w.written ≠ 0 then w.written else - EIO)))

def readFail (r : BlockRead) : Frame :=
  .user (some (.read (if r.read ≠ 0 then r.read else - EIO) r.got))

/-- The head of the loop of `block_write`. -/
def blockWrite (blkSize : BlkSize) (w : BlockWrite) : Next Frame Value Panic :=
  if w.buf = [] then .goto (.user (some (.wrote w.written)))
  else if w.block ≥ size blkSize w.dev then .goto (writeFail w)
  else
    let chars := min (BLOCK_SIZE - w.offset) w.buf.length
    .call (.writeGot w chars) <| .cache <|
      if chars = BLOCK_SIZE then .getblk w.dev (blockNr w.block)
      else .breada w.dev (blockNr w.block) (ahead w.block)

/-- The rest of the loop of `block_write`, with the buffer `bh`. -/
def blockWriteStore (c : Cache Block) (w : BlockWrite) (chars bh : ℕ) : Piece :=
  (c.upd bh fun b =>
    { b with bData := splice b.bData w.offset (w.buf.take chars), bDirt := true, stored := true },
   .call
    (.write { w with
      pos := w.pos + chars, block := w.block + 1, offset := 0, written := w.written + chars
      buf := w.buf.drop chars })
    (.cache (.brelse bh)))

/-- The head of the loop of `block_read`. -/
def blockRead (blkSize : BlkSize) (r : BlockRead) : Next Frame Value Panic :=
  if r.count = 0 then .goto (.user (some (.read r.read r.got)))
  else if r.block ≥ size blkSize r.dev then .goto (readFail r)
  else
    .call (.readGot r (min (BLOCK_SIZE - r.offset) r.count))
      (.cache (.breada r.dev (blockNr r.block) (ahead r.block)))

/-- The rest of the loop of `block_read`, with the buffer `bh`. -/
def blockReadCopy (c : Cache Block) (r : BlockRead) (chars bh : ℕ) : Piece :=
  (c, .call
    (.read { r with
      pos := r.pos + chars, block := r.block + 1, offset := 0, read := r.read + chars
      count := r.count - chars, got := r.got ++ slice (c.heads bh).bData r.offset chars })
    (.cache (.brelse bh)))

/-- The calls that `sys_write`, `sys_read` and others make for a task. -/
def execUser (last : Option Result) : Choice → Option (Next Frame Value Panic)
  | .blockWrite dev pos buf => some <| .goto <| .write
    { dev := dev, pos := pos, block := pos >>> BLOCK_SIZE_BITS, offset := pos % BLOCK_SIZE
      written := 0, buf := buf }
  | .blockRead dev pos count => some <| .goto <| .read
    { dev := dev, pos := pos, block := pos >>> BLOCK_SIZE_BITS, offset := pos % BLOCK_SIZE
      read := 0, count := count, got := [] }
  | .syncDev dev => some (.call (.user last) (.cache (.syncDev dev false 0)))
  | .cache _ => none

def run (blkSize : BlkSize) (c : Cache Block) (ch : Choice) : Frame → Option Piece
  | .cache f =>
    match ch with
    | .cache ch => (exec c ch f).map fun r => (r.1, r.2.map .cache)
    | _ => none
  | .user last => (execUser last ch).map fun nx => (c, nx)
  | .write w => some (c, blockWrite blkSize w)
  | .writeGot .. => none
  | .writeStore w chars bh => some (blockWriteStore c w chars bh)
  | .read r => some (c, blockRead blkSize r)
  | .readGot .. => none
  | .readCopy r chars bh => some (blockReadCopy c r chars bh)

/-- The bytes that a piece of code stores into a device. -/
def stores (c : Cache Block) (ch : Choice) : Frame → Option (Dev × ℕ × List UInt8)
  | .writeStore w chars _ => some (w.dev, w.pos, w.buf.take chars)
  | .cache (.code _) =>
    match ch with
    | .cache (.store bh data) =>
      some (c.dev bh, (c.blk bh).toNat * BLOCK_SIZE, slice data 0 BLOCK_SIZE)
    | _ => none
  | _ => none

def record (bytes : Dev → ℕ → UInt8) : Option (Dev × ℕ × List UInt8) → Dev → ℕ → UInt8
  | none => bytes
  | some (dev, pos, l) => update bytes dev (splice (bytes dev) pos l)

def resume : Frame → Value → Option Frame
  | .cache f, v => (Buffer.resume f v).map .cache
  | .user last, none => some (.user last)
  | .write w, none => some (.write w)
  | .writeGot w chars, some bh => some (.writeStore w chars bh)
  | .writeGot w _, none => some (writeFail w)
  | .read r, none => some (.read r)
  | .readGot r chars, some bh => some (.readCopy r chars bh)
  | .readGot r _, none => some (readFail r)
  | _, _ => none

variable (n : ℕ) (blkSize : BlkSize)

def program : Program n Sys Frame Value Choice (EndRequest Block) Panic where
  exec _ ch f s := (run blkSize s.cache ch f).map fun r =>
    (⟨r.1, record s.bytes (stores s.cache ch f)⟩, r.2)
  resume := resume
  user
    | .user _ => true
    | .cache (.code _) => true
    | _ => false
  intr e s := (endRequest e s.cache).map fun c => { s with cache := c }

/-- The bytes of a disk. -/
def diskBytes (disk : Dev → BlockNr → Block) (dev : Dev) (p : ℕ) : UInt8 :=
  disk dev (blockNr (p / BLOCK_SIZE)) (p % BLOCK_SIZE)

/-- Every task is between two calls, or runs code of the kernel that holds no buffer. -/
def initial (kernel : Fin n → Bool) (c : Cache Block) : State n Sys Frame Panic where
  shared := ⟨c, diskBytes c.disk⟩
  stack t := if kernel t then [.cache (.code [])] else [.user none]
  cpu := none
  panicked := none

end Linux012.BlockDev
