import Mathlib.Logic.Function.Basic
import Mathlib.Data.Nat.Notation

/-! # Buffer heads, hash queues and the free list

The buffer cache of `fs/buffer.c`. Buffer heads are numbered by their distance from
`start_buffer` and pointers to them are such numbers. The block contents are of an
arbitrary type, and `disk` is what the drivers hold.
-/

namespace Linux012.Buffer

open Function

abbrev Dev := BitVec 16
abbrev BlockNr := BitVec 32

def NR_HASH : ℕ := 307
def NR_REQUEST : ℕ := 32
def BLOCK_SIZE : ℕ := 1024

/-- `sizeof (struct buffer_head)` on the i386. -/
def sizeofBufferHead : ℕ := 36

inductive Rw | read | write | reada | writea
  deriving DecidableEq, Repr

structure BufferHead (D : Type*) where
  bData : D
  bBlocknr : BlockNr
  bDev : Dev
  bUptodate : Bool
  bDirt : Bool
  bCount : ℕ
  bLock : Bool
  bPrev : Option ℕ
  bNext : Option ℕ
  bPrevFree : Option ℕ
  bNextFree : Option ℕ
  /-- Bytes were stored that have not reached the disk (not in the source). -/
  stored : Bool

/-- An entry of the request array in use. -/
structure Request where
  dev : Dev
  cmd : Rw
  block : BlockNr
  bh : ℕ
  deriving DecidableEq

structure Cache (D : Type*) where
  nrBuffers : ℕ
  heads : ℕ → BufferHead D
  hashTable : ℕ → Option ℕ
  freeList : ℕ
  request : ℕ → Option Request
  requestFn : ℕ → Bool
  disk : Dev → BlockNr → D

variable {D : Type*}

inductive Panic
  | freeBlockListCorrupted
  | freeFreeBuffer
  | getblkReturnedNull
  deriving DecidableEq

namespace Cache

def next (c : Cache D) (i : ℕ) : Option ℕ := (c.heads i).bNext
def prev (c : Cache D) (i : ℕ) : Option ℕ := (c.heads i).bPrev
def nextFree (c : Cache D) (i : ℕ) : Option ℕ := (c.heads i).bNextFree
def prevFree (c : Cache D) (i : ℕ) : Option ℕ := (c.heads i).bPrevFree
def dev (c : Cache D) (i : ℕ) : Dev := (c.heads i).bDev
def blk (c : Cache D) (i : ℕ) : BlockNr := (c.heads i).bBlocknr

/-- Change the fields of one buffer head. -/
def upd (c : Cache D) (i : ℕ) (f : BufferHead D → BufferHead D) : Cache D :=
  { c with heads := update c.heads i (f (c.heads i)) }

/-- Store through a pointer; a store through a null pointer is dropped. -/
def updAt (c : Cache D) (i : Option ℕ) (f : BufferHead D → BufferHead D) : Cache D :=
  match i with
  | none => c
  | some i => c.upd i f

def setNext (c : Cache D) (i v : Option ℕ) : Cache D := c.updAt i fun b => { b with bNext := v }
def setPrev (c : Cache D) (i v : Option ℕ) : Cache D := c.updAt i fun b => { b with bPrev := v }
def setNextFree (c : Cache D) (i v : Option ℕ) : Cache D :=
  c.updAt i fun b => { b with bNextFree := v }
def setPrevFree (c : Cache D) (i v : Option ℕ) : Cache D :=
  c.updAt i fun b => { b with bPrevFree := v }
def setHash (c : Cache D) (k : ℕ) (v : Option ℕ) : Cache D :=
  { c with hashTable := update c.hashTable k v }

end Cache

open Cache

def hashfn (dev : Dev) (block : BlockNr) : ℕ :=
  (dev.setWidth 32 ^^^ block).toNat % NR_HASH

def badness (b : BufferHead D) : ℕ := b.bDirt.toNat <<< 1 + b.bLock.toNat

/-- `none` is the panic for a corrupted free list. -/
def removeFromQueues (c : Cache D) (bh : ℕ) : Option (Cache D) :=
  -- remove from hash-queue
  let c := c.setPrev (c.next bh) (c.prev bh)
  let c := c.setNext (c.prev bh) (c.next bh)
  let k := hashfn (c.dev bh) (c.blk bh)
  let c := if c.hashTable k = some bh then c.setHash k (c.next bh) else c
  -- remove from free list
  match c.prevFree bh, c.nextFree bh with
  | some _, some n =>
    let c := c.setNextFree (c.prevFree bh) (c.nextFree bh)
    let c := c.setPrevFree (c.nextFree bh) (c.prevFree bh)
    some (if c.freeList = bh then { c with freeList := n } else c)
  | _, _ => none

def insertIntoQueues (c : Cache D) (bh : ℕ) : Cache D :=
  -- put at end of free list
  let c := c.setNextFree (some bh) (some c.freeList)
  let c := c.setPrevFree (some bh) (c.prevFree c.freeList)
  let c := c.setNextFree (c.prevFree c.freeList) (some bh)
  let c := c.setPrevFree (some c.freeList) (some bh)
  -- put the buffer in new hash-queue if it has a device
  let c := c.setPrev (some bh) none
  let c := c.setNext (some bh) none
  if c.dev bh = 0 then c else
  let k := hashfn (c.dev bh) (c.blk bh)
  let c := c.setNext (some bh) (c.hashTable k)
  let c := c.setHash k (some bh)
  c.setPrev (c.next bh) (some bh)

/-- Walk a hash chain; a chain of the cache has at most `fuel = nrBuffers` heads. -/
def findFrom (c : Cache D) (dev : Dev) (block : BlockNr) : ℕ → Option ℕ → Option ℕ
  | _, none => none
  | 0, some _ => none
  | fuel + 1, some tmp =>
    if c.dev tmp = dev ∧ c.blk tmp = block then some tmp
    else findFrom c dev block fuel (c.next tmp)

def findBuffer (c : Cache D) (dev : Dev) (block : BlockNr) : Option ℕ :=
  findFrom c dev block c.nrBuffers (c.hashTable (hashfn dev block))

/-- The `do … while` scan of the free list in `getblk`, at `tmp` with candidate `bh`. -/
def scanFree (c : Cache D) : ℕ → ℕ → Option ℕ → Option ℕ
  | 0, _, bh => bh
  | fuel + 1, tmp, bh =>
    let better := match bh with
      | none => true
      | some b => badness (c.heads tmp) < badness (c.heads b)
    let continued (bh : Option ℕ) := match c.nextFree tmp with
      | none => bh
      | some n => if n = c.freeList then bh else scanFree c fuel n bh
    if (c.heads tmp).bCount ≠ 0 then continued bh
    else if better then
      if badness (c.heads tmp) = 0 then some tmp else continued (some tmp)
    else continued bh

/-- The end of `getblk`: make `bh` the buffer of another block. -/
def rekey (c : Cache D) (dev : Dev) (block : BlockNr) (bh : ℕ) : Option (Cache D) := do
  let c := c.upd bh fun b => { b with bCount := 1, bDirt := false, bUptodate := false }
  let c ← removeFromQueues c bh
  let c := c.upd bh fun b => { b with bDev := dev, bBlocknr := block, stored := false }
  return insertIntoQueues c bh

/-- `b_count` is an `unsigned char`. -/
def incCount (c : Cache D) (bh : ℕ) : Cache D :=
  c.upd bh fun b => { b with bCount := (b.bCount + 1) % 256 }

def decCount (c : Cache D) (bh : ℕ) : Cache D :=
  c.upd bh fun b => { b with bCount := (b.bCount + 255) % 256 }

/-! ## Initialisation -/

/-- What memory holds before `buffer_init` writes it. -/
structure Junk (D : Type*) where
  data : ℕ → D
  blocknr : ℕ → BlockNr

/-- The `while` loop of `buffer_init`: `b` is the address handed out last, `h` the number of
the next head. -/
def bufferInitLoop (startBuffer : ℕ) (junk : Junk D) : ℕ → ℕ → Cache D → Cache D
  | 0, _, c => c
  | fuel + 1, b, c =>
    let h := c.nrBuffers
    if BLOCK_SIZE ≤ b ∧ startBuffer + sizeofBufferHead * (h + 1) ≤ b - BLOCK_SIZE then
      let b := b - BLOCK_SIZE
      let c := c.upd h fun _ =>
        { bData := junk.data b, bBlocknr := junk.blocknr h, bDev := 0, bUptodate := false,
          bDirt := false, bCount := 0, bLock := false, bPrev := none, bNext := none,
          bPrevFree := some (h - 1), bNextFree := some (h + 1), stored := false }
      let c := { c with nrBuffers := h + 1 }
      bufferInitLoop startBuffer junk fuel (if b = 0x100000 then 0xA0000 else b) c
    else c

def emptyHead (junk : Junk D) : BufferHead D :=
  { bData := junk.data 0, bBlocknr := junk.blocknr 0, bDev := 0, bUptodate := false,
    bDirt := false, bCount := 0, bLock := false, bPrev := none, bNext := none,
    bPrevFree := none, bNextFree := none, stored := false }

def bufferInit (startBuffer bufferEnd : ℕ) (junk : Junk D) (requestFn : ℕ → Bool)
    (disk : Dev → BlockNr → D) : Cache D :=
  let c : Cache D :=
    { nrBuffers := 0, heads := fun _ => emptyHead junk, hashTable := fun _ => some 0,
      freeList := 0, request := fun _ => none, requestFn := requestFn, disk := disk }
  let b := if bufferEnd = 1 <<< 20 then 640 * 1024 else bufferEnd
  let c := bufferInitLoop startBuffer junk bufferEnd b c
  let h := c.nrBuffers - 1
  let c := { c with freeList := 0 }
  let c := c.upd 0 fun b => { b with bPrevFree := some h }
  let c := c.upd h fun b => { b with bNextFree := some 0 }
  { c with hashTable := fun k => if k < NR_HASH then none else c.hashTable k }

end Linux012.Buffer
