import Linux012.Fs.Buffer.Recycle
import Linux012.Fs.FileDev.Truncate

/-! # Tasks that take and free blocks

`new_block` and `free_block` of `fs/bitmap.c`, `truncate`, `bmap` and `file_read`, run by several tasks on top
of the buffer cache. The buffers of the zone bitmaps are held as long as a device is mounted, so their
bits stand beside the cache. The bytes of a file are copied without a page fault.
-/

namespace Linux012.Tasks

open Function Splice Coop
open Buffer (Cache Dev BlockNr)
open FileDev (Block word setWord)

abbrev Key := Dev × BlockNr

structure Super where
  sNzones : UInt16
  sFirstdatazone : UInt16
  /-- The bits of the buffers of the zone bitmap. -/
  sZmap : ℕ → Option (ℕ → Bool)

structure Inode where
  iMode : BitVec 16
  iDev : Dev
  iZone : ℕ → ℕ

structure Sys where
  cache : Cache Block
  super : Dev → Option Super
  inode : ℕ → Inode
  /-- `f_pos` of the open files. -/
  fPos : ℕ → ℕ

/-- The super block without the contents of its blocks. -/
def Super.fs (sb : Super) : FileDev.Fs where
  sNzones := sb.sNzones.toNat
  sFirstdatazone := sb.sFirstdatazone.toNat
  sZmap := sb.sZmap
  blocks _ _ := 0

def Super.setBit (sb : Super) (i j : ℕ) : Super :=
  { sb with sZmap := (FileDev.setBit sb.fs i j).sZmap }

def Super.clearBit (sb : Super) (i j : ℕ) : Super :=
  { sb with sZmap := (FileDev.Truncate.clearBit sb.fs i j).sZmap }

/-- `get_super`, for super blocks that nobody locks. -/
def Sys.getSuper (s : Sys) (dev : Dev) : Option Super :=
  if dev = 0 then none else s.super dev

def Sys.updSuper (s : Sys) (dev : Dev) (f : Super → Super) : Sys :=
  { s with super := update s.super dev ((s.super dev).map f) }

def Sys.setZone (s : Sys) (inode k z : ℕ) : Sys :=
  let i := { s.inode inode with iZone := update (s.inode inode).iZone k z }
  { s with inode := update s.inode inode i }

inductive Panic
  | cache (q : Buffer.Panic)
  | newBlockDevice
  | newBlockSet
  | newBlockNull
  | newBlockCount
  | freeBlockDevice
  | freeBlockZone
  | bmapBig
  deriving DecidableEq

/-- A buffer or `NULL`, which also stands for no value, a block number, or another integer. -/
inductive Value
  | buffer (bh : Option ℕ)
  | block (nr : ℕ)
  | int (ret : ℤ)
  deriving DecidableEq

/-- The variables of `file_read`; `got` has been put into user space. -/
structure FileRead where
  inode : ℕ
  filp : ℕ
  count : ℕ
  left : ℕ
  got : List UInt8
  deriving DecidableEq

/-- `cache (code held)` is the rest of the kernel. `free` is `free_block`, `free_ind` or `free_dind`, by the
depth of the tree under the block. -/
inductive Frame
  | cache (f : Buffer.Frame)
  | newBlock (dev : Dev)
  | newBlockGot (dev : Dev) (j : ℕ)
  | newBlockNull
  | newBlockHas (dev : Dev) (j bh : ℕ)
  | newBlockEnd (j : ℕ)
  | freeBlock (dev : Dev) (block : BlockNr)
  | freeBlockWait (dev : Dev) (block : BlockNr) (bh : ℕ)
  | free (dev : Dev) (z depth : ℕ)
  | freeGot (dev : Dev) (z depth : ℕ)
  | freeLoop (dev : Dev) (z depth bh i : ℕ) (busy : Bool)
  | freeNext (dev : Dev) (z depth bh i : ℕ) (busy : Bool)
  | freeFreed (dev : Dev) (z depth bh i : ℕ) (busy ok : Bool)
  | freeEnd (dev : Dev) (z : ℕ) (busy : Bool)
  | truncate (inode : ℕ)
  | truncateLoop (inode i : ℕ) (busy : Bool)
  | truncateNext (inode i : ℕ) (busy : Bool)
  | truncateFreed (inode i : ℕ) (busy ok : Bool)
  | bmap (inode block : ℕ)
  | bmapTable (dev : Dev) (z : ℕ) (path : List ℕ)
  | bmapGot (dev : Dev) (k : ℕ) (path : List ℕ)
  | bmapEntry (dev : Dev) (k : ℕ) (path : List ℕ) (bh : ℕ)
  | fileRead (r : FileRead)
  | fileReadNr (r : FileRead)
  | fileReadZone (r : FileRead) (nr : ℕ)
  | fileReadGot (r : FileRead)
  | fileReadCopy (r : FileRead) (bh : ℕ)
  | fileReadEnd (r : FileRead)
  deriving DecidableEq

/-- What the rest of the kernel does next. -/
inductive Choice
  | cache (ch : Buffer.Choice Block)
  | newBlock (dev : Dev)
  | freeBlock (dev : Dev) (block : BlockNr)
  | truncate (inode : ℕ)
  | bmap (inode block : ℕ)
  | fileRead (inode filp : ℕ) (count : ℤ)
  | setZone (inode k z : ℕ)
  | seek (filp pos : ℕ)

abbrev Piece := Sys × Next Frame Value Panic

def blockNr (z : ℕ) : BlockNr := BitVec.ofNat 32 z

/-- A call of `bread` or `getblk`. -/
def bread (dev : Dev) (z : ℕ) : Frame := .cache (.bread dev (blockNr z))

def brelse (bh : ℕ) : Frame := .cache (.brelse bh)

/-- The end of a piece of the cache's code. -/
def lift : Next Buffer.Frame Buffer.Value Buffer.Panic → Next Frame Value Panic
  | .goto f => .goto (.cache f)
  | .sleep f => .sleep (.cache f)
  | .call f g => .call (.cache f) (.cache g)
  | .ret v => .ret (.buffer v)
  | .panic q => .panic (.cache q)

def execCache (s : Sys) (ch : Buffer.Choice Block) (f : Buffer.Frame) : Option Piece :=
  (Buffer.exec s.cache ch f).map fun r => ({ s with cache := r.1 }, lift r.2)

def execCode (s : Sys) (held : List ℕ) : Choice → Option Piece
  | .cache ch => execCache s ch (.code held)
  | .newBlock dev => some (s, .call (.cache (.code held)) (.newBlock dev))
  | .freeBlock dev block => some (s, .call (.cache (.code held)) (.freeBlock dev block))
  | .truncate inode => some (s, .call (.cache (.code held)) (.truncate inode))
  | .bmap inode block => some (s, .call (.cache (.code held)) (.bmap inode block))
  | .fileRead inode filp count =>
    some (s, if count ≤ 0 then .goto (.cache (.code held)) else
      .call (.cache (.code held)) (.fileRead
        { inode := inode, filp := filp, count := count.toNat, left := count.toNat, got := [] }))
  | .setZone inode k z => some (s.setZone inode k z, .goto (.cache (.code held)))
  | .seek filp pos =>
    some ({ s with fPos := update s.fPos filp pos }, .goto (.cache (.code held)))

/-- `new_block` up to its call of `getblk`. -/
def newBlock (s : Sys) (dev : Dev) : Piece :=
  match s.getSuper dev with
  | none => (s, .panic .newBlockDevice)
  | some sb =>
    match FileDev.scanZmap sb.fs 8 0 with
    | none => (s, .ret (.block 0))
    | some (i, j) =>
      if (sb.sZmap i).any fun b => b j then (s, .panic .newBlockSet)
      else
        let s := s.updSuper dev fun sb => sb.setBit i j
        let j := j + i * 8192 + sb.sFirstdatazone.toNat - 1
        if j ≥ sb.sNzones.toNat then (s, .ret (.block 0))
        else (s, .call (.newBlockGot dev j) (.cache (.getblk dev (blockNr j))))

/-- The rest of `new_block`, with the buffer `bh`. -/
def newBlockHas (s : Sys) (j bh : ℕ) : Piece :=
  if (s.cache.heads bh).bCount ≠ 1 then (s, .panic .newBlockCount)
  else
    ({ s with cache := s.cache.upd bh fun b =>
        { b with bData := fun _ => 0, bUptodate := true, bDirt := true, stored := true } },
      .call (.newBlockEnd j) (brelse bh))

/-- The end of `free_block`. -/
def freeZone (s : Sys) (dev : Dev) (block : BlockNr) : Piece :=
  (s.updSuper dev fun sb =>
    let bit := block.toNat + 1 - sb.sFirstdatazone.toNat
    sb.clearBit (bit / 8192) (bit % 8192), .ret (.int 1))

/-- `free_block` up to the point where `get_hash_table` has a reference. -/
def freeBlock (s : Sys) (dev : Dev) (block : BlockNr) : Piece :=
  match s.getSuper dev with
  | none => (s, .panic .freeBlockDevice)
  | some sb =>
    if block.toNat < sb.sFirstdatazone.toNat ∨ block.toNat ≥ sb.sNzones.toNat then
      (s, .panic .freeBlockZone)
    else
      match Buffer.findBuffer s.cache dev block with
      | none => freeZone s dev block
      | some bh =>
        ({ s with cache := Buffer.incCount s.cache bh }, .goto (.freeBlockWait dev block bh))

/-- The rest of `get_hash_table` and of `free_block`, whose `brelse` finds the buffer unlocked. -/
def freeBlockWait (s : Sys) (dev : Dev) (block : BlockNr) (bh : ℕ) : Piece :=
  if (s.cache.heads bh).bLock then (s, .sleep (.freeBlockWait dev block bh))
  else if ¬ (s.cache.dev bh = dev ∧ s.cache.blk bh = block) then
    ({ s with cache := Buffer.decCount s.cache bh }, .goto (.freeBlock dev block))
  else if (s.cache.heads bh).bCount > 1 then
    ({ s with cache := Buffer.decCount s.cache bh }, .ret (.int 0))
  else
    let c := s.cache.upd bh fun b => { b with bDirt := false, bUptodate := false }
    let c := if (c.heads bh).bCount ≠ 0 then Buffer.decCount c bh else c
    freeZone { s with cache := c } dev block

/-- `free_block`, `free_ind` and `free_dind` up to the loop over the words of the block. -/
def free (dev : Dev) (z : ℕ) : ℕ → Next Frame Value Panic
  | 0 => .goto (.freeBlock dev (blockNr z))
  | depth + 1 =>
    if z = 0 then .ret (.int 1) else .call (.freeGot dev z depth) (bread dev z)

/-- The head of the loop, which frees the word `i` if it is not zero. -/
def freeLoop (s : Sys) (dev : Dev) (z depth bh i : ℕ) (busy : Bool) : Next Frame Value Panic :=
  if i < 512 then
    let p := word (s.cache.heads bh).bData i
    if p = 0 then .goto (.freeLoop dev z depth bh (i + 1) busy)
    else .call (.freeNext dev z depth bh i busy) (.free dev p depth)
  else .call (.freeEnd dev z busy) (brelse bh)

def freeFreed (s : Sys) (dev : Dev) (z depth bh i : ℕ) (busy ok : Bool) : Piece :=
  if ok then
    ({ s with cache := s.cache.upd bh fun b =>
        { b with bData := setWord b.bData i 0, bDirt := true, stored := true } },
      .goto (.freeLoop dev z depth bh (i + 1) busy))
  else (s, .goto (.freeLoop dev z depth bh (i + 1) true))

def truncate (s : Sys) (inode : ℕ) : Next Frame Value Panic :=
  let mode := (s.inode inode).iMode &&& Files.S_IFMT
  if mode = Files.S_IFREG ∨ mode = Files.S_IFDIR ∨ mode = Files.S_IFLNK then
    .goto (.truncateLoop inode 0 false)
  else .ret (.buffer none)

/-- A round of `truncate`, from `i_zone[i]` on. -/
def truncateLoop (s : Sys) (inode i : ℕ) (busy : Bool) : Next Frame Value Panic :=
  let z := (s.inode inode).iZone i
  let dev := (s.inode inode).iDev
  if i < 7 then
    if z = 0 then .goto (.truncateLoop inode (i + 1) busy)
    else .call (.truncateNext inode i busy) (.free dev z 0)
  else if i < 9 then .call (.truncateNext inode i busy) (.free dev z (i - 6))
  -- `schedule`, after which everything is tried again
  else if busy then .sleep (.truncateLoop inode 0 false)
  else .ret (.buffer none)

def truncateFreed (s : Sys) (inode i : ℕ) (busy ok : Bool) : Piece :=
  if ok then (s.setZone inode i 0, .goto (.truncateLoop inode (i + 1) busy))
  else (s, .goto (.truncateLoop inode (i + 1) true))

/-- `bmap`: a zone of the inode, and the words to follow from it. -/
def bmap (s : Sys) (inode block : ℕ) : Next Frame Value Panic :=
  let zone := (s.inode inode).iZone
  let dev := (s.inode inode).iDev
  if block ≥ FileDev.MAX_BLOCKS then .panic .bmapBig
  else if block < 7 then .goto (.bmapTable dev (zone block) [])
  else if block - 7 < 512 then .goto (.bmapTable dev (zone 7) [block - 7])
  else .goto (.bmapTable dev (zone 8) [(block - 7 - 512) / 512, (block - 7 - 512) % 512])

def bmapTable (dev : Dev) (z : ℕ) : List ℕ → Next Frame Value Panic
  | [] => .ret (.block z)
  | k :: path => if z = 0 then .ret (.block 0) else .call (.bmapGot dev k path) (bread dev z)

def bmapEntry (s : Sys) (dev : Dev) (k : ℕ) (path : List ℕ) (bh : ℕ) : Next Frame Value Panic :=
  .call (.bmapTable dev (word (s.cache.heads bh).bData k) path) (brelse bh)

/-- The head of the loop of `file_read`. -/
def fileRead (s : Sys) (r : FileRead) : Next Frame Value Panic :=
  if r.left = 0 then .goto (.fileReadEnd r)
  else .call (.fileReadNr r) (.bmap r.inode (s.fPos r.filp / FileDev.BLOCK_SIZE))

/-- The rest of the loop of `file_read`, with the contents of a block. -/
def fileReadCopy (s : Sys) (r : FileRead) (p : Block) : Sys × FileRead :=
  let nr := s.fPos r.filp % FileDev.BLOCK_SIZE
  let chars := min (FileDev.BLOCK_SIZE - nr) r.left
  ({ s with fPos := update s.fPos r.filp (s.fPos r.filp + chars) },
    { r with left := r.left - chars, got := r.got ++ slice p nr chars })

def fileReadZone (s : Sys) (r : FileRead) (nr : ℕ) : Piece :=
  if nr ≠ 0 then (s, .call (.fileReadGot r) (bread (s.inode r.inode).iDev nr))
  else
    let (s, r) := fileReadCopy s r fun _ => 0
    (s, .goto (.fileRead r))

def fileReadEnd (r : FileRead) : Next Frame Value Panic :=
  .ret (.int (if r.count - r.left ≠ 0 then ((r.count - r.left : ℕ) : ℤ) else - FileDev.ERROR))

/-- One uninterrupted piece of code. -/
def exec (s : Sys) (ch : Choice) : Frame → Option Piece
  | .cache (.code held) => execCode s held ch
  | .cache f => execCache s .done f
  | .newBlock dev => some (newBlock s dev)
  | .newBlockGot .. => none
  | .newBlockNull => some (s, .panic .newBlockNull)
  | .newBlockHas _ j bh => some (newBlockHas s j bh)
  | .newBlockEnd j => some (s, .ret (.block j))
  | .freeBlock dev block => some (freeBlock s dev block)
  | .freeBlockWait dev block bh => some (freeBlockWait s dev block bh)
  | .free dev z depth => some (s, free dev z depth)
  | .freeGot .. => none
  | .freeLoop dev z depth bh i busy => some (s, freeLoop s dev z depth bh i busy)
  | .freeNext .. => none
  | .freeFreed dev z depth bh i busy ok => some (freeFreed s dev z depth bh i busy ok)
  | .freeEnd dev z busy =>
    some (s, if busy then .ret (.int 0) else .goto (.freeBlock dev (blockNr z)))
  | .truncate inode => some (s, truncate s inode)
  | .truncateLoop inode i busy => some (s, truncateLoop s inode i busy)
  | .truncateNext .. => none
  | .truncateFreed inode i busy ok => some (truncateFreed s inode i busy ok)
  | .bmap inode block => some (s, bmap s inode block)
  | .bmapTable dev z path => some (s, bmapTable dev z path)
  | .bmapGot .. => none
  | .bmapEntry dev k path bh => some (s, bmapEntry s dev k path bh)
  | .fileRead r => some (s, fileRead s r)
  | .fileReadNr .. => none
  | .fileReadZone r nr => some (fileReadZone s r nr)
  | .fileReadGot .. => none
  | .fileReadCopy r bh =>
    let (s', r) := fileReadCopy s r (s.cache.heads bh).bData
    some (s', .call (.fileRead r) (brelse bh))
  | .fileReadEnd r => some (s, fileReadEnd r)

/-- How a frame goes on with the value returned to it. -/
def resume : Frame → Value → Option Frame
  | .cache f, .buffer v => (Buffer.resume f v).map .cache
  | .cache (.code held), _ => some (.cache (.code held))
  | .newBlockGot dev j, .buffer (some bh) => some (.newBlockHas dev j bh)
  | .newBlockGot _ _, .buffer none => some .newBlockNull
  | .newBlockEnd j, .buffer none => some (.newBlockEnd j)
  | .freeGot dev z depth, .buffer (some bh) => some (.freeLoop dev z depth bh 0 false)
  | .freeGot dev z _, .buffer none => some (.freeEnd dev z false)
  | .freeNext dev z depth bh i busy, .int ok =>
    some (.freeFreed dev z depth bh i busy (ok ≠ 0))
  | .freeEnd dev z busy, .buffer none => some (.freeEnd dev z busy)
  | .truncateNext inode i busy, .int ok => some (.truncateFreed inode i busy (ok ≠ 0))
  | .bmapGot dev k path, .buffer (some bh) => some (.bmapEntry dev k path bh)
  | .bmapGot dev _ _, .buffer none => some (.bmapTable dev 0 [])
  | .bmapTable dev z path, .buffer none => some (.bmapTable dev z path)
  | .fileReadNr r, .block nr => some (.fileReadZone r nr)
  | .fileReadGot r, .buffer (some bh) => some (.fileReadCopy r bh)
  | .fileReadGot r, .buffer none => some (.fileReadEnd r)
  | .fileRead r, .buffer none => some (.fileRead r)
  | _, _ => none

variable (n : ℕ)

def program : Program n Sys Frame Value Choice (Buffer.EndRequest Block) Panic where
  exec _ ch f s := exec s ch f
  resume := resume
  user
    | .cache (.code _) => true
    | _ => false
  intr e s := (Buffer.endRequest e s.cache).map fun c => { s with cache := c }

/-- Every task runs code that holds no buffer yet. `read_super` has set the first bit of every zone
bitmap, which stands for no zone. -/
def initial (c : Cache Block) (super : Dev → Option Super) (inode : ℕ → Inode) (fPos : ℕ → ℕ) :
    State n Sys Frame Panic where
  shared := ⟨c, fun dev => (super dev).map fun sb => sb.setBit 0 0, inode, fPos⟩
  stack _ := [.cache (.code [])]
  cpu := none
  panicked := none

end Linux012.Tasks
