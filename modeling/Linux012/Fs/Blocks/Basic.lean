import Linux012.Lib.Scripts
import Linux012.Fs.Files.Basic
import Linux012.Fs.FileDev.Basic
import Linux012.Fs.BlockDev.Basic

/-! # The functions that use blocks

`fs/bitmap.c`, `fs/truncate.c`, `fs/file_dev.c` and `fs/block_dev.c`, and `_bmap`, `read_inode`,
`write_inode` and `sync_inodes` of `fs/inode.c`, as scripts over the buffer cache. A loop that has no bound or
that sleeps is a name of its own. Bytes are copied without a page fault, and a store outside a buffer or
through a null pointer is dropped.
-/

namespace Linux012.Blocks

open Function Scripts Splice Buffer
open FileDev (Block word setWord findFirstZero ERROR MAX_BLOCKS)

def NR_INODE : ℕ := 64
def NR_SUPER : ℕ := 8
def INODES_PER_BLOCK : ℕ := 32
def EIO : ℤ := 5

/-- `i_size`, `i_mtime` and so on to `i_zone` are on the disk as well. -/
structure MInode where
  iMode : BitVec 16
  iUid : BitVec 16
  iSize : BitVec 32
  iMtime : BitVec 32
  iGid : UInt8
  iNlinks : UInt8
  iZone : ℕ → BitVec 16
  iAtime : BitVec 32
  iCtime : BitVec 32
  iDev : Dev
  iNum : BitVec 16
  iLock : Bool
  iDirt : Bool
  iPipe : Bool

structure SuperBlock where
  sNzones : BitVec 16
  sImapBlocks : BitVec 16
  sZmapBlocks : BitVec 16
  sFirstdatazone : BitVec 16
  sZmap : ℕ → Option ℕ
  sDev : Dev
  sLock : Bool

structure File where
  fFlags : BitVec 16
  fPos : ℕ

/-- What the functions use besides the cache; `memory` is the memory of all user processes. -/
structure World where
  inodeTable : ℕ → MInode
  superBlock : ℕ → SuperBlock
  fileTable : ℕ → File
  blkSize : BlockDev.BlkSize
  memory : ℕ → UInt8
  currentTime : BitVec 32

structure Sys extends World where
  cache : Cache Block

/-- The variables of `block_read` and `block_write`; `done` is `read` or `written`. -/
structure BlockIo where
  dev : Dev
  filp : ℕ
  buf : ℕ
  count : ℤ
  block : ℕ
  offset : ℕ
  done : ℕ
  size : ℕ

/-- The functions, with their arguments, and their loops, with the variables. -/
inductive Fn
  | getSuper (dev : Dev) (i : ℕ)
  | getSuperWait (dev : Dev) (i : ℕ)
  | waitOnInode (inode : ℕ)
  | lockInode (inode : ℕ)
  | newBlock (dev : Dev)
  | freeBlock (dev : Dev) (block : ℤ)
  | _bmap (inode : ℕ) (block : ℤ) (create : Bool)
  | freeInd (dev : Dev) (block : ℕ)
  | freeDind (dev : Dev) (block : ℕ)
  | truncate (inode : ℕ)
  | truncateRepeat (inode : ℕ)
  | fileRead (inode filp buf : ℕ) (count : ℤ)
  | fileReadLoop (inode filp buf : ℕ) (count : ℤ) (left : ℕ)
  | fileWrite (inode filp buf : ℕ) (count : ℤ)
  | fileWriteLoop (inode filp buf : ℕ) (count pos i : ℤ)
  | blockRead (dev : Dev) (filp buf : ℕ) (count : ℤ)
  | blockReadLoop (r : BlockIo)
  | blockWrite (dev : Dev) (filp buf : ℕ) (count : ℤ)
  | blockWriteLoop (w : BlockIo)
  | readInode (inode : ℕ)
  | writeInode (inode : ℕ)
  | syncInodes

inductive Callee
  | fn (f : Fn)
  | getblk (dev : Dev) (block : BlockNr)
  | getHashTable (dev : Dev) (block : BlockNr)
  | bread (dev : Dev) (block : BlockNr)
  | breadPage (dev : Dev) (b : List BlockNr)
  | breada (dev : Dev) (first : BlockNr) (rest : List BlockNr)
  | brelse (bh : ℕ)
  | syncDev (dev : Dev)

/-- A buffer is `none` for `NULL` and for no value. -/
inductive Value
  | buffer (bh : Option ℕ)
  | super (sb : Option ℕ)
  | int (i : ℤ)

namespace Value

def void : Value := .buffer none

def toBuffer : Value → Option ℕ
  | .buffer bh => bh
  | _ => none

def toSuper : Value → Option ℕ
  | .super sb => sb
  | _ => none

def toInt : Value → ℤ
  | .int i => i
  | _ => 0

end Value

inductive Panic
  | freeBlockNonexistent
  | freeBlockNotInDatazone
  | newBlockNonexistent
  | newBlockBitSet
  | newBlockCannotGet
  | newBlockCount
  | bmapNegative
  | bmapBig
  | readInodeNoDev
  | readInodeUnable
  | writeInodeNoDev
  | writeInodeUnable
  deriving DecidableEq

abbrev Code := Script Sys Callee Value Panic

/-! ## The state -/

def bit (b : Block) (k : ℕ) : Bool := (b (k / 8)).toNat.testBit (k % 8)

def setBit (b : Block) (k : ℕ) : Block :=
  update b (k / 8) (b (k / 8) ||| 1 <<< UInt8.ofNat (k % 8))

def clearBit (b : Block) (k : ℕ) : Block :=
  update b (k / 8) (b (k / 8) &&& ~~~(1 <<< UInt8.ofNat (k % 8)))

def le16 (x : BitVec 16) : List UInt8 := [.ofNat x.toNat, .ofNat (x.toNat / 256)]

def le32 (x : BitVec 32) : List UInt8 := le16 (x.setWidth 16) ++ le16 ((x >>> 16).setWidth 16)

namespace MInode

/-- The inode with the entry `k` of a block of inodes -/
def read (x : MInode) (b : Block) (k : ℕ) : MInode :=
  let w i : BitVec 16 := .ofNat 16 (word b (16 * k + i))
  { x with
    iMode := w 0
    iUid := w 1
    iSize := w 3 ++ w 2
    iMtime := w 5 ++ w 4
    iGid := b (32 * k + 12)
    iNlinks := b (32 * k + 13)
    iZone := fun i => if i < 9 then w (7 + i) else x.iZone i }

def bytes (x : MInode) : List UInt8 :=
  le16 x.iMode ++ le16 x.iUid ++ le32 x.iSize ++ le32 x.iMtime ++ [x.iGid, x.iNlinks] ++
    (List.range 9).flatMap fun i => le16 (x.iZone i)

def isReg (x : MInode) : Bool := x.iMode &&& Files.S_IFMT = Files.S_IFREG
def isDir (x : MInode) : Bool := x.iMode &&& Files.S_IFMT = Files.S_IFDIR
def isLnk (x : MInode) : Bool := x.iMode &&& Files.S_IFMT = Files.S_IFLNK
def isBlk (x : MInode) : Bool := x.iMode &&& Files.S_IFMT = Files.S_IFBLK

/-- The index of the inode in its block -/
def index (x : MInode) : ℕ := ((x.iNum.setWidth 32 - 1 : BitVec 32) % 32).toNat

/-- The block that the inode is in -/
def block (x : MInode) (sb : SuperBlock) : BlockNr :=
  2 + sb.sImapBlocks.setWidth 32 + sb.sZmapBlocks.setWidth 32 + (x.iNum.setWidth 32 - 1) / 32

end MInode

def File.append (f : File) : Bool := f.fFlags &&& Files.O_APPEND.setWidth 16 ≠ 0

namespace Sys

variable (s : Sys)

def head (bh : ℕ) : BufferHead Block := s.cache.heads bh

def count (bh : ℕ) : ℕ := (s.head bh).bCount

def setInode (inode : ℕ) (g : MInode → MInode) : Sys :=
  { s with inodeTable := update s.inodeTable inode (g (s.inodeTable inode)) }

def setFile (filp : ℕ) (g : File → File) : Sys :=
  { s with fileTable := update s.fileTable filp (g (s.fileTable filp)) }

def setHead (bh : ℕ) (g : BufferHead Block → BufferHead Block) : Sys :=
  { s with cache := s.cache.upd bh g }

/-- Store into a buffer and mark it dirty. -/
def store (bh : ℕ) (g : Block → Block) : Sys :=
  s.setHead bh fun b => { b with bData := g b.bData, bDirt := true, stored := true }

def storeAt (bh : Option ℕ) (g : Block → Block) : Sys := bh.elim s fun bh => s.store bh g

def putFs (buf : ℕ) (l : List UInt8) : Sys := { s with memory := splice s.memory buf l }

/-- What `_bmap` does when it has got a block for `i_zone[k]`. -/
def setZone (inode k : ℕ) (z : BitVec 16) : Sys :=
  s.setInode inode fun x =>
    let x := { x with iZone := update x.iZone k z }
    if z ≠ 0 then { x with iCtime := s.currentTime, iDirt := true } else x

/-- The end of `free_block` -/
def clearZone (sb : ℕ) (block : ℤ) : Sys :=
  let x := s.superBlock sb
  let block := (block - (x.sFirstdatazone.toNat - 1)).toNat
  s.storeAt (x.sZmap (block / 8192)) fun b => clearBit b (block % 8192)

/-- The loop of `new_block` over the buffers of the zone bitmap: the number of the first buffer with a
zero bit, the buffer and the bit -/
def scanZmap (sb : SuperBlock) : Option (ℕ × ℕ × ℕ) :=
  (List.range 8).findSome? fun i =>
    (sb.sZmap i).bind fun bh =>
      (findFirstZero (bit (s.head bh).bData) 8192 0).map fun j => (i, bh, j)

/-- `i_size` of a block special inode -/
def deviceSize (i : BitVec 16) : BitVec 32 :=
  match s.blkSize (major i) with
  | some sizes => .ofNat 32 (1024 * sizes (i.toNat % 256))
  | none => 0x7fffffff

end Sys

/-! ## Calls -/

def getSuper (dev : Dev) : Code (Option ℕ) := .calls (.fn (.getSuper dev 0)) Value.toSuper

def callInt (f : Fn) : Code ℤ := .calls (.fn f) Value.toInt

def callVoid (f : Fn) : Code Unit := .calls (.fn f) fun _ => ()

def getblk (dev : Dev) (block : BlockNr) : Code (Option ℕ) := .calls (.getblk dev block) Value.toBuffer

def getHashTable (dev : Dev) (block : BlockNr) : Code (Option ℕ) :=
  .calls (.getHashTable dev block) Value.toBuffer

def bread (dev : Dev) (block : BlockNr) : Code (Option ℕ) := .calls (.bread dev block) Value.toBuffer

def breada (dev : Dev) (first : BlockNr) (rest : List BlockNr) : Code (Option ℕ) :=
  .calls (.breada dev first rest) Value.toBuffer

def brelse (bh : ℕ) : Code Unit := .calls (.brelse bh) fun _ => ()

def inodeAt (inode : ℕ) : Code MInode := .reads fun s => s.inodeTable inode

def superAt (sb : ℕ) : Code SuperBlock := .reads fun s => s.superBlock sb

def fileAt (filp : ℕ) : Code File := .reads fun s => s.fileTable filp

def countAt (bh : ℕ) : Code ℕ := .reads fun s => s.count bh

def wordAt (bh k : ℕ) : Code ℕ := .reads fun s => word (s.head bh).bData k

/-! ## `fs/super.c` and the locks of inodes -/

/-- `get_super` from the entry `i` on -/
def getSuperFrom (dev : Dev) (i : ℕ) : Code (Option ℕ) :=
  if dev = 0 then return none
  else if i < NR_SUPER then do
    let sb ← superAt i
    if sb.sDev = dev then .goto (.fn (.getSuperWait dev i)) else .goto (.fn (.getSuper dev (i + 1)))
  else return none

/-- `wait_on_super` in `get_super`, and the second look -/
def getSuperWait (dev : Dev) (i : ℕ) : Code (Option ℕ) := do
  let sb ← superAt i
  if sb.sLock then do
    .pause
    .goto (.fn (.getSuperWait dev i))
  else if sb.sDev = dev then return some i
  else .goto (.fn (.getSuper dev 0))

def waitOnInode (inode : ℕ) : Code Unit := do
  let x ← inodeAt inode
  if x.iLock then do
    .pause
    .goto (.fn (.waitOnInode inode))
  else return ()

def lockInode (inode : ℕ) : Code Unit := do
  let x ← inodeAt inode
  if x.iLock then do
    .pause
    .goto (.fn (.lockInode inode))
  else .modifies fun s => s.setInode inode fun x => { x with iLock := true }

def unlockInode (inode : ℕ) : Code Unit :=
  .modifies fun s => s.setInode inode fun x => { x with iLock := false }

/-! ## `fs/bitmap.c` -/

/-- `new_block` from where it has set a bit; the block has the number `j`. -/
def newBlockGot (dev : Dev) (j : ℤ) : Code ℤ := do
  match ← getblk dev (.ofInt 32 j) with
  | none => .panic .newBlockCannotGet
  | some bh =>
    let count ← countAt bh
    if count ≠ 1 then .panic .newBlockCount
    else do
      .modifies fun s => s.setHead bh fun b =>
        { b with bData := fun _ => 0, bUptodate := true, bDirt := true, stored := true }
      brelse bh
      return j

def newBlock (dev : Dev) : Code ℤ := do
  match ← getSuper dev with
  | none => .panic .newBlockNonexistent
  | some sb =>
    let found ← .reads fun s => s.scanZmap (s.superBlock sb)
    match found with
    | none => return 0
    | some (i, bh, j) =>
      let isSet ← .reads fun s => bit (s.head bh).bData j
      if isSet then .panic .newBlockBitSet
      else do
        .modifies fun s => s.store bh fun b => setBit b j
        let x ← superAt sb
        let j : ℤ := j + i * 8192 + x.sFirstdatazone.toNat - 1
        if j ≥ x.sNzones.toNat then return 0 else newBlockGot dev j

/-- `free_block` from where the buffer of the block is released -/
def freeBlockEnd (sb : ℕ) (block : ℤ) : Code ℤ := do
  .modifies fun s => s.clearZone sb block
  return 1

/-- `free_block` when `bh` is the buffer of the block -/
def freeBlockGot (sb : ℕ) (block : ℤ) (bh : ℕ) : Code ℤ := do
  let count ← countAt bh
  if count > 1 then do
    brelse bh
    return 0
  else do
    .modifies fun s => s.setHead bh fun b => { b with bDirt := false, bUptodate := false }
    let count ← countAt bh
    if count ≠ 0 then do
      brelse bh
      freeBlockEnd sb block
    else freeBlockEnd sb block

def freeBlock (dev : Dev) (block : ℤ) : Code ℤ := do
  match ← getSuper dev with
  | none => .panic .freeBlockNonexistent
  | some sb =>
    let x ← superAt sb
    if block < x.sFirstdatazone.toNat ∨ block ≥ x.sNzones.toNat then .panic .freeBlockNotInDatazone
    else
      match ← getHashTable dev (.ofInt 32 block) with
      | none => freeBlockEnd sb block
      | some bh => freeBlockGot sb block bh

/-! ## `fs/inode.c` -/

/-- `_bmap` gets `i_zone[k]`. -/
def zone (inode k : ℕ) (create : Bool) : Code ℕ := do
  let x ← inodeAt inode
  if create ∧ x.iZone k = 0 then do
    let nr ← callInt (.newBlock x.iDev)
    .modifies fun s => s.setZone inode k (.ofInt 16 nr)
    return (BitVec.ofInt 16 nr).toNat
  else return (x.iZone k).toNat

/-- `_bmap` gets a block for the entry `k` of the indirect block in `bh`. -/
def newEntry (inode bh k : ℕ) : Code ℤ := do
  let x ← inodeAt inode
  let i ← callInt (.newBlock x.iDev)
  if i ≠ 0 then do
    .modifies fun s => s.store bh fun b => setWord b k (BitVec.ofInt 16 i).toNat
    return i
  else return 0

/-- The entry `k` of the indirect block in `bh`, which is `i` -/
def fillEntry (inode bh k : ℕ) (create : Bool) (i : ℕ) : Code ℤ :=
  if create ∧ i = 0 then newEntry inode bh k else return i

/-- `_bmap` gets the entry `k` of the indirect block `z`. -/
def entry (inode : ℕ) (z : ℤ) (k : ℕ) (create : Bool) : Code ℤ := do
  let x ← inodeAt inode
  match ← bread x.iDev (.ofInt 32 z) with
  | none => return 0
  | some bh =>
    let i ← wordAt bh k
    let i ← fillEntry inode bh k create i
    brelse bh
    return i

def _bmap (inode : ℕ) (block : ℤ) (create : Bool) : Code ℤ :=
  if block < 0 then .panic .bmapNegative
  else if block ≥ MAX_BLOCKS then .panic .bmapBig
  else if block < 7 then do
    let z ← zone inode block.toNat create
    return z
  else
    let block := (block - 7).toNat
    if block < 512 then do
      let z ← zone inode 7 create
      if z = 0 then return 0 else entry inode z block create
    else do
      let block := block - 512
      let z ← zone inode 8 create
      if z = 0 then return 0
      else do
        let i ← entry inode z (block / 512) create
        if i = 0 then return 0 else entry inode i (block % 512) create

def bmap (inode : ℕ) (block : ℤ) : Code ℤ := callInt (._bmap inode block false)

def createBlock (inode : ℕ) (block : ℤ) : Code ℤ := callInt (._bmap inode block true)

def readInode (inode : ℕ) : Code Unit := do
  callVoid (.lockInode inode)
  let x ← inodeAt inode
  match ← getSuper x.iDev with
  | none => .panic .readInodeNoDev
  | some sb =>
    let x ← inodeAt inode
    let sb ← superAt sb
    match ← bread x.iDev (x.block sb) with
    | none => .panic .readInodeUnable
    | some bh =>
      .modifies fun s => s.setInode inode fun x => x.read (s.head bh).bData x.index
      brelse bh
      .modifies fun s => s.setInode inode fun x =>
        if x.isBlk then { x with iSize := s.deviceSize (x.iZone 0) } else x
      unlockInode inode

def writeInode (inode : ℕ) : Code Unit := do
  callVoid (.lockInode inode)
  let x ← inodeAt inode
  if ¬ x.iDirt ∨ x.iDev = 0 then unlockInode inode
  else
    match ← getSuper x.iDev with
    | none => .panic .writeInodeNoDev
    | some sb =>
      let x ← inodeAt inode
      let sb ← superAt sb
      match ← bread x.iDev (x.block sb) with
      | none => .panic .writeInodeUnable
      | some bh =>
        let x ← inodeAt inode
        .modifies fun s => s.store bh fun b => splice b (32 * x.index) x.bytes
        .modifies fun s => s.setInode inode fun x => { x with iDirt := false }
        brelse bh
        unlockInode inode

/-- The loop of `sync_inodes` at the inode `inode` -/
def syncInode (_ : Unit) (inode : ℕ) : Code Unit := do
  callVoid (.waitOnInode inode)
  let x ← inodeAt inode
  if x.iDirt ∧ ¬ x.iPipe then callVoid (.writeInode inode) else return ()

def syncInodes : Code Unit := (List.range NR_INODE).foldlM syncInode ()

/-! ## `fs/truncate.c` -/

/-- The loops of `free_ind` and `free_dind` at the entry `i`; `busy` is `block_busy`. -/
def freeEntry (free : ℕ → Code ℤ) (bh : ℕ) (busy : Bool) (i : ℕ) : Code Bool := do
  let p ← wordAt bh i
  if p = 0 then return busy
  else do
    let freed ← free p
    if freed ≠ 0 then do
      .modifies fun s => s.store bh fun b => setWord b i 0
      return busy
    else return true

@[irreducible] def freeEntries (free : ℕ → Code ℤ) (bh : ℕ) : Code Bool :=
  (List.range 512).foldlM (freeEntry free bh) false

/-- `free_ind` and `free_dind` -/
def freeTable (free : ℕ → Code ℤ) (dev : Dev) (block : ℕ) : Code ℤ :=
  if block = 0 then return 1
  else do
    match ← bread dev (.ofNat 32 block) with
    | none => callInt (.freeBlock dev block)
    | some bh =>
      let busy ← freeEntries free bh
      brelse bh
      if busy then return 0 else callInt (.freeBlock dev block)

def freeInd (dev : Dev) (block : ℕ) : Code ℤ := freeTable (fun p => callInt (.freeBlock dev p)) dev block

def freeDind (dev : Dev) (block : ℕ) : Code ℤ := freeTable (fun p => callInt (.freeInd dev p)) dev block

/-- `truncate` frees `i_zone[k]`, unless there is none. -/
def freeZone (inode : ℕ) (free : Dev → ℕ → Fn) (k : ℕ) (busy : Bool) : Code Bool := do
  let x ← inodeAt inode
  let freed ← callInt (free x.iDev (x.iZone k).toNat)
  if freed ≠ 0 then do
    .modifies fun s => s.setInode inode fun x => { x with iZone := update x.iZone k 0 }
    return busy
  else return true

/-- The loop of `truncate` over the direct blocks at `i_zone[i]` -/
def freeDirect (inode : ℕ) (busy : Bool) (i : ℕ) : Code Bool := do
  let x ← inodeAt inode
  if x.iZone i = 0 then return busy else freeZone inode (fun dev z => .freeBlock dev z) i busy

def truncate (inode : ℕ) : Code Unit := do
  let x ← inodeAt inode
  if x.isReg ∨ x.isDir ∨ x.isLnk then .goto (.fn (.truncateRepeat inode)) else return ()

def truncateRepeat (inode : ℕ) : Code Unit := do
  let busy ← (List.range 7).foldlM (freeDirect inode) false
  let busy ← freeZone inode .freeInd 7 busy
  let busy ← freeZone inode .freeDind 8 busy
  .modifies fun s => s.setInode inode fun x => { x with iDirt := true }
  if busy then do
    -- `schedule`
    .pause
    .goto (.fn (.truncateRepeat inode))
  else .modifies fun s => s.setInode inode fun x =>
    { x with iSize := 0, iMtime := s.currentTime, iCtime := s.currentTime }

/-! ## `fs/file_dev.c` -/

def fileRead (inode filp buf : ℕ) (count : ℤ) : Code ℤ :=
  if count ≤ 0 then return 0 else .goto (.fn (.fileReadLoop inode filp buf count count.toNat))

def fileReadEnd (inode : ℕ) (count : ℤ) (left : ℕ) : Code ℤ := do
  .modifies fun s => s.setInode inode fun x => { x with iAtime := s.currentTime }
  return if count - left ≠ 0 then count - left else - ERROR

/-- One round of the loop that puts bytes of the block `b` into user space -/
def Sys.fileCopy (s : Sys) (filp buf left : ℕ) (b : Block) : Sys :=
  let nr := (s.fileTable filp).fPos % BLOCK_SIZE
  let chars := min (BLOCK_SIZE - nr) left
  (s.setFile filp fun f => { f with fPos := f.fPos + chars }).putFs buf (slice b nr chars)

def fileReadLoop (inode filp buf : ℕ) (count : ℤ) (left : ℕ) : Code ℤ :=
  if left = 0 then fileReadEnd inode count left
  else do
    let f ← fileAt filp
    let nr ← bmap inode (f.fPos / BLOCK_SIZE : ℕ)
    let x ← inodeAt inode
    if nr ≠ 0 then
      match ← bread x.iDev (.ofInt 32 nr) with
      | none => fileReadEnd inode count left
      | some bh =>
        let f ← fileAt filp
        let chars := min (BLOCK_SIZE - f.fPos % BLOCK_SIZE) left
        .modifies fun s => s.fileCopy filp buf left (s.head bh).bData
        brelse bh
        .goto (.fn (.fileReadLoop inode filp (buf + chars) count (left - chars)))
    else do
      let f ← fileAt filp
      let chars := min (BLOCK_SIZE - f.fPos % BLOCK_SIZE) left
      .modifies fun s => s.fileCopy filp buf left fun _ => 0
      .goto (.fn (.fileReadLoop inode filp (buf + chars) count (left - chars)))

def fileWrite (inode filp buf : ℕ) (count : ℤ) : Code ℤ := do
  let f ← fileAt filp
  let x ← inodeAt inode
  let pos : ℤ := if f.append then x.iSize.toInt else f.fPos
  .goto (.fn (.fileWriteLoop inode filp buf count pos 0))

def fileWriteEnd (inode filp : ℕ) (pos i : ℤ) : Code ℤ := do
  .modifies fun s => s.setInode inode fun x => { x with iMtime := s.currentTime }
  let f ← fileAt filp
  if f.append then return if i ≠ 0 then i else -1
  else do
    .modifies fun s => s.setFile filp fun f => { f with fPos := pos.toNat }
    .modifies fun s => s.setInode inode fun x => { x with iCtime := s.currentTime }
    return if i ≠ 0 then i else -1

/-- A write that ends at `pos` -/
def MInode.grow (x : MInode) (pos : BitVec 32) : MInode :=
  if pos.toNat > x.iSize.toNat then { x with iSize := pos, iDirt := true } else x

/-- Store bytes from the offset `p` on, which may be before the block. -/
def storeBytes (b : Block) (p : ℤ) (l : List UInt8) : Block := splice b p.toNat (l.drop (-p).toNat)

def fileWriteLoop (inode filp buf : ℕ) (count pos i : ℤ) : Code ℤ :=
  if i < count then do
    let block ← createBlock inode (pos.tdiv BLOCK_SIZE)
    if block = 0 then fileWriteEnd inode filp pos i
    else do
      let x ← inodeAt inode
      match ← bread x.iDev (.ofInt 32 block) with
      | none => fileWriteEnd inode filp pos i
      | some bh =>
        let p := pos.tmod BLOCK_SIZE
        let c := min (BLOCK_SIZE - p) (count - i)
        .modifies fun s => s.setInode inode fun x => x.grow (.ofInt 32 (pos + c))
        .modifies fun s => s.store bh fun b => storeBytes b p (slice s.memory (buf + i.toNat) c.toNat)
        brelse bh
        .goto (.fn (.fileWriteLoop inode filp buf count (pos + c) (i + c)))
  else fileWriteEnd inode filp pos i

/-! ## `fs/block_dev.c` -/

/-- The beginning of `block_read` and `block_write` -/
def startIo (dev : Dev) (filp buf : ℕ) (count : ℤ) (loop : BlockIo → Fn) : Code ℤ := do
  let f ← fileAt filp
  let size ← .reads fun s => BlockDev.size s.blkSize dev
  .goto <| .fn <| loop
    { dev := dev, filp := filp, buf := buf, count := count, block := f.fPos >>> BlockDev.BLOCK_SIZE_BITS
      offset := f.fPos % BLOCK_SIZE, done := 0, size := size }

namespace BlockIo

def chars (r : BlockIo) : ℕ := min (BLOCK_SIZE - r.offset) r.count.toNat

def fail (r : BlockIo) : ℤ := if r.done ≠ 0 then r.done else - EIO

/-- The variables after a round -/
def next (r : BlockIo) : BlockIo :=
  { r with
    buf := r.buf + r.chars, count := r.count - r.chars, block := r.block + 1, offset := 0
    done := r.done + r.chars }

end BlockIo

/-- `*pos += chars` -/
def movePos (r : BlockIo) : Code Unit :=
  .modifies fun s => s.setFile r.filp fun f => { f with fPos := f.fPos + r.chars }

def blockRead (dev : Dev) (filp buf : ℕ) (count : ℤ) : Code ℤ := startIo dev filp buf count .blockReadLoop

def blockReadLoop (r : BlockIo) : Code ℤ :=
  if r.count > 0 then
    if r.block ≥ r.size then return r.fail
    else do
      match ← breada r.dev (BlockDev.blockNr r.block) (BlockDev.ahead r.block) with
      | none => return r.fail
      | some bh =>
        movePos r
        .modifies fun s => s.putFs r.buf (slice (s.head bh).bData r.offset r.chars)
        brelse bh
        .goto (.fn (.blockReadLoop r.next))
  else return r.done

def blockWrite (dev : Dev) (filp buf : ℕ) (count : ℤ) : Code ℤ := startIo dev filp buf count .blockWriteLoop

/-- A block that is written as a whole is not read before. -/
def blockToWrite (r : BlockIo) : Code (Option ℕ) :=
  if r.chars = BLOCK_SIZE then getblk r.dev (BlockDev.blockNr r.block)
  else breada r.dev (BlockDev.blockNr r.block) (BlockDev.ahead r.block)

def blockWriteLoop (r : BlockIo) : Code ℤ :=
  if r.count > 0 then
    if r.block ≥ r.size then return r.fail
    else do
      match ← blockToWrite r with
      | none => return r.fail
      | some bh =>
        movePos r
        .modifies fun s => s.store bh fun b => splice b r.offset (slice s.memory r.buf r.chars)
        brelse bh
        .goto (.fn (.blockWriteLoop r.next))
  else return r.done

/-! ## The bodies -/

def int (m : Code ℤ) : Code Value := m >>= fun i => return .int i

def void (m : Code Unit) : Code Value := m >>= fun _ => return .void

def super (m : Code (Option ℕ)) : Code Value := m >>= fun sb => return .super sb

def body : Fn → Code Value
  | .getSuper dev i => super (getSuperFrom dev i)
  | .getSuperWait dev i => super (getSuperWait dev i)
  | .waitOnInode inode => void (waitOnInode inode)
  | .lockInode inode => void (lockInode inode)
  | .newBlock dev => int (newBlock dev)
  | .freeBlock dev block => int (freeBlock dev block)
  | ._bmap inode block create => int (_bmap inode block create)
  | .freeInd dev block => int (freeInd dev block)
  | .freeDind dev block => int (freeDind dev block)
  | .truncate inode => void (truncate inode)
  | .truncateRepeat inode => void (truncateRepeat inode)
  | .fileRead inode filp buf count => int (fileRead inode filp buf count)
  | .fileReadLoop inode filp buf count left => int (fileReadLoop inode filp buf count left)
  | .fileWrite inode filp buf count => int (fileWrite inode filp buf count)
  | .fileWriteLoop inode filp buf count pos i => int (fileWriteLoop inode filp buf count pos i)
  | .blockRead dev filp buf count => int (blockRead dev filp buf count)
  | .blockReadLoop r => int (blockReadLoop r)
  | .blockWrite dev filp buf count => int (blockWrite dev filp buf count)
  | .blockWriteLoop w => int (blockWriteLoop w)
  | .readInode inode => void (readInode inode)
  | .writeInode inode => void (writeInode inode)
  | .syncInodes => void syncInodes

end Linux012.Blocks
