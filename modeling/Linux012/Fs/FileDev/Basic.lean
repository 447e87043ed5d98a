import Linux012.Lib.Runs
import Linux012.Lib.Splice

/-! # Regular files

Reading and writing a regular file by `fs/file_dev.c`, with the block map of
`fs/inode.c` and the zone bitmap of `fs/bitmap.c`. `blocks` is what the buffers of the
device hold or read, `bad` says which reads fail while the call is at a block of the file.
-/

namespace Linux012.FileDev

open Function Splice

def BLOCK_SIZE : ℕ := 1024

/-- `ERROR` of `errno.h`. -/
def ERROR : ℤ := 99

def EINVAL : ℤ := 22

/-- The bytes of a block are those below `BLOCK_SIZE`. -/
abbrev Block := ℕ → UInt8

/-- `((unsigned short *) b)[k]` -/
def word (b : Block) (k : ℕ) : ℕ := (b (2 * k)).toNat + 256 * (b (2 * k + 1)).toNat

def setWord (b : Block) (k v : ℕ) : Block :=
  splice b (2 * k) [UInt8.ofNat v, UInt8.ofNat (v / 256)]

structure Fs where
  sNzones : ℕ
  sFirstdatazone : ℕ
  /-- The bits of the buffers of the zone bitmap. -/
  sZmap : ℕ → Option (ℕ → Bool)
  blocks : ℕ → Block

structure Inode where
  iZone : ℕ → ℕ
  iSize : ℕ

/-- The first zero bit from `k` on, of the `fuel` bits left. -/
def findFirstZero (b : ℕ → Bool) : ℕ → ℕ → Option ℕ
  | 0, _ => none
  | fuel + 1, k => if b k then findFirstZero b fuel (k + 1) else some k

/-- The loop of `new_block` over the buffers of the zone bitmap, from `i` on. -/
def scanZmap (fs : Fs) : ℕ → ℕ → Option (ℕ × ℕ)
  | 0, _ => none
  | fuel + 1, i =>
    match (fs.sZmap i).bind fun b => findFirstZero b 8192 0 with
    | some j => some (i, j)
    | none => scanZmap fs fuel (i + 1)

def setBit (fs : Fs) (i j : ℕ) : Fs :=
  { fs with sZmap := update fs.sZmap i ((fs.sZmap i).map fun b => update b j true) }

/-- `new_block`, with 0 for no block. -/
def newBlock (fs : Fs) : Fs × ℕ :=
  match scanZmap fs 8 0 with
  | none => (fs, 0)
  | some (i, j) =>
    let fs := setBit fs i j
    let j := j + i * 8192 + fs.sFirstdatazone - 1
    if j ≥ fs.sNzones then (fs, 0)
    else ({ fs with blocks := update fs.blocks j fun _ => 0 }, j)

def bread (fs : Fs) (bad : ℕ → Bool) (z : ℕ) : Option Block :=
  if bad z then none else some (fs.blocks z)

/-- What `_bmap` does with `i_zone[k]`. -/
def zone (fs : Fs) (inode : Inode) (create : Bool) (k : ℕ) : Fs × Inode × ℕ :=
  if create ∧ inode.iZone k = 0 then
    let (fs, i) := newBlock fs
    (fs, { inode with iZone := update inode.iZone k i }, i)
  else (fs, inode, inode.iZone k)

/-- What `_bmap` does with the entry `k` of the indirect block `z`. -/
def entry (fs : Fs) (bad : ℕ → Bool) (create : Bool) (z k : ℕ) : Fs × ℕ :=
  match bread fs bad z with
  | none => (fs, 0)
  | some b =>
    let i := word b k
    if create ∧ i = 0 then
      let (fs, i) := newBlock fs
      if i ≠ 0 then
        ({ fs with blocks := update fs.blocks z (setWord (fs.blocks z) k i) }, i)
      else (fs, 0)
    else (fs, i)

def MAX_BLOCKS : ℕ := 7 + 512 + 512 * 512

/-- `none` is the panic for a block that is too big. -/
def _bmap (fs : Fs) (inode : Inode) (bad : ℕ → Bool) (block : ℕ) (create : Bool) :
    Option (Fs × Inode × ℕ) :=
  if block ≥ MAX_BLOCKS then none
  else if block < 7 then some (zone fs inode create block)
  else
    let block := block - 7
    if block < 512 then
      let (fs, inode, z) := zone fs inode create 7
      if z = 0 then some (fs, inode, 0)
      else
        let (fs, i) := entry fs bad create z block
        some (fs, inode, i)
    else
      let block := block - 512
      let (fs, inode, z) := zone fs inode create 8
      if z = 0 then some (fs, inode, 0)
      else
        let (fs, i) := entry fs bad create z (block / 512)
        if i = 0 then some (fs, inode, 0)
        else
          let (fs, i) := entry fs bad create i (block % 512)
          some (fs, inode, i)

def bmap (fs : Fs) (inode : Inode) (bad : ℕ → Bool) (block : ℕ) : Option ℕ :=
  (_bmap fs inode bad block false).map fun r => r.2.2

def createBlock (fs : Fs) (inode : Inode) (bad : ℕ → Bool) (block : ℕ) :
    Option (Fs × Inode × ℕ) :=
  _bmap fs inode bad block true

/-- The loop of `file_read`; it ends with `f_pos` and the bytes put into user space. An
iteration moves at least one byte, so `fuel = left` is enough. -/
def fileReadLoop (fs : Fs) (inode : Inode) (bad : ℕ → ℕ → Bool) :
    ℕ → ℕ → ℕ → List UInt8 → Option (ℕ × List UInt8)
  | 0, pos, _, got => some (pos, got)
  | fuel + 1, pos, left, got =>
    if left = 0 then some (pos, got)
    else
      let block := pos / BLOCK_SIZE
      (bmap fs inode (bad block) block).bind fun nr =>
        if nr ≠ 0 ∧ bread fs (bad block) nr = none then some (pos, got)
        else
          let bh : Block := if nr ≠ 0 then fs.blocks nr else fun _ => 0
          let nr := pos % BLOCK_SIZE
          let chars := min (BLOCK_SIZE - nr) left
          fileReadLoop fs inode bad fuel (pos + chars) (left - chars) (got ++ slice bh nr chars)

/-- `i_size` after a write that ends at `pos`. -/
def grow (inode : Inode) (pos : ℕ) : Inode :=
  if pos > inode.iSize then { inode with iSize := pos } else inode

/-- The loop of `file_write` over the bytes left in `buf`; it ends with `pos` and `i`. -/
def fileWriteLoop (bad : ℕ → ℕ → Bool) :
    ℕ → Fs → Inode → ℕ → List UInt8 → ℕ → Option (Fs × Inode × ℕ × ℕ)
  | 0, fs, inode, pos, _, i => some (fs, inode, pos, i)
  | fuel + 1, fs, inode, pos, buf, i =>
    if buf = [] then some (fs, inode, pos, i)
    else
      (createBlock fs inode (bad (pos / BLOCK_SIZE)) (pos / BLOCK_SIZE)).bind
        fun (fs, inode, block) =>
          if block = 0 then some (fs, inode, pos, i)
          else if bread fs (bad (pos / BLOCK_SIZE)) block = none then some (fs, inode, pos, i)
          else
            let p := pos % BLOCK_SIZE
            let c := min (BLOCK_SIZE - p) buf.length
            let fs := { fs with
              blocks := update fs.blocks block (splice (fs.blocks block) p (buf.take c)) }
            fileWriteLoop bad fuel fs (grow inode (pos + c)) (pos + c) (buf.drop c) (i + c)

structure Filp where
  fPos : ℕ
  /-- `O_APPEND` is set in `f_flags`. -/
  append : Bool

structure Sys where
  fs : Fs
  inode : Inode
  /-- The open files of the inode. -/
  filp : ℕ → Filp
  /-- What the last call returned and put into user space. -/
  ret : ℤ
  data : List UInt8

inductive Origin | SEEK_SET | SEEK_CUR | SEEK_END
  deriving DecidableEq, Repr

inductive Op
  | lseek (fd : ℕ) (offset : BitVec 32) (origin : Origin)
  | read (fd : ℕ) (count : ℕ) (bad : ℕ → ℕ → Bool)
  | write (fd : ℕ) (buf : List UInt8) (bad : ℕ → ℕ → Bool)

def Sys.setPos (s : Sys) (fd pos : ℕ) : Sys :=
  { s with filp := update s.filp fd { s.filp fd with fPos := pos } }

/-- A call that returns `ret` and puts nothing into user space. -/
def Sys.return (s : Sys) (ret : ℤ) : Sys := { s with ret := ret, data := [] }

/-- `sys_lseek` with its 32-bit sums. -/
def sysLseek (s : Sys) (fd : ℕ) (offset : BitVec 32) (origin : Origin) : Sys :=
  let tmp : BitVec 32 :=
    match origin with
    | .SEEK_SET => offset
    | .SEEK_CUR => BitVec.ofNat 32 (s.filp fd).fPos + offset
    | .SEEK_END => BitVec.ofNat 32 s.inode.iSize + offset
  if tmp.toInt < 0 then s.return (-EINVAL)
  else (s.setPos fd tmp.toNat).return tmp.toNat

def fileRead (s : Sys) (fd count : ℕ) (bad : ℕ → ℕ → Bool) : Option Sys :=
  if count = 0 then some (s.return 0)
  else
    (fileReadLoop s.fs s.inode bad count (s.filp fd).fPos count []).map fun (pos, got) =>
      { s.setPos fd pos with
        ret := if got = [] then -ERROR else got.length
        data := got }

/-- `sys_read` of a regular file. -/
def sysRead (s : Sys) (fd count : ℕ) (bad : ℕ → ℕ → Bool) : Option Sys :=
  let pos := (s.filp fd).fPos
  let count := if count + pos > s.inode.iSize then s.inode.iSize - pos else count
  if count = 0 then some (s.return 0) else fileRead s fd count bad

def fileWrite (s : Sys) (fd : ℕ) (buf : List UInt8) (bad : ℕ → ℕ → Bool) : Option Sys :=
  let pos := if (s.filp fd).append then s.inode.iSize else (s.filp fd).fPos
  (fileWriteLoop bad buf.length s.fs s.inode pos buf 0).map fun (fs, inode, pos, i) =>
    let s := { s with fs := fs, inode := inode }
    let s := if (s.filp fd).append then s else s.setPos fd pos
    s.return (if i = 0 then -1 else i)

/-- `sys_write` to a regular file. -/
def sysWrite (s : Sys) (fd : ℕ) (buf : List UInt8) (bad : ℕ → ℕ → Bool) : Option Sys :=
  if buf = [] then some (s.return 0) else fileWrite s fd buf bad

def step : Op → Sys → Option Sys
  | .lseek fd offset origin, s => some (sysLseek s fd offset origin)
  | .read fd count bad, s => sysRead s fd count bad
  | .write fd buf bad, s => sysWrite s fd buf bad

end Linux012.FileDev
