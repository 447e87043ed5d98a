import Mathlib.Data.UInt
import Mathlib.Data.List.FinRange
import Mathlib.Tactic
import Linux012.Lib.Refs
import Linux012.Lib.Runs
import Linux012.Lib.Index

/-! # The table of super blocks

`fs/super.c` with the functions of `fs/bitmap.c` that use the bitmaps. A call is given what block 1
holds and which of the reads of a bitmap block succeed. Calls run one after another; between two of
them the rest of the kernel may change the reference counts and the bits. A panic ends the run, and
`fault` is a store or a load outside an array or through NULL.
-/

namespace Linux012.Super

open Function
open scoped Index

def SUPER_MAGIC : UInt16 := 0x137F

inductive Stop
  | panic
  | fault
  deriving DecidableEq

/-- `struct d_super_block` -/
structure DSuperBlock where
  ninodes : UInt16
  nzones : UInt16
  imapBlocks : UInt16
  zmapBlocks : UInt16
  firstdatazone : UInt16
  magic : UInt16

/-- `s_imap`, `s_zmap`: the buffers that hold the blocks of a bitmap. -/
abbrev Slots := Fin 8 → Option ℕ

/-- `struct super_block` -/
structure SuperBlock extends DSuperBlock where
  imap : Slots
  zmap : Slots
  dev : UInt16
  imount : Bool
  lock : Bool

/-- `super_block[]`, `b_count` and the bits of each buffer. -/
structure State where
  superBlock : Fin 8 → SuperBlock
  count : ℕ → ℕ
  bits : ℕ → ℕ → Bool

def State.set (s : State) (i : Fin 8) (sb : SuperBlock) : State :=
  { s with superBlock := update s.superBlock i sb }

/-- A bit of a buffer is changed. -/
def State.setBit (s : State) (b n : ℕ) (v : Bool) : State :=
  { s with bits := update s.bits b (update (s.bits b) n v) }

/-- The element of a map that an index names. -/
def slot (m : Slots) (i : ℕ) : Except Stop (Option ℕ) :=
  if h : i < 8 then .ok (m ⟨i, h⟩) else .error .fault

def deref : Option ℕ → Except Stop ℕ
  | some b => .ok b
  | none => .error .fault

def brelse : Option ℕ → (ℕ → ℕ) → Except Stop (ℕ → ℕ)
  | none, count => .ok count
  | some b, count => if count b = 0 then .error .panic else .ok (update count b (count b - 1))

/-- The loop that releases a map. -/
def brelseAll (m : Slots) : List (Fin 8) → (ℕ → ℕ) → Except Stop (ℕ → ℕ)
  | [], count => .ok count
  | i :: l, count => (brelse (m i) count).bind (brelseAll m l)

/-! ## The table -/

def getSuper (dev : UInt16) (s : State) : Option (Fin 8) :=
  if dev = 0 then none else (List.finRange 8).find? fun i => (s.superBlock i).dev = dev

def putSuper (root dev : UInt16) (s : State) : Except Stop State :=
  if dev = root then .ok s
  else match getSuper dev s with
    | none => .ok s
    | some i =>
      let sb := s.superBlock i
      if sb.imount then .ok s
      else do
        let count ← brelseAll sb.imap (List.finRange 8) s.count
        let count ← brelseAll sb.zmap (List.finRange 8) count
        .ok { s.set i { sb with dev := 0, lock := false } with count }

/-- `check_disk_change`; `changed` is `floppy_change`. -/
def checkDiskChange (root dev : UInt16) (changed : Bool) (s : State) : Except Stop State :=
  if dev.toNat / 256 = 2 ∧ changed then
    (List.finRange 8).foldlM (fun s i =>
      if (s.superBlock i).dev = dev then putSuper root dev s else .ok s) s
  else .ok s

/-- What a call of `read_super` meets: block 1 with its buffer, and the results of the reads that
the two loops make. -/
structure Call where
  dev : UInt16
  changed : Bool
  block1 : Option (ℕ × DSuperBlock)
  iread : ℕ → Option ℕ
  zread : ℕ → Option ℕ

/-- One of the loops that read a bitmap: `n` blocks are left, `i` have been read. -/
def readMap (reads : ℕ → Option ℕ) : ℕ → ℕ → Slots → (ℕ → ℕ) → Except Stop (ℕ × Slots × (ℕ → ℕ))
  | 0, i, m, count => .ok (i, m, count)
  | n + 1, i, m, count =>
    if h : i < 8 then
      match reads i with
      | some b => readMap reads n (i + 1) (update m ⟨i, h⟩ (some b)) (update count b (count b + 1))
      | none => .ok (i, update m ⟨i, h⟩ none, count)
    else .error .fault

def noMap : Slots := fun _ => none

/-- `read_super` from where the block has been copied into the entry `i`. -/
def readMaps (c : Call) (i : Fin 8) (d : DSuperBlock) (s : State) :
    Except Stop (Option (Fin 8) × State) := do
  let (ni, imap, count) ← readMap c.iread d.imapBlocks.toNat 0 noMap s.count
  let (nz, zmap, count) ← readMap c.zread d.zmapBlocks.toNat 0 noMap count
  if 2 + ni + nz ≠ 2 + d.imapBlocks.toNat + d.zmapBlocks.toNat then
    let count ← brelseAll imap (List.finRange 8) count
    let count ← brelseAll zmap (List.finRange 8) count
    .ok (none, { s.set i ⟨d, imap, zmap, 0, false, false⟩ with count })
  else
    let bi ← deref (imap 0)
    let bz ← deref (zmap 0)
    let s := { s.set i ⟨d, imap, zmap, c.dev, false, false⟩ with count }
    .ok (some i, (s.setBit bi 0 true).setBit bz 0 true)

/-- `read_super` from where it has found the unused entry `i`. -/
def readEntry (c : Call) (i : Fin 8) (s : State) : Except Stop (Option (Fin 8) × State) :=
  let sb := s.superBlock i
  match c.block1 with
  | none => .ok (none, s.set i { sb with dev := 0, imount := false, lock := false })
  | some (b, d) => do
    let count ← brelse (some b) (update s.count b (s.count b + 1))
    let s := { s with count }
    if d.magic ≠ SUPER_MAGIC then
      .ok (none, s.set i { sb with toDSuperBlock := d, dev := 0, imount := false, lock := false })
    else readMaps c i d s

/-- The first unused entry -/
def freeEntry (s : State) : Option (Fin 8) := (List.finRange 8).find? fun i => (s.superBlock i).dev = 0

def readSuper (root : UInt16) (c : Call) (s : State) : Except Stop (Option (Fin 8) × State) :=
  if c.dev = 0 then .ok (none, s)
  else do
    let s ← checkDiskChange root c.dev c.changed s
    match getSuper c.dev s with
    | some i => .ok (some i, s)
    | none =>
      match freeEntry s with
      | none => .ok (none, s)
      | some i => readEntry c i s

/-! ## The users of the bitmaps -/

/-- One of the loops of `mount_root` over the bits below `n`. -/
def countFree (bits : ℕ → ℕ → Bool) (m : Slots) : ℕ → ℕ → Except Stop ℕ
  | 0, free => .ok free
  | i + 1, free => do
    let b ← deref (← slot m (i / 8192))
    countFree bits m i (if bits b (i % 8192) then free else free + 1)

/-- `mount_root` from where the super block has been read: the free blocks and inodes. -/
def countAll (bits : ℕ → ℕ → Bool) (sb : SuperBlock) : Except Stop (ℕ × ℕ) := do
  let zones ← countFree bits sb.zmap sb.nzones.toNat 0
  let inodes ← countFree bits sb.imap (sb.ninodes.toNat + 1) 0
  .ok (zones, inodes)

/-- `mount_root` makes every entry unused. -/
def State.clear (s : State) : State :=
  { s with superBlock := fun i => { s.superBlock i with dev := 0, lock := false } }

/-- `mount_root`; the root inode is left out. -/
def mountRoot (root : UInt16) (c : Call) (s : State) : Except Stop State := do
  match ← readSuper root { c with dev := root } s.clear with
  | (none, _) => .error .panic
  | (some i, s) =>
    let _ ← countAll s.bits (s.superBlock i)
    .ok s

/-- `find_first_zero` -/
def findFirstZero (bits : ℕ → Bool) : ℕ := ((List.range 8192).find? fun n => !bits n).getD 8192

/-- The loop of `new_block` and `new_inode`: where it ends, the slot it saw last and the bit. -/
def scanMap (bits : ℕ → ℕ → Bool) (m : Slots) : List (Fin 8) → Option ℕ → ℕ → ℕ × Option ℕ × ℕ
  | [], bh, j => (8, bh, j)
  | i :: l, _, j =>
    match m i with
    | none => scanMap bits m l none j
    | some b =>
      let j := findFirstZero (bits b)
      if j < 8192 then (i, some b, j) else scanMap bits m l (some b) j

/-- The super block of a device on which there must be a file system -/
def needSuper (dev : UInt16) (s : State) : Except Stop SuperBlock :=
  match getSuper dev s with
  | none => .error .panic
  | some i => .ok (s.superBlock i)

/-- `free_block`; `bh` is what `get_hash_table` finds. -/
def freeBlock (dev : UInt16) (block : ℤ) (bh : Option ℕ) (s : State) : Except Stop (ℕ × State) := do
  let sb ← needSuper dev s
  if block < sb.firstdatazone.toNat ∨ sb.nzones.toNat ≤ block then .error .panic
  else if bh.any fun b => 0 < s.count b then .ok (0, s)
  else
    let n := (block - (sb.firstdatazone.toNat - 1)).toNat
    let b ← deref (← slot sb.zmap (n / 8192))
    .ok (1, s.setBit b (n % 8192) false)

/-- `new_block` up to where the block is known; its buffer is left out. -/
def newBlock (dev : UInt16) (s : State) : Except Stop (ℤ × State) := do
  let sb ← needSuper dev s
  let (i, bh, j) := scanMap s.bits sb.zmap (List.finRange 8) none 8192
  if 8 ≤ i ∨ bh = none ∨ 8192 ≤ j then .ok (0, s)
  else
    let b ← deref bh
    if s.bits b j then .error .panic
    else
      let n : ℤ := j + i * 8192 + sb.firstdatazone.toNat - 1
      .ok (if sb.nzones.toNat ≤ n then 0 else n, s.setBit b j true)

/-- The fields of `struct m_inode` that `free_inode` looks at -/
structure Inode where
  dev : UInt16
  num : UInt16
  count : ℕ
  nlinks : UInt8

def freeInode (inode : Option Inode) (s : State) : Except Stop State :=
  match inode with
  | none => .ok s
  | some inode =>
    if inode.dev = 0 then .ok s
    else if 1 < inode.count ∨ inode.nlinks ≠ 0 then .error .panic
    else do
      let sb ← needSuper inode.dev s
      if inode.num < 1 ∨ sb.ninodes < inode.num then .error .panic
      else
        match ← slot sb.imap (inode.num.toNat / 8192) with
        | none => .error .panic
        | some b => .ok (s.setBit b (inode.num.toNat % 8192) false)

/-- `new_inode`; `empty` tells whether `get_empty_inode` finds an inode. The result is the number. -/
def newInode (dev : UInt16) (empty : Bool) (s : State) : Except Stop (Option ℕ × State) :=
  if !empty then .ok (none, s)
  else do
    let sb ← needSuper dev s
    let (i, bh, j) := scanMap s.bits sb.imap (List.finRange 8) none 8192
    if bh = none ∨ 8192 ≤ j ∨ sb.ninodes.toNat < j + i * 8192 then .ok (none, s)
    else
      let b ← deref bh
      if s.bits b j then .error .panic else .ok (some (j + i * 8192), s.setBit b j true)

/-! ## Runs -/

inductive Act
  | readSuper (c : Call)
  | putSuper (dev : UInt16)
  | mountRoot (c : Call)
  /-- `sys_mount` and `sys_umount` store `s_imount`. -/
  | imount (i : Fin 8) (v : Bool)
  | freeBlock (dev : UInt16) (block : ℤ) (bh : Option ℕ)
  | newBlock (dev : UInt16)
  | freeInode (inode : Option Inode)
  | newInode (dev : UInt16) (empty : Bool)
  /-- The rest of the kernel changes reference counts and buffers. -/
  | others (count : ℕ → ℕ) (bits : ℕ → ℕ → Bool)

def exec (root : UInt16) : Act → State → Except Stop State
  | .readSuper c, s => (readSuper root c s).map (·.2)
  | .putSuper dev, s => putSuper root dev s
  | .mountRoot c, s => mountRoot root c s
  | .imount i v, s => .ok (s.set i { s.superBlock i with imount := v })
  | .freeBlock dev block bh, s => (freeBlock dev block bh s).map (·.2)
  | .newBlock dev, s => (newBlock dev s).map (·.2)
  | .freeInode inode, s => freeInode inode s
  | .newInode dev empty, s => (newInode dev empty s).map (·.2)
  | .others count bits, s => .ok { s with count, bits }

/-- A fault does not end the run; what the state is from then on says nothing. -/
def step (root : UInt16) (a : Act) (s : State) : Option State :=
  match exec root a s with
  | .ok s' => some s'
  | .error .panic => none
  | .error .fault => some s

end Linux012.Super
