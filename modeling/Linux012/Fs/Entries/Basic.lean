import Linux012.Fs.FileDev.Create

/-! # The entries of a directory

`find_entry`, `add_entry` and `empty_dir` of `fs/namei.c` on the blocks of a directory. Each call counts the
buffers that it holds. A null pointer for a buffer is used where the source looks at its data.
-/

namespace Linux012.Entries

open Function Splice
open FileDev

def NAME_LEN : ℕ := 14

def DIR_ENTRIES_PER_BLOCK : ℕ := 64

abbrev Name := List UInt8

/-- `.` and `..` -/
def dot : UInt8 := 46

/-- A null pointer is used, a buffer is released that is not held, `_bmap` panics, or a loop does not end. -/
inductive Stop | null | free | panic | endless
  deriving DecidableEq, Repr

/-! ## One entry -/

/-- The inode number of the entry `k` of a block. -/
def inodeAt (d : Block) (k : ℕ) : ℕ := word d (8 * k)

/-- The byte `i` of its name. -/
def nameAt (d : Block) (k i : ℕ) : UInt8 := d (16 * k + 2 + i)

/-- `match`. With no byte to compare, the flags are those of the test before. -/
def matchEntry (name : Name) (d : Block) (k : ℕ) : Bool :=
  if inodeAt d k = 0 ∨ name.length > NAME_LEN then false
  else if name.length = 0 ∧ nameAt d k 0 = dot ∧ nameAt d k 1 = 0 then true
  else if name.length < NAME_LEN ∧ nameAt d k name.length ≠ 0 then false
  else name == (List.range name.length).map (nameAt d k)

def setInode (fs : Fs) (z k v : ℕ) : Fs := { fs with blocks := update fs.blocks z (setWord (fs.blocks z) (8 * k) v) }

/-- The bytes that `add_entry` stores into the name of an entry. -/
def padded (name : Name) : List UInt8 := name ++ List.replicate (NAME_LEN - name.length) 0

def putName (fs : Fs) (z k : ℕ) (name : Name) : Fs :=
  { fs with blocks := update fs.blocks z (splice (fs.blocks z) (16 * k + 2) (padded name)) }

/-! ## Buffers -/

/-- `held` are the zones of the buffers that the call holds. -/
def brelse (bh : Option ℕ) (held : List ℕ) : Except Stop (List ℕ) :=
  match bh with
  | none => .ok held
  | some z => if z ∈ held then .ok (held.erase z) else .error .free

/-- What a loop does before it looks at an entry: it goes on with the entry `k` of the buffer `z`, it leaves out
a block, or the call returns. -/
inductive Turn
  | here (z k : ℕ)
  | skip
  | stop

/-! ## `find_entry` -/

/-- At the end of the buffer `z` the next block is read. -/
def findTurn (fs : Fs) (dir : Inode) (bad : ℕ → Bool) (i z k : ℕ) (held : List ℕ) :
    Except Stop (Turn × List ℕ) :=
  if k < DIR_ENTRIES_PER_BLOCK then .ok (.here z k, held)
  else
    (brelse (some z) held).bind fun held =>
      match bmap fs dir bad (i / DIR_ENTRIES_PER_BLOCK) with
      | none => .error .panic
      | some block =>
        if block = 0 ∨ bad block = true then .ok (.skip, held) else .ok (.here block 0, block :: held)

def findEnd (bh : Option ℕ) (held : List ℕ) : Except Stop (Option (ℕ × ℕ) × List ℕ) :=
  (brelse bh held).map fun held => (none, held)

/-- The loop before the entry `i`, with the pointer `bh` and `de` at the entry `k` of the buffer. -/
def findLoop (fs : Fs) (dir : Inode) (bad : ℕ → Bool) (name : Name) (entries : ℕ) :
    ℕ → ℕ → Option ℕ → ℕ → List ℕ → Except Stop (Option (ℕ × ℕ) × List ℕ)
  | 0, _, bh, _, held => findEnd bh held
  | fuel + 1, i, bh, k, held =>
    if i < entries then
      match bh with
      | none => .error .null
      | some z =>
        (findTurn fs dir bad i z k held).bind fun
          | (.here z k, held) =>
            if matchEntry name (fs.blocks z) k then .ok (some (z, k), held)
            else findLoop fs dir bad name entries fuel (i + 1) (some z) (k + 1) held
          | (_, held) =>
            findLoop fs dir bad name entries fuel (i + DIR_ENTRIES_PER_BLOCK) none k held
    else findEnd bh held

/-- Whether a directory is the root of the task, and the directory that its device is mounted on, if it is the
root of this device. -/
structure Place where
  root : Bool
  sImount : Option (Fs × Inode)

/-- The directory and the name that `find_entry` goes on with. -/
def Place.resolve (at_ : Place) (fs : Fs) (dir : Inode) (name : Name) : (Fs × Inode) × Name :=
  if name = [dot, dot] then
    if at_.root then ((fs, dir), [dot])
    else (at_.sImount.getD (fs, dir), name)
  else ((fs, dir), name)

/-- The entry that is found, as a place in a buffer, and the buffers held. The number of entries is that of the
directory that was given. -/
def findEntry (fs : Fs) (dir : Inode) (at_ : Place) (bad : ℕ → Bool) (name : Name) :
    Except Stop (Option (ℕ × ℕ) × List ℕ) :=
  let entries := dir.iSize / 16
  let ((fs, dir), name) := at_.resolve fs dir (name.take NAME_LEN)
  let z := dir.iZone 0
  if z = 0 ∨ bad z = true then .ok (none, [])
  else findLoop fs dir bad name entries entries 0 (some z) 0 [z]

/-! ## `add_entry` -/

def addTurn (fs : Fs) (dir : Inode) (bad : ℕ → Bool) (i z k : ℕ) (held : List ℕ) :
    Except Stop ((Fs × Inode) × Turn × List ℕ) :=
  if k < DIR_ENTRIES_PER_BLOCK then .ok ((fs, dir), .here z k, held)
  else
    (brelse (some z) held).bind fun held =>
      match createBlock fs dir bad (i / DIR_ENTRIES_PER_BLOCK) with
      | none => .error .panic
      | some (fs, dir, block) =>
        if block = 0 then .ok ((fs, dir), .stop, held)
        else if bad block = true then .ok ((fs, dir), .skip, held)
        else .ok ((fs, dir), .here block 0, block :: held)

/-- Behind the size of the directory an entry is free, and the directory grows by it. -/
def extend (fs : Fs) (dir : Inode) (i z k : ℕ) : Fs × Inode :=
  if i * 16 ≥ dir.iSize then (setInode fs z k 0, { dir with iSize := (i + 1) * 16 }) else (fs, dir)

def addLoop (bad : ℕ → Bool) (name : Name) : ℕ → Fs → Inode → ℕ → Option ℕ → ℕ → List ℕ →
    Except Stop ((Fs × Inode) × Option (ℕ × ℕ) × List ℕ)
  | 0, _, _, _, _, _, _ => .error .endless
  | fuel + 1, fs, dir, i, bh, k, held =>
    match bh with
    | none => .error .null
    | some z =>
      (addTurn fs dir bad i z k held).bind fun
        | ((fs, dir), .here z k, held) =>
          let (fs, dir) := extend fs dir i z k
          if inodeAt (fs.blocks z) k = 0 then .ok ((putName fs z k name, dir), some (z, k), held)
          else addLoop bad name fuel fs dir (i + 1) (some z) (k + 1) held
        | ((fs, dir), .skip, held) => addLoop bad name fuel fs dir (i + DIR_ENTRIES_PER_BLOCK) none k held
        | ((fs, dir), .stop, held) => .ok ((fs, dir), none, held)

/-- The loop ends with the turn after the first entry behind the size of the directory at the latest. -/
def addEntry (fs : Fs) (dir : Inode) (bad : ℕ → Bool) (name : Name) :
    Except Stop ((Fs × Inode) × Option (ℕ × ℕ) × List ℕ) :=
  let name := name.take NAME_LEN
  let z := dir.iZone 0
  if name = [] ∨ z = 0 ∨ bad z = true then .ok ((fs, dir), none, [])
  else addLoop bad name (dir.iSize / 16 + 3) fs dir 0 (some z) 0 [z]

/-! ## `empty_dir` -/

/-- A block that is not there is left out, with the pointers as they were. -/
def emptyTurn (fs : Fs) (inode : Inode) (bad : ℕ → Bool) (nr z k : ℕ) (held : List ℕ) :
    Except Stop (Turn × List ℕ) :=
  if k < DIR_ENTRIES_PER_BLOCK then .ok (.here z k, held)
  else
    (brelse (some z) held).bind fun held =>
      match bmap fs inode bad (nr / DIR_ENTRIES_PER_BLOCK) with
      | none => .error .panic
      | some block =>
        if block = 0 then .ok (.skip, held)
        else if bad block = true then .ok (.stop, held)
        else .ok (.here block 0, block :: held)

def emptyEnd (r : Bool) (z : ℕ) (held : List ℕ) : Except Stop (Bool × List ℕ) :=
  (brelse (some z) held).map fun held => (r, held)

def emptyLoop (fs : Fs) (inode : Inode) (bad : ℕ → Bool) (len : ℕ) :
    ℕ → ℕ → ℕ → ℕ → List ℕ → Except Stop (Bool × List ℕ)
  | 0, _, z, _, held => emptyEnd true z held
  | fuel + 1, nr, z, k, held =>
    if nr < len then
      (emptyTurn fs inode bad nr z k held).bind fun
        | (.here z k, held) =>
          if inodeAt (fs.blocks z) k ≠ 0 then emptyEnd false z held
          else emptyLoop fs inode bad len fuel (nr + 1) z (k + 1) held
        | (.skip, held) => emptyLoop fs inode bad len fuel (nr + DIR_ENTRIES_PER_BLOCK) z k held
        | (.stop, held) => .ok (false, held)
    else emptyEnd true z held

/-- The first two entries are `.` and `..`. -/
def Dots (d : Block) (iNum : ℕ) : Prop :=
  inodeAt d 0 = iNum ∧ inodeAt d 1 ≠ 0 ∧ (nameAt d 0 0 = dot ∧ nameAt d 0 1 = 0) ∧
    nameAt d 1 0 = dot ∧ nameAt d 1 1 = dot ∧ nameAt d 1 2 = 0

instance (d : Block) (iNum : ℕ) : Decidable (Dots d iNum) := inferInstanceAs (Decidable (_ ∧ _ ∧ (_ ∧ _) ∧ _ ∧ _ ∧ _))

def emptyDir (fs : Fs) (inode : Inode) (iNum : ℕ) (bad : ℕ → Bool) : Except Stop (Bool × List ℕ) :=
  let len := inode.iSize / 16
  let z := inode.iZone 0
  if len < 2 ∨ z = 0 ∨ bad z = true then .ok (false, [])
  else if ¬ Dots (fs.blocks z) iNum then .ok (false, [z])
  else emptyLoop fs inode bad len len 2 z 2 [z]

/-! ## What can be read -/

/-- The zone of a block that can be found and read. -/
def blockAt (fs : Fs) (dir : Inode) (bad : ℕ → Bool) (b : ℕ) : Option ℕ :=
  (bmap fs dir bad b).filter fun z => z ≠ 0 ∧ bad z = false

/-- The entry `i` of a directory as a place in a buffer. -/
def entryAt (fs : Fs) (dir : Inode) (bad : ℕ → Bool) (i : ℕ) : Option (ℕ × ℕ) :=
  (blockAt fs dir bad (i / DIR_ENTRIES_PER_BLOCK)).map fun z => (z, i % DIR_ENTRIES_PER_BLOCK)

variable {fs fs' : Fs} {dir dir' : Inode} {bad : ℕ → Bool} {name : Name} {b i k z : ℕ} {held : List ℕ}

theorem brelse_single (z : ℕ) : brelse (some z) [z] = .ok [] := by
  change (if z ∈ [z] then Except.ok ([z].erase z) else _) = _
  rw [if_pos List.mem_cons_self, List.erase_cons_head]

theorem bmap_zero (fs : Fs) (dir : Inode) (bad : ℕ → Bool) : bmap fs dir bad 0 = some (dir.iZone 0) := by
  unfold bmap
  rw [_bmap_direct (by decide), zone_false]
  rfl

theorem blockAt_eq_some : blockAt fs dir bad b = some z ↔ bmap fs dir bad b = some z ∧ z ≠ 0 ∧ bad z = false := by
  unfold blockAt
  rw [Option.filter_eq_some_iff, decide_eq_true_iff]

theorem bmap_isSome (hb : b < MAX_BLOCKS) : (bmap fs dir bad b).isSome := by
  unfold bmap
  rw [Option.isSome_map]
  exact _bmap_isSome hb

theorem bmap_lt (h : bmap fs dir bad b = some z) : b < MAX_BLOCKS := by
  by_contra hb
  rw [bmap, _bmap, if_pos (Nat.le_of_not_lt hb)] at h
  cases h

theorem blockAt_zero (h : dir.iZone 0 ≠ 0) (hbad : bad (dir.iZone 0) = false) :
    blockAt fs dir bad 0 = some (dir.iZone 0) := blockAt_eq_some.mpr ⟨bmap_zero .., h, hbad⟩

end Linux012.Entries
