import Mathlib.Algebra.BigOperators.Group.Finset.Basic
import Mathlib.Logic.Function.Basic

/-! # Directories and links

One minix file system with the directory code of `fs/namei.c`. An inode stands for its entry
in the inode table and what it has on the disk; nothing is mounted on the file system, and
reads of the blocks of a directory succeed from its second block on.
-/

namespace Linux012.Dirs

open Function

def NAME_LEN : ℕ := 14
def DIR_ENTRIES_PER_BLOCK : ℕ := 64
def ROOT_INO : ℕ := 1

def S_IFMT : BitVec 16 := 0o170000
def S_IFREG : BitVec 16 := 0o100000
def S_IFDIR : BitVec 16 := 0o040000
def S_IFLNK : BitVec 16 := 0o120000

abbrev Name := List UInt8

def dot : Name := [46]
def dotdot : Name := [46, 46]

/-- An entry of a directory, free if `inode` is 0; `name` is what stands before the padding. -/
structure DirEntry where
  inode : ℕ
  name : Name
  deriving DecidableEq

/-- `zone` says that `i_zone[0]` is a block; a directory of size `16 * n` has `n` entries. -/
structure Inode where
  iMode : BitVec 16
  iNlinks : ℕ
  iCount : ℕ
  zone : Bool
  entries : List DirEntry

namespace Inode

def isDir (x : Inode) : Bool := x.iMode &&& S_IFMT = S_IFDIR

/-- What `memset` leaves, also of an inode that has been freed. -/
def zero : Inode := { iMode := 0, iNlinks := 0, iCount := 0, zone := false, entries := [] }

end Inode

/-- `lost` says that `iput` has freed an inode that an entry names (not in the source). -/
structure Fs where
  inodes : ℕ → Inode
  imap : ℕ → Bool
  sNinodes : ℕ
  lost : Bool

namespace Fs

def upd (fs : Fs) (i : ℕ) (g : Inode → Inode) : Fs :=
  { fs with inodes := update fs.inodes i (g (fs.inodes i)) }

/-- A directory that has not been removed. -/
def Live (fs : Fs) (d : ℕ) : Prop :=
  d ≤ fs.sNinodes ∧ fs.imap d = true ∧ (fs.inodes d).isDir = true ∧ (fs.inodes d).iNlinks ≠ 0

instance (fs : Fs) (d : ℕ) : Decidable (fs.Live d) := inferInstanceAs (Decidable (_ ∧ _ ∧ _ ∧ _))

/-- How many entries of the directory `d` name the inode `i`. -/
def names (fs : Fs) (d i : ℕ) : ℕ :=
  if fs.Live d then (fs.inodes d).entries.countP fun de => de.inode = i else 0

/-- How many live directory entries name the inode `i`. -/
def links (fs : Fs) (i : ℕ) : ℕ := ∑ d ∈ Finset.range (fs.sNinodes + 1), fs.names d i

end Fs

/-! ## Entries -/

/-- `match` of a name with an entry. -/
def matchEntry (name : Name) (de : DirEntry) : Bool :=
  de.inode ≠ 0 && (name = [] && de.name = dot || name.take NAME_LEN = de.name)

/-- The name that `find_entry` looks for: `..` of a task's root directory is `.`. -/
def pseudoRoot (root d : ℕ) (name : Name) : Name :=
  if name.take NAME_LEN = dotdot ∧ d = root then dot else name

/-- `find_entry` without the waits for its blocks. -/
def findEntry (fs : Fs) (root d : ℕ) (name : Name) : Option ℕ :=
  let x := fs.inodes d
  if ¬ x.zone then none else x.entries.findIdx? (matchEntry (pseudoRoot root d name))

/-- An entry put at `k`, which may be the end of the directory. -/
def putEntry (es : List DirEntry) (k : ℕ) (de : DirEntry) : List DirEntry :=
  if k < es.length then es.set k de else es ++ [de]

/-- The entry that `add_entry` takes, or the number of entries where it makes a new one. -/
def freeSlot (es : List DirEntry) : ℕ := es.findIdx fun de => de.inode = 0

/-- An entry that `add_entry` has found gets its name and, from the caller, its number. -/
def enterEntry (fs : Fs) (d k : ℕ) (de : DirEntry) : Fs :=
  fs.upd d fun x => { x with entries := putEntry x.entries k de }

/-- `add_entry` without the waits, with the inode number that its callers enter at once; `full`
says that `create_block` fails. -/
def addEntry (fs : Fs) (d : ℕ) (name : Name) (inode : ℕ) (full : Bool) : Option Fs :=
  let x := fs.inodes d
  let k := freeSlot x.entries
  if name = [] ∨ ¬ x.zone then none
  else if k = x.entries.length ∧ k % DIR_ENTRIES_PER_BLOCK = 0 ∧ k ≠ 0 ∧ full then none
  else some (enterEntry fs d k ⟨inode, name.take NAME_LEN⟩)

def clearEntry (fs : Fs) (d k : ℕ) : Fs :=
  fs.upd d fun x => { x with entries := x.entries.modify k fun de => { de with inode := 0 } }

/-- The number in the entry `k` of a directory. -/
def entryInode (fs : Fs) (d k : ℕ) : ℕ :=
  (((fs.inodes d).entries[k]?).map DirEntry.inode).getD 0

/-- `empty_dir` without the waits. -/
def emptyDir (fs : Fs) (i : ℕ) : Bool :=
  let x := fs.inodes i
  match x.zone, x.entries with
  | true, a :: b :: rest =>
    a.inode = i && b.inode ≠ 0 && a.name = dot && b.name = dotdot && rest.all fun de => de.inode = 0
  | _, _ => false

/-! ## Links

An `unsigned char` counts the links. -/

def incLinks (fs : Fs) (i : ℕ) : Fs := fs.upd i fun x => { x with iNlinks := (x.iNlinks + 1) % 256 }

def decLinks (fs : Fs) (i : ℕ) : Fs := fs.upd i fun x => { x with iNlinks := (x.iNlinks + 255) % 256 }

def setLinks (fs : Fs) (i n : ℕ) : Fs := fs.upd i fun x => { x with iNlinks := n }

/-- The end of `sys_unlink` after its checks. -/
def unlinkEntry (fs : Fs) (d k i : ℕ) : Fs :=
  let fs := if (fs.inodes i).iNlinks = 0 then setLinks fs i 1 else fs
  decLinks (clearEntry fs d k) i

/-- The end of `sys_rmdir` after its checks. -/
def rmdirEntry (fs : Fs) (d k i : ℕ) : Fs := decLinks (setLinks (clearEntry fs d k) i 0) d

/-! ## Inodes -/

def incCount (fs : Fs) (i : ℕ) : Fs := fs.upd i fun x => { x with iCount := x.iCount + 1 }

def decCount (fs : Fs) (i : ℕ) : Fs := fs.upd i fun x => { x with iCount := x.iCount - 1 }

/-- `truncate` and `free_inode`; the entry in the table is cleared. -/
def freeInode (fs : Fs) (i : ℕ) : Fs :=
  let lost := fs.lost || fs.links i ≠ 0
  let fs := fs.upd i fun _ => .zero
  { fs with imap := update fs.imap i false, lost := lost }

/-- The first zero bit from `j` on. -/
def findFirstZero (bits : ℕ → Bool) : ℕ → ℕ → Option ℕ
  | 0, _ => none
  | fuel + 1, j => if bits j then findFirstZero bits fuel (j + 1) else some j

/-- `new_inode`: the inode with the first free number. -/
def newInode (fs : Fs) : Option (Fs × ℕ) :=
  (findFirstZero fs.imap (fs.sNinodes + 1) 0).map fun j =>
    let fs := fs.upd j fun _ => { Inode.zero with iCount := 1, iNlinks := 1 }
    ({ fs with imap := update fs.imap j true }, j)

end Linux012.Dirs
