import Linux012.Fs.BlockDev.Basic
import Linux012.Fs.Buffer.Devices

/-! # Device numbers of block special files

The number in `i_zone[0]` of a block special inode selects entries of the tables of sizes and of those of the
drivers. The machine of `block_write` and `block_read` also reads such inodes, opens, mounts and releases
them, and records what it indexes.
-/

namespace Linux012.Special

open Function Coop Buffer

abbrev Block := BlockDev.Block

def MAX_HD : ℕ := 2

/-- Whether `rd_init` is called, and what `sys_setup` finds. -/
structure Config where
  ramdisk : Bool
  nrHd : ℕ
  hdSizes : List ℕ
  nrHd_le : nrHd ≤ MAX_HD
  length_hdSizes : hdSizes.length = 5 * MAX_HD

def minor (dev : Dev) : ℕ := dev.toNat % 256

def floppySizes : List ℕ :=
  [0, 0, 0, 0,
   360, 360, 360, 360,
   1200, 1200, 1200, 1200,
   360, 360, 360, 360,
   720, 720, 720, 720,
   360, 360, 360, 360,
   720, 720, 720, 720,
   1440, 1440, 1440, 1440]

/-- Entries of `floppy_type` -/
def floppyTypes : ℕ := 8

/-- An index into an array -/
inductive Access
  | blkSize (i : ℕ)
  | sizes (l : List ℕ) (i : ℕ)
  | floppyType (i : ℕ)
  | hd (i : ℕ)
  | hdInfo (i : ℕ)
  deriving DecidableEq

def Access.InBounds : Access → Prop
  | .blkSize i => i < NR_BLK_DEV
  | .sizes l i => i < l.length
  | .floppyType i => i < floppyTypes
  | .hd i => i < 5 * MAX_HD
  | .hdInfo i => i < MAX_HD

namespace Config

variable (cfg : Config)

/-- `blk_dev[major].request_fn` is set. -/
def requestFn : ℕ → Bool
  | 1 => cfg.ramdisk
  | 2 => true
  | 3 => true
  | _ => false

def blkSize : List (Option (List ℕ)) :=
  [none, none, some floppySizes, some cfg.hdSizes, none, none, none]

/-- `blk_size` with what the memory beyond the arrays holds -/
def sizes (beyond : BlockDev.BlkSize) : BlockDev.BlkSize := fun maj =>
  match cfg.blkSize[maj]? with
  | none => beyond maj
  | some none => none
  | some (some sizes) => some fun min => sizes.getD min ((beyond maj).elim 0 fun size => size min)

/-- `blk_size[MAJOR(dev)]`, and `blk_size[MAJOR(dev)][MINOR(dev)]` if it is an array -/
def sizeAccesses (dev : Dev) : List Access :=
  .blkSize (major dev) ::
    match cfg.blkSize[major dev]? with
    | some (some sizes) => [.sizes sizes (minor dev)]
    | _ => []

/-- `do_hd_request` compares the minor number with `NR_HD` first. -/
def hdAccesses (dev : Dev) : List Access :=
  if minor dev ≥ 5 * cfg.nrHd then [] else [.hd (minor dev), .hdInfo (minor dev / 5)]

/-- What `do_rd_request`, `do_fd_request` and `do_hd_request` index for a request -/
def driverAccesses (dev : Dev) : List Access :=
  match major dev with
  | 2 => [.floppyType (minor dev >>> 2)]
  | 3 => cfg.hdAccesses dev
  | _ => []

end Config

/-- `mounted` are the devices whose super block has been read. `indexed` is not in the source. -/
structure Sys where
  cache : Cache Block
  mounted : List Dev
  indexed : List Access

inductive Frame
  | file (f : BlockDev.Frame)
  | checkDiskChange (dev : Dev)
  | invalidateBuffers (dev : Dev) (i : ℕ)
  | invalidateWait (dev : Dev) (i : ℕ)
  | readSuper (dev : Dev)
  | getSuper (dev : Dev)
  | superGot (dev : Dev)
  | superMaps (dev : Dev) (bh : ℕ)
  | mountDone

/-- `iget` comes to the end of `read_inode` for a block special inode, `iput` calls `sync_dev` (`file`).
`changed` is what `floppy_change` finds out. -/
inductive Choice
  | file (ch : BlockDev.Choice)
  | iget (dev : Dev)
  | sysOpen (dev : Dev)
  | sysMount (dev : Dev)
  | wait
  | changed (yes : Bool)

/-- The number in the inode that a call is about -/
def Choice.inodeDev : Choice → Option Dev
  | .file (.blockWrite dev _ _) => some dev
  | .file (.blockRead dev _ _) => some dev
  | .file (.syncDev dev) => some dev
  | .iget dev => some dev
  | .sysOpen dev => some dev
  | .sysMount dev => some dev
  | _ => none

abbrev Piece := Sys × Next Frame Value Panic

variable (cfg : Config) (beyond : BlockDev.BlkSize)

/-- The tables that a piece of code indexes. The driver comes to a request when it has been added. -/
def accesses (c : Cache Block) : BlockDev.Frame → BlockDev.Choice → List Access
  | .user _, .blockWrite dev _ _ => cfg.sizeAccesses dev
  | .user _, .blockRead dev _ _ => cfg.sizeAccesses dev
  | .cache (.findRequest rw _ bh), _ =>
    if (freeRequest c (requestLimit rw)).isSome then cfg.driverAccesses (c.dev bh) else []
  | _, _ => []

/-- The rest of the kernel asks for blocks of file systems. -/
def permitted (s : Sys) : BlockDev.Frame → BlockDev.Choice → Bool
  | .cache (.code _), .cache ch => ch.devs.all (· ∈ s.mounted)
  | _, _ => true

def execFile (s : Sys) (f : BlockDev.Frame) (ch : BlockDev.Choice) : Option Piece :=
  if permitted s f ch then
    (BlockDev.run (cfg.sizes beyond) s.cache ch f).map fun r =>
      ({ s with cache := r.1, indexed := s.indexed ++ accesses cfg s.cache f ch }, r.2.map .file)
  else none

def execUser (s : Sys) (last : Option BlockDev.Result) : Choice → Option Piece
  | .file ch => execFile cfg beyond s (.user last) ch
  | .iget dev =>
    some ({ s with indexed := s.indexed ++ cfg.sizeAccesses dev }, .goto (.file (.user last)))
  | .sysOpen dev => some (s, .call (.file (.user last)) (.checkDiskChange dev))
  | .sysMount dev => some (s, .call (.file (.user last)) (.readSuper dev))
  | _ => none

/-- `put_super` and `invalidate_inodes` may release blocks. -/
def checkDiskChange (s : Sys) (dev : Dev) : Choice → Option Piece
  | .wait => if major dev = 2 then some (s, .sleep (.checkDiskChange dev)) else none
  | .changed yes =>
    if major dev = 2 ∧ yes then
      some (s, .call (.invalidateBuffers dev 0) (.file (.cache (.code []))))
    else some (s, .ret none)
  | _ => none

def invalidateBuffers (s : Sys) (dev : Dev) (i : ℕ) : Piece :=
  if i < s.cache.nrBuffers then
    if s.cache.dev i ≠ dev then (s, .goto (.invalidateBuffers dev (i + 1)))
    else (s, .goto (.invalidateWait dev i))
  else (s, .ret none)

def invalidateWait (s : Sys) (dev : Dev) (i : ℕ) : Piece :=
  if (s.cache.heads i).bLock then (s, .sleep (.invalidateWait dev i))
  else if s.cache.dev i = dev then
    ({ s with cache := s.cache.upd i fun b => { b with bUptodate := false, bDirt := false } },
      .goto (.invalidateBuffers dev (i + 1)))
  else (s, .goto (.invalidateBuffers dev (i + 1)))

def exec (s : Sys) (ch : Choice) : Frame → Option Piece
  | .file (.user last) => execUser cfg beyond s last ch
  | .file f =>
    match ch with
    | .file ch => execFile cfg beyond s f ch
    | _ => none
  | .checkDiskChange dev => checkDiskChange s dev ch
  | .invalidateBuffers dev i => some (invalidateBuffers s dev i)
  | .invalidateWait dev i => some (invalidateWait s dev i)
  | .readSuper dev =>
    if dev = 0 then some (s, .ret none) else some (s, .call (.getSuper dev) (.checkDiskChange dev))
  | .getSuper dev =>
    if dev ∈ s.mounted then some (s, .ret none)
    else some (s, .call (.superGot dev) (.file (.cache (.bread dev 1))))
  | .superGot _ => none
  | .superMaps dev bh =>
    some ({ s with mounted := dev :: s.mounted }, .call .mountDone (.file (.cache (.code [bh]))))
  | .mountDone => some (s, .ret none)

def resume : Frame → Value → Option Frame
  | .file f, v => (BlockDev.resume f v).map .file
  | .invalidateBuffers dev i, none => some (.invalidateBuffers dev i)
  | .getSuper dev, none => some (.getSuper dev)
  | .superGot dev, some bh => some (.superMaps dev bh)
  | .superGot _, none => some .mountDone
  | .mountDone, none => some .mountDone
  | _, _ => none

variable (n : ℕ)

def program : Program n Sys Frame Value Choice (EndRequest Block) Panic where
  exec _ ch f s := exec cfg beyond s ch f
  resume := resume
  user
    | .file (.user _) => true
    | .file (.cache (.code _)) => true
    | _ => false
  intr e s := (endRequest e s.cache).map fun c => { s with cache := c }

variable {n}

/-- The root file system is mounted; every task is between two calls or runs code of the kernel. -/
def initial (kernel : Fin n → Bool) (root : Dev) (c : Cache Block) : State n Sys Frame Panic where
  shared := ⟨c, [root], []⟩
  stack t := if kernel t then [.file (.cache (.code []))] else [.file (.user none)]
  cpu := none
  panicked := none

/-- All indices are within their arrays, and a driver can write every dirty buffer. -/
structure Safe (s : Sys) : Prop where
  indexed : ∀ a ∈ s.indexed, a.InBounds
  dirty : ∀ bh < s.cache.nrBuffers, (s.cache.heads bh).bDirt = true →
    cfg.requestFn (major (s.cache.dev bh)) = true

/-- The device has a driver, and its minor number is one of those in the tables. -/
def Served (dev : Dev) : Prop :=
  major dev = 1 ∧ cfg.ramdisk = true ∨ major dev = 2 ∧ minor dev < 32 ∨ major dev = 3 ∧ minor dev < 10

/-- Whatever is done with inodes that hold these numbers is safe. -/
def AlwaysSafe (special : Set Dev) : Prop :=
  ∀ (n : ℕ) (kernel : Fin n → Bool) (startBuffer bufferEnd : ℕ) (junk : Junk Block)
    (disk : Dev → BlockNr → Block) (beyond : BlockDev.BlkSize) (root : Dev), Served cfg root →
    ∀ s, Runs.Run (program cfg beyond n).step
      (fun _ a => ∀ t ch, a = .run t ch → ∀ dev, ch.inodeDev = some dev → dev ∈ special)
      (initial kernel root (bufferInit startBuffer bufferEnd junk cfg.requestFn disk)) s →
    Safe cfg s.shared

end Linux012.Special
