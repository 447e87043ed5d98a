import Linux012.Lib.Coop
import Linux012.Fs.Buffer.Basic

/-! # The tasks of the buffer cache

One frame for each place where `fs/buffer.c` and `ll_rw_block` sleep, call or go on
after a call. `code` stands for the rest of the kernel: it holds the buffers it was
given and may change, release or ask for buffers at any time.
-/

namespace Linux012.Buffer

open Function Cache Coop

variable {D : Type*}

inductive Frame
  | code (held : List ℕ)
  | getHashTable (dev : Dev) (block : BlockNr)
  | getHashTableWait (dev : Dev) (block : BlockNr) (bh : ℕ)
  | getblk (dev : Dev) (block : BlockNr)
  | getblkHash (dev : Dev) (block : BlockNr) (bh : ℕ)
  | getblkScan (dev : Dev) (block : BlockNr)
  | getblkWait (dev : Dev) (block : BlockNr) (bh : ℕ)
  | getblkNull
  | brelse (bh : ℕ)
  | bread (dev : Dev) (block : BlockNr)
  | breadGot
  | breadRead (bh : ℕ)
  | breadWait (bh : ℕ)
  | returnNull
  | breadPage (dev : Dev) (todo : List BlockNr) (got : List (Option ℕ))
  | breadPageGot (dev : Dev) (todo : List BlockNr) (got : List (Option ℕ))
  | breadPageRead (dev : Dev) (todo : List BlockNr) (got : List (Option ℕ)) (bh : ℕ)
  | breadPageCopy (got : List (Option ℕ))
  | breada (dev : Dev) (first : BlockNr) (rest : List BlockNr)
  | breadaGot (dev : Dev) (rest : List BlockNr)
  | breadaRead (dev : Dev) (rest : List BlockNr) (bh : ℕ)
  | breadaRest (dev : Dev) (rest : List BlockNr) (bh : ℕ)
  | breadaRestGot (dev : Dev) (rest : List BlockNr) (bh : ℕ)
  | breadaAhead (dev : Dev) (rest : List BlockNr) (bh tmp : ℕ)
  | breadaDrop (dev : Dev) (rest : List BlockNr) (bh tmp : ℕ)
  | syncDev (dev : Dev) (again : Bool) (i : ℕ)
  | syncDevWait (dev : Dev) (again : Bool) (i : ℕ)
  | llRwBlock (rw : Rw) (bh : ℕ)
  | lockBuffer (rw : Rw) (ahead : Bool) (bh : ℕ)
  | findRequest (rw : Rw) (ahead : Bool) (bh : ℕ)
  deriving DecidableEq

/-- What the rest of the kernel does next. -/
inductive Choice (D : Type*)
  | getblk (dev : Dev) (block : BlockNr)
  | getHashTable (dev : Dev) (block : BlockNr)
  | bread (dev : Dev) (block : BlockNr)
  | breadPage (dev : Dev) (b : List BlockNr)
  | breada (dev : Dev) (first : BlockNr) (rest : List BlockNr)
  | syncDev (dev : Dev)
  | brelse (bh : ℕ)
  | store (bh : ℕ) (data : D)
  | done

/-- A function returns a buffer, or `none` for `NULL` and for no value. -/
abbrev Value := Option ℕ

abbrev Piece (D : Type*) := Cache D × Next Frame Value Panic

def NR_BLK_DEV : ℕ := 7

def major (dev : Dev) : ℕ := dev.toNat >>> 8

/-- The code that uses the cache. Bytes are stored into a valid buffer, or into an unlocked
one that they make valid, and the store marks the buffer dirty. -/
def execCode (c : Cache D) (held : List ℕ) : Choice D → Option (Piece D)
  | .getblk dev block => some (c, .call (.code held) (.getblk dev block))
  | .getHashTable dev block => some (c, .call (.code held) (.getHashTable dev block))
  | .bread dev block => some (c, .call (.code held) (.bread dev block))
  | .breadPage dev b => some (c, .call (.code held) (.breadPage dev b []))
  | .breada dev first rest => some (c, .call (.code held) (.breada dev first rest))
  | .syncDev dev => some (c, .call (.code held) (.syncDev dev false 0))
  | .brelse bh =>
    if bh ∈ held then some (c, .call (.code (held.erase bh)) (.brelse bh)) else none
  | .store bh data =>
    if bh ∈ held ∧ ((c.heads bh).bUptodate ∨ ¬ (c.heads bh).bLock) then
      some (c.upd bh fun b =>
        { b with bData := data, bUptodate := true, bDirt := true, stored := true },
        .goto (.code held))
    else none
  | .done => if held = [] then some (c, .ret none) else none

/-- `wait_on_buffer`: sleep until the buffer is unlocked, then go on. -/
def waitOnBuffer (c : Cache D) (bh : ℕ) (self : Frame) (go : Piece D) : Piece D :=
  if (c.heads bh).bLock then (c, .sleep self) else go

/-- The lookup of `get_hash_table`, which takes a reference before it waits. -/
def lookup (c : Cache D) (dev : Dev) (block : BlockNr) (wait : ℕ → Frame)
    (null : Next Frame Value Panic) : Piece D :=
  match findBuffer c dev block with
  | none => (c, null)
  | some bh => (incCount c bh, .goto (wait bh))

/-- The second look of `get_hash_table` after waiting. -/
def recheck (c : Cache D) (dev : Dev) (block : BlockNr) (bh : ℕ) (self again : Frame) : Piece D :=
  waitOnBuffer c bh self <|
    if c.dev bh = dev ∧ c.blk bh = block then (c, .ret (some bh))
    else (decCount c bh, .goto again)

/-- `getblk` after it has chosen a buffer; `sync_dev` comes back to the same place. -/
def takeFree (c : Cache D) (dev : Dev) (block : BlockNr) (bh : ℕ) : Piece D :=
  waitOnBuffer c bh (.getblkWait dev block bh) <|
    if (c.heads bh).bCount ≠ 0 then (c, .goto (.getblk dev block))
    else if (c.heads bh).bDirt then
      (c, .call (.getblkWait dev block bh) (.syncDev (c.dev bh) false 0))
    else if findBuffer c dev block ≠ none then (c, .goto (.getblk dev block))
    else match rekey c dev block bh with
      | none => (c, .panic .freeBlockListCorrupted)
      | some c => (c, .ret (some bh))

/-- The search of `make_request` for an empty request, downwards from below `fuel`. -/
def freeRequest (c : Cache D) : ℕ → Option ℕ
  | 0 => none
  | i + 1 => if c.request i = none then some i else freeRequest c i

def requestLimit : Rw → ℕ
  | .read => NR_REQUEST
  | _ => NR_REQUEST * 2 / 3

/-- `unlock_buffer` of `ll_rw_blk.c`. -/
def unlockBuffer (c : Cache D) (bh : ℕ) : Cache D := c.upd bh fun b => { b with bLock := false }

/-- The request that `make_request` fills in, put on the queue by `add_request`. -/
def addRequest (c : Cache D) (i : ℕ) (rw : Rw) (bh : ℕ) : Cache D :=
  let r := { dev := c.dev bh, cmd := rw, block := c.blk bh, bh := bh }
  { c.upd bh (fun b => { b with bDirt := false }) with
    request := update c.request i (some r) }

/-- `make_request` up to `lock_buffer`, called with the checks of `ll_rw_block`. -/
def llRwBlock (c : Cache D) (rw : Rw) (bh : ℕ) : Piece D :=
  if major (c.dev bh) ≥ NR_BLK_DEV ∨ ¬ c.requestFn (major (c.dev bh)) then (c, .ret none)
  else match rw with
    | .read => (c, .goto (.lockBuffer .read false bh))
    | .write => (c, .goto (.lockBuffer .write false bh))
    | .reada =>
      if (c.heads bh).bLock then (c, .ret none) else (c, .goto (.lockBuffer .read true bh))
    | .writea =>
      if (c.heads bh).bLock then (c, .ret none) else (c, .goto (.lockBuffer .write true bh))

def lockBuffer (c : Cache D) (rw : Rw) (ahead : Bool) (bh : ℕ) : Piece D :=
  waitOnBuffer c bh (.lockBuffer rw ahead bh) <|
    let c := c.upd bh fun b => { b with bLock := true }
    if (rw = .write ∧ ¬ (c.heads bh).bDirt) ∨ (rw = .read ∧ (c.heads bh).bUptodate) then
      (unlockBuffer c bh, .ret none)
    else (c, .goto (.findRequest rw ahead bh))

def findRequest (c : Cache D) (rw : Rw) (ahead : Bool) (bh : ℕ) : Piece D :=
  match freeRequest c (requestLimit rw) with
  | some i => (addRequest c i rw bh, .ret none)
  | none =>
    if ahead then (unlockBuffer c bh, .ret none) else (c, .sleep (.findRequest rw ahead bh))

def syncDev (c : Cache D) (dev : Dev) (again : Bool) (i : ℕ) : Piece D :=
  if i < c.nrBuffers then
    if c.dev i ≠ dev then (c, .goto (.syncDev dev again (i + 1)))
    else (c, .goto (.syncDevWait dev again i))
  else if again then (c, .ret none)
  -- `sync_inodes` reads, changes and releases the blocks of inodes
  else (c, .call (.syncDev dev true 0) (.code []))

def syncDevWait (c : Cache D) (dev : Dev) (again : Bool) (i : ℕ) : Piece D :=
  waitOnBuffer c i (.syncDevWait dev again i) <|
    if c.dev i = dev ∧ (c.heads i).bDirt then
      (c, .call (.syncDev dev again (i + 1)) (.llRwBlock .write i))
    else (c, .goto (.syncDev dev again (i + 1)))

/-- One uninterrupted piece of code. -/
def exec (c : Cache D) (ch : Choice D) : Frame → Option (Piece D)
  | .code held => execCode c held ch
  | .getHashTable dev block =>
    some (lookup c dev block (.getHashTableWait dev block) (.ret none))
  | .getHashTableWait dev block bh =>
    some (recheck c dev block bh (.getHashTableWait dev block bh) (.getHashTable dev block))
  | .getblk dev block =>
    some (lookup c dev block (.getblkHash dev block) (.goto (.getblkScan dev block)))
  | .getblkHash dev block bh =>
    some (recheck c dev block bh (.getblkHash dev block bh) (.getblk dev block))
  | .getblkScan dev block => some <|
    match scanFree c c.nrBuffers c.freeList none with
    | none => (c, .sleep (.getblk dev block))
    | some bh => (c, .goto (.getblkWait dev block bh))
  | .getblkWait dev block bh => some (takeFree c dev block bh)
  | .getblkNull => some (c, .panic .getblkReturnedNull)
  | .brelse bh => some <| waitOnBuffer c bh (.brelse bh) <|
    if (c.heads bh).bCount = 0 then (c, .panic .freeFreeBuffer)
    else (decCount c bh, .ret none)
  | .bread dev block => some (c, .call .breadGot (.getblk dev block))
  | .breadGot => none
  | .breadRead bh => some <|
    if (c.heads bh).bUptodate then (c, .ret (some bh))
    else (c, .call (.breadWait bh) (.llRwBlock .read bh))
  | .breadWait bh => some <| waitOnBuffer c bh (.breadWait bh) <|
    if (c.heads bh).bUptodate then (c, .ret (some bh)) else (c, .call .returnNull (.brelse bh))
  | .returnNull => some (c, .ret none)
  | .breadPage _ [] got => some (c, .goto (.breadPageCopy got))
  | .breadPage dev (b :: todo) got => some <|
    if b = 0 then (c, .goto (.breadPage dev todo (got ++ [none])))
    else (c, .call (.breadPageGot dev todo got) (.getblk dev b))
  | .breadPageGot .. => none
  | .breadPageRead dev todo got bh => some <|
    if (c.heads bh).bUptodate then (c, .goto (.breadPage dev todo (got ++ [some bh])))
    else (c, .call (.breadPage dev todo (got ++ [some bh])) (.llRwBlock .read bh))
  | .breadPageCopy [] => some (c, .ret none)
  | .breadPageCopy (none :: got) => some (c, .goto (.breadPageCopy got))
  | .breadPageCopy (some bh :: got) => some <|
    waitOnBuffer c bh (.breadPageCopy (some bh :: got)) <|
      (c, .call (.breadPageCopy got) (.brelse bh))
  | .breada dev first rest => some (c, .call (.breadaGot dev rest) (.getblk dev first))
  | .breadaGot .. => none
  | .breadaRead dev rest bh => some <|
    if (c.heads bh).bUptodate then (c, .goto (.breadaRest dev rest bh))
    else (c, .call (.breadaRest dev rest bh) (.llRwBlock .read bh))
  | .breadaRest dev (first :: rest) bh =>
    some (c, .call (.breadaRestGot dev rest bh) (.getblk dev first))
  | .breadaRest _ [] bh => some (c, .goto (.breadWait bh))
  | .breadaRestGot .. => none
  | .breadaAhead dev rest bh tmp => some <|
    if (c.heads tmp).bUptodate then (c, .goto (.breadaDrop dev rest bh tmp))
    else (c, .call (.breadaDrop dev rest bh tmp) (.llRwBlock .reada tmp))
  | .breadaDrop dev rest bh tmp => some (decCount c tmp, .goto (.breadaRest dev rest bh))
  | .syncDev dev again i => some (syncDev c dev again i)
  | .syncDevWait dev again i => some (syncDevWait c dev again i)
  | .llRwBlock rw bh => some (llRwBlock c rw bh)
  | .lockBuffer rw ahead bh => some (lockBuffer c rw ahead bh)
  | .findRequest rw ahead bh => some (findRequest c rw ahead bh)

/-- How a frame goes on with the value returned to it. -/
def resume : Frame → Value → Option Frame
  | .code held, some bh => some (.code (bh :: held))
  | .code held, none => some (.code held)
  | .breadGot, some bh => some (.breadRead bh)
  | .breadGot, none => some .getblkNull
  | .breadPageGot dev todo got, some bh => some (.breadPageRead dev todo got bh)
  | .breadPageGot dev todo got, none => some (.breadPage dev todo (got ++ [none]))
  | .breadaGot dev rest, some bh => some (.breadaRead dev rest bh)
  | .breadaGot _ _, none => some .getblkNull
  | .breadaRestGot dev rest bh, some tmp => some (.breadaAhead dev rest bh tmp)
  | .breadaRestGot dev rest bh, none => some (.breadaRest dev rest bh)
  | .getblkWait dev block bh, none => some (.getblkWait dev block bh)
  | .breadWait bh, none => some (.breadWait bh)
  | .returnNull, none => some .returnNull
  | .breadPage dev todo got, none => some (.breadPage dev todo got)
  | .breadPageCopy got, none => some (.breadPageCopy got)
  | .breadaRest dev rest bh, none => some (.breadaRest dev rest bh)
  | .breadaDrop dev rest bh tmp, none => some (.breadaDrop dev rest bh tmp)
  | .syncDev dev again i, none => some (.syncDev dev again i)
  | _, _ => none

/-- The end of the request `i`. A store during the transfer of a write leaves `data`, a mixture of
old and new bytes, on the disk; a failed read leaves `data` in the buffer. -/
structure EndRequest (D : Type*) where
  i : ℕ
  uptodate : Bool
  data : D

def writeDisk (c : Cache D) (dev : Dev) (block : BlockNr) (data : D) : Cache D :=
  { c with disk := update c.disk dev (update (c.disk dev) block data) }

/-- `end_request` with the transfer it reports. Writes are assumed to succeed. -/
def endRequest (e : EndRequest D) (c : Cache D) : Option (Cache D) :=
  (c.request e.i).bind fun r =>
    let c := { c with request := update c.request e.i none }
    match r.cmd with
    | .write =>
      let b := c.heads r.bh
      let c := writeDisk c r.dev r.block (if b.bDirt then e.data else b.bData)
      some (c.upd r.bh fun b =>
        { b with bUptodate := true, bLock := false, stored := b.stored && b.bDirt })
    | .read =>
      let data := if e.uptodate then c.disk r.dev r.block else e.data
      some (c.upd r.bh fun b =>
        { b with bData := data, bUptodate := e.uptodate, bLock := false })
    | _ => none

variable (n : ℕ) (D)

def program : Program n (Cache D) Frame Value (Choice D) (EndRequest D) Panic where
  exec _ ch f c := exec c ch f
  resume := resume
  user
    | .code _ => true
    | _ => false
  intr := endRequest

variable {D}

/-- Every task runs code that holds no buffer yet. -/
def initial (c : Cache D) : State n (Cache D) Frame Panic :=
  { shared := c, stack := fun _ => [.code []], cpu := none, panicked := none }

end Linux012.Buffer
