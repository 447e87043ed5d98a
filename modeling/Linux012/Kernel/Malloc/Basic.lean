import Linux012.Lib.Runs
import Linux012.Lib.Threads

/-! # The kernel allocator

`malloc` and `free_s` of `lib/malloc.c`. A page holds objects of one size; the free ones are threaded
through their own first words. The descriptors of the pages are on a chain for each size or on the
list of the free descriptors.
-/

namespace Linux012.Malloc

open Function Links

def PAGE_SIZE : ℕ := 4096

/-- `sizeof(struct bucket_desc)` -/
def BUCKET_DESC : ℕ := 16

/-- The sizes in `bucket_dir` -/
def bucketDir : List ℕ := [16, 32, 64, 128, 256, 512, 1024, 2048, 4096]

/-- `chain` is that of the entry of `bucket_dir` with a size. The fields of `struct bucket_desc` are
given for each descriptor by its address, and `mem` is the first word of an object, as a pointer.
Not in the source: `live` lists the objects with the lengths they were asked for, `held` the pages
of objects, `descPages` the pages of descriptors. -/
structure Heap where
  chain : ℕ → Option ℕ
  freeBucketDesc : Option ℕ
  page : ℕ → ℕ
  next : ℕ → Option ℕ
  freeptr : ℕ → Option ℕ
  refcnt : ℕ → ℕ
  bucketSize : ℕ → ℕ
  mem : ℕ → Option ℕ
  live : List (ℕ × ℕ)
  held : List ℕ
  descPages : List ℕ

namespace Heap

/-- No loop over descriptors takes more steps than there are descriptors. -/
def steps (s : Heap) : ℕ := PAGE_SIZE / BUCKET_DESC * s.descPages.length + 1

/-- `first` is what `get_free_page` returns. -/
def initBucketDesc (first : ℕ) (s : Heap) : Heap :=
  { s with
    next := thread BUCKET_DESC s.freeBucketDesc (PAGE_SIZE / BUCKET_DESC) first s.next
    freeBucketDesc := some first
    descPages := first :: s.descPages }

/-- A descriptor `bdesc` that is free gets the page `cp`. -/
def fill (bdesc cp size : ℕ) (s : Heap) : Heap :=
  { s with
    freeBucketDesc := s.next bdesc
    refcnt := update s.refcnt bdesc 0
    bucketSize := update s.bucketSize bdesc size
    page := update s.page bdesc cp
    freeptr := update s.freeptr bdesc (some cp)
    mem := thread size none (PAGE_SIZE / size) cp s.mem
    next := update s.next bdesc (s.chain size)
    chain := update s.chain size (some bdesc)
    held := cp :: s.held }

/-- The branch of `malloc` that allocates a bucket. -/
def newBucket (first cp size : ℕ) (s : Heap) : Option (ℕ × Heap) :=
  let s := if s.freeBucketDesc = none then s.initBucketDesc first else s
  s.freeBucketDesc.map fun bdesc => (bdesc, s.fill bdesc cp size)

/-- The end of `malloc`. -/
def take (len bdesc : ℕ) (s : Heap) : Option (ℕ × Heap) :=
  (s.freeptr bdesc).map fun retval =>
    (retval, { s with
      freeptr := update s.freeptr bdesc (s.mem retval)
      refcnt := update s.refcnt bdesc (s.refcnt bdesc + 1)
      live := (retval, len) :: s.live })

/-- `malloc`; `first` and `cp` are what `get_free_page` returns. -/
def malloc (first cp len : ℕ) (s : Heap) : Option (ℕ × Heap) :=
  match bucketDir.find? fun size => len ≤ size with
  | none => none
  | some size =>
    match scan s.next (fun bdesc => (s.freeptr bdesc).isSome) s.steps none (s.chain size) with
    | none => none
    | some (_, some bdesc) => s.take len bdesc
    | some (_, none) => (s.newBucket first cp size).bind fun (bdesc, s) => s.take len bdesc

/-- The search of `free_s`: the entry of `bucket_dir`, `prev` and `bdesc`. -/
def findDesc (page : ℕ) (size : ℤ) (s : Heap) : List ℕ → Option (ℕ × Option ℕ × ℕ)
  | [] => none
  | bdir :: rest =>
    if bdir < size then s.findDesc page size rest
    else
      match scan s.next (fun bdesc => s.page bdesc = page) s.steps none (s.chain bdir) with
      | none => none
      | some (prev, some bdesc) => some (bdir, prev, bdesc)
      | some (_, none) => s.findDesc page size rest

/-- `prev` is looked up once more when it is not the one before `bdesc` any longer. -/
def checkPrev (bdir : ℕ) (prev : Option ℕ) (bdesc : ℕ) (s : Heap) : Option (Option ℕ) :=
  let stale : Bool :=
    match prev with
    | some prev => s.next prev != some bdesc
    | none => s.chain bdir != some bdesc
  if stale then
    (scan s.next (fun prev => s.next prev = some bdesc) s.steps none (s.chain bdir)).map Prod.snd
  else some prev

/-- The descriptor leaves its chain; the panic is that the chains are corrupted. -/
def unlinkDesc (bdir : ℕ) (prev : Option ℕ) (bdesc : ℕ) (s : Heap) : Option Heap :=
  match prev with
  | some prev => some { s with next := update s.next prev (s.next bdesc) }
  | none =>
    if s.chain bdir ≠ some bdesc then none
    else some { s with chain := update s.chain bdir (s.next bdesc) }

/-- The descriptor of a page that is returned goes to the free ones. -/
def freePage (bdesc : ℕ) (s : Heap) : Heap :=
  { s with
    held := s.held.erase (s.page bdesc)
    next := update s.next bdesc s.freeBucketDesc
    freeBucketDesc := some bdesc }

/-- The object becomes the first free one. -/
def giveBack (obj bdesc : ℕ) (s : Heap) : Heap :=
  { s with
    mem := update s.mem obj (s.freeptr bdesc)
    freeptr := update s.freeptr bdesc (some obj)
    refcnt := update s.refcnt bdesc (s.refcnt bdesc - 1)
    live := s.live.filter fun x => x.1 ≠ obj }

def freeS (obj : ℕ) (size : ℤ) (s : Heap) : Option Heap := do
  let (bdir, prev, bdesc) ← s.findDesc (obj / PAGE_SIZE * PAGE_SIZE) size bucketDir
  let s := s.giveBack obj bdesc
  if s.refcnt bdesc = 0 then
    let prev ← s.checkPrev bdir prev bdesc
    let s ← s.unlinkDesc bdir prev bdesc
    some (s.freePage bdesc)
  else some s

end Heap

/-! ## Runs -/

/-- `store` is what the owner of an object does with its memory. -/
inductive Call
  | malloc (len first cp : ℕ)
  | free (obj : ℕ) (size : ℤ)
  | store (obj : ℕ) (data : ℕ → Option ℕ)

def step : Call → Heap → Option Heap
  | .malloc len first cp, s => (s.malloc first cp len).map Prod.snd
  | .free obj size, s => s.freeS obj size
  | .store obj data, s =>
    (s.live.lookup obj).map fun len =>
      { s with mem := fun a => if obj ≤ a ∧ a < obj + len then data a else s.mem a }

def boot (page refcnt bucketSize : ℕ → ℕ) (next freeptr mem : ℕ → Option ℕ) : Heap where
  chain _ := none
  freeBucketDesc := none
  page := page
  next := next
  freeptr := freeptr
  refcnt := refcnt
  bucketSize := bucketSize
  mem := mem
  live := []
  held := []
  descPages := []

/-- A page that `get_free_page` may return. -/
def Fresh (s : Heap) (p : ℕ) : Prop := PAGE_SIZE ∣ p ∧ p ∉ s.held ∧ p ∉ s.descPages

/-- The descriptor `d` is on the chain of the objects of the size `b`. -/
def Bucket (s : Heap) (b d : ℕ) : Prop :=
  b ∈ bucketDir ∧ ∃ l, Path s.next (s.chain b) l ∧ d ∈ l

/-- The objects of a page -/
def slots (s : Heap) (b d : ℕ) : List ℕ := cells b (s.page d) (PAGE_SIZE / b)

/-- `malloc` is called for up to a page, with fresh pages at hand, `free_s` for a live object with a
size up to that of its bucket. -/
def Legal (s : Heap) : Call → Prop
  | .malloc len first cp => len ≤ PAGE_SIZE ∧ Fresh s first ∧ Fresh s cp ∧ first ≠ cp
  | .free obj size =>
    (∃ len, (obj, len) ∈ s.live) ∧ ∀ b d, Bucket s b d → obj ∈ slots s b d → size ≤ b
  | .store obj _ => ∃ len, (obj, len) ∈ s.live

end Linux012.Malloc
