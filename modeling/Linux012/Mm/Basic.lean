import Mathlib.Data.Finset.Prod
import Mathlib.Logic.Function.Basic
import Mathlib.Tactic

/-! # Paging and swapping

The page directory, the page tables, `mem_map` and the swap bit map, and the functions of
`mm/memory.c`, `mm/swap.c` and `kernel/fork.c` that read and change them, each as one
uninterrupted call. Physical addresses are page numbers and linear addresses are pairs of a
directory entry and a table entry. `none` is a panic.
-/

namespace Linux012.Paging

open Function

abbrev LOW_MEM : ℕ := 0x100

abbrev PAGING_PAGES : ℕ := 3840

abbrev SWAP_BITS : ℕ := 32768

abbrev NR_TASKS : ℕ := 64

/-- The count of a page that is not for paging. -/
abbrev USED : ℕ := 100

/-- The 64 MB of a task, in directory entries. -/
abbrev TASK_DIRS : ℕ := 16

/-- `FIRST_VM_PAGE >> 10`. -/
abbrev FIRST_VM_DIR : ℕ := 16

/-- `VM_PAGES`. -/
abbrev VM_PAGES : ℕ := 1024 * 1024 - 16 * 1024

abbrev Bytes := ℕ → UInt8

/-- What a page-table entry holds: zero, the number of a swap page shifted left by one, or a
page with the bits `PAGE_RW` and `PAGE_DIRTY`. -/
inductive Pte
  | none
  | swapped (nr : ℕ)
  | page (p : ℕ) (rw dirty : Bool)
  deriving DecidableEq

namespace Pte

/-- The page that a present entry maps. -/
def page? : Pte → Option ℕ
  | page p _ _ => some p
  | _ => Option.none

/-- The swap page that an entry names. -/
def slot? : Pte → Option ℕ
  | swapped nr => some nr
  | _ => Option.none

@[simp] theorem page?_none : page? none = Option.none := rfl
@[simp] theorem page?_swapped (nr : ℕ) : page? (swapped nr) = Option.none := rfl
@[simp] theorem page?_page (p : ℕ) (rw dirty : Bool) : page? (page p rw dirty) = some p := rfl
@[simp] theorem slot?_none : slot? none = Option.none := rfl
@[simp] theorem slot?_swapped (nr : ℕ) : slot? (swapped nr) = some nr := rfl
@[simp] theorem slot?_page (p : ℕ) (rw dirty : Bool) : slot? (page p rw dirty) = Option.none := rfl

theorem page?_eq_some {e : Pte} {p : ℕ} : e.page? = some p ↔ ∃ rw dirty, e = page p rw dirty := by
  cases e <;> simp [page?]

theorem slot?_eq_some {e : Pte} {nr : ℕ} : e.slot? = some nr ↔ e = swapped nr := by
  cases e <;> simp [slot?]

end Pte

/-- What is printed. -/
inductive Message
  | swapSpaceBad
  | swapInWithoutBitMap
  | swapInPresent
  | noSwapPage
  | swapInMultiply
  | outOfSwapMemory
  | noDeviceSize
  | deviceTooSmall (blocks : ℕ)
  | outOfMemory
  | noSignature
  | badBitMap
  | deviceOk (pages : ℕ)
  | tryingToPut (p : ℕ) (l : ℕ × ℕ)
  | memMapDisagrees (p : ℕ) (l : ℕ × ℕ)
  deriving DecidableEq

/-- `memMap p` is the byte of `mem_map` for the physical page `p`, and `nextEntry` is
`page_entry + 1` of `swap_out`. A page holds either a page table or bytes. `limit` is the data
limit of a task, in directory entries. `handed` and `fresh` are not in the source: the swap
pages handed out so far, with the entries of the page tables at that moment, and the pages
that the last fork got for the child. -/
structure Mm where
  highMemory : ℕ
  memMap : ℕ → ℕ
  pgDir : ℕ → Option ℕ
  table : ℕ → ℕ → Pte
  bytes : ℕ → Bytes
  swapBitmap : Option (ℕ → Bool)
  swapDev : ℕ → Bytes
  dirEntry : ℕ
  nextEntry : ℕ
  task : ℕ → Option ℕ
  limit : ℕ → ℕ
  printed : List Message
  handed : List (ℕ × (ℕ × ℕ → Pte))
  fresh : List ℕ

namespace Mm

/-- The entry for a linear address. -/
def entry (m : Mm) (l : ℕ × ℕ) : Pte :=
  match m.pgDir l.1 with
  | none => .none
  | some t => m.table t l.2

/-- The entry `e` of the page table `t`. -/
def setEntry (m : Mm) (t e : ℕ) (v : Pte) : Mm :=
  { m with table := update m.table t (update (m.table t) e v) }

def setBytes (m : Mm) (p : ℕ) (b : Bytes) : Mm := { m with bytes := update m.bytes p b }

def setCount (m : Mm) (p n : ℕ) : Mm := { m with memMap := update m.memMap p n }

def setDir (m : Mm) (d : ℕ) (v : Option ℕ) : Mm := { m with pgDir := update m.pgDir d v }

def setTask (m : Mm) (n : ℕ) (v : Option ℕ) : Mm := { m with task := update m.task n v }

def print (m : Mm) (msg : Message) : Mm := { m with printed := msg :: m.printed }

/-- `mem_map[MAP_NR(p)]++` on an unsigned char. -/
def incCount (m : Mm) (p : ℕ) : Mm := m.setCount p ((m.memMap p + 1) % 256)

def freePage (m : Mm) (p : ℕ) : Option Mm :=
  if p < LOW_MEM then some m
  else if m.highMemory ≤ p then none
  else if m.memMap p = 0 then none
  else some (m.setCount p (m.memMap p - 1))

/-- The first free swap page from `nr` on, among `k`. -/
def findSwapPage (b : ℕ → Bool) : ℕ → ℕ → Option ℕ
  | 0, _ => none
  | k + 1, nr => if b nr then some nr else findSwapPage b k (nr + 1)

def getSwapPage (m : Mm) : Option (ℕ × Mm) :=
  m.swapBitmap.bind fun b => (findSwapPage b (SWAP_BITS - 1) 1).map fun nr =>
    (nr, { m with
      swapBitmap := some (update b nr false)
      handed := (nr, m.entry) :: m.handed })

def swapFree (m : Mm) (nr : ℕ) : Mm :=
  if nr = 0 then m
  else
    match m.swapBitmap with
    | none => m.print .swapSpaceBad
    | some b =>
      if nr < SWAP_BITS then
        let m := { m with swapBitmap := some (update b nr true) }
        if b nr then m.print .swapSpaceBad else m
      else m.print .swapSpaceBad

def readSwapPage (m : Mm) (nr p : ℕ) : Mm := m.setBytes p (m.swapDev nr)

def writeSwapPage (m : Mm) (nr p : ℕ) : Mm :=
  { m with swapDev := update m.swapDev nr (m.bytes p) }

/-- The result tells whether the entry was emptied. -/
def tryToSwapOut (m : Mm) (t e : ℕ) : Option (Mm × Bool) :=
  match m.table t e with
  | .page p _ dirty =>
    if p < LOW_MEM ∨ LOW_MEM + PAGING_PAGES ≤ p then some (m, false)
    else if dirty then
      if m.memMap p ≠ 1 then some (m, false)
      else
        match m.getSwapPage with
        | none => some (m, false)
        | some (nr, m) =>
          (((m.setEntry t e (.swapped nr)).writeSwapPage nr p).freePage p).map (·, true)
    else ((m.setEntry t e .none).freePage p).map (·, true)
  | _ => some (m, false)

/-- `dir_entry++`, back to the first entry behind the last one. -/
def nextDir (d : ℕ) : ℕ := if 1024 ≤ d + 1 then FIRST_VM_DIR else d + 1

/-- The first loop of `swap_out`, with what is left of the counter divided by 1024. -/
def seekDir (m : Mm) : ℕ → ℕ → ℕ × ℕ
  | 0, d => (d, 0)
  | k + 1, d => if (m.pgDir d).isSome then (d, k + 1) else m.seekDir k (nextDir d)

/-- The loop at `repeat` for at most `k` entries: the entry it ends at, with the counter
unless it is used up. -/
def repeatDir (m : Mm) : ℕ → ℕ → ℕ → ℕ × Option ℕ
  | 0, d, _ => (d, none)
  | k + 1, d, c =>
    if (m.pgDir (nextDir d)).isSome then (nextDir d, some c)
    else if c ≤ 1024 then (nextDir d, none)
    else m.repeatDir k (nextDir d) (c - 1024)

/-- `page_entry++` and what follows when it was the last of its table. -/
def advance (m : Mm) (c : ℕ) : Mm × Option ℕ :=
  if m.nextEntry < 1024 then ({ m with nextEntry := m.nextEntry + 1 }, some c)
  else
    let (d, c) := m.repeatDir 1024 m.dirEntry c
    ({ m with dirEntry := d, nextEntry := 1 }, c)

/-- The second loop of `swap_out`, for at most `k` turns, with the counter `c`. -/
def sweep : ℕ → ℕ → Mm → Option (Mm × Bool)
  | 0, _, m => some (m.print .outOfSwapMemory, false)
  | _ + 1, 0, m => some (m.print .outOfSwapMemory, false)
  | k + 1, c + 1, m =>
    match m.advance c with
    | (m, none) => some (m.print .outOfSwapMemory, false)
    | (m, some c) =>
      match m.pgDir m.dirEntry with
      | none => none
      | some t => (m.tryToSwapOut t (m.nextEntry - 1)).bind fun
        | (m, true) => some (m, true)
        | (m, false) => sweep k c m

def swapOut (m : Mm) : Option (Mm × Bool) :=
  let (d, c) := m.seekDir (VM_PAGES / 1024) m.dirEntry
  sweep VM_PAGES (c * 1024) { m with dirEntry := d }

/-- The last of the first `k` pages of `mem_map` that is free. -/
def lastFree (m : Mm) : ℕ → Option ℕ
  | 0 => none
  | k + 1 => if m.memMap (LOW_MEM + k) = 0 then some (LOW_MEM + k) else m.lastFree k

/-- Mark a page used and clear it. -/
def take (m : Mm) (p : ℕ) : Mm :=
  { m with
    memMap := update m.memMap p 1
    table := update m.table p fun _ => .none
    bytes := update m.bytes p fun _ => 0 }

/-- `get_free_page` with at most `k` turns at `repeat`. -/
def getFreePageIn : ℕ → Mm → Option (Mm × Option ℕ)
  | 0, _ => none
  | k + 1, m =>
    match m.lastFree PAGING_PAGES with
    | some p => if m.highMemory ≤ p then getFreePageIn k (m.take p) else some (m.take p, some p)
    | none => m.swapOut.bind fun
      | (m, true) => getFreePageIn k m
      | (m, false) => some (m, none)

/-- There are at most as many turns as entries to empty. -/
def getFreePage (m : Mm) : Option (Mm × Option ℕ) := getFreePageIn (VM_PAGES + 1) m

/-- The result is `false` where `oom` is called, which does not return. -/
def swapIn (m : Mm) (t e : ℕ) : Option (Mm × Bool) :=
  match m.swapBitmap, m.table t e with
  | none, _ => some (m.print .swapInWithoutBitMap, true)
  | some _, .page .. => some (m.print .swapInPresent, true)
  | some _, .none => some (m.print .noSwapPage, true)
  | some _, .swapped nr => m.getFreePage.map fun
    | (m, none) => (m, false)
    | (m, some p) =>
      let m := m.readSwapPage nr p
      let m := match m.swapBitmap with
        | none => m
        | some b =>
          let m := { m with swapBitmap := some (update b nr true) }
          if b nr then m.print .swapInMultiply else m
      (m.setEntry t e (.page p true true), true)

/-- A turn of the inner loop of `free_page_tables`. -/
def freeEntry (m : Mm) (t e : ℕ) : Option Mm :=
  match m.table t e with
  | .none => some m
  | .page p _ _ => (m.freePage p).map (·.setEntry t e .none)
  | .swapped nr => some ((m.swapFree nr).setEntry t e .none)

/-- The inner loop for the `k` entries from `e` on. -/
def freeEntries (t : ℕ) : ℕ → ℕ → Mm → Option Mm
  | 0, _, m => some m
  | k + 1, e, m => (m.freeEntry t e).bind (freeEntries t k (e + 1))

/-- The outer loop for the `k` directory entries from `d` on. -/
def freeDirs : ℕ → ℕ → Mm → Option Mm
  | 0, _, m => some m
  | k + 1, d, m =>
    match m.pgDir d with
    | none => freeDirs k (d + 1) m
    | some t => (freeEntries t 1024 0 m).bind fun m =>
      (m.freePage t).bind fun m => freeDirs k (d + 1) (m.setDir d none)

/-- `free_page_tables`, for multiples of 4 MB. -/
def freePageTables (m : Mm) (from_ size : ℕ) : Option Mm :=
  if from_ = 0 then none else freeDirs size from_ m

/-- A turn of the inner loop of `copy_page_tables`. The result is `false` where it runs out of
memory. -/
def copyEntry (m : Mm) (ft tt e : ℕ) : Option (Mm × Bool) :=
  match m.table ft e with
  | .none => some (m, true)
  | .swapped nr => m.getFreePage.map fun
    | (m, none) => (m, false)
    | (m, some p) =>
      (((m.readSwapPage nr p).setEntry tt e (.swapped nr)).setEntry ft e (.page p true true), true)
  | .page p _ dirty =>
    let m := m.setEntry tt e (.page p false dirty)
    if LOW_MEM ≤ p then some ((m.setEntry ft e (.page p false dirty)).incCount p, true)
    else some (m, true)

/-- The inner loop for the `k` entries from `e` on. -/
def copyEntries (ft tt : ℕ) : ℕ → ℕ → Mm → Option (Mm × Bool)
  | 0, _, m => some (m, true)
  | k + 1, e, m => (m.copyEntry ft tt e).bind fun
    | (m, false) => some (m, false)
    | (m, true) => copyEntries ft tt k (e + 1) m

/-- The outer loop for `k` directory entries, `nr` entries of each. -/
def copyDirs (nr : ℕ) : ℕ → ℕ → ℕ → Mm → Option (Mm × Bool)
  | 0, _, _, m => some (m, true)
  | k + 1, fd, td, m =>
    if (m.pgDir td).isSome then none
    else
      match m.pgDir fd with
      | none => copyDirs nr k (fd + 1) (td + 1) m
      | some ft => m.getFreePage.bind fun
        | (m, none) => some (m, false)
        | (m, some tt) =>
          (copyEntries ft tt nr 0 { m.setDir td (some tt) with fresh := tt :: m.fresh }).bind fun
            | (m, false) => some (m, false)
            | (m, true) => copyDirs nr k (fd + 1) (td + 1) m

/-- `copy_page_tables`, for multiples of 4 MB. -/
def copyPageTables (m : Mm) (from_ to_ size : ℕ) : Option (Mm × Bool) :=
  copyDirs (if from_ = 0 then 0xA0 else 1024) size from_ to_ m

/-- `copy_mem` for the child `nr` of `cur`. -/
def copyMem (m : Mm) (nr cur : ℕ) : Option (Mm × Bool) :=
  let dataLimit := m.limit cur
  (m.copyPageTables (cur * TASK_DIRS) (nr * TASK_DIRS) dataLimit).bind fun
    | (m, true) => some (m, true)
    | (m, false) => (m.freePageTables (nr * TASK_DIRS) dataLimit).map (·, false)

/-- `copy_process` for the child `nr` of `cur`, up to `copy_mem`. The result is `false` where it
returns `-EAGAIN`. -/
def copyProcess (m : Mm) (nr cur : ℕ) : Option (Mm × Bool) :=
  { m with fresh := [] }.getFreePage.bind fun
    | (m, none) => some (m, false)
    | (m, some p) =>
      let m := { m.setTask nr (some p) with
        limit := update m.limit nr (m.limit cur)
        fresh := [p] }
      (m.copyMem nr cur).bind fun
        | (m, true) => some (m, true)
        | (m, false) => ((m.setTask nr none).freePage p).map (·, false)

/-- `put_page`, and `put_dirty_page` where `dirty` is set. The result is `false` where no page is
free for a page table. -/
def putPage (m : Mm) (p : ℕ) (l : ℕ × ℕ) (dirty : Bool) : Option (Mm × Bool) :=
  let m := if p < LOW_MEM ∨ m.highMemory ≤ p then m.print (.tryingToPut p l) else m
  let m := if m.memMap p ≠ 1 then m.print (.memMapDisagrees p l) else m
  match m.pgDir l.1 with
  | some t => some (m.setEntry t l.2 (.page p true dirty), true)
  | none => m.getFreePage.map fun
    | (m, none) => (m, false)
    | (m, some t) => ((m.setDir l.1 (some t)).setEntry t l.2 (.page p true dirty), true)

/-- The result is `false` where `oom` is called. -/
def getEmptyPage (m : Mm) (l : ℕ × ℕ) : Option (Mm × Bool) :=
  m.getFreePage.bind fun
    | (m, none) => some (m, false)
    | (m, some p) => (m.putPage p l false).bind fun
      | (m, true) => some (m, true)
      | (m, false) => (m.freePage p).map (·, false)

/-- `un_wp_page` for a present entry. The result is `false` where `oom` is called. -/
def unWpPage (m : Mm) (t e : ℕ) : Option (Mm × Bool) :=
  match m.table t e with
  | .page old _ dirty =>
    if LOW_MEM ≤ old ∧ m.memMap old = 1 then some (m.setEntry t e (.page old true dirty), true)
    else m.getFreePage.map fun
      | (m, none) => (m, false)
      | (m, some new) =>
        let m := if LOW_MEM ≤ old then m.setCount old ((m.memMap old + 255) % 256) else m
        ((m.setBytes new (m.bytes old)).setEntry t e (.page new true false), true)
  | _ => some (m, true)

def writeVerify (m : Mm) (l : ℕ × ℕ) : Option (Mm × Bool) :=
  match m.pgDir l.1 with
  | none => some (m, true)
  | some t =>
    match m.table t l.2 with
    | .page _ false _ => m.unWpPage t l.2
    | _ => some (m, true)

/-- The number of swap pages of a device, in `init_swapping`. -/
def swapSize (blocks : ℕ) : ℕ := min (blocks / 4) SWAP_BITS

/-- `bit`, for the bit map in the page `p` and the memory behind it. -/
def bitAt (m : Mm) (p nr : ℕ) : Bool :=
  (m.bytes (p + nr / SWAP_BITS) (nr % SWAP_BITS / 8)).toNat.testBit (nr % 8)

/-- `SWAP-SPACE`. -/
def signature : List UInt8 := [83, 87, 65, 80, 45, 83, 80, 65, 67, 69]

/-- The loop over the bits that are to be zero. The bit `size` is tested in any case. -/
def badBits (m : Mm) (p size : ℕ) : Bool :=
  m.bitAt p 0 || (List.range' size (max 1 (SWAP_BITS - size))).any (m.bitAt p)

/-- `blocks` is the entry of `blk_size` for the device, unless there is no table. -/
def initSwapping (m : Mm) (dev : ℕ) (blocks : Option ℕ) : Option Mm :=
  if dev = 0 then some m
  else
    match blocks with
    | none => some (m.print .noDeviceSize)
    | some blocks =>
      if blocks = 0 then some m
      else if blocks < 100 then some (m.print (.deviceTooSmall blocks))
      else m.getFreePage.bind fun
        | (m, none) => some (m.print .outOfMemory)
        | (m, some p) =>
          let m := m.readSwapPage 0 p
          if (List.range 10).map (fun i => m.bytes p (4086 + i)) ≠ signature then
            (m.print .noSignature).freePage p
          else
            let m := m.setBytes p fun i => if 4086 ≤ i ∧ i < 4096 then 0 else m.bytes p i
            if m.badBits p (swapSize blocks) then (m.print .badBitMap).freePage p
            else
              let j := (List.range' 1 (swapSize blocks - 1)).countP (m.bitAt p)
              if j = 0 then m.freePage p
              else some { m.print (.deviceOk j) with
                swapBitmap := some fun nr => decide (nr < SWAP_BITS) && m.bitAt p nr }

/-- The pages of a task are given back, in `do_exit` and `release`. -/
def exit (m : Mm) (n : ℕ) : Option Mm :=
  match m.task n with
  | none => none
  | some p => (m.freePageTables (n * TASK_DIRS) (m.limit n)).bind fun m =>
    (m.setTask n none).freePage p

/-- `do_execve` gives back the pages of a task, which then has 64 MB. -/
def exec (m : Mm) (n : ℕ) : Option Mm :=
  (m.freePageTables (n * TASK_DIRS) (m.limit n)).map fun m =>
    { m with limit := update m.limit n TASK_DIRS }

/-- The slot that `find_empty_process` finds. -/
def findSlot (m : Mm) : Option ℕ := (List.range' 1 (NR_TASKS - 1)).find? fun i => m.task i = none

/-- A write by a task to an address where the page can be written, for which the processor sets
`PAGE_DIRTY`. -/
def store (m : Mm) (l : ℕ × ℕ) (b : Bytes) : Option Mm :=
  match m.pgDir l.1 with
  | none => none
  | some t =>
    match m.table t l.2 with
    | .page p true _ => some ((m.setEntry t l.2 (.page p true true)).setBytes p b)
    | _ => none

end Mm

end Linux012.Paging
