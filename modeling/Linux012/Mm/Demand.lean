import Linux012.Fs.Exec.Basic
import Linux012.Fs.FileDev.Create

/-! # Loading on demand

`do_no_page` brings in the pages of an executable and its library when they are first used.
What belongs to which file follows from `end_data`, which `do_execve` computes from the sizes
in the header.
-/

namespace Linux012.Demand

open Function FileDev
open Exec (TASK_SIZE LIBRARY_SIZE PAGE_SIZE Header)

abbrev Bytes := ℕ → UInt8

def LIBRARY_OFFSET : ℕ := TASK_SIZE - LIBRARY_SIZE

/-- A file with block mapping, on its device. -/
structure File where
  fs : Fs
  inode : Inode

/-- What `do_no_page` reads of `current`. -/
structure Proc where
  startCode : UInt32
  endData : UInt32
  executable : Option File
  library : Option File

/-- What `do_no_page` finds: the entry of the address names a swap page, `share_page` shares a
page, `get_free_page` and `put_page` get their pages. -/
structure Env where
  swapped : Bool
  shared : Bool
  freePage : Bool
  putPage : Bool

inductive Outcome
  | exit
  | swapIn
  | shared
  | oom
  | installed (page : Bytes)

/-- What a page belongs to. -/
inductive Area
  | library
  | image
  | neither
  deriving DecidableEq

/-- The comparisons of `do_no_page`. -/
def area (endData tmp : UInt32) : Area :=
  if tmp ≥ UInt32.ofNat LIBRARY_OFFSET then .library
  else if tmp < endData then .image
  else .neither

/-- The first block of a page; the header takes one block. -/
def firstBlock (endData tmp : UInt32) : UInt32 :=
  match area endData tmp with
  | .library => 1 + (tmp - UInt32.ofNat LIBRARY_OFFSET) / Exec.BLOCK_SIZE
  | .image => 1 + tmp / Exec.BLOCK_SIZE
  | .neither => 0

/-- What `get_free_page` returns. -/
def cleared : Bytes := fun _ => 0

/-- `COPYBLK` -/
def copyBlock (block : Block) (at_ : ℕ) (page : Bytes) : Bytes := fun o =>
  if at_ ≤ o ∧ o < at_ + BLOCK_SIZE then block (o - at_) else page o

/-- `bread_page` from the address `at_` on, where all blocks can be read. -/
def breadPage (fs : Fs) : List ℕ → ℕ → Bytes → Bytes
  | [], _, page => page
  | b :: bs, at_, page =>
    breadPage fs bs (at_ + BLOCK_SIZE) (if b ≠ 0 then copyBlock (fs.blocks b) at_ page else page)

/-- `i`, an `int`, cut off at 4095. -/
def tail (endData tmp : UInt32) : ℤ :=
  let i := (tmp + 4096 - endData).toBitVec.toInt
  if i > 4095 then 0 else i

/-- `while (i-- > 0)` with `i` turns left. -/
def clearTail : ℕ → ℕ → Bytes → Bytes
  | 0, _, page => page
  | i + 1, tmp, page => clearTail i (tmp - 1) (update page (tmp - 1) 0)

namespace Proc

def file (p : Proc) : Area → Option File
  | .library => p.library
  | .image => p.executable
  | .neither => none

/-- `tmp`, the offset of the page in the process. -/
def offset (p : Proc) (address : UInt32) : UInt32 := address / 4096 * 4096 - p.startCode

end Proc

/-- A page with the bytes of the file from the block on; `none` is a panic of `bmap`. -/
def load (f : File) (block : ℕ) (i : ℤ) : Option Bytes :=
  ((List.range' block 4).mapM fun b => bmap f.fs f.inode fine b).map fun nr =>
    clearTail i.toNat PAGE_SIZE (breadPage f.fs nr 0 cleared)

def doNoPage (p : Proc) (e : Env) (address : UInt32) : Option Outcome :=
  if address - p.startCode > UInt32.ofNat TASK_SIZE then some .exit
  else if e.swapped then some .swapIn
  else
    let tmp := p.offset address
    match p.file (area p.endData tmp) with
    | none => some (if e.freePage && e.putPage then .installed cleared else .oom)
    | some f =>
      if e.shared then some .shared
      else if !e.freePage then some .oom
      else (load f (firstBlock p.endData tmp).toNat (tail p.endData tmp)).map fun page =>
        if e.putPage then .installed page else .oom

/-- A byte of a file; a hole shows zeros. -/
def File.byte (f : File) (x : ℕ) : UInt8 := view f.fs f.inode (x / BLOCK_SIZE) (x % BLOCK_SIZE)

variable {p : Proc} {e : Env} {f exe lib : File} {address endData tmp : UInt32} {page : Bytes}
  {bs : List ℕ} {a b i o x : ℕ}

/-! ## Filling a page -/

theorem clearTail_apply (h : i ≤ a) :
    clearTail i a page o = if a - i ≤ o ∧ o < a then 0 else page o := by
  induction i generalizing a page with
  | zero => simp only [clearTail]; rw [if_neg (by omega)]
  | succ i ih =>
    rw [clearTail, ih (by omega)]
    by_cases ho : o = a - 1
    · subst ho
      rw [if_neg (by omega), update_self, if_pos (by omega)]
    · rw [update_of_ne ho]
      exact if_congr (by omega) rfl rfl

theorem byte_add (h : o < BLOCK_SIZE) : f.byte (BLOCK_SIZE * b + o) = view f.fs f.inode b o := by
  have hpos : 0 < BLOCK_SIZE := by decide
  rw [File.byte, Nat.mul_add_div hpos, Nat.mul_add_mod, Nat.div_eq_of_lt h, Nat.mod_eq_of_lt h,
    Nat.add_zero]

/-- A block of a file, which is left out where the page is still clear if it is a hole -/
theorem copyBlock_byte (hb : b < MAX_BLOCKS) (hpage : ∀ o, a ≤ o → page o = 0) :
    (if zoneAt f.fs f.inode (slotOf b) ≠ 0 then
      copyBlock (f.fs.blocks (zoneAt f.fs f.inode (slotOf b))) a page else page) o =
      if a ≤ o ∧ o < a + BLOCK_SIZE then f.byte (BLOCK_SIZE * b + (o - a)) else page o := by
  by_cases hin : a ≤ o ∧ o < a + BLOCK_SIZE
  · rw [if_pos hin, byte_add (by omega), view]
    by_cases hz : zoneAt f.fs f.inode (slotOf b) = 0
    · rw [if_neg (not_not.mpr hz), if_neg fun h => h.2 hz]
      exact hpage o hin.1
    · rw [if_pos hz, if_pos ⟨hb, hz⟩]
      exact if_pos hin
  · rw [if_neg hin]
    split
    · exact if_neg hin
    · rfl

/-- Block after block of a file from `b` on. -/
theorem breadPage_byte {n : ℕ} (hb : b + n ≤ MAX_BLOCKS) (hpage : ∀ o, a ≤ o → page o = 0) :
    breadPage f.fs ((List.range' b n).map fun b => zoneAt f.fs f.inode (slotOf b)) a page o =
      if a ≤ o ∧ o < a + BLOCK_SIZE * n then f.byte (BLOCK_SIZE * b + (o - a)) else page o := by
  induction n generalizing b a page with
  | zero => exact (if_neg (by omega)).symm
  | succ n ih =>
    rw [List.range'_succ, List.map_cons, breadPage, ih (by omega)]
    · have hn : BLOCK_SIZE * (n + 1) = BLOCK_SIZE * n + BLOCK_SIZE := Nat.mul_succ ..
      have hb' : BLOCK_SIZE * (b + 1) = BLOCK_SIZE * b + BLOCK_SIZE := Nat.mul_succ ..
      rw [copyBlock_byte (by omega) hpage]
      by_cases hrest : a + BLOCK_SIZE ≤ o ∧ o < a + BLOCK_SIZE + BLOCK_SIZE * n
      · rw [if_pos hrest, if_pos (by omega)]
        exact congrArg f.byte (by omega)
      · rw [if_neg hrest]
        by_cases hin : a ≤ o ∧ o < a + BLOCK_SIZE
        · rw [if_pos hin, if_pos (by omega)]
        · rw [if_neg hin, if_neg (by omega)]
    · intro o ho
      rw [copyBlock_byte (by omega) hpage, if_neg (by omega)]
      exact hpage o (by omega)

/-- All blocks of a process can be mapped. -/
theorem load_spec (hb : b + 4 ≤ MAX_BLOCKS) {i : ℤ} (hi : i ≤ 4095) :
    ∃ page, load f b i = some page ∧ ∀ o < PAGE_SIZE,
      page o = if PAGE_SIZE - i.toNat ≤ o then 0 else f.byte (BLOCK_SIZE * b + o) := by
  have hmap : ((List.range' b 4).mapM fun b => bmap f.fs f.inode fine b) =
      some ((List.range' b 4).map fun b => zoneAt f.fs f.inode (slotOf b)) := by
    simp only [List.range'_succ, List.range'_zero, List.mapM_cons, List.mapM_nil, List.map_cons,
      List.map_nil, bmap_fine (show b < MAX_BLOCKS by omega),
      bmap_fine (show b + 1 < MAX_BLOCKS by omega),
      bmap_fine (show b + 1 + 1 < MAX_BLOCKS by omega),
      bmap_fine (show b + 1 + 1 + 1 < MAX_BLOCKS by omega)]
    rfl
  refine ⟨_, by rw [load, hmap, Option.map_some], fun o ho => ?_⟩
  have hpage : ∀ o, 0 ≤ o → cleared o = 0 := fun _ _ => rfl
  have hin : 0 ≤ o ∧ o < 0 + BLOCK_SIZE * 4 := ⟨Nat.zero_le o, (Nat.zero_add _).symm ▸ ho⟩
  have hbyte := breadPage_byte (f := f) (o := o) hb hpage
  rw [if_pos hin, Nat.sub_zero] at hbyte
  rw [clearTail_apply (by simp only [PAGE_SIZE]; omega), hbyte]
  exact if_congr (and_iff_left ho) rfl rfl

/-! ## Offsets -/

/-- `start_code` is that of a task. -/
def Proc.Placed (p : Proc) : Prop := ∃ nr < 64, p.startCode.toNat = nr * TASK_SIZE

/-- The address is one of the process. -/
structure Proc.Holds (p : Proc) (address : UInt32) : Prop where
  le : p.startCode.toNat ≤ address.toNat
  lt : address.toNat < p.startCode.toNat + TASK_SIZE

theorem libraryOffset_toNat : (UInt32.ofNat LIBRARY_OFFSET).toNat = LIBRARY_OFFSET := rfl

theorem Proc.Holds.offset (h : p.Holds address) (hp : p.Placed) :
    (p.offset address).toNat = address.toNat / 4096 * 4096 - p.startCode.toNat := by
  obtain ⟨nr, -, hs⟩ := hp
  have hle := h.le
  have hadd := address.toNat_lt
  have hmul : (address / 4096 * 4096).toNat = address.toNat / 4096 * 4096 := by
    rw [UInt32.toNat_mul, UInt32.toNat_div]
    exact Nat.mod_eq_of_lt (by simp; omega)
  simp only [TASK_SIZE] at hs
  rw [Proc.offset, UInt32.toNat_sub_of_le _ _ (UInt32.le_iff_toNat_le.mpr (by rw [hmul]; omega)),
    hmul]

/-- Offsets are those of pages. -/
theorem Proc.Holds.offset_lt (h : p.Holds address) (hp : p.Placed) :
    (p.offset address).toNat < TASK_SIZE ∧ (p.offset address).toNat % 4096 = 0 := by
  have hoff := h.offset hp
  obtain ⟨nr, -, hs⟩ := hp
  have hlt := h.lt
  simp only [TASK_SIZE] at hs hlt ⊢
  omega

/-- Every page of a process has an address. -/
theorem Proc.Placed.exists_address (hp : p.Placed) (hlt : x < TASK_SIZE) (hx : x % 4096 = 0) :
    ∃ address, p.Holds address ∧ (p.offset address).toNat = x := by
  obtain ⟨nr, hnr, hs⟩ := id hp
  simp only [TASK_SIZE] at hs hlt
  have ha : (UInt32.ofNat (p.startCode.toNat + x)).toNat = p.startCode.toNat + x :=
    UInt32.toNat_ofNat_of_lt' (by simp only [UInt32.size]; omega)
  have h : p.Holds (UInt32.ofNat (p.startCode.toNat + x)) :=
    ⟨by omega, by rw [ha]; simp only [TASK_SIZE]; omega⟩
  refine ⟨_, h, ?_⟩
  rw [h.offset hp, ha]
  omega

theorem ge_library : tmp ≥ UInt32.ofNat LIBRARY_OFFSET ↔ LIBRARY_OFFSET ≤ tmp.toNat :=
  UInt32.le_iff_toNat_le

theorem area_library : area endData tmp = .library ↔ LIBRARY_OFFSET ≤ tmp.toNat := by
  unfold area
  rw [← ge_library]
  split
  · rename_i h
    simp [h]
  · rename_i h
    split <;> simp [UInt32.not_le.mp h]

theorem area_image : area endData tmp = .image ↔
    tmp.toNat < LIBRARY_OFFSET ∧ tmp.toNat < endData.toNat := by
  unfold area
  rw [← UInt32.lt_iff_toNat_lt, ← not_le, ← ge_library]
  split
  · rename_i h
    simp [h]
  · rename_i h
    split <;> simp_all

theorem firstBlock_library (endData : UInt32) (h : LIBRARY_OFFSET ≤ tmp.toNat) :
    (firstBlock endData tmp).toNat = 1 + (tmp.toNat - LIBRARY_OFFSET) / BLOCK_SIZE := by
  have hlt := tmp.toNat_lt
  have hsub := UInt32.toNat_sub_of_le tmp (UInt32.ofNat LIBRARY_OFFSET) (ge_library.mpr h)
  rw [libraryOffset_toNat] at hsub
  unfold firstBlock
  rw [area_library.mpr h, UInt32.toNat_add, UInt32.toNat_div, hsub]
  exact Nat.mod_eq_of_lt (by simp [Exec.BLOCK_SIZE]; omega)

theorem firstBlock_image (h : area endData tmp = .image) :
    (firstBlock endData tmp).toNat = 1 + tmp.toNat / BLOCK_SIZE := by
  have hlt := tmp.toNat_lt
  unfold firstBlock
  rw [h, UInt32.toNat_add, UInt32.toNat_div]
  exact Nat.mod_eq_of_lt (by simp [Exec.BLOCK_SIZE]; omega)

/-- Only in the page that `end_data` lies in something is cleared. -/
theorem tail_spec (endData : UInt32) (ht : tmp.toNat < TASK_SIZE) : tail endData tmp ≤ 4095 ∧
    (tail endData tmp).toNat =
      if tmp.toNat < endData.toNat ∧ endData.toNat < tmp.toNat + 4096 then
        tmp.toNat + 4096 - endData.toNat
      else 0 := by
  have hd := endData.toNat_lt
  simp only [TASK_SIZE] at ht
  have hi : (tmp + 4096 - endData).toBitVec.toInt =
      if endData.toNat ≤ tmp.toNat + 4096 then ((tmp.toNat + 4096 - endData.toNat : ℕ) : ℤ)
      else if endData.toNat - (tmp.toNat + 4096) ≤ 2 ^ 31 then
        -((endData.toNat - (tmp.toNat + 4096) : ℕ) : ℤ)
      else 2 ^ 32 - ((endData.toNat - (tmp.toNat + 4096) : ℕ) : ℤ) := by
    rw [BitVec.toInt_eq_toNat_cond]
    have hn : (tmp + 4096 - endData).toBitVec.toNat =
        (tmp.toNat + 4096 + (2 ^ 32 - endData.toNat)) % 2 ^ 32 := by
      change (tmp + 4096 - endData).toNat = _
      rw [UInt32.toNat_sub, UInt32.toNat_add]
      simp
      omega
    rw [hn]
    split_ifs <;> omega
  have htail : tail endData tmp = if (tmp + 4096 - endData).toBitVec.toInt > 4095 then 0
      else (tmp + 4096 - endData).toBitVec.toInt := rfl
  rw [htail, hi]
  split_ifs <;> omega

/-! ## The pages of a process -/

/-- The byte that `do_no_page` puts at an offset of the process. -/
def Proc.shown (p : Proc) (x : ℕ) : UInt8 :=
  if x < LIBRARY_OFFSET then
    if x < p.endData.toNat then (p.executable.elim 0 fun f => f.byte (BLOCK_SIZE + x)) else 0
  else if p.endData.toNat ≤ x ∧ x < p.endData.toNat / 4096 * 4096 + 4096 ∧ p.endData.toNat % 4096 ≠ 0 then 0
  else p.library.elim 0 fun f => f.byte (BLOCK_SIZE + (x - LIBRARY_OFFSET))

/-- No swap page and no page to share, and pages are free. -/
def calm : Env := ⟨false, false, true, true⟩

theorem tail_cleared {t d : ℕ} (ht : t % 4096 = 0) (ho : o < 4096) :
    PAGE_SIZE - (if t < d ∧ d < t + 4096 then t + 4096 - d else 0) ≤ o ↔
      d ≤ t + o ∧ t + o < d / 4096 * 4096 + 4096 ∧ d % 4096 ≠ 0 := by
  simp only [PAGE_SIZE]
  split <;> omega

theorem image_spec (ha : area p.endData tmp = .image) (hx : p.executable = some f)
    (ht : tmp.toNat % 4096 = 0) :
    ∃ page, load f (firstBlock p.endData tmp).toNat (tail p.endData tmp) = some page ∧
      ∀ o < 4096, page o = p.shown (tmp.toNat + o) := by
  obtain ⟨hlib, hend⟩ := area_image.mp ha
  have hlt : tmp.toNat < TASK_SIZE := by simp only [LIBRARY_OFFSET] at hlib; omega
  obtain ⟨htail, hn⟩ := tail_spec p.endData hlt
  have hb := firstBlock_image ha
  simp only [LIBRARY_OFFSET, TASK_SIZE, LIBRARY_SIZE] at hlib
  obtain ⟨page, hload, hpage⟩ := load_spec (f := f) (b := (firstBlock p.endData tmp).toNat)
    (by rw [hb]; simp only [BLOCK_SIZE, MAX_BLOCKS]; omega) htail
  refine ⟨page, hload, fun o ho => ?_⟩
  have hin : tmp.toNat + o < LIBRARY_OFFSET := by
    simp only [LIBRARY_OFFSET, TASK_SIZE, LIBRARY_SIZE]
    omega
  rw [hpage o ho, hn, if_congr (tail_cleared ht ho) rfl rfl, Proc.shown, if_pos hin, hx]
  by_cases hd : tmp.toNat + o < p.endData.toNat
  · rw [if_neg (by omega), if_pos hd, Option.elim_some, hb]
    exact congrArg f.byte (by simp only [BLOCK_SIZE]; omega)
  · rw [if_pos (by omega), if_neg hd]

theorem library_spec (hl : LIBRARY_OFFSET ≤ tmp.toNat) (hlt : tmp.toNat < TASK_SIZE)
    (hx : p.library = some f) (ht : tmp.toNat % 4096 = 0) :
    ∃ page, load f (firstBlock p.endData tmp).toNat (tail p.endData tmp) = some page ∧
      ∀ o < 4096, page o = p.shown (tmp.toNat + o) := by
  obtain ⟨htail, hn⟩ := tail_spec p.endData hlt
  have hb := firstBlock_library p.endData hl
  simp only [TASK_SIZE] at hlt
  obtain ⟨page, hload, hpage⟩ := load_spec (f := f) (b := (firstBlock p.endData tmp).toNat)
    (by rw [hb]; simp only [BLOCK_SIZE, MAX_BLOCKS]; omega) htail
  refine ⟨page, hload, fun o ho => ?_⟩
  have hout : ¬ tmp.toNat + o < LIBRARY_OFFSET := by omega
  have hat : BLOCK_SIZE * (1 + (tmp.toNat - LIBRARY_OFFSET) / BLOCK_SIZE) + o =
      BLOCK_SIZE + (tmp.toNat + o - LIBRARY_OFFSET) := by
    simp only [LIBRARY_OFFSET, TASK_SIZE, LIBRARY_SIZE, BLOCK_SIZE] at hl ⊢
    omega
  rw [hpage o ho, hn, if_congr (tail_cleared ht ho) rfl rfl, Proc.shown, if_neg hout, hx,
    Option.elim_some, hb, hat]

/-- A page outside of the files is clear. -/
theorem shown_clear (hf : p.file (area p.endData tmp) = none) (ht : tmp.toNat % 4096 = 0)
    (ho : o < 4096) : p.shown (tmp.toNat + o) = 0 := by
  unfold Proc.shown
  cases ha : area p.endData tmp with
  | library =>
    have hl := area_library.mp ha
    rw [ha] at hf
    rw [if_neg (by omega), show p.library = none from hf]
    simp
  | image =>
    obtain ⟨hl, hd⟩ := area_image.mp ha
    have hin : tmp.toNat + o < LIBRARY_OFFSET := by
      simp only [LIBRARY_OFFSET, TASK_SIZE, LIBRARY_SIZE] at hl ⊢
      omega
    rw [ha] at hf
    rw [if_pos hin, show p.executable = none from hf]
    simp
  | neither =>
    have hl : ¬ LIBRARY_OFFSET ≤ tmp.toNat := fun h => by
      rw [area_library.mpr h] at ha
      cases ha
    have hd : ¬ tmp.toNat < p.endData.toNat := fun h => by
      rw [area_image.mpr ⟨not_le.mp hl, h⟩] at ha
      cases ha
    have hin : tmp.toNat + o < LIBRARY_OFFSET := by
      simp only [LIBRARY_OFFSET, TASK_SIZE, LIBRARY_SIZE] at hl ⊢
      omega
    rw [if_pos hin, if_neg (by omega)]

theorem Proc.Holds.not_exit (h : p.Holds address) :
    ¬ address - p.startCode > UInt32.ofNat TASK_SIZE := by
  have hlt := h.lt
  have hsub := UInt32.toNat_sub_of_le address p.startCode (UInt32.le_iff_toNat_le.mpr h.le)
  have hsize : (UInt32.ofNat TASK_SIZE).toNat = TASK_SIZE := rfl
  rw [gt_iff_lt, UInt32.lt_iff_toNat_lt, hsub, hsize]
  omega

/-- `bmap` does not panic for a file that a page of the process belongs to. -/
theorem load_file (hp : p.Placed) (h : p.Holds address)
    (hf : p.file (area p.endData (p.offset address)) = some f) :
    ∃ page, load f (firstBlock p.endData (p.offset address)).toNat
        (tail p.endData (p.offset address)) = some page ∧
      ∀ o < 4096, page o = p.shown ((p.offset address).toNat + o) := by
  obtain ⟨hlt, hmod⟩ := h.offset_lt hp
  cases ha : area p.endData (p.offset address) with
  | library =>
    rw [ha] at hf
    exact library_spec (area_library.mp ha) hlt hf hmod
  | image =>
    rw [ha] at hf
    exact image_spec ha hf hmod
  | neither =>
    rw [ha] at hf
    cases hf

theorem doNoPage_installed (hp : p.Placed) (h : p.Holds address)
    (hi : doNoPage p e address = some (.installed page)) :
    ∀ o < 4096, page o = p.shown ((p.offset address).toNat + o) := by
  intro o ho
  unfold doNoPage at hi
  rw [if_neg h.not_exit] at hi
  split at hi
  · cases hi
  cases hf : p.file (area p.endData (p.offset address)) with
  | none =>
    simp only [hf] at hi
    split at hi
    · cases hi
      exact (shown_clear hf (h.offset_lt hp).2 ho).symm
    · cases hi
  | some f =>
    obtain ⟨page', hload, hpage⟩ := load_file hp h hf
    simp only [hf, hload, Option.map_some] at hi
    split at hi
    · cases hi
    split at hi
    · cases hi
    split at hi
    · cases hi
      exact hpage o ho
    · cases hi

theorem doNoPage_calm (hp : p.Placed) (h : p.Holds address) :
    ∃ page, doNoPage p calm address = some (.installed page) := by
  unfold doNoPage
  rw [if_neg h.not_exit]
  cases hf : p.file (area p.endData (p.offset address)) with
  | none => exact ⟨cleared, by simp [hf, calm]⟩
  | some f =>
    obtain ⟨page, hload, -⟩ := load_file hp h hf
    exact ⟨page, by simp [hf, hload, calm]⟩

/-- The page at the offset `tmp` has the bytes that belong there. -/
structure RightPage (p : Proc) (exe : File) (tmp : ℕ) (page : Bytes) : Prop where
  image : ∀ o < 4096, tmp + o < p.endData.toNat → page o = exe.byte (BLOCK_SIZE + (tmp + o))
  library : ∀ lib, p.library = some lib → LIBRARY_OFFSET ≤ tmp →
    ∀ o < 4096, page o = lib.byte (BLOCK_SIZE + (tmp + o - LIBRARY_OFFSET))
  clear : tmp < LIBRARY_OFFSET ∨ p.library = none →
    ∀ o < 4096, p.endData.toNat ≤ tmp + o → page o = 0

/-- A byte of the library, or zero without a library -/
def Proc.libraryByte (p : Proc) (x : ℕ) : UInt8 :=
  p.library.elim 0 fun lib => lib.byte (BLOCK_SIZE + (x - LIBRARY_OFFSET))

/-- Where the image reaches into the library, both have the same bytes, and the library has zeros
after it in the same page. -/
structure Proc.Agrees (p : Proc) (exe : File) : Prop where
  image : ∀ x, LIBRARY_OFFSET ≤ x → x < TASK_SIZE → x < p.endData.toNat →
    p.libraryByte x = exe.byte (BLOCK_SIZE + x)
  tail : ∀ x, LIBRARY_OFFSET ≤ x → x < TASK_SIZE → p.endData.toNat ≤ x →
    x < p.endData.toNat / 4096 * 4096 + 4096 → p.endData.toNat % 4096 ≠ 0 → p.libraryByte x = 0

/-- It does not reach into the library. -/
theorem Proc.agrees_of_le (h : p.endData.toNat ≤ LIBRARY_OFFSET) : p.Agrees exe where
  image x hl _ hx := by omega
  tail x hl _ hx hend hmod := by
    simp only [LIBRARY_OFFSET, TASK_SIZE, LIBRARY_SIZE] at h hl
    omega

theorem shown_library (hl : LIBRARY_OFFSET ≤ x) : p.shown x =
    if p.endData.toNat ≤ x ∧ x < p.endData.toNat / 4096 * 4096 + 4096 ∧ p.endData.toNat % 4096 ≠ 0
    then 0 else p.libraryByte x := by
  rw [Proc.shown, if_neg (by omega)]
  rfl

/-- All pages are right exactly when the image and the library do not get in each other's way. -/
theorem do_no_page_right (hp : p.Placed) (hx : p.executable = some exe) :
    (∀ e address page, p.Holds address → doNoPage p e address = some (.installed page) →
      RightPage p exe (p.offset address).toNat page) ↔ p.Agrees exe := by
  constructor
  · intro hall
    -- a byte of the library area, in the page that is brought in for it
    have hpage : ∀ x, LIBRARY_OFFSET ≤ x → x < TASK_SIZE → ∃ page,
        RightPage p exe (x / 4096 * 4096) page ∧ page (x % 4096) = p.shown x := by
      intro x hl hlt
      simp only [TASK_SIZE] at hlt
      obtain ⟨address, h, hoff⟩ := hp.exists_address
        (show x / 4096 * 4096 < TASK_SIZE by simp only [TASK_SIZE]; omega) (by omega)
      obtain ⟨page, hi⟩ := doNoPage_calm hp h
      refine ⟨page, hoff ▸ hall calm address page h hi, ?_⟩
      rw [doNoPage_installed hp h hi _ (by omega), hoff]
      congr 1
      omega
    constructor
    · intro x hl hlt hend
      obtain ⟨page, hr, hshown⟩ := hpage x hl hlt
      have hbyte := hr.image (x % 4096) (by omega) (by omega)
      rw [hshown, shown_library hl, if_neg (by omega)] at hbyte
      rw [hbyte]
      congr 2
      omega
    · intro x hl hlt hend hpg hmod
      cases hlib : p.library with
      | none => simp [Proc.libraryByte, hlib]
      | some lib =>
        obtain ⟨page, hr, hshown⟩ := hpage x hl hlt
        have htmp : LIBRARY_OFFSET ≤ x / 4096 * 4096 := by
          simp only [LIBRARY_OFFSET, TASK_SIZE, LIBRARY_SIZE] at hl ⊢
          omega
        have hbyte := hr.library lib hlib htmp (x % 4096) (by omega)
        rw [hshown, shown_library hl, if_pos ⟨hend, hpg, hmod⟩,
          show x / 4096 * 4096 + x % 4096 = x by omega] at hbyte
        rw [Proc.libraryByte, hlib, Option.elim_some, ← hbyte]
  · intro hag e address page h hi
    have hpage := doNoPage_installed hp h hi
    obtain ⟨hlt, hmod⟩ := h.offset_lt hp
    generalize (p.offset address).toNat = tmp at *
    simp only [TASK_SIZE] at hlt
    have hin : ∀ o < 4096, tmp + o < TASK_SIZE := fun o ho => by simp only [TASK_SIZE]; omega
    have hlow : tmp < LIBRARY_OFFSET → ∀ o < 4096, tmp + o < LIBRARY_OFFSET := fun hl o ho => by
      simp only [LIBRARY_OFFSET, TASK_SIZE, LIBRARY_SIZE] at hl ⊢
      omega
    constructor
    · intro o ho hend
      rw [hpage o ho]
      by_cases hl : tmp + o < LIBRARY_OFFSET
      · rw [Proc.shown, if_pos hl, if_pos hend, hx, Option.elim_some]
      · rw [shown_library (not_lt.mp hl), if_neg (by omega)]
        exact hag.image _ (not_lt.mp hl) (hin o ho) hend
    · intro lib hlib hl o ho
      have hl' : LIBRARY_OFFSET ≤ tmp + o := by omega
      have hbyte : p.libraryByte (tmp + o) = lib.byte (BLOCK_SIZE + (tmp + o - LIBRARY_OFFSET)) := by
        rw [Proc.libraryByte, hlib, Option.elim_some]
      rw [hpage o ho, shown_library hl', ← hbyte]
      split
      · rename_i ht
        exact (hag.tail _ hl' (hin o ho) ht.1 ht.2.1 ht.2.2).symm
      · rfl
    · intro hclear o ho hend
      rw [hpage o ho]
      by_cases hl : tmp + o < LIBRARY_OFFSET
      · rw [Proc.shown, if_pos hl, if_neg (by omega)]
      · have hnone : p.library = none := hclear.resolve_left fun h => hl (hlow h o ho)
        rw [shown_library (not_lt.mp hl), Proc.libraryByte, hnone]
        simp

/-- Four blocks of ones after the header. -/
def ones : File where
  fs := { sNzones := 100, sFirstdatazone := 5, sZmap := fun _ => none, blocks := fun _ _ => 1 }
  inode := { iZone := fun k => if k < 7 then k + 5 else 0, iSize := 5 * 1024 }

/-- Nothing but a header -/
def holes : File where
  fs := ones.fs
  inode := { iZone := fun _ => 0, iSize := 1024 }

/-- `text`, `bss` and `syms` are such that both sums wrap around to small ones. -/
def wrapping : Header :=
  { magic := Exec.ZMAGIC, text := 0x3c00fff, data := 0, bss := -0x3c00fff, syms := -0x3c00fff,
    entry := 0, trsize := 0, drsize := 0 }

/-- The first task with the text and the data of a header. -/
def run (ex : Header) (exe lib : File) : Proc :=
  { startCode := 0x4000000, endData := ex.data + ex.text, executable := some exe, library := some lib }

/-- Five pages of zeros run with a library of ones. -/
theorem do_no_page_right_run :
    (∀ e address page, (run { wrapping with text := 0x5000 } holes ones).Holds address →
      doNoPage (run { wrapping with text := 0x5000 } holes ones) e address = some (.installed page) →
      RightPage (run { wrapping with text := 0x5000 } holes ones) holes
        ((run { wrapping with text := 0x5000 } holes ones).offset address).toNat page) ↔
    (run { wrapping with text := 0x5000 } holes ones).Agrees holes :=
  do_no_page_right ⟨1, by decide, rfl⟩ rfl

/-- `end_data` is one byte below the end of the first page of the library: this byte is cleared. -/
theorem do_no_page_wrong : wrapping.ok 1024 = true ∧
    ¬ ∀ e address page, (run wrapping holes ones).Holds address →
      doNoPage (run wrapping holes ones) e address = some (.installed page) →
      RightPage (run wrapping holes ones) holes ((run wrapping holes ones).offset address).toNat
        page := by
  refine ⟨by decide, fun hall => ?_⟩
  have hp : (run wrapping holes ones).Placed := ⟨1, by decide, rfl⟩
  have h : (run wrapping holes ones).Holds 0x7c00000 := ⟨by decide, by decide⟩
  obtain ⟨page, hi⟩ := doNoPage_calm hp h
  have hr := (hall calm 0x7c00000 page h hi).library ones rfl (by decide) 4095 (by decide)
  rw [doNoPage_installed hp h hi 4095 (by decide)] at hr
  exact absurd hr (by decide +kernel)

/-! ## The header -/

/-- What the header checks are to make sure of, in exact arithmetic. -/
structure Exact (ex : Header) (size : UInt32) : Prop where
  image : ex.text.toNat + ex.data.toNat + ex.bss.toNat ≤ 0x3000000
  file : ex.text.toNat + ex.data.toNat + ex.syms.toNat + 1024 ≤ size.toNat

/-- The task has its sizes in order, and no page of its image starts behind the end of the file. -/
structure Installed (size : UInt32) (t : Exec.Task) : Prop where
  code : t.endCode ≤ t.endData
  data : t.endData ≤ t.brk
  brk : t.brk ≤ 0x3000000
  lookup : ∀ tmp, area t.endData tmp = .image → tmp.toNat % 4096 = 0 →
    BLOCK_SIZE * (firstBlock t.endData tmp).toNat < size.toNat

/-- The two sums of the header checks do not wrap around. -/
structure Sums (ex : Header) : Prop where
  image : ex.text.toNat + ex.data.toNat + ex.bss.toNat < 2 ^ 32
  file : ex.text.toNat + ex.data.toNat + ex.syms.toNat + 1024 < 2 ^ 32

variable {ex : Header} {size : UInt32}

theorem toNat_add_of_lt {a b : UInt32} (h : a.toNat + b.toNat < 2 ^ 32) :
    (a + b).toNat = a.toNat + b.toNat := by
  rw [UInt32.toNat_add, Nat.mod_eq_of_lt h]

theorem exact_of_sums (hok : ex.ok size = true) (h : Sums ex) : Exact ex size := by
  have himage := h.image
  have hfile := h.file
  simp only [Header.ok, Bool.and_eq_true, Bool.not_eq_true', Bool.or_eq_false_iff,
    decide_eq_false_iff_not, not_not, gt_iff_lt, decide_eq_true_eq, UInt32.not_lt,
    UInt32.le_iff_toNat_le] at hok
  obtain ⟨⟨⟨-, hi⟩, hf⟩, hoff⟩ := hok
  have hdata : (ex.text + ex.data).toNat = ex.text.toNat + ex.data.toNat :=
    toNat_add_of_lt (by omega)
  have hsyms : (ex.text + ex.data + ex.syms).toNat = (ex.text + ex.data).toNat + ex.syms.toNat :=
    toNat_add_of_lt (by omega)
  have hblock : Exec.BLOCK_SIZE.toNat = 1024 := rfl
  rw [hoff, toNat_add_of_lt (by omega), hsyms, hdata, hblock] at hf
  rw [toNat_add_of_lt (by omega), hdata] at hi
  exact ⟨hi, hf⟩

theorem installed_of_exact (h : Exact ex size) {t : Exec.Task} (hcode : t.endCode = ex.text)
    (hdata : t.endData = ex.data + ex.text) (hbrk : t.brk = ex.bss + (ex.data + ex.text)) :
    Installed size t := by
  obtain ⟨himage, hfile⟩ := h
  have hd : t.endData.toNat = ex.data.toNat + ex.text.toNat :=
    hdata ▸ toNat_add_of_lt (by omega)
  have hb : t.brk.toNat = ex.bss.toNat + t.endData.toNat := by
    rw [hbrk, ← hdata]
    exact toNat_add_of_lt (by omega)
  constructor
  · rw [UInt32.le_iff_toNat_le, hcode]
    omega
  · rw [UInt32.le_iff_toNat_le]
    omega
  · rw [UInt32.le_iff_toNat_le]
    change t.brk.toNat ≤ 0x3000000
    omega
  · intro tmp ha hmod
    obtain ⟨-, hlt⟩ := area_image.mp ha
    rw [firstBlock_image ha]
    simp only [BLOCK_SIZE]
    omega

theorem commit_sizes {inode envc : ℕ} {ids : Exec.Ids} {argc : ℤ} {sp : UInt32} {s s' : Exec.State}
    (h : Exec.commit inode ids ex argc envc sp s = .ok (.ok (), s')) :
    s'.task.endCode = ex.text ∧ s'.task.endData = ex.data + ex.text ∧
      s'.task.brk = ex.bss + (ex.data + ex.text) := by
  unfold Exec.commit at h
  cases hc : Exec.createTables (sp.toNat + Exec.areaBase) argc.toNat envc
      (Exec.changeLdt s.putExecutable) with
  | error e => simp [hc, bind, Except.bind] at h
  | ok r =>
    simp only [hc, bind, Except.bind, Except.ok.injEq, Prod.mk.injEq, true_and] at h
    subst h
    exact ⟨rfl, rfl, rfl⟩

/-- An accepted header has the exact bounds, and so do the sizes that are installed from it, exactly when
no sum of the checks wraps around. -/
theorem header_checks_exact (ex : Header) (size : UInt32) (hok : ex.ok size = true) :
    (Exact ex size ∧ ∀ inode ids argc envc sp s s',
      Exec.commit inode ids ex argc envc sp s = .ok (.ok (), s') → Installed size s'.task) ↔
    Sums ex := by
  constructor
  · rintro ⟨⟨himage, hfile⟩, -⟩
    have hsize := size.toNat_lt
    exact ⟨by omega, by omega⟩
  · intro hs
    have hex := exact_of_sums hok hs
    refine ⟨hex, fun inode ids argc envc sp s s' hc => ?_⟩
    obtain ⟨hcode, hdata, hbrk⟩ := commit_sizes hc
    exact installed_of_exact hex hcode hdata hbrk

theorem header_checks_exact_run :
    (Exact { wrapping with text := 0x5000, bss := 0x100, syms := 0 } 0x6000 ∧
      ∀ inode ids argc envc sp s s',
        Exec.commit inode ids { wrapping with text := 0x5000, bss := 0x100, syms := 0 } argc envc sp s =
          .ok (.ok (), s') → Installed 0x6000 s'.task) ↔
    Sums { wrapping with text := 0x5000, bss := 0x100, syms := 0 } :=
  header_checks_exact { wrapping with text := 0x5000, bss := 0x100, syms := 0 } 0x6000 (by decide)

/-- A text of 60 MB in a file of one block -/
theorem header_checks_wrap : wrapping.ok 1024 = true ∧ ¬ Exact wrapping 1024 :=
  ⟨by decide, fun h => absurd h.image (by decide)⟩

end Linux012.Demand
