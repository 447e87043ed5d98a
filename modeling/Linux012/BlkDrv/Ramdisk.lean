import Linux012.Include.Strings.Copy

/-! # The RAM disk

`do_rd_request` serves its requests by moving bytes between their buffers and the memory from `rd_start` on. To
the requests this memory is an array of sectors: a sector that is read holds what was written to it last.
-/

namespace Linux012.Ramdisk

open X86 Strings

def MAJOR_NR : BitVec 32 := 1
def READ : BitVec 32 := 0
def WRITE : BitVec 32 := 1

def MAJOR (a : BitVec 32) : BitVec 32 := a >>> 8
def MINOR (a : BitVec 32) : BitVec 32 := a &&& 0xff

structure Request where
  dev : BitVec 32
  cmd : BitVec 32
  sector : BitVec 32
  nrSectors : BitVec 32
  buffer : Addr
  bh : Option ℕ

/-- The memory, the flags of the buffer heads and the devices of the error messages -/
structure Rd where
  rdStart : Addr
  rdLength : BitVec 32
  mem : Mem
  bLock : ℕ → Bool
  bUptodate : ℕ → Bool
  errors : List (BitVec 32)

inductive Panic
  | listDestroyed
  | blockNotLocked
  | unknownCommand

/-- `memcpy` of `asm/memory.h` -/
def Rd.memcpy (s : Rd) (dest src : Addr) (n : BitVec 32) : Rd := { s with mem := copy s.mem 1 n.toNat dest src }

def Rd.endRequest (s : Rd) (r : Request) (uptodate : Bool) : Rd where
  rdStart := s.rdStart
  rdLength := s.rdLength
  mem := s.mem
  bLock := fun b => if r.bh = some b then false else s.bLock b
  bUptodate := fun b => if r.bh = some b then uptodate else s.bUptodate b
  errors := if uptodate then s.errors else s.errors ++ [r.dev]

/-- What the assembly of `memcpy` leaves -/
theorem memcpy_mem (s : Cpu) (dest src : Addr) (n : BitVec 32) :
    (Strings.memcpy dest src n).Returns s fun _ t => t.mem = copy s.mem 1 n.toNat dest src := by
  obtain ⟨hm, -⟩ := move (Instr.exec ((Strings.memcpy dest src n).load s) .cld) n.toNat
  exact .op rfl (.op rfl (.done ⟨rfl, hm⟩))

/-! ## An array of sectors -/

/-- The bytes of the disk, and the memory beside it -/
structure Disk where
  byte : ℕ → Byte
  mem : Mem

namespace Request

variable (r : Request)

/-- The first byte of a request on the disk -/
def offset : ℕ := r.sector.toNat * 512

def size : ℕ := r.nrSectors.toNat * 512

/-- The request is for the disk, and within it. -/
def Fits (length : ℕ) : Prop := MINOR r.dev = 1 ∧ r.offset + r.size ≤ length

instance (length : ℕ) : Decidable (r.Fits length) := inferInstanceAs (Decidable (_ ∧ _))

/-- What a request does to an array of bytes -/
def serve (length : ℕ) (d : Disk) : Disk :=
  if r.Fits length then
    if r.cmd = WRITE then
      { d with byte := fun i =>
          if r.offset ≤ i ∧ i < r.offset + r.size then d.mem (r.buffer + BitVec.ofNat 32 (i - r.offset))
          else d.byte i }
    else { d with mem := write d.mem r.buffer ((List.range r.size).map fun i => d.byte (r.offset + i)) }
  else d

/-- A request that the upper layers make: the buffer is beside the disk, and no address goes around the end of the
memory. -/
structure Proper (s : Rd) : Prop where
  major : MAJOR r.dev = MAJOR_NR
  cmd : r.cmd = READ ∨ r.cmd = WRITE
  lt : s.rdStart.toNat + r.offset + r.size < 2 ^ 32
  apart : s.rdLength.toNat ≤ (r.buffer - s.rdStart).toNat
  buffer : (r.buffer - s.rdStart).toNat + r.size ≤ 2 ^ 32

end Request

/-- The array of bytes that the memory is to the requests -/
structure Shows (s : Rd) (d : Disk) : Prop where
  byte {i : ℕ} : i < s.rdLength.toNat → s.mem (s.rdStart + BitVec.ofNat 32 i) = d.byte i
  mem {x : Addr} : s.rdLength.toNat ≤ (x - s.rdStart).toNat → s.mem x = d.mem x

variable {s s' : Rd} {d : Disk} {r : Request} {q : List Request} {m : Mem} {a x : Addr} {i j k n : ℕ}

theorem toNat_shiftLeft {v : BitVec 32} (h : v.toNat * 512 < 2 ^ 32) : (v <<< 9).toNat = v.toNat * 512 := by
  rw [BitVec.toNat_shiftLeft, Nat.shiftLeft_eq]
  exact Nat.mod_eq_of_lt h

/-- The distance of two addresses that are counted from the same one -/
theorem toNat_sub_of_lt (hj : j < 2 ^ 32) (hk : k < 2 ^ 32) :
    ((a + BitVec.ofNat 32 j) - (a + BitVec.ofNat 32 k)).toNat = if k ≤ j then j - k else j + 2 ^ 32 - k := by
  have hself : ((a + BitVec.ofNat 32 j) - a).toNat = j := by
    rw [BitVec.add_comm, BitVec.add_sub_cancel, BitVec.toNat_ofNat, Nat.mod_eq_of_lt hj]
  have h := toNat_sub_add (x := a + BitVec.ofNat 32 j) (a := a) hk
  rw [hself] at h
  split_ifs <;> omega

theorem exists_offset (a x : Addr) : ∃ j < 2 ^ 32, x = a + BitVec.ofNat 32 j ∧ (x - a).toNat = j := by
  refine ⟨(x - a).toNat, (x - a).isLt, ?_, rfl⟩
  rw [BitVec.ofNat_toNat, BitVec.setWidth_eq, BitVec.add_comm, BitVec.sub_add_cancel]

theorem bytes_eq_map : bytes m a n = (List.range n).map fun i => m (a + BitVec.ofNat 32 i) := by
  induction n with
  | zero => rfl
  | succ n ih => rw [bytes_concat, ih, List.range_succ, List.map_append, List.map_singleton]

theorem write_bytes_of_lt {b : Addr} (h : (x - a).toNat < n) :
    write m a (bytes m b n) x = m (b + BitVec.ofNat 32 (x - a).toNat) := by
  rw [write, bytes_eq_map, List.getElem?_map, List.getElem?_range h]
  rfl

/-! ## Requests -/

theorem Request.Proper.size_eq (h : r.Proper s) : (r.nrSectors <<< 9).toNat = r.size := by
  have hlt := h.lt
  unfold Request.size at hlt
  exact toNat_shiftLeft (by omega)

/-- The buffer lies behind the disk, counted from its first byte. -/
theorem Request.Proper.exists_buffer (h : r.Proper s) :
    ∃ b < 2 ^ 32, r.buffer = s.rdStart + BitVec.ofNat 32 b ∧ s.rdLength.toNat ≤ b ∧ b + r.size ≤ 2 ^ 32 := by
  obtain ⟨b, hb, hbuf, hdist⟩ := exists_offset s.rdStart r.buffer
  exact ⟨b, hb, hbuf, hdist ▸ h.apart, hdist ▸ h.buffer⟩

theorem Request.Proper.mem_memcpy {dest src : Addr} (h : r.Proper s)
    (hclear : r.size ≤ (dest - src).toNat ∨ dest = src) :
    (s.memcpy dest src (r.nrSectors <<< 9)).mem = write s.mem dest (bytes s.mem src r.size) := by
  have hlt := h.lt
  unfold Rd.memcpy
  rw [h.size_eq]
  exact copy_forward hclear (by omega)

/-- A write changes the bytes of its sectors. -/
theorem shows_write (h : Shows s d) (hr : r.Proper s) (hin : r.offset + r.size ≤ s.rdLength.toNat)
    (hfits : r.Fits s.rdLength.toNat) (hcmd : r.cmd = WRITE) :
    Shows (s.memcpy (s.rdStart + BitVec.ofNat 32 r.offset) r.buffer (r.nrSectors <<< 9))
      (r.serve s.rdLength.toNat d) := by
  have hlen := s.rdLength.isLt
  obtain ⟨b, hb, hbuf, hapart, hbuffer⟩ := hr.exists_buffer
  have hclear : r.size ≤ (s.rdStart + BitVec.ofNat 32 r.offset - r.buffer).toNat ∨
      s.rdStart + BitVec.ofNat 32 r.offset = r.buffer := by
    rw [hbuf, toNat_sub_of_lt (by omega) hb]
    split_ifs <;> omega
  have hmem := hr.mem_memcpy hclear
  unfold Request.serve
  rw [if_pos hfits, if_pos hcmd]
  refine ⟨fun {i} hi => ?_, fun {x} hx => ?_⟩
  · change i < s.rdLength.toNat at hi
    change (s.memcpy _ _ _).mem (s.rdStart + BitVec.ofNat 32 i) =
      if r.offset ≤ i ∧ i < r.offset + r.size then _ else _
    have hto := toNat_sub_of_lt (a := s.rdStart) (by omega : i < 2 ^ 32) (by omega : r.offset < 2 ^ 32)
    rw [hmem]
    by_cases hmine : r.offset ≤ i ∧ i < r.offset + r.size
    · rw [if_pos hmine.1] at hto
      rw [if_pos hmine, write_bytes_of_lt (by omega), hto]
      apply h.mem
      rw [hbuf, BitVec.add_assoc, ← BitVec.ofNat_add, BitVec.add_comm, BitVec.add_sub_cancel, BitVec.toNat_ofNat]
      rw [Nat.mod_eq_of_lt (by omega)]
      omega
    · rw [if_neg hmine, write_of_le, h.byte hi]
      rw [length_bytes, hto]
      split_ifs <;> omega
  · change s.rdLength.toNat ≤ (x - s.rdStart).toNat at hx
    change (s.memcpy _ _ _).mem x = d.mem x
    rw [hmem, write_of_le, h.mem hx]
    obtain ⟨j, hj, rfl, hj'⟩ := exists_offset s.rdStart x
    rw [length_bytes, toNat_sub_of_lt hj (by omega)]
    rw [hj'] at hx
    split_ifs <;> omega

/-- A read changes the bytes of its buffer. -/
theorem shows_read (h : Shows s d) (hr : r.Proper s) (hin : r.offset + r.size ≤ s.rdLength.toNat)
    (hfits : r.Fits s.rdLength.toNat) (hcmd : r.cmd ≠ WRITE) :
    Shows (s.memcpy r.buffer (s.rdStart + BitVec.ofNat 32 r.offset) (r.nrSectors <<< 9))
      (r.serve s.rdLength.toNat d) := by
  have hlen := s.rdLength.isLt
  obtain ⟨b, hb, hbuf, hapart, hbuffer⟩ := hr.exists_buffer
  have hclear : r.size ≤ (r.buffer - (s.rdStart + BitVec.ofNat 32 r.offset)).toNat ∨
      r.buffer = s.rdStart + BitVec.ofNat 32 r.offset := by
    rw [hbuf, toNat_sub_of_lt hb (by omega)]
    split_ifs <;> omega
  have hmem := hr.mem_memcpy hclear
  have hbytes : bytes s.mem (s.rdStart + BitVec.ofNat 32 r.offset) r.size =
      (List.range r.size).map fun i => d.byte (r.offset + i) := by
    rw [bytes_eq_map]
    refine List.map_congr_left fun i hi => ?_
    rw [BitVec.add_assoc, ← BitVec.ofNat_add]
    exact h.byte (by have := List.mem_range.mp hi; omega)
  unfold Request.serve
  rw [if_pos hfits, if_neg hcmd, ← hbytes]
  refine ⟨fun {i} hi => ?_, fun {x} hx => ?_⟩
  · change i < s.rdLength.toNat at hi
    change (s.memcpy _ _ _).mem (s.rdStart + BitVec.ofNat 32 i) = d.byte i
    rw [hmem, write_of_le, h.byte hi]
    rw [length_bytes, hbuf, toNat_sub_of_lt (by omega) hb]
    split_ifs <;> omega
  · change (s.memcpy _ _ _).mem x = write d.mem r.buffer _ x
    rw [hmem, write, write, h.mem hx]

/-- What a request leaves: its bytes are moved if it is within the disk. -/
def Rd.served (s : Rd) (r : Request) : Rd :=
  if r.Fits s.rdLength.toNat then
    if r.cmd = WRITE then
      (s.memcpy (s.rdStart + BitVec.ofNat 32 r.offset) r.buffer (r.nrSectors <<< 9)).endRequest r true
    else (s.memcpy r.buffer (s.rdStart + BitVec.ofNat 32 r.offset) (r.nrSectors <<< 9)).endRequest r true
  else s.endRequest r false

theorem Shows.endRequest (h : Shows s d) (r : Request) (uptodate : Bool) : Shows (s.endRequest r uptodate) d :=
  ⟨h.byte, h.mem⟩

theorem Shows.served (h : Shows s d) (hr : r.Proper s) : Shows (s.served r) (r.serve s.rdLength.toNat d) := by
  unfold Rd.served
  by_cases hfits : r.Fits s.rdLength.toNat
  · rw [if_pos hfits]
    by_cases hcmd : r.cmd = WRITE
    · rw [if_pos hcmd]
      exact (shows_write h hr hfits.2 hfits hcmd).endRequest r true
    · rw [if_neg hcmd]
      exact (shows_read h hr hfits.2 hfits hcmd).endRequest r true
  · rw [if_neg hfits, Request.serve, if_neg hfits]
    exact h.endRequest r false

theorem Request.Proper.of_same (h : r.Proper s) (hstart : s'.rdStart = s.rdStart)
    (hlen : s'.rdLength = s.rdLength) : r.Proper s' where
  major := h.major
  cmd := h.cmd
  lt := hstart ▸ h.lt
  apart := hstart ▸ hlen ▸ h.apart
  buffer := hstart ▸ h.buffer

end Linux012.Ramdisk
