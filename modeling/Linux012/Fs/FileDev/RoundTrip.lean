import Linux012.Fs.FileDev.Zones

/-! # What is written is read

A regular file is a size and the bytes below it. `file_write` lays the bytes it has
written over them, and `file_read` gives them back as long as it can read the indirect
blocks of the file.
-/

namespace Linux012.FileDev

open Function Splice Runs

variable {fs fs' : Fs} {inode inode' : Inode} {s s' : Sys} {bad : ℕ → ℕ → Bool}
  {b pos pos' fuel left i i' : ℕ} {buf got got' : List UInt8}

/-! ## Files -/

/-- A file: bytes that were never written are zero. -/
structure File where
  size : ℕ
  byte : ℕ → UInt8
  zero : ∀ p, size ≤ p → byte p = 0

namespace File

variable {f : File} {l l₁ l₂ : List UInt8}

@[ext] theorem ext {f g : File} (hs : f.size = g.size) (hb : f.byte = g.byte) : f = g := by
  cases f; cases g; cases hs; cases hb; rfl

def write (f : File) (pos : ℕ) (l : List UInt8) : File where
  size := if l = [] then f.size else max f.size (pos + l.length)
  byte := splice f.byte pos l
  zero p hp := by
    split_ifs at hp with hl
    · rw [hl, splice_nil]
      exact f.zero p hp
    · rw [splice_of_ge (by omega)]
      exact f.zero p (by omega)

/-- The bytes that a read of `count` bytes is about. -/
def read (f : File) (pos count : ℕ) : List UInt8 := slice f.byte pos (min count (f.size - pos))

@[simp] theorem write_nil : f.write pos [] = f := ext rfl splice_nil

theorem write_append (h₁ : l₁ ≠ []) (pos : ℕ) (l₂ : List UInt8) :
    (f.write pos l₁).write (pos + l₁.length) l₂ = f.write pos (l₁ ++ l₂) := by
  refine ext ?_ splice_append
  simp only [write, List.append_eq_nil_iff, h₁, false_and, if_false, List.length_append]
  split_ifs with h₂
  · simp [h₂]
  · omega

/-- What has been written is read. -/
theorem read_write (hl : l ≠ []) : (f.write pos l).read pos l.length = l := by
  have hle : min l.length ((f.write pos l).size - pos) = l.length := by
    simp only [write, if_neg hl]
    omega
  rw [read, hle]
  exact slice_splice

end File

/-! ## The file of an inode -/

def content (fs : Fs) (inode : Inode) : ℕ → UInt8 := flat BLOCK_SIZE (view fs inode)

def MAX_SIZE : ℕ := MAX_BLOCKS * BLOCK_SIZE

/-- A well-formed inode; a block that is partly beyond the size holds zeros there. -/
structure Sound (fs : Fs) (inode : Inode) : Prop where
  wf : Wf fs inode
  size : inode.iSize ≤ MAX_SIZE
  tail : ∀ p, inode.iSize ≤ p → content fs inode p = 0

def Sound.file (h : Sound fs inode) : File := ⟨inode.iSize, content fs inode, h.tail⟩

theorem Ext.sound (h : Ext fs inode fs' inode') (hs : Sound fs inode) :
    ∃ hs' : Sound fs' inode', hs'.file = hs.file := by
  have hc : content fs' inode' = content fs inode := by
    rw [content, content, funext h.view]
  exact ⟨⟨h.wf, h.size ▸ hs.size, fun p hp => by rw [hc]; exact hs.tail p (h.size ▸ hp)⟩,
    File.ext h.size hc⟩

/-! ## Writing -/

theorem zoneAt_resize (n : ℕ) (s : Slot) :
    zoneAt fs { inode with iSize := n } s = zoneAt fs inode s := by
  induction s with
  | root k => rfl
  | entry p k ih => rw [zoneAt, zoneAt, ih]

theorem Wf.resize (h : Wf fs inode) (n : ℕ) : Wf fs { inode with iSize := n } where
  ok := h.ok
  used s hs h0 := by
    rw [zoneAt_resize] at h0 ⊢
    exact h.used s hs h0
  inj s s' hs hs' h0 he := by
    simp only [zoneAt_resize] at h0 he
    exact h.inj s s' hs hs' h0 he

theorem view_resize (n : ℕ) : view fs { inode with iSize := n } = view fs inode := by
  funext b
  rw [view, view, zoneAt_resize]

/-- One chunk of `file_write`, which stays in a block. -/
theorem Sound.store (h : Sound fs inode) (hb : pos / BLOCK_SIZE < MAX_BLOCKS) {z : ℕ}
    (hz : zoneAt fs inode (slotOf (pos / BLOCK_SIZE)) = z) (hz0 : z ≠ 0) {l : List UInt8}
    (hl : l ≠ []) (hfit : pos % BLOCK_SIZE + l.length ≤ BLOCK_SIZE) {n : ℕ} (hn : l.length = n) :
    ∃ h' : Sound
        { fs with blocks := update fs.blocks z (splice (fs.blocks z) (pos % BLOCK_SIZE) l) }
        (grow inode (pos + n)), h'.file = h.file.write pos l := by
  subst hn
  obtain ⟨hwf, hview⟩ := store_spec h.wf hb hz hz0 (splice (fs.blocks z) (pos % BLOCK_SIZE) l)
  generalize { fs with blocks := update fs.blocks z _ } = fs' at hwf hview ⊢
  have hold : view fs inode (pos / BLOCK_SIZE) = fs.blocks z := by
    rw [view, hz, if_pos ⟨hb, hz0⟩]
  have hc : content fs' inode = splice (content fs inode) pos l := by
    rw [content, hview, ← hold]
    exact flat_update hfit
  have hgrow : Wf fs' (grow inode (pos + l.length)) ∧
      content fs' (grow inode (pos + l.length)) = splice (content fs inode) pos l ∧
      (grow inode (pos + l.length)).iSize = max inode.iSize (pos + l.length) := by
    unfold grow
    split_ifs with hn
    · refine ⟨hwf.resize _, ?_, (max_eq_right hn.le).symm⟩
      rw [content, view_resize]
      exact hc
    · exact ⟨hwf, hc, (max_eq_left (Nat.le_of_not_lt hn)).symm⟩
  obtain ⟨hw, hbyte, hsize⟩ := hgrow
  have hf : (h.file.write pos l).size = max inode.iSize (pos + l.length) := if_neg hl
  have hmax : pos + l.length ≤ MAX_SIZE := by
    have := Nat.div_add_mod pos BLOCK_SIZE
    simp only [MAX_SIZE, BLOCK_SIZE] at *
    omega
  have := h.size
  refine ⟨⟨hw, by omega, fun p hp => ?_⟩, File.ext (hsize.trans hf.symm) hbyte⟩
  rw [hbyte]
  exact (h.file.write pos l).zero p (by rwa [hf, ← hsize])

/-- The loop of `file_write` writes the bytes it moves over the file. -/
theorem fileWriteLoop_spec (h : Sound fs inode) (hfuel : buf.length ≤ fuel)
    (hr : fileWriteLoop bad fuel fs inode pos buf i = some (fs', inode', pos', i')) :
    ∃ (h' : Sound fs' inode') (n : ℕ), n ≤ buf.length ∧ i' = i + n ∧ pos' = pos + n ∧
      h'.file = h.file.write pos (buf.take n) := by
  induction fuel generalizing fs inode pos buf i with
  | zero =>
    obtain ⟨rfl, rfl, rfl, rfl⟩ := by simpa [fileWriteLoop] using hr
    exact ⟨h, 0, by simp, by simp, by simp, by simp⟩
  | succ fuel ih =>
    rw [fileWriteLoop] at hr
    split_ifs at hr with hbuf
    · obtain ⟨rfl, rfl, rfl, rfl⟩ := by simpa using hr
      exact ⟨h, 0, by simp, by simp, by simp, by simp⟩
    · obtain ⟨⟨fs₁, inode₁, z⟩, hmap, hr⟩ := Option.bind_eq_some_iff.mp hr
      obtain ⟨hb, hext, hz⟩ := _bmap_spec h.wf hmap
      obtain ⟨h₁, hfile⟩ := hext.sound h
      dsimp only at hr
      have hstop : ∀ h₀ : some (fs₁, inode₁, pos, i) = some (fs', inode', pos', i'),
          ∃ (h' : Sound fs' inode') (n : ℕ), n ≤ buf.length ∧ i' = i + n ∧ pos' = pos + n ∧
            h'.file = h.file.write pos (buf.take n) := by
        intro h₀
        obtain ⟨rfl, rfl, rfl, rfl⟩ := by simpa using h₀
        exact ⟨h₁, 0, by simp, by simp, by simp, by simpa using hfile⟩
      split_ifs at hr with hz0 hread
      · exact hstop hr
      · exact hstop hr
      · set c := min (BLOCK_SIZE - pos % BLOCK_SIZE) buf.length with hcdef
        have hpos : 0 < buf.length := List.length_pos_of_ne_nil hbuf
        have hlt : pos % BLOCK_SIZE < BLOCK_SIZE := Nat.mod_lt _ (by simp [BLOCK_SIZE])
        have hlen : (buf.take c).length = c := by rw [List.length_take]; omega
        have hne : buf.take c ≠ [] := fun he => by
          rw [he, List.length_nil] at hlen
          omega
        obtain ⟨h₂, hfile₂⟩ := h₁.store hb (hz hz0) hz0 hne (by omega) hlen
        obtain ⟨h', n, hn, rfl, rfl, hfile'⟩ :=
          ih h₂ (by rw [List.length_drop]; omega) hr
        rw [List.length_drop] at hn
        refine ⟨h', c + n, by omega, by omega, by omega, ?_⟩
        have happ := File.write_append (f := h₁.file) hne pos ((buf.drop c).take n)
        rw [hlen] at happ
        rw [hfile', hfile₂, happ, hfile, ← List.take_add]

theorem fileWriteLoop_isSome (hend : pos + buf.length ≤ MAX_SIZE) :
    (fileWriteLoop bad fuel fs inode pos buf i).isSome := by
  induction fuel generalizing fs inode pos buf i with
  | zero => rfl
  | succ fuel ih =>
    rw [fileWriteLoop]
    split_ifs with hbuf
    · rfl
    · have hpos : 0 < buf.length := List.length_pos_of_ne_nil hbuf
      have hb : pos / BLOCK_SIZE < MAX_BLOCKS := by
        rw [Nat.div_lt_iff_lt_mul (by simp [BLOCK_SIZE])]
        exact (show pos < MAX_SIZE by omega)
      obtain ⟨r, hmap⟩ := Option.isSome_iff_exists.mp
        (_bmap_isSome hb)
      rw [createBlock, hmap, Option.bind_some]
      obtain ⟨fs₁, inode₁, z⟩ := r
      dsimp only
      split_ifs
      · rfl
      · rfl
      all_goals exact ih (by rw [List.length_drop]; omega)

/-! ## Reading -/

/-- Block `b` of the file holds some of the `n` bytes from `pos` on. -/
def Covers (pos n b : ℕ) : Prop := ∃ i < n, (pos + i) / BLOCK_SIZE = b

/-- The read of the zone of the block does not fail. -/
def DataReads (fs : Fs) (inode : Inode) (bad : ℕ → ℕ → Bool) (b : ℕ) : Prop :=
  zoneAt fs inode (slotOf b) ≠ 0 → bad b (zoneAt fs inode (slotOf b)) = false

/-- No read of an indirect block fails for a block that `file_read` comes to. -/
def MapReads (fs : Fs) (inode : Inode) (bad : ℕ → ℕ → Bool) (pos n : ℕ) : Prop :=
  ∀ b, Covers pos n b → (∀ b' < b, Covers pos n b' → DataReads fs inode bad b') →
    (slotOf b).Reads fs inode (bad b)

theorem covers_first (h : 0 < left) : Covers pos left (pos / BLOCK_SIZE) := ⟨0, h, rfl⟩

theorem Covers.le (h : Covers pos left b) : pos / BLOCK_SIZE ≤ b := by
  obtain ⟨i, -, rfl⟩ := h
  exact Nat.div_le_div_right (by omega)

/-- A covered block is the first one, or covered by what is left behind its end. -/
theorem covers_chunk_iff {c : ℕ} (hc : c = min (BLOCK_SIZE - pos % BLOCK_SIZE) left) (h : 0 < left) :
    Covers pos left b ↔ b = pos / BLOCK_SIZE ∨ Covers (pos + c) (left - c) b := by
  have hlt : pos % BLOCK_SIZE < BLOCK_SIZE := Nat.mod_lt _ (by simp [BLOCK_SIZE])
  constructor
  · rintro ⟨i, hi, rfl⟩
    rcases Nat.lt_or_ge i c with hic | hic
    · exact .inl (div_of_chunk (n := c) (by omega) hic).1
    · refine .inr ⟨i - c, by omega, ?_⟩
      rw [Nat.add_assoc, Nat.add_sub_cancel' hic]
  · rintro (rfl | ⟨i, hi, rfl⟩)
    · exact covers_first h
    · exact ⟨c + i, by omega, by rw [Nat.add_assoc]⟩

/-- The loop of `file_read` moves bytes of the file, up to a block that cannot be read. -/
theorem fileReadLoop_spec (got : List UInt8) (hend : pos + left ≤ MAX_SIZE) (hfuel : left ≤ fuel)
    (hm : MapReads fs inode bad pos left) :
    ∃ n ≤ left, fileReadLoop fs inode bad fuel pos left got =
        some (pos + n, got ++ slice (content fs inode) pos n) ∧
      ((∀ b, Covers pos left b → DataReads fs inode bad b) → n = left) := by
  induction fuel generalizing pos left got with
  | zero => exact ⟨0, by omega, by simp [fileReadLoop], fun _ => by omega⟩
  | succ fuel ih =>
    rw [fileReadLoop]
    split_ifs with hleft
    · exact ⟨0, by omega, by simp, fun _ => hleft.symm⟩
    · have hpos : 0 < left := Nat.pos_of_ne_zero hleft
      have hb : pos / BLOCK_SIZE < MAX_BLOCKS := by
        rw [Nat.div_lt_iff_lt_mul (by simp [BLOCK_SIZE])]
        exact (show pos < MAX_SIZE by omega)
      have hfirst := hm _ (covers_first hpos) fun b' hlt hb' => absurd hb'.le (by omega)
      dsimp only
      rw [bmap_spec hb hfirst, Option.bind_some]
      by_cases hstop : zoneAt fs inode (slotOf (pos / BLOCK_SIZE)) ≠ 0 ∧
          bread fs (bad (pos / BLOCK_SIZE)) (zoneAt fs inode (slotOf (pos / BLOCK_SIZE))) = none
      · rw [if_pos hstop]
        refine ⟨0, by omega, by simp, fun hall => ?_⟩
        have := hall _ (covers_first hpos) hstop.1
        simp [bread, this] at hstop
      · rw [if_neg hstop]
        set c := min (BLOCK_SIZE - pos % BLOCK_SIZE) left with hc
        have hlt : pos % BLOCK_SIZE < BLOCK_SIZE := Nat.mod_lt _ (by simp [BLOCK_SIZE])
        have hdata : DataReads fs inode bad (pos / BLOCK_SIZE) := fun hz => by
          by_contra hbad
          exact hstop ⟨hz, by simp [bread, hbad]⟩
        have hm' : MapReads fs inode bad (pos + c) (left - c) := fun b hb hbefore =>
          hm b ((covers_chunk_iff hc hpos).mpr (.inr hb)) fun b' hlt' hb' =>
            ((covers_chunk_iff hc hpos).mp hb').elim (fun he => he ▸ hdata) (hbefore b' hlt')
        obtain ⟨n, hn, hloop, hall⟩ := ih (got ++ slice (view fs inode (pos / BLOCK_SIZE)) (pos % BLOCK_SIZE) c)
          (by omega) (by omega) hm'
        have hview : (if zoneAt fs inode (slotOf (pos / BLOCK_SIZE)) ≠ 0 then
            fs.blocks (zoneAt fs inode (slotOf (pos / BLOCK_SIZE))) else fun _ => 0) =
            view fs inode (pos / BLOCK_SIZE) := by simp only [view, hb, true_and]
        refine ⟨c + n, by omega, ?_, fun hreads => ?_⟩
        · rw [hview, hloop, slice_add, ← slice_flat (by omega), List.append_assoc, Nat.add_assoc]
          rfl
        · have := hall fun b hb => hreads b ((covers_chunk_iff hc hpos).mpr (.inr hb))
          omega

/-! ## Runs of calls -/

/-- A well-formed inode with its open files. -/
structure Sys.Ok (s : Sys) : Prop where
  sound : Sound s.fs s.inode
  pos : ∀ fd, (s.filp fd).fPos < 2 ^ 31

def Sys.Ok.file (h : s.Ok) : File := h.sound.file

/-- Where `file_write` starts. -/
def Sys.start (s : Sys) (fd : ℕ) : ℕ :=
  if (s.filp fd).append then s.inode.iSize else (s.filp fd).fPos

/-- A write ends below the maximum file size. -/
def InRange (s : Sys) : Op → Prop
  | .write fd buf _ => s.start fd + buf.length ≤ MAX_SIZE
  | _ => True

/-- No read of an indirect block fails in a `file_read`. -/
def Mapped (s : Sys) : Op → Prop
  | .read fd count bad => MapReads s.fs s.inode bad (s.filp fd).fPos
      (min count (s.inode.iSize - (s.filp fd).fPos))
  | _ => True

def base (s : Sys) (fd : ℕ) : Origin → ℕ
  | .SEEK_SET => 0
  | .SEEK_CUR => (s.filp fd).fPos
  | .SEEK_END => s.inode.iSize

/-- What a call does to a file, with its result. -/
inductive Behaves (f : File) (s : Sys) : Op → File → Sys → Prop
  | lseek {fd : ℕ} {offset : BitVec 32} {origin : Origin} {s' : Sys} (pos : ℕ) :
      (pos : ℤ) = base s fd origin + offset.toInt → s'.filp = (s.setPos fd pos).filp →
      s'.ret = pos → Behaves f s (.lseek fd offset origin) f s'
  | lseekFail {fd : ℕ} {offset : BitVec 32} {origin : Origin} {s' : Sys} :
      base s fd origin + offset.toInt < 0 ∨ 2 ^ 31 ≤ base s fd origin + offset.toInt →
      s'.filp = s.filp → s'.ret = -EINVAL → Behaves f s (.lseek fd offset origin) f s'
  | read {fd count : ℕ} {bad : ℕ → ℕ → Bool} {s' : Sys} (n : ℕ) :
      n ≤ (f.read (s.filp fd).fPos count).length →
      s'.data = (f.read (s.filp fd).fPos count).take n →
      s'.ret = (if f.read (s.filp fd).fPos count = [] then 0 else if n = 0 then -ERROR else n) →
      s'.filp = (s.setPos fd ((s.filp fd).fPos + n)).filp →
      ((∀ b z, bad b z = false) → n = (f.read (s.filp fd).fPos count).length) →
      Behaves f s (.read fd count bad) f s'
  | write {fd : ℕ} {buf : List UInt8} {bad : ℕ → ℕ → Bool} {s' : Sys} (n : ℕ) :
      n ≤ buf.length →
      s'.ret = (if buf = [] then 0 else if n = 0 then (-1 : ℤ) else n) →
      s'.filp = (if (s.filp fd).append then s.filp
        else (s.setPos fd ((s.filp fd).fPos + n)).filp) →
      Behaves f s (.write fd buf bad) (f.write (s.start fd) (buf.take n)) s'

theorem setPos_self (fd : ℕ) : (s.setPos fd (s.filp fd).fPos).filp = s.filp := by
  rw [Sys.setPos, update_eq_self]

theorem Sys.Ok.setPos (h : s.Ok) {fd pos : ℕ} (hpos : pos < 2 ^ 31) :
    ∀ fd', ((s.setPos fd pos).filp fd').fPos < 2 ^ 31 := by
  intro fd'
  simp only [Sys.setPos, update_apply]
  split_ifs
  · exact hpos
  · exact h.pos fd'

/-- The 32-bit sum of a position and an offset, when it is not negative and when it is. -/
theorem toInt_add_cases {x : ℕ} (hx : x < 2 ^ 31) (y : BitVec 32) :
    (0 ≤ (BitVec.ofNat 32 x + y).toInt ∧
      ((BitVec.ofNat 32 x + y).toNat : ℤ) = x + y.toInt) ∨
    ((BitVec.ofNat 32 x + y).toInt < 0 ∧ (x + y.toInt < 0 ∨ 2 ^ 31 ≤ x + y.toInt)) := by
  have hsum : (BitVec.ofNat 32 x + y).toInt = ((x : ℤ) + y.toInt).bmod (2 ^ 32) := by
    rw [BitVec.toInt_add, BitVec.toInt_ofNat', Int.bmod_add_bmod]
  have h₁ := BitVec.toInt_lt (x := y)
  have h₂ := BitVec.le_toInt (x := y)
  have hnat := BitVec.toInt_eq_toNat_cond (BitVec.ofNat 32 x + y)
  have hlt := (BitVec.ofNat 32 x + y).isLt
  rw [Int.bmod_def] at hsum
  split_ifs at hsum hnat <;> omega

theorem sysLseek_behaves (h : s.Ok) (fd : ℕ) (offset : BitVec 32) (origin : Origin) :
    ∃ h' : (sysLseek s fd offset origin).Ok,
      Behaves h.file s (.lseek fd offset origin) h'.file (sysLseek s fd offset origin) := by
  have hbase : base s fd origin < 2 ^ 31 := by
    cases origin with
    | SEEK_SET => exact Nat.two_pow_pos 31
    | SEEK_CUR => exact h.pos fd
    | SEEK_END =>
      have := h.sound.size
      simp only [MAX_SIZE, MAX_BLOCKS, BLOCK_SIZE] at this
      simp only [base]
      omega
  have heq : sysLseek s fd offset origin =
      if (BitVec.ofNat 32 (base s fd origin) + offset).toInt < 0 then s.return (-EINVAL)
      else (s.setPos fd (BitVec.ofNat 32 (base s fd origin) + offset).toNat).return
        (BitVec.ofNat 32 (base s fd origin) + offset).toNat := by
    cases origin with
    | SEEK_SET => simp only [sysLseek, base, BitVec.zero_add]
    | SEEK_CUR => rfl
    | SEEK_END => rfl
  rw [heq]
  obtain ⟨hnn, hnat⟩ | ⟨hneg, hout⟩ := toInt_add_cases hbase offset
  · rw [if_neg (not_lt.mpr hnn)]
    have hlt : (BitVec.ofNat 32 (base s fd origin) + offset).toNat < 2 ^ 31 := by
      have hcond := BitVec.toInt_eq_toNat_cond (BitVec.ofNat 32 (base s fd origin) + offset)
      split_ifs at hcond <;> omega
    exact ⟨⟨h.sound, h.setPos hlt⟩, .lseek _ hnat rfl rfl⟩
  · rw [if_pos hneg]
    exact ⟨⟨h.sound, h.pos⟩, .lseekFail hout rfl rfl⟩

theorem Sys.Ok.pos_le (h : s.Ok) {p : ℕ} (hp : p ≤ MAX_SIZE) {fd : ℕ} :
    ∀ fd', ((s.setPos fd p).filp fd').fPos < 2 ^ 31 := by
  refine h.setPos (hp.trans_lt ?_)
  simp only [MAX_SIZE, MAX_BLOCKS, BLOCK_SIZE]
  omega

theorem sysRead_behaves (h : s.Ok) {fd count : ℕ} {bad : ℕ → ℕ → Bool}
    (hm : Mapped s (.read fd count bad)) :
    ∃ s', sysRead s fd count bad = some s' ∧
      ∃ h' : s'.Ok, Behaves h.file s (.read fd count bad) h'.file s' := by
  have hcount : (if count + (s.filp fd).fPos > s.inode.iSize then
      s.inode.iSize - (s.filp fd).fPos else count) =
      min count (s.inode.iSize - (s.filp fd).fPos) := by
    split_ifs <;> omega
  have hlen : (h.file.read (s.filp fd).fPos count).length =
      min count (s.inode.iSize - (s.filp fd).fPos) := length_slice
  simp only [sysRead, hcount, fileRead]
  simp only [Mapped] at hm
  generalize hleft : min count (s.inode.iSize - (s.filp fd).fPos) = left at hm hlen
  by_cases h0 : left = 0
  · subst h0
    have hnil : h.file.read (s.filp fd).fPos count = [] := List.length_eq_zero_iff.mp hlen
    refine ⟨s.return 0, by simp, ⟨h.sound, h.pos⟩, .read 0 (Nat.zero_le _) rfl ?_ ?_ ?_⟩
    · rw [if_pos hnil]; rfl
    · exact (setPos_self fd).symm
    · intro _; rw [hlen]
  · rw [if_neg h0, if_neg h0]
    have hsize := h.sound.size
    obtain ⟨n, hn, hloop, hall⟩ := fileReadLoop_spec [] (by omega) le_rfl hm
    have hdata : slice (content s.fs s.inode) (s.filp fd).fPos n =
        (h.file.read (s.filp fd).fPos count).take n := by
      have : h.file.read (s.filp fd).fPos count =
          slice (content s.fs s.inode) (s.filp fd).fPos (n + (left - n)) := by
        rw [Nat.add_sub_cancel' hn, ← hleft]
        rfl
      rw [this, slice_add, List.take_left' length_slice]
    have hne : h.file.read (s.filp fd).fPos count ≠ [] := fun he => by
      rw [he, List.length_nil] at hlen
      exact h0 hlen.symm
    rw [hloop]
    refine ⟨_, rfl, ⟨h.sound, h.pos_le (by omega)⟩,
      .read n (hlen ▸ hn) hdata ?_ rfl fun hgood => ?_⟩
    · rw [if_neg hne]
      by_cases hn0 : n = 0
      · subst hn0; rfl
      · have hs : slice (content s.fs s.inode) (s.filp fd).fPos n ≠ [] := fun he =>
          hn0 (by simpa using congrArg List.length he)
        simp only [List.nil_append, if_neg hs, if_neg hn0, length_slice]
    · rw [hlen]
      exact hall fun b _ _ => hgood _ _

theorem sysWrite_behaves (h : s.Ok) {fd : ℕ} {bad : ℕ → ℕ → Bool}
    (hs : sysWrite s fd buf bad = some s') :
    ∃ h' : s'.Ok, Behaves h.file s (.write fd buf bad) h'.file s' := by
  unfold sysWrite at hs
  split_ifs at hs with hbuf
  · obtain rfl := Option.some.inj hs
    have hb : Behaves h.file s (.write fd buf bad) (h.file.write (s.start fd) (buf.take 0))
        (s.return 0) :=
      .write 0 (Nat.zero_le _) (by rw [if_pos hbuf]; rfl) (by simp [Sys.return, setPos_self])
    rw [List.take_zero, File.write_nil] at hb
    exact ⟨⟨h.sound, h.pos⟩, hb⟩
  · obtain ⟨⟨fs', inode', pos', i'⟩, hloop, rfl⟩ := Option.map_eq_some_iff.mp hs
    obtain ⟨h', n, hn, rfl, rfl, hfile⟩ := fileWriteLoop_spec h.sound le_rfl hloop
    have hpos : s.start fd + n < 2 ^ 31 ∨ (s.filp fd).append = true := by
      by_cases ha : (s.filp fd).append = true
      · exact .inr ha
      · left
        have hstart : s.start fd = (s.filp fd).fPos := if_neg ha
        by_cases hn0 : n = 0
        · have := h.pos fd
          omega
        · have hne : buf.take n ≠ [] := fun he => by
            have := congrArg List.length he
            rw [List.length_take, List.length_nil] at this
            omega
          have hsize : inode'.iSize = max s.inode.iSize (s.start fd + (buf.take n).length) :=
            (congrArg File.size hfile).trans (if_neg hne)
          have hmax := h'.size
          rw [List.length_take] at hsize
          simp only [MAX_SIZE, MAX_BLOCKS, BLOCK_SIZE] at hmax
          omega
    have hb : ∀ s' : Sys, s'.ret = (if buf = [] then 0 else if n = 0 then (-1 : ℤ) else n) →
        s'.filp = (if (s.filp fd).append then s.filp
          else (s.setPos fd ((s.filp fd).fPos + n)).filp) →
        Behaves h.file s (.write fd buf bad) h'.file s' := fun s' h₁ h₂ => by
      rw [hfile]
      exact .write n hn h₁ h₂
    have hret : ((if 0 + n = 0 then -1 else ((0 + n : ℕ) : ℤ)) : ℤ) =
        if buf = [] then 0 else if n = 0 then (-1 : ℤ) else n := by
      rw [if_neg hbuf, Nat.zero_add]
    by_cases ha : (s.filp fd).append = true
    · dsimp only
      rw [if_pos ha]
      exact ⟨⟨h', h.pos⟩, hb _ hret (if_pos ha).symm⟩
    · have hstart : s.start fd = (s.filp fd).fPos := if_neg ha
      dsimp only
      rw [if_neg ha, if_neg ha]
      refine ⟨⟨h', h.setPos (s := s) ?_⟩, hb _ hret (if_neg ha).symm⟩
      rw [← hstart]
      exact hpos.resolve_right ha

theorem Sys.Ok.step (h : s.Ok) {op : Op} (hm : Mapped s op) (hs : step op s = some s') :
    ∃ h' : s'.Ok, Behaves h.file s op h'.file s' := by
  cases op with
  | lseek fd offset origin =>
    obtain rfl := Option.some.inj hs
    exact sysLseek_behaves h fd offset origin
  | read fd count bad =>
    obtain ⟨s₁, hr, hb⟩ := sysRead_behaves h hm
    obtain rfl := Option.some.inj (hr.symm.trans hs)
    exact hb
  | write fd buf bad => exact sysWrite_behaves h hs

/-- No call in range panics. -/
theorem Sys.Ok.progress (h : s.Ok) {op : Op} (hm : Mapped s op) (hr : InRange s op) :
    (FileDev.step op s).isSome := by
  cases op with
  | lseek fd offset origin => rfl
  | read fd count bad =>
    obtain ⟨s₁, hr, -⟩ := sysRead_behaves h hm
    exact Option.isSome_iff_exists.mpr ⟨s₁, hr⟩
  | write fd buf bad =>
    simp only [FileDev.step, sysWrite, fileWrite]
    split_ifs
    · rfl
    all_goals
      rw [Option.isSome_map]
      apply fileWriteLoop_isSome
      simpa [InRange, Sys.start, *] using hr

/-- In every run of calls in which no read of an indirect block fails in a `file_read`, each call
treats the inode as the file it stands for. -/
theorem file_round_trip {s₀ s : Sys} (h₀ : s₀.Ok) (h : Run step Mapped s₀ s) :
    ∃ hs : s.Ok, ∀ op, Mapped s op →
      (InRange s op → (step op s).isSome) ∧
      ∀ s', step op s = some s' → ∃ hs' : s'.Ok, Behaves hs.file s op hs'.file s' := by
  have hs : s.Ok := h.invariant h₀ fun s op s' hi hm hs => (hi.step hm hs).1
  exact ⟨hs, fun op hm => ⟨hs.progress hm, fun s' h' => hs.step hm h'⟩⟩

/-! ## A new file -/

theorem zoneAt_empty (h : ∀ k, inode.iZone k = 0) (s : Slot) : zoneAt fs inode s = 0 := by
  induction s with
  | root k => exact h k
  | entry p k ih => exact if_pos ih

theorem Fs.Ok.sound_empty (h : fs.Ok) (hz : ∀ k, inode.iZone k = 0) (hs : inode.iSize ≤ MAX_SIZE) :
    Sound fs inode where
  wf := ⟨h, fun s _ h0 => absurd (zoneAt_empty hz s) h0,
    fun s _ _ _ h0 => absurd (zoneAt_empty hz s) h0⟩
  size := hs
  tail p _ := by
    rw [content, flat, view, if_neg]
    exact fun h => h.2 (zoneAt_empty hz _)

/-- A device with 90 zones, all free, and an empty file that is open once. -/
def newFile : Sys where
  fs :=
    { sNzones := 100, sFirstdatazone := 10
      sZmap := fun i => if i = 0 then some fun j => j == 0 else none
      blocks := fun _ _ => 0xff }
  inode := { iZone := fun _ => 0, iSize := 0 }
  filp _ := { fPos := 0, append := false }
  ret := 0
  data := []

theorem newFile_ok : newFile.Ok where
  sound := by
    refine Fs.Ok.sound_empty ⟨by decide, by decide, fun m hm => ?_⟩ (fun _ => rfl) (by decide)
    obtain rfl := Option.some.inj hm
    rfl
  pos _ := Nat.two_pow_pos 31

/-- The reads of a call that all succeed. -/
def good : ℕ → ℕ → Bool := fun _ _ => false

/-- One byte has been written behind the direct blocks, and `f_pos` set back to it. -/
def grown : Sys :=
  (runList step [.lseek 0 7168 .SEEK_SET, .write 0 [5] good] newFile).get (by decide +kernel)

def written : Sys := sysLseek grown 0 7168 .SEEK_SET

theorem run_grown :
    runList step [.lseek 0 7168 .SEEK_SET, .write 0 [5] good] newFile = some grown :=
  (Option.some_get _).symm

theorem mapped_good {fd count : ℕ} : Mapped s (.read fd count good) := by
  intro b _ _
  induction slotOf b with
  | root k => trivial
  | entry p k ih => exact ⟨ih, fun _ => rfl⟩

theorem file_round_trip_written : ∃ s' : Sys, ∃ hs : written.Ok, ∃ hs' : s'.Ok,
    step (.read 0 1 good) written = some s' ∧
      Behaves hs.file written (.read 0 1 good) hs'.file s' := by
  have heach : Each step Mapped [.lseek 0 7168 .SEEK_SET, .write 0 [5] good] newFile :=
    fun _ _ => ⟨trivial, fun _ _ => ⟨trivial, trivial⟩⟩
  have hrun : Run step Mapped newFile written :=
    (Run.of_each heach run_grown).tail (a := .lseek 0 7168 .SEEK_SET) trivial rfl
  obtain ⟨hs, hall⟩ := file_round_trip newFile_ok hrun
  obtain ⟨hp, hb⟩ := hall (.read 0 1 good) mapped_good
  obtain ⟨s', hs'⟩ := Option.isSome_iff_exists.mp (hp trivial)
  obtain ⟨hok, hbeh⟩ := hb s' hs'
  exact ⟨s', hs, hok, hs', hbeh⟩

/-- The read of the indirect block fails. -/
def fault : ℕ → ℕ → Bool := fun _ z => z == written.inode.iZone 7

/-- `bmap` returns 0 when it cannot read the indirect block, as for a hole, and `file_read`
delivers a zero for the byte 5 that was written. -/
theorem file_read_fault : newFile.Ok ∧
    runList step [.lseek 0 7168 .SEEK_SET, .write 0 [5] good] newFile = some grown ∧
    grown.ret = 1 ∧ step (.lseek 0 7168 .SEEK_SET) grown = some written ∧
    ∃ s', step (.read 0 1 fault) written = some s' ∧ s'.ret = 1 ∧ s'.data = [0] := by
  refine ⟨newFile_ok, run_grown, by decide +kernel, rfl,
    (step (.read 0 1 fault) written).get (by decide +kernel), (Option.some_get _).symm, ?_, ?_⟩
  · decide +kernel
  · decide +kernel

end Linux012.FileDev
