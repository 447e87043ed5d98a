import Linux012.BlkDrv.Hd.Basic

/-! # Exact transfers

A request that is completed by `end_request(1)` has had each of its sectors moved once, to or from its
place in the buffer, and nothing else has been written. This is so exactly when the sixteen bits that
`hd_out` has for the cylinder can name all the sectors.
-/

namespace Linux012.Hd

open Function Runs

variable {c : Config} {r r₀ : Request} {s s' : Drv} {w w₀ : World} {k n : ℕ}

/-- The first sector of a request, on its drive. -/
def Request.first (c : Config) (r : Request) : ℕ := (c.hd r.minor.toNat).startSect.toNat + r.sector.toNat

/-- The cylinders of all the sectors fit in the registers. -/
def Request.Fits (c : Config) (r : Request) : Prop :=
  r.first c + r.nrSectors ≤ limit (c.hdInfo r.drive)

def Request.move (c : Config) (r : Request) (k : ℕ) : Move :=
  ⟨r.drive, r.first c + k, r.buffer + 512 * k⟩

/-- Of the sectors that a request reads, the first `k` are in memory, and nothing else is changed. -/
def ReadInto (c : Config) (r : Request) (k : ℕ) (w₀ w : World) : Prop :=
  w.disk = w₀.disk ∧ ∀ a, w.mem a =
    if r.buffer ≤ a ∧ a < r.buffer + 512 * k then
      w₀.disk r.drive (r.first c + (a - r.buffer) / 512)
        ⟨(a - r.buffer) % 512, Nat.mod_lt _ (by decide)⟩
    else w₀.mem a

/-- Of the sectors that a request writes, the first `k` are on the disk, and no sector but its own is
changed. -/
def WrittenOut (c : Config) (r : Request) (k : ℕ) (w₀ w : World) : Prop :=
  w.mem = w₀.mem ∧ ∀ d p,
    if d = r.drive ∧ r.first c ≤ p ∧ p < r.first c + r.nrSectors then
      p < r.first c + k → w.disk d p = load w₀.mem (r.buffer + 512 * (p - r.first c))
    else w.disk d p = w₀.disk d p

def Moved (c : Config) (r : Request) (k : ℕ) (w₀ w : World) : Prop :=
  match r.cmd with
  | .READ => ReadInto c r k w₀ w
  | .WRITE => WrittenOut c r k w₀ w

/-- The sectors of the request have been moved in turn, and nothing else is changed. -/
structure Exact (c : Config) (d : Done) : Prop where
  moved : d.moved = (List.range d.req.nrSectors).map (d.req.move c)
  world : Moved c d.req d.req.nrSectors d.before d.after

/-! ## Addresses -/

theorem limit_pos {info : HdInfo} (hs : info.sect ≠ 0) (hh : info.head ≠ 0) : 0 < limit info := by
  have hs : 0 < info.sect.toNat := Nat.pos_of_ne_zero fun h => hs (UInt8.toNat_inj.mp h)
  have hh : 0 < info.head.toNat := Nat.pos_of_ne_zero fun h => hh (UInt8.toNat_inj.mp h)
  unfold limit
  positivity

theorem limit_lt (info : HdInfo) : limit info < 2 ^ 32 := by
  unfold limit
  have hs := info.sect.toNat_lt
  have hh := info.head.toNat_lt
  have : info.head.toNat * info.sect.toNat ≤ 255 * 255 := Nat.mul_le_mul (by omega) (by omega)
  rw [Nat.mul_assoc]
  omega

/-- The registers name the sector, when sixteen bits are enough for the cylinder. -/
theorem lba_hdOut {drive : ℕ} {block : UInt32} {nsect : UInt8} {cmd : Win} {moved : ℕ}
    {data : Option (ℕ × Sector)} (hs : (c.hdInfo drive).sect ≠ 0) (hh : (c.hdInfo drive).head ≠ 0)
    (hhead : block / (c.hdInfo drive).sect.toUInt32 % (c.hdInfo drive).head.toUInt32 ≤ 15)
    (hlt : block.toNat + moved < limit (c.hdInfo drive)) :
    Ctl.lba c ⟨cmd, drive, nsect, (block % (c.hdInfo drive).sect.toUInt32 + 1).toUInt8,
      (block / (c.hdInfo drive).sect.toUInt32 % (c.hdInfo drive).head.toUInt32).toUInt8,
      (block / (c.hdInfo drive).sect.toUInt32 / (c.hdInfo drive).head.toUInt32).toUInt16, moved,
      data⟩ = block.toNat + moved := by
  unfold Ctl.lba
  dsimp only
  generalize hinfo : c.hdInfo drive = info at *
  have hs' : 0 < info.sect.toNat := Nat.pos_of_ne_zero fun h => hs (UInt8.toNat_inj.mp h)
  have hh' : 0 < info.head.toNat := Nat.pos_of_ne_zero fun h => hh (UInt8.toNat_inj.mp h)
  have hslt := info.sect.toNat_lt
  have hsec : (block % info.sect.toUInt32 + 1).toUInt8.toNat = block.toNat % info.sect.toNat + 1 := by
    have := Nat.mod_lt block.toNat hs'
    simp only [UInt32.toNat_toUInt8, UInt32.toNat_add, UInt32.toNat_mod, UInt8.toNat_toUInt32,
      UInt32.toNat_one]
    omega
  have hhd : (block / info.sect.toUInt32 % info.head.toUInt32).toUInt8.toNat =
      block.toNat / info.sect.toNat % info.head.toNat := by
    have := UInt32.le_iff_toNat_le.mp hhead
    simp only [UInt32.toNat_mod, UInt32.toNat_div, UInt8.toNat_toUInt32, UInt32.toNat_toUInt8] at this ⊢
    exact Nat.mod_eq_of_lt (lt_of_le_of_lt this (by decide))
  have hcyl : (block / info.sect.toUInt32 / info.head.toUInt32).toUInt16.toNat =
      block.toNat / info.sect.toNat / info.head.toNat := by
    simp only [UInt32.toNat_toUInt16, UInt32.toNat_div, UInt8.toNat_toUInt32]
    refine Nat.mod_eq_of_lt ?_
    rw [Nat.div_div_eq_div_mul]
    refine Nat.div_lt_of_lt_mul ?_
    unfold limit at hlt
    calc block.toNat ≤ block.toNat + moved := Nat.le_add_right _ _
      _ < 65536 * info.head.toNat * info.sect.toNat := hlt
      _ = info.sect.toNat * info.head.toNat * 2 ^ 16 := by ring
  rw [hsec, hhd, hcyl, Nat.add_sub_cancel, Nat.div_add_mod', Nat.div_add_mod']
  exact Nat.mod_eq_of_lt hlt

/-- The next sector. -/
theorem lba_succ {t : Ctl} {p : ℕ} (h : t.lba c = p) (hlt : p + 1 < limit (c.hdInfo t.drive))
    (data : Option (ℕ × Sector)) : Ctl.lba c { t with moved := t.moved + 1, data := data } = p + 1 := by
  unfold Ctl.lba at h ⊢
  dsimp only at h ⊢
  rw [← Nat.add_assoc, Nat.add_mod, h, Nat.mod_eq_of_lt (a := 1) (by omega)]
  exact Nat.mod_eq_of_lt hlt

theorem lba_lt {t : Ctl} (h : 0 < limit (c.hdInfo t.drive)) : t.lba c < limit (c.hdInfo t.drive) :=
  Nat.mod_lt _ h

/-! ## Memory and disk -/

theorem moved_zero (w : World) : Moved c r 0 w w := by
  unfold Moved
  split
  · refine ⟨rfl, fun a => ?_⟩
    rw [if_neg (by omega)]
  · refine ⟨rfl, fun d p => ?_⟩
    split
    · exact fun h => absurd h (by omega)
    · rfl

/-- The next sector is read. -/
theorem ReadInto.succ (h : ReadInto c r k w₀ w) :
    ReadInto c r (k + 1) w₀
      { w with mem := store w.mem (r.buffer + 512 * k) (w.disk r.drive (r.first c + k)) } := by
  refine ⟨h.1, fun a => ?_⟩
  dsimp only [store]
  split
  · rename_i ha
    have hq : (a - r.buffer) / 512 = k := by omega
    have hm : (a - r.buffer) % 512 = a - (r.buffer + 512 * k) := by omega
    rw [if_pos (by omega), h.1, hq]
    simp only [hm]
  · rename_i ha
    rw [h.2 a]
    have hiff : (r.buffer ≤ a ∧ a < r.buffer + 512 * (k + 1)) ↔
        (r.buffer ≤ a ∧ a < r.buffer + 512 * k) := by omega
    simp only [hiff]

theorem setSector_eq (disk : ℕ → ℕ → Sector) (d p d' p' : ℕ) (data : Sector) :
    setSector disk d p data d' p' = if d' = d ∧ p' = p then data else disk d' p' := by
  unfold setSector
  rcases eq_or_ne d' d with rfl | hd
  · rcases eq_or_ne p' p with rfl | hp
    · simp
    · simp [hp]
  · simp [hd]

/-- A sector that is still to be written may hold anything. -/
theorem WrittenOut.spoil (h : WrittenOut c r k w₀ w) (hk : k < r.nrSectors) (left : Sector) :
    WrittenOut c r k w₀ { w with disk := setSector w.disk r.drive (r.first c + k) left } := by
  refine ⟨h.1, fun d p => ?_⟩
  have hdp := h.2 d p
  dsimp only
  rw [setSector_eq]
  split
  · rename_i hin
    rw [if_pos hin] at hdp
    intro hlt
    rw [if_neg (by omega)]
    exact hdp hlt
  · rename_i hout
    rw [if_neg hout] at hdp
    rw [if_neg (by rintro ⟨rfl, rfl⟩; exact hout ⟨rfl, by omega, by omega⟩)]
    exact hdp

/-- The next sector is written. -/
theorem WrittenOut.succ (h : WrittenOut c r k w₀ w) (hk : k < r.nrSectors) :
    WrittenOut c r (k + 1) w₀
      { w with disk := setSector w.disk r.drive (r.first c + k) (load w.mem (r.buffer + 512 * k)) } := by
  refine ⟨h.1, fun d p => ?_⟩
  have hdp := h.2 d p
  dsimp only
  rw [setSector_eq]
  split
  · rename_i hin
    rw [if_pos hin] at hdp
    intro hlt
    split
    · rename_i heq
      rw [h.1, heq.2, Nat.add_sub_cancel_left]
    · exact hdp (by omega)
  · rename_i hout
    rw [if_neg hout] at hdp
    rw [if_neg (by rintro ⟨rfl, rfl⟩; exact hout ⟨rfl, by omega, by omega⟩)]
    exact hdp

/-! ## Between the handlers -/

/-- `r` is what is left of `r₀` when `k` sectors have been moved. -/
structure Going (c : Config) (s : Drv) (r₀ : Request) (w₀ : World) (r : Request) (k : ℕ) : Prop where
  began : s.began = some (r₀, w₀)
  minor : r.minor = r₀.minor
  cmd : r.cmd = r₀.cmd
  sector : r.sector = r₀.sector + UInt32.ofNat k
  nr : r.nrSectors + k = r₀.nrSectors
  left : 0 < r.nrSectors
  buffer : r.buffer = r₀.buffer + 512 * k
  lt : ∀ m ∈ s.moved, m.lba < limit (c.hdInfo m.drive)
  moved : r₀.Fits c → s.moved = (List.range k).map (r₀.move c)
  world : r₀.Fits c → Moved c r₀ k w₀ s.world

theorem Going.drive (h : Going c s r₀ w₀ r k) : r.drive = r₀.drive := by
  unfold Request.drive
  rw [h.minor]

/-- What is completed is judged by its addresses, and what waits has not been started. -/
structure Settled (c : Config) (s : Drv) : Prop where
  done : ∀ d ∈ s.done, Exact c d ↔ d.req.Fits c
  fresh : ∀ r ∈ s.current.tail, 0 < r.nrSectors

def Pending (c : Config) (s : Drv) : Prop :=
  Settled c s ∧ ∀ r rest, s.current = r :: rest → ∃ r₀ w₀ k, Going c s r₀ w₀ r k

/-- The controller is at the next sector of the request. -/
structure At (c : Config) (s : Drv) (r₀ : Request) (k : ℕ) : Prop where
  drive : s.ctl.drive = r₀.drive
  pos : 0 < limit (c.hdInfo s.ctl.drive)
  lba : r₀.Fits c → s.ctl.lba c = r₀.first c + k

/-- The handler is the one for what the controller does. -/
def Armed (c : Config) (s : Drv) (r₀ : Request) (k : ℕ) : Prop :=
  match s.doHd with
  | some .readIntr => r₀.cmd = .READ ∧ s.ctl.cmd = .READ ∧ At c s r₀ k
  | some .writeIntr => r₀.cmd = .WRITE ∧ s.ctl.cmd = .WRITE ∧ At c s r₀ k ∧
      s.ctl.data = some (r₀.buffer + 512 * k, load s.world.mem (r₀.buffer + 512 * k))
  | some _ => s.ctl.cmd ≠ .READ ∧ s.ctl.cmd ≠ .WRITE
  | none => False

def Inv (c : Config) (s : Drv) : Prop :=
  Settled c s ∧ ∀ r rest, s.current = r :: rest →
    ∃ r₀ w₀ k, Going c s r₀ w₀ r k ∧ Armed c s r₀ k

theorem Inv.pending (h : Inv c s) : Pending c s := by
  refine ⟨h.1, fun r rest hr => ?_⟩
  obtain ⟨r₀, w₀, k, hg, -⟩ := h.2 r rest hr
  exact ⟨r₀, w₀, k, hg⟩

/-- A step that leaves the sectors, the memory and the disks alone. -/
theorem Going.of_eq {r' : Request} (h : Going c s r₀ w₀ r k) (hb : s'.began = s.began)
    (hm : s'.moved = s.moved) (hw : s'.world = s.world) (hr : r' = { r with errors := r'.errors }) :
    Going c s' r₀ w₀ r' k := by
  rw [hr]
  exact ⟨by rw [hb, h.began], h.minor, h.cmd, h.sector, h.nr, h.left, h.buffer,
    by rw [hm]; exact h.lt, by rw [hm]; exact h.moved, by rw [hw]; exact h.world⟩

theorem Pending.of_eq (h : Pending c s) (hc : s'.current = s.current) (hd : s'.done = s.done)
    (hb : s'.began = s.began) (hm : s'.moved = s.moved) (hw : s'.world = s.world) : Pending c s' := by
  refine ⟨⟨by rw [hd]; exact h.1.done, by rw [hc]; exact h.1.fresh⟩, fun r rest hr => ?_⟩
  obtain ⟨r₀, w₀, k, hg⟩ := h.2 r rest (hc ▸ hr)
  exact ⟨r₀, w₀, k, hg.of_eq hb hm hw rfl⟩

/-- A request that becomes `CURRENT` has all of it to be moved. -/
theorem pending_begin (hd : ∀ d ∈ s.done, Exact c d ↔ d.req.Fits c)
    (hf : ∀ r ∈ s.current, 0 < r.nrSectors) : Pending c s.begin := by
  refine ⟨⟨hd, fun r hr => hf r (List.mem_of_mem_tail hr)⟩, fun r rest hr => ?_⟩
  have hcur : s.current = r :: rest := hr
  refine ⟨r, s.world, 0, ?_, rfl, rfl, by simp, rfl, hf r (by simp [hcur]), by simp, nofun, fun _ => rfl,
    fun _ => moved_zero s.world⟩
  simp [Drv.begin, hcur]

theorem Pending.endRequest (h : Pending c s) : Pending c (s.endRequest false) :=
  pending_begin h.1.done h.1.fresh

/-- Exactly the sectors that the registers can name have been moved. -/
theorem Going.moved_iff {w' : World} {moved : List Move} (hg : Going c s r₀ w₀ r k)
    (hlt : ∀ m ∈ moved, m.lba < limit (c.hdInfo m.drive))
    (hmoved : r₀.Fits c → moved = (List.range r₀.nrSectors).map (r₀.move c))
    (hworld : r₀.Fits c → Moved c r₀ r₀.nrSectors w₀ w') :
    Exact c ⟨r₀, moved, w₀, w'⟩ ↔ r₀.Fits c := by
  constructor
  · intro h
    have hpos : 0 < r₀.nrSectors := by
      have := hg.left
      have := hg.nr
      omega
    have hmem : r₀.move c (r₀.nrSectors - 1) ∈ moved := by
      have hm : moved = (List.range r₀.nrSectors).map (r₀.move c) := h.moved
      rw [hm]
      exact List.mem_map_of_mem (List.mem_range.mpr (by omega))
    have := hlt _ hmem
    simp only [Request.move] at this
    unfold Request.Fits
    omega
  · exact fun h => ⟨hmoved h, hworld h⟩

/-! ## Errors and commands -/

/-- One error more, perhaps the last. -/
theorem Pending.countError {rest : List Request} (h : Pending c s) (hcur : s.current = r :: rest) :
    Pending c (if r.errors + 1 ≥ MAX_ERRORS then
      Drv.endRequest false { s with current := { r with errors := r.errors + 1 } :: rest }
      else { s with current := { r with errors := r.errors + 1 } :: rest }) := by
  obtain ⟨r₀, w₀, k, hg⟩ := h.2 r rest hcur
  have hfresh : ∀ r ∈ rest, 0 < r.nrSectors := by
    have := h.1.fresh
    rwa [hcur] at this
  have hcount : Pending c { s with current := { r with errors := r.errors + 1 } :: rest } := by
    refine ⟨⟨h.1.done, hfresh⟩, fun r' rest' hr => ?_⟩
    obtain ⟨rfl, rfl⟩ := List.cons.inj hr
    exact ⟨r₀, w₀, k, hg.of_eq rfl rfl rfl rfl⟩
  split
  · exact hcount.endRequest
  · exact hcount

theorem Pending.badRwIntr (h : Pending c s) (hs : badRwIntr c s = some s') : Pending c s' := by
  unfold Hd.badRwIntr at hs
  split at hs
  · cases hs
  · rename_i r rest hcur
    have hmid := h.countError hcur
    obtain rfl := Option.some.inj hs
    generalize (if r.errors + 1 ≥ MAX_ERRORS then
        Drv.endRequest false { s with current := { r with errors := r.errors + 1 } :: rest }
        else { s with current := { r with errors := r.errors + 1 } :: rest }) = s₁ at hmid ⊢
    split
    · exact hmid.of_eq rfl rfl rfl rfl rfl
    · exact hmid

theorem hdOut_eq {drive nsect sect head cyl : UInt32} {cmd : Win} {intr : Handler}
    (hs : hdOut drive nsect sect head cyl cmd intr s = some s') :
    head ≤ 15 ∧ s' = { s with
      doHd := some intr
      hdTimeout := 200
      ctl := ⟨cmd, drive.toNat, nsect.toUInt8, sect.toUInt8, head.toUInt8, cyl.toUInt16, 0, none⟩ } := by
  unfold hdOut at hs
  split at hs
  · cases hs
  · rename_i hp
    exact ⟨UInt32.not_lt.mp fun h => hp (.inr h), (Option.some.inj hs).symm⟩

/-- A command that moves no sector. -/
theorem Pending.idle {drive nsect sect head cyl : UInt32} {cmd : Win} {intr : Handler}
    (h : Pending c s) (hs : hdOut drive nsect sect head cyl cmd intr s = some s')
    (hcmd : cmd ≠ .READ ∧ cmd ≠ .WRITE) (hintr : intr ≠ .readIntr ∧ intr ≠ .writeIntr) : Inv c s' := by
  obtain ⟨-, rfl⟩ := hdOut_eq hs
  refine ⟨⟨h.1.done, h.1.fresh⟩, fun r rest hr => ?_⟩
  obtain ⟨r₀, w₀, k, hg⟩ := h.2 r rest hr
  refine ⟨r₀, w₀, k, hg.of_eq rfl rfl rfl rfl, ?_⟩
  cases intr with
  | readIntr => exact absurd rfl hintr.1
  | writeIntr => exact absurd rfl hintr.2
  | resetHd => exact hcmd
  | recalIntr => exact hcmd

theorem Pending.resetHdResult {status : UInt8} (h : Pending c s)
    (hs : resetHdResult c status s = some s') : Pending c s' := by
  unfold Hd.resetHdResult at hs
  split at hs
  · obtain rfl := Option.some.inj hs
    exact h.of_eq rfl rfl rfl rfl rfl
  · split at hs
    · obtain ⟨s₁, h₁, rfl⟩ := Option.map_eq_some_iff.mp hs
      have hp := h.badRwIntr h₁
      split
      · exact hp.of_eq rfl rfl rfl rfl rfl
      · exact hp
    · obtain rfl := Option.some.inj hs
      exact h

theorem Pending.resetHd {request : Drv → Option Drv} {status : UInt8} (h : Pending c s)
    (hreq : ∀ s s', Pending c s → request s = some s' → Inv c s')
    (hs : resetHd c request status s = some s') : Inv c s' := by
  obtain ⟨s₁, h₁, hs⟩ := Option.bind_eq_some_iff.mp hs
  have hp : Pending c { s₁ with i := s₁.i + 1 } :=
    (h.resetHdResult h₁).of_eq rfl rfl rfl rfl rfl
  dsimp only at hs
  split at hs
  · exact hp.idle hs ⟨nofun, nofun⟩ ⟨nofun, nofun⟩
  · exact hreq _ _ hp hs

/-! ## `do_hd_request` -/

/-- The address that the registers are given for the next sector. -/
theorem Going.block_eq (h : Going c s r₀ w₀ r k) (hfits : r₀.Fits c) :
    (r.sector + (c.hd r.minor.toNat).startSect).toNat = r₀.first c + k := by
  have hlim := limit_lt (c.hdInfo r₀.drive)
  have hnr := h.nr
  have hleft := h.left
  unfold Request.Fits Request.first at *
  rw [h.sector, h.minor]
  simp only [UInt32.toNat_add, UInt32.toNat_ofNat']
  omega

/-- A read or write command for what is left of the request. -/
theorem Going.at_hdOut {s : Drv} {cmd : Win} {intr : Handler} {nsect : UInt32}
    (h : Going c s r₀ w₀ r k) (hsect : (c.hdInfo r.drive).sect ≠ 0)
    (hhead : (c.hdInfo r.drive).head ≠ 0)
    (hs : hdOut (UInt32.ofNat r.drive) nsect
      ((r.sector + (c.hd r.minor.toNat).startSect) % (c.hdInfo r.drive).sect.toUInt32 + 1)
      ((r.sector + (c.hd r.minor.toNat).startSect) / (c.hdInfo r.drive).sect.toUInt32 %
        (c.hdInfo r.drive).head.toUInt32)
      ((r.sector + (c.hd r.minor.toNat).startSect) / (c.hdInfo r.drive).sect.toUInt32 /
        (c.hdInfo r.drive).head.toUInt32) cmd intr s = some s') :
    At c s' r₀ k := by
  obtain ⟨hle, rfl⟩ := hdOut_eq hs
  have hdrive : (UInt32.ofNat r.drive).toNat = r.drive := by
    rw [UInt32.toNat_ofNat']
    have := r.minor.toNat_lt
    unfold Request.drive
    omega
  refine ⟨?_, ?_, fun hfits => ?_⟩
  · dsimp only
    rw [hdrive, h.drive]
  · dsimp only
    rw [hdrive]
    exact limit_pos hsect hhead
  · have hblock := h.block_eq hfits
    dsimp only
    rw [hdrive, lba_hdOut hsect hhead hle, hblock, Nat.add_zero]
    rw [Nat.add_zero, hblock, h.drive]
    have := h.nr
    have := h.left
    unfold Request.Fits at hfits
    omega

theorem Pending.requestLoop (n : ℕ) (h : Pending c s) (hs : requestLoop c n s = some s') : Inv c s' := by
  induction n generalizing s s' with
  | zero => cases hs
  | succ n ih =>
    unfold Hd.requestLoop at hs
    split at hs
    · rename_i hcur
      obtain rfl := Option.some.inj hs
      refine ⟨⟨h.1.done, h.1.fresh⟩, fun r rest hr => ?_⟩
      rw [show s.current = r :: rest from hr] at hcur
      cases hcur
    · rename_i r rest hcur
      obtain ⟨r₀, w₀, k, hg⟩ := h.2 r rest hcur
      split at hs
      · exact ih h.endRequest hs
      · dsimp only at hs
        split at hs
        · cases hs
        · rename_i hgeom
          obtain ⟨hsect, hhead⟩ := not_or.mp hgeom
          split at hs
          · refine Pending.resetHd ?_ (fun _ _ hp => ih hp) hs
            exact h.of_eq rfl rfl rfl rfl rfl
          · split at hs
            · refine Pending.idle ?_ hs ⟨nofun, nofun⟩ ⟨nofun, nofun⟩
              exact h.of_eq rfl rfl rfl rfl rfl
            · split at hs
              · rename_i hcmd
                obtain ⟨s₁, h₁, hs⟩ := Option.bind_eq_some_iff.mp hs
                have hat := hg.at_hdOut hsect hhead h₁
                obtain ⟨-, rfl⟩ := hdOut_eq h₁
                dsimp only at hs
                split at hs
                · obtain ⟨s₂, h₂, hs⟩ := Option.bind_eq_some_iff.mp hs
                  refine ih (Pending.badRwIntr ?_ h₂) hs
                  exact h.of_eq rfl rfl rfl rfl rfl
                · obtain rfl := Option.some.inj hs
                  refine ⟨⟨h.1.done, h.1.fresh⟩, fun r' rest' hr => ?_⟩
                  rw [show s.current = r' :: rest' from hr] at hcur
                  obtain ⟨rfl, rfl⟩ := List.cons.inj hcur
                  refine ⟨r₀, w₀, k, hg.of_eq rfl rfl rfl rfl, ?_⟩
                  refine ⟨hg.cmd ▸ hcmd, rfl, ⟨hat.drive, hat.pos, hat.lba⟩, ?_⟩
                  rw [← hg.buffer]
                  rfl
              · rename_i hcmd
                have hat := hg.at_hdOut hsect hhead hs
                obtain ⟨-, rfl⟩ := hdOut_eq hs
                refine ⟨⟨h.1.done, h.1.fresh⟩, fun r' rest' hr => ?_⟩
                rw [show s.current = r' :: rest' from hr] at hcur
                obtain ⟨rfl, rfl⟩ := List.cons.inj hcur
                exact ⟨r₀, w₀, k, hg.of_eq rfl rfl rfl rfl, hg.cmd ▸ hcmd, rfl, hat⟩

theorem Pending.doHdRequest (h : Pending c s) (hs : doHdRequest c s = some s') : Inv c s' :=
  Pending.requestLoop _ h hs

/-! ## A sector is moved -/

/-- One sector more, and the request goes on. -/
theorem Going.next {m : Move} {errors : ℕ} (h : Going c s r₀ w₀ r k) (hb : s'.began = s.began)
    (hm : s'.moved = s.moved ++ [m]) (hlt : m.lba < limit (c.hdInfo m.drive))
    (hmove : r₀.Fits c → m = r₀.move c k) (hworld : r₀.Fits c → Moved c r₀ (k + 1) w₀ s'.world)
    (hleft : 1 < r.nrSectors) :
    Going c s' r₀ w₀ { r with
      errors := errors, sector := r.sector + 1, nrSectors := r.nrSectors - 1,
      buffer := r.buffer + 512 } (k + 1) where
  began := by rw [hb, h.began]
  minor := h.minor
  cmd := h.cmd
  sector := by
    dsimp only
    rw [h.sector, UInt32.ofNat_add, UInt32.add_assoc]
    rfl
  nr := by
    have := h.nr
    dsimp only
    omega
  left := Nat.sub_pos_of_lt hleft
  buffer := by
    have := h.buffer
    dsimp only
    omega
  lt := by
    rw [hm]
    intro m' hm'
    rcases List.mem_append.mp hm' with hm' | hm'
    · exact h.lt m' hm'
    · rw [List.mem_singleton.mp hm']
      exact hlt
  moved hfits := by
    rw [hm, h.moved hfits, hmove hfits, List.range_succ, List.map_append]
    rfl
  world := hworld

/-- One sector more, and the request is completed. -/
theorem Going.last {m : Move} (h : Going c s r₀ w₀ r k) (hset : Settled c s)
    (hcur : s'.current.tail = s.current.tail) (hdone : s'.done = s.done) (hb : s'.began = s.began)
    (hm : s'.moved = s.moved ++ [m]) (hlt : m.lba < limit (c.hdInfo m.drive))
    (hmove : r₀.Fits c → m = r₀.move c k) (hworld : r₀.Fits c → Moved c r₀ (k + 1) w₀ s'.world)
    (hlast : r.nrSectors - 1 = 0) : Pending c (s'.endRequest true) := by
  have hk : r₀.nrSectors = k + 1 := by
    have := h.nr
    have := h.left
    omega
  refine pending_begin ?_ fun r hr => hset.fresh r (hcur ▸ hr)
  intro d hd
  have hfin : s'.finish true = ⟨r₀, s.moved ++ [m], w₀, s'.world⟩ :: s.done := by
    simp only [Drv.finish, hb, h.began, hm, hdone]
  rcases List.mem_cons.mp (hfin ▸ hd) with rfl | hd
  · refine h.moved_iff ?_ (fun hfits => ?_) fun hfits => by rw [hk]; exact hworld hfits
    · intro m' hm'
      rcases List.mem_append.mp hm' with hm' | hm'
      · exact h.lt m' hm'
      · rw [List.mem_singleton.mp hm']
        exact hlt
    · rw [hk, h.moved hfits, hmove hfits, List.range_succ, List.map_append]
      rfl
  · exact hset.done d hd

/-! ## The handlers -/

theorem pending_nil (hd : ∀ d ∈ s.done, Exact c d ↔ d.req.Fits c) (hcur : s.current = []) :
    Pending c s := by
  refine ⟨⟨hd, by simp [hcur]⟩, fun r rest hr => ?_⟩
  rw [hcur] at hr
  cases hr

theorem written_of_ne (h : s.ctl.cmd ≠ .WRITE) : s.written c = s := by
  unfold Drv.written
  split
  · rename_i hw _
    exact absurd hw h
  · rfl

theorem written_done : (s.written c).done = s.done ∧ (s.written c).current = s.current := by
  unfold Drv.written
  split <;> exact ⟨rfl, rfl⟩

theorem interrupted_nil {status : UInt8} {s₁ : Drv}
    (hs₁ : { s with doHd := none, hdTimeout := 0 } = s₁) (hcur : s.current = []) :
    (if winResult status then s₁ else s₁.written c).current = [] := by
  subst hs₁
  split
  · exact hcur
  · exact written_done.2.trans hcur

/-- Without a request there is nothing to be read. -/
theorem readIntr_nil {status : UInt8} (hcur : s.current = []) : readIntr c status s ≠ some s' := by
  unfold readIntr badRwIntr
  rw [hcur]
  split <;> exact nofun

theorem writeIntr_nil {status : UInt8} (hcur : s.current = []) : writeIntr c status s ≠ some s' := by
  unfold writeIntr badRwIntr
  rw [hcur]
  split <;> exact nofun

theorem badRwIntr_bind (hs : (badRwIntr c s).bind (doHdRequest c) = some s') (h : Pending c s) :
    Inv c s' := by
  obtain ⟨s₁, h₁, hs⟩ := Option.bind_eq_some_iff.mp hs
  exact (h.badRwIntr h₁).doHdRequest hs

theorem Pending.recalIntr {status : UInt8} (h : Pending c s) (hs : recalIntr c status s = some s') :
    Inv c s' := by
  unfold Hd.recalIntr at hs
  split at hs
  · exact badRwIntr_bind hs h
  · exact h.doHdRequest hs

theorem Inv.hdTimesOut (h : Inv c s) (hs : hdTimesOut c s = some s') : Inv c s' := by
  unfold Hd.hdTimesOut at hs
  split at hs
  · obtain rfl := Option.some.inj hs
    exact h
  · rename_i r rest hcur
    refine Pending.doHdRequest ?_ hs
    exact (h.pending.countError hcur).of_eq rfl rfl rfl rfl rfl

theorem Going.readIntr {status : UInt8} {rest : List Request} (h : Going c s r₀ w₀ r k)
    (hset : Settled c s) (hcur : s.current = r :: rest) (hcmd : r₀.cmd = .READ)
    (hctl : s.ctl.cmd = .READ) (hat : At c s r₀ k) (hs : readIntr c status s = some s') : Inv c s' := by
  unfold Hd.readIntr at hs
  split at hs
  · refine badRwIntr_bind hs ⟨hset, fun r' rest' hr => ?_⟩
    obtain ⟨rfl, rfl⟩ := List.cons.inj (hcur.symm.trans hr)
    exact ⟨r₀, w₀, k, h⟩
  · have hfresh : ∀ r ∈ rest, 0 < r.nrSectors := by
      have := hset.fresh
      rwa [hcur] at this
    simp only [hcur, Drv.portRead, hctl, if_true] at hs
    have hlt : s.ctl.lba c < limit (c.hdInfo s.ctl.drive) := lba_lt hat.pos
    have hmove : r₀.Fits c → (⟨s.ctl.drive, s.ctl.lba c, r.buffer⟩ : Move) = r₀.move c k := by
      intro hfits
      rw [hat.drive, hat.lba hfits, h.buffer]
      rfl
    have hworld : r₀.Fits c → Moved c r₀ (k + 1) w₀
        { s.world with
          mem := store s.world.mem r.buffer (s.world.disk s.ctl.drive (s.ctl.lba c)) } := by
      intro hfits
      have hw := h.world hfits
      unfold Moved at hw ⊢
      rw [hcmd] at hw ⊢
      rw [hat.drive, hat.lba hfits, h.buffer]
      exact hw.succ
    split at hs
    · rename_i hleft
      obtain rfl := Option.some.inj hs
      refine ⟨⟨hset.done, hfresh⟩, fun r' rest' hr => ?_⟩
      obtain ⟨rfl, rfl⟩ := List.cons.inj hr
      refine ⟨r₀, w₀, k + 1, ?_, hcmd, rfl, hat.drive, hat.pos, fun hfits => ?_⟩
      · exact h.next rfl rfl hlt hmove hworld (by omega)
      · refine lba_succ (hat.lba hfits) ?_ none
        have := h.nr
        unfold Request.Fits at hfits
        rw [hat.drive]
        omega
    · rename_i hlast
      refine Pending.doHdRequest ?_ hs
      refine h.last hset ?_ rfl rfl rfl hlt hmove hworld (not_not.mp hlast)
      rw [hcur]
      rfl

theorem Going.writeIntr {status : UInt8} {rest : List Request} (h : Going c s r₀ w₀ r k)
    (hset : Settled c s) (hcur : s.current = r :: rest) (hcmd : r₀.cmd = .WRITE)
    (hctl : s.ctl.cmd = .WRITE) (hat : At c s r₀ k)
    (hdata : s.ctl.data = some (r₀.buffer + 512 * k, load s.world.mem (r₀.buffer + 512 * k)))
    (hs : writeIntr c status (if winResult status then s else s.written c) = some s') : Inv c s' := by
  unfold Hd.writeIntr at hs
  split at hs
  · refine badRwIntr_bind hs ⟨hset, fun r' rest' hr => ?_⟩
    obtain ⟨rfl, rfl⟩ := List.cons.inj (hcur.symm.trans hr)
    exact ⟨r₀, w₀, k, h⟩
  · have hfresh : ∀ r ∈ rest, 0 < r.nrSectors := by
      have := hset.fresh
      rwa [hcur] at this
    simp only [Drv.written, hctl, hdata, hcur] at hs
    have hlt : s.ctl.lba c < limit (c.hdInfo s.ctl.drive) := lba_lt hat.pos
    have hmove : r₀.Fits c →
        (⟨s.ctl.drive, s.ctl.lba c, r₀.buffer + 512 * k⟩ : Move) = r₀.move c k := by
      intro hfits
      rw [hat.drive, hat.lba hfits]
      rfl
    have hk : k < r₀.nrSectors := by
      have := h.nr
      have := h.left
      omega
    have hworld : r₀.Fits c → Moved c r₀ (k + 1) w₀
        { s.world with
          disk := setSector s.world.disk s.ctl.drive (s.ctl.lba c)
            (load s.world.mem (r₀.buffer + 512 * k)) } := by
      intro hfits
      have hw := h.world hfits
      unfold Moved at hw ⊢
      rw [hcmd] at hw ⊢
      rw [hat.drive, hat.lba hfits]
      exact hw.succ hk
    split at hs
    · rename_i hleft
      obtain rfl := Option.some.inj hs
      refine ⟨⟨hset.done, hfresh⟩, fun r' rest' hr => ?_⟩
      obtain ⟨rfl, rfl⟩ := List.cons.inj hr
      refine ⟨r₀, w₀, k + 1, ?_, hcmd, rfl, ⟨hat.drive, hat.pos, fun hfits => ?_⟩, ?_⟩
      · exact h.next rfl rfl hlt hmove hworld (by omega)
      · refine lba_succ (hat.lba hfits) ?_ none
        have := h.nr
        unfold Request.Fits at hfits
        rw [hat.drive]
        omega
      · have hb : r.buffer + 512 = r₀.buffer + 512 * (k + 1) := by
          have := h.buffer
          omega
        simp only [Drv.portWrite, hb]
    · rename_i hlast
      refine Pending.doHdRequest ?_ hs
      refine h.last hset ?_ rfl rfl rfl hlt hmove hworld (not_not.mp hlast)
      rw [hcur]
      rfl

theorem Inv.hdInterrupt {status : UInt8} (h : Inv c s) (hs : hdInterrupt c status s = some s') :
    Inv c s' := by
  unfold Hd.hdInterrupt at hs
  dsimp only at hs
  generalize hs₁ : { s with doHd := none, hdTimeout := 0 } = s₁ at hs
  have hpend : s.doHd ≠ some .writeIntr → Pending c (if winResult status then s₁ else s₁.written c) := by
    intro hne
    have h₁ : Pending c s₁ := by
      subst hs₁
      exact h.pending.of_eq rfl rfl rfl rfl rfl
    split
    · exact h₁
    · rcases hcur : s.current with _ | ⟨r, rest⟩
      · refine pending_nil ?_ ?_
        · rw [written_done.1, ← hs₁]
          exact h.1.done
        · rw [written_done.2, ← hs₁]
          exact hcur
      · obtain ⟨r₀, w₀, k, hg, harm⟩ := h.2 r rest hcur
        rw [written_of_ne]
        · exact h₁
        · rw [← hs₁]
          unfold Armed at harm
          split at harm
          · rw [harm.2.1]
            nofun
          · exact absurd (by assumption) hne
          · exact harm.2
          · exact harm.elim
  split at hs
  · rename_i hintr
    refine Pending.doHdRequest ?_ hs
    exact (hpend (by rw [hintr]; nofun)).of_eq rfl rfl rfl rfl rfl
  · rename_i hintr
    exact Pending.resetHd (hpend (by rw [hintr]; nofun)) (fun _ _ => Pending.doHdRequest) hs
  · rename_i hintr
    rcases hcur : s.current with _ | ⟨r, rest⟩
    · exact absurd hs (readIntr_nil (interrupted_nil hs₁ hcur))
    · obtain ⟨r₀, w₀, k, hg, harm⟩ := h.2 r rest hcur
      unfold Armed at harm
      rw [hintr] at harm
      obtain ⟨hcmd, hctl, hat⟩ := harm
      rw [written_of_ne (by rw [← hs₁]; exact hctl ▸ nofun), ite_self] at hs
      have hg₁ : Going c s₁ r₀ w₀ r k := by
        subst hs₁
        exact hg.of_eq rfl rfl rfl rfl
      subst hs₁
      exact hg₁.readIntr ⟨h.1.done, h.1.fresh⟩ hcur hcmd hctl ⟨hat.drive, hat.pos, hat.lba⟩ hs
  · rename_i hintr
    rcases hcur : s.current with _ | ⟨r, rest⟩
    · exact absurd hs (writeIntr_nil (interrupted_nil hs₁ hcur))
    · obtain ⟨r₀, w₀, k, hg, harm⟩ := h.2 r rest hcur
      unfold Armed at harm
      rw [hintr] at harm
      obtain ⟨hcmd, hctl, hat, hdata⟩ := harm
      have hg₁ : Going c s₁ r₀ w₀ r k := by
        subst hs₁
        exact hg.of_eq rfl rfl rfl rfl
      subst hs₁
      exact hg₁.writeIntr ⟨h.1.done, h.1.fresh⟩ hcur hcmd hctl ⟨hat.drive, hat.pos, hat.lba⟩ hdata hs
  · rename_i hintr
    exact Pending.recalIntr (hpend (by rw [hintr]; nofun)) hs

/-! ## Runs -/

theorem Armed.of_eq (h : Armed c s r₀ k) (hd : s'.doHd = s.doHd) (hc : s'.ctl = s.ctl)
    (hm : s'.world.mem = s.world.mem) : Armed c s' r₀ k := by
  have hat : At c s r₀ k → At c s' r₀ k := fun h =>
    ⟨by rw [hc, h.drive], by rw [hc]; exact h.pos, by rw [hc]; exact h.lba⟩
  unfold Armed at h ⊢
  rw [hd, hc, hm]
  split at h
  · exact ⟨h.1, h.2.1, hat h.2.2⟩
  · exact ⟨h.1, h.2.1, hat h.2.2.1, h.2.2.2⟩
  · exact h
  · exact h.elim

/-- A step that changes nothing but the timer and what the polls will find. -/
theorem Inv.of_eq (h : Inv c s) (hs : s' = { s with hdTimeout := s'.hdTimeout, drq := s'.drq }) :
    Inv c s' := by
  rw [hs]
  refine ⟨⟨h.1.done, h.1.fresh⟩, fun r rest hr => ?_⟩
  obtain ⟨r₀, w₀, k, hg, harm⟩ := h.2 r rest hr
  exact ⟨r₀, w₀, k, hg.of_eq rfl rfl rfl rfl, harm.of_eq rfl rfl rfl⟩

/-- What a failing write leaves is in a sector that is still to be written. -/
theorem Inv.spoil (h : Inv c s) (left : Sector) : Inv c (s.spoil c left) := by
  unfold Drv.spoil
  split
  · rename_i addr data hctl hdata
    refine ⟨⟨h.1.done, h.1.fresh⟩, fun r rest hr => ?_⟩
    obtain ⟨r₀, w₀, k, hg, harm⟩ := h.2 r rest hr
    refine ⟨r₀, w₀, k, ⟨hg.began, hg.minor, hg.cmd, hg.sector, hg.nr, hg.left, hg.buffer, hg.lt, hg.moved,
      fun hfits => ?_⟩, harm.of_eq rfl rfl rfl⟩
    have hk : k < r₀.nrSectors := by
      have := hg.nr
      have := hg.left
      omega
    unfold Armed at harm
    split at harm
    · rw [hctl] at harm
      exact absurd harm.2.1 nofun
    · obtain ⟨hcmd, -, hat, -⟩ := harm
      have hw := hg.world hfits
      unfold Moved at hw ⊢
      rw [hcmd] at hw ⊢
      dsimp only
      rw [hat.drive, hat.lba hfits]
      exact hw.spoil hk left
    · exact absurd hctl harm.2
    · exact harm.elim
  · exact h

theorem Inv.add {place : ℕ} (h : Inv c s) (hr : 0 < r.nrSectors)
    (hs : (match s.current with
      | [] => doHdRequest c { s with current := [r] }.begin
      | r₀ :: rest =>
        some { s with current := r₀ :: rest.take place ++ r :: rest.drop place }) = some s') :
    Inv c s' := by
  split at hs
  · refine Pending.doHdRequest ?_ hs
    refine pending_begin h.1.done fun r' hr' => ?_
    rw [List.mem_singleton.mp hr']
    exact hr
  · rename_i r₀ rest hcur
    obtain rfl := Option.some.inj hs
    have hfresh : ∀ r ∈ rest, 0 < r.nrSectors := by
      have := h.1.fresh
      rwa [hcur] at this
    refine ⟨⟨h.1.done, fun r' hr' => ?_⟩, fun r' rest' hr' => ?_⟩
    · rcases List.mem_append.mp hr' with hr' | hr'
      · exact hfresh r' (List.mem_of_mem_take hr')
      · rcases List.mem_cons.mp hr' with rfl | hr'
        · exact hr
        · exact hfresh r' (List.mem_of_mem_drop hr')
    · obtain ⟨rfl, -⟩ := List.cons.inj hr'
      obtain ⟨r₀, w₀, k, hg, harm⟩ := h.2 _ rest hcur
      exact ⟨r₀, w₀, k, hg.of_eq rfl rfl rfl rfl, harm.of_eq rfl rfl rfl⟩

theorem Inv.step {a : Act} (h : Inv c s) (hs : step c a s = some s') : Inv c s' := by
  have h₀ : Inv c { s with drq := a.drq } := h.of_eq rfl
  unfold Hd.step at hs
  dsimp only at hs
  split at hs
  · split at hs
    · rename_i hfresh
      exact h₀.add hfresh.2 hs
    · cases hs
  · exact h₀.hdInterrupt hs
  · unfold doTimer at hs
    dsimp only at hs
    split at hs
    · obtain rfl := Option.some.inj hs
      exact h₀
    · split at hs
      · refine Inv.hdTimesOut ?_ hs
        exact h₀.of_eq rfl
      · obtain rfl := Option.some.inj hs
        exact h₀.of_eq rfl
  · obtain rfl := Option.some.inj hs
    exact h₀.spoil _

theorem inv_boot (ctl : Ctl) (world : World) : Inv c (boot ctl world) := ⟨⟨nofun, nofun⟩, nofun⟩

/-- In every run exactly those of the completed requests have been moved exactly whose sectors the
registers can name. -/
theorem exact_iff (c : Config) (ctl : Ctl) (world : World) {s : Drv}
    (hrun : Run (step c) Always (boot ctl world) s) {d : Done} (hd : d ∈ s.done) :
    Exact c d ↔ d.req.Fits c := by
  have h : Inv c s := hrun.invariant (inv_boot ctl world) fun _ _ _ h _ hs => h.step hs
  exact h.1.done d hd

/-! ## A disk with a partition behind the last cylinder -/

/-- A drive of 1024 cylinders; the first partition begins where the cylinders that sixteen bits can
name end. -/
def farPartition : Config where
  hdInfo _ := ⟨16, 63, 1024⟩
  hd i := if i = 1 then ⟨66060288, 2⟩ else ⟨0, 1032192⟩
  nrHd := 1
  low := 0

def blank : World where
  mem _ := 0
  disk _ p _ := UInt8.ofNat p

def idle : Ctl := ⟨.RESTORE, 0, 0, 0, 0, 0, 0, none⟩

/-- One request of two sectors, and an interrupt for each. -/
def twoSectors (minor : UInt8) (cmd : Cmd) (sector : UInt32) : List Act :=
  [⟨.add ⟨minor, cmd, 0, sector, 2, 4096⟩ 0, []⟩, ⟨.interrupt 0x50, []⟩, ⟨.interrupt 0x50, []⟩]

/-- The eighth block of the drive is written. -/
def wholeDisk : Drv :=
  (runList (step farPartition) (twoSectors 0 .WRITE 16) (boot idle blank)).get (by decide +kernel)

theorem exact_wholeDisk : (wholeDisk.done.head (by decide +kernel)).moved = [⟨0, 16, 4096⟩, ⟨0, 17, 4608⟩] ∧
    Exact farPartition (wholeDisk.done.head (by decide +kernel)) := by
  refine ⟨by decide +kernel, ?_⟩
  refine (exact_iff farPartition idle blank (.of_runList_get _) (List.head_mem _)).mpr ?_
  unfold Request.Fits
  decide +kernel

/-- The first block of the partition is read. -/
def farBlock : Drv :=
  (runList (step farPartition) (twoSectors 1 .READ 0) (boot idle blank)).get (by decide +kernel)

/-- The first block of the drive has been read for the first block of the partition. -/
theorem not_exact_farBlock :
    (farBlock.done.head (by decide +kernel)).moved = [⟨0, 0, 4096⟩, ⟨0, 1, 4608⟩] ∧
    ¬ Exact farPartition (farBlock.done.head (by decide +kernel)) := by
  refine ⟨by decide +kernel, fun h => ?_⟩
  exact absurd h.moved (by decide +kernel)

end Linux012.Hd
