import Linux012.Fs.FileDev.Create

/-! # Creating blocks at the same time

Several tasks call `create_block` on one inode. They sleep in `new_block`, when it has a zone, and while an
indirect block is read. A zone is stored where there was none before the sleep.
-/

namespace Linux012.FileDev

open Function Runs

/-- `new_block` up to the point where it sleeps. -/
def takeBit (fs : Fs) : Fs × ℕ :=
  match scanZmap fs 8 0 with
  | none => (fs, 0)
  | some (i, j) =>
    let fs := setBit fs i j
    let j := j + i * 8192 + fs.sFirstdatazone - 1
    if j ≥ fs.sNzones then (fs, 0) else (fs, j)

/-- Its end. -/
def clearBlock (fs : Fs) (z : ℕ) : Fs := { fs with blocks := update fs.blocks z fun _ => 0 }

theorem newBlock_eq (fs : Fs) (h : fs.Ok) : newBlock fs =
    if (takeBit fs).2 = 0 then takeBit fs else (clearBlock (takeBit fs).1 (takeBit fs).2, (takeBit fs).2) := by
  unfold newBlock takeBit
  cases hscan : scanZmap fs 8 0 with
  | none => rfl
  | some r =>
    obtain ⟨i, j⟩ := r
    dsimp only
    by_cases hz : j + i * 8192 + (setBit fs i j).sFirstdatazone - 1 ≥ (setBit fs i j).sNzones
    · simp only [if_pos hz, if_true]
    · simp only [if_neg hz]
      refine (if_neg ?_).symm
      obtain ⟨m, hm, hj, -⟩ := scanZmap_spec hscan
      have hfirst := h.first
      have hpos : 1 ≤ j + i * 8192 := by
        by_contra hc
        obtain ⟨rfl, rfl⟩ : j = 0 ∧ i = 0 := by omega
        rw [h.reserved m hm] at hj
        cases hj
      change j + i * 8192 + fs.sFirstdatazone - 1 ≠ 0
      omega

/-- Where a call of `create_block` for block `b` sleeps. It has a zone for `i_zone[k]`, it reads the block `p`
for its entry `k`, or it has a zone for this entry. `rest` are the entries to look up after it. -/
inductive Frame
  | user
  | placing (b k z : ℕ) (rest : List ℕ)
  | reading (b p k : ℕ) (rest : List ℕ)
  | linking (b p k z : ℕ) (rest : List ℕ)

/-- `allocated` are the zones that the calls have taken from the bitmap, `returned` the blocks of the finished
calls with what they have returned (not in the source). -/
structure State where
  fs : Fs
  inode : Inode
  task : ℕ → Frame
  allocated : List ℕ
  returned : List (ℕ × ℕ)

/-- The place in `i_zone` where the way to a block begins. -/
def rootOf (b : ℕ) : ℕ := if b < 7 then b else if b - 7 < 512 then 7 else 8

def entriesOf (b : ℕ) : List ℕ :=
  if b < 7 then []
  else if b - 7 < 512 then [b - 7]
  else [(b - 7 - 512) / 512, (b - 7 - 512) % 512]

def State.setTask (s : State) (t : ℕ) (f : Frame) : State := { s with task := update s.task t f }

def State.return (s : State) (t b z : ℕ) : State :=
  { s.setTask t .user with returned := (b, z) :: s.returned }

namespace State

/-- What a call does with a zone that it has found or made. -/
def follow (s : State) (t b z : ℕ) : List ℕ → State
  | [] => s.return t b z
  | k :: rest => if z = 0 then s.return t b 0 else s.setTask t (.reading b z k rest)

/-- A new zone, or `fail` when there is none. -/
def allocate (s : State) (t : ℕ) (f : ℕ → Frame) (fail : State → State) : State :=
  let (fs, z) := takeBit s.fs
  let s := { s with fs := fs }
  if z = 0 then fail s else { s.setTask t (f z) with allocated := z :: s.allocated }

def setZone (s : State) (k z : ℕ) : State :=
  { s with inode := { s.inode with iZone := update s.inode.iZone k z } }

def setEntry (s : State) (p k z : ℕ) : State :=
  { s with fs := { s.fs with blocks := update s.fs.blocks p (setWord (s.fs.blocks p) k z) } }

def clear (s : State) (z : ℕ) : State := { s with fs := clearBlock s.fs z }

/-- When no zone is free, `new_block` returns 0 at once, and this is stored. -/
def call (s : State) (t b : ℕ) : State :=
  let k := rootOf b
  if s.inode.iZone k = 0 then
    s.allocate t (fun z => .placing b k z (entriesOf b)) fun s => (s.setZone k 0).follow t b 0 (entriesOf b)
  else s.follow t b (s.inode.iZone k) (entriesOf b)

/-- A sleep ends. -/
def go (s : State) (t : ℕ) : Option State :=
  match s.task t with
  | .user => none
  | .placing b k z rest => some (((s.clear z).setZone k z).follow t b z rest)
  | .reading b p k rest =>
    let z := word (s.fs.blocks p) k
    some (if z = 0 then s.allocate t (fun z => .linking b p k z rest) fun s => s.follow t b 0 rest
      else s.follow t b z rest)
  | .linking b p k z rest => some (((s.clear z).setEntry p k z).follow t b z rest)

/-- A read fails. -/
def fail (s : State) (t : ℕ) : Option State :=
  match s.task t with
  | .reading b _ _ _ => some (s.return t b 0)
  | _ => none

end State

inductive Act
  | call (t b : ℕ)
  | go (t : ℕ)
  | fail (t : ℕ)

/-- A block that is too big is a panic. -/
def advance : Act → State → Option State
  | .call t b, s =>
    match s.task t with
    | .user => if b < MAX_BLOCKS then some (s.call t b) else none
    | _ => none
  | .go t, s => s.go t
  | .fail t, s => s.fail t

/-- No call has begun. -/
def begin (fs : Fs) (inode : Inode) : State := ⟨fs, inode, fun _ => .user, [], []⟩

/-- Two calls for a block that return a zone return the same one. When no call is under way, each zone taken
from the bitmap is in one place of the file. -/
structure Safe (s : State) : Prop where
  same : ∀ b z z', (b, z) ∈ s.returned → (b, z') ∈ s.returned → z ≠ 0 → z' ≠ 0 → z = z'
  once : (∀ t, s.task t = .user) → ∀ w ∈ s.allocated, ∃! slot, Valid slot ∧ zoneAt s.fs s.inode slot = w

/-- The place of a new zone is still empty when it is stored. -/
def StillEmpty (s : State) : Act → Prop
  | .go t =>
    match s.task t with
    | .placing _ k _ _ => s.inode.iZone k = 0
    | .linking _ p k _ _ => word (s.fs.blocks p) k = 0
    | _ => True
  | _ => True

variable {fs fs' : Fs} {inode inode' : Inode} {s s₀ s' : State} {f : Frame} {slot : Slot} {t b k w z : ℕ}
  {rest : List ℕ}

/-! ## Bits of the bitmap -/

theorem takeBit_blocks (fs : Fs) : (takeBit fs).1.blocks = fs.blocks := by
  unfold takeBit
  split
  · rfl
  · dsimp only
    split_ifs <;> rfl

theorem takeBit_spec (h : fs.Ok) : NewBlock fs (takeBit fs).1 0 ∧ ((takeBit fs).2 ≠ 0 →
    fs.sFirstdatazone ≤ (takeBit fs).2 ∧ (takeBit fs).2 < fs.sNzones ∧ ¬ Used fs (takeBit fs).2 ∧
      Used (takeBit fs).1 (takeBit fs).2) := by
  have hn := newBlock_spec h
  rw [newBlock_eq fs h] at hn
  split_ifs at hn with h0
  · exact ⟨⟨hn.first, hn.nzones, hn.reserved, hn.mono, .inl ⟨rfl, takeBit_blocks fs⟩⟩, fun hz => absurd h0 hz⟩
  · refine ⟨⟨hn.first, hn.nzones, hn.reserved, hn.mono, .inl ⟨rfl, takeBit_blocks fs⟩⟩, fun hz => ?_⟩
    obtain ⟨h₁, h₂, h₃, h₄, -⟩ := hn.found hz
    exact ⟨h₁, h₂, h₃, h₄⟩

/-! ## Zones that no slot has yet -/

/-- The zone has been taken from the bitmap and is in no slot. -/
structure Loose (fs : Fs) (inode : Inode) (z : ℕ) : Prop where
  ne : z ≠ 0
  range : fs.sFirstdatazone ≤ z ∧ z < fs.sNzones
  used : Used fs z
  unplaced : ∀ slot, Valid slot → zoneAt fs inode slot ≠ z

/-- It is cleared and stored in the inode. -/
theorem Loose.put_root (hl : Loose fs inode z) (h : Wf fs inode) (hk : k < 9) (h0 : inode.iZone k = 0) :
    Put fs inode (.root k) z (clearBlock fs z) { inode with iZone := update inode.iZone k z } where
  wf := h
  valid := .root hk
  free := h0
  above _ _ he := nomatch he
  ne := hl.ne
  range := hl.range
  unplaced := hl.unplaced
  ok := ⟨h.ok.first, h.ok.nzones, h.ok.reserved⟩
  first := rfl
  nzones := rfl
  mono _ := id
  used := hl.used
  size := rfl
  cleared := update_self ..
  root i := by simp only [update_apply, Slot.root.injEq]
  word p i hp _ _ := by
    unfold clearBlock
    dsimp only
    rw [update_of_ne (hl.unplaced p hp.valid), if_neg (by simp)]
  data s' hs' _ _ := update_of_ne (hl.unplaced s' hs') ..

/-- It is cleared and stored in an indirect block. -/
theorem Loose.put_entry {p : Slot} (hl : Loose fs inode z) (h : Wf fs inode) (hp : Table p) (hk : k < 512)
    (hp0 : zoneAt fs inode p ≠ 0) (h0 : word (fs.blocks (zoneAt fs inode p)) k = 0) :
    Put fs inode (.entry p k) z
      { clearBlock fs z with
        blocks := update (clearBlock fs z).blocks (zoneAt fs inode p)
          (setWord ((clearBlock fs z).blocks (zoneAt fs inode p)) k z) } inode where
  wf := h
  valid := .entry hp hk
  free := by rw [zoneAt, if_neg hp0, h0]
  above q i he := by
    cases he
    exact hp0
  ne := hl.ne
  range := hl.range
  unplaced := hl.unplaced
  ok := ⟨h.ok.first, h.ok.nzones, h.ok.reserved⟩
  first := rfl
  nzones := rfl
  mono _ := id
  used := hl.used
  size := rfl
  cleared := by
    dsimp only
    rw [update_of_ne (hl.unplaced p hp.valid).symm]
    exact update_self ..
  root i := by rw [if_neg (by simp)]
  word q i hq _ hq0 := by
    unfold clearBlock
    dsimp only
    by_cases hqp : q = p
    · subst hqp
      rw [update_self, update_of_ne (hl.unplaced q hq.valid)]
      by_cases hik : i = k
      · rw [hik, word_setWord _ (hl.range.2.trans_le h.ok.nzones), if_pos rfl]
      · rw [word_setWord_of_ne _ hik, if_neg (by simpa using hik)]
    · rw [update_of_ne fun he => hqp (h.inj q p hq.valid hp.valid hq0 he),
        update_of_ne (hl.unplaced q hq.valid), if_neg (by simp [hqp])]
  data s' hs' ht hs0 := by
    unfold clearBlock
    dsimp only
    rw [update_of_ne fun he => ht (h.inj s' p hs' hp.valid hs0 he ▸ hp), update_of_ne (hl.unplaced s' hs')]

/-! ## Calls under way -/

/-- The zone that a call has taken from the bitmap. -/
def Frame.zone : Frame → Option ℕ
  | .placing _ _ z _ => some z
  | .linking _ _ _ z _ => some z
  | _ => none

/-- The block that is read, and where its entry leads. -/
def LeadsTo (fs : Fs) (inode : Inode) (b p k : ℕ) (rest : List ℕ) : Prop :=
  b < MAX_BLOCKS ∧ p ≠ 0 ∧ ∃ slot, zoneAt fs inode slot = p ∧ rest.foldl .entry (.entry slot k) = slotOf b

/-- A call is on the way to the slot of its block. -/
def Frame.Leads (fs : Fs) (inode : Inode) : Frame → Prop
  | .user => True
  | .placing b k _ rest => b < MAX_BLOCKS ∧ rest.foldl .entry (.root k) = slotOf b
  | .reading b p k rest => LeadsTo fs inode b p k rest
  | .linking b p k _ rest => LeadsTo fs inode b p k rest

theorem valid_of_foldl (h : Valid (rest.foldl .entry slot)) : Valid slot := by
  induction rest generalizing slot with
  | nil => exact h
  | cons k rest ih => exact (ih h).parent.1.valid

theorem foldl_entriesOf (b : ℕ) : (entriesOf b).foldl .entry (.root (rootOf b)) = slotOf b := by
  unfold entriesOf rootOf slotOf
  split_ifs <;> rfl

theorem LeadsTo.valid {p : ℕ} (h : LeadsTo fs inode b p k rest) : ∃ slot, Table slot ∧ k < 512 ∧
    zoneAt fs inode slot = p ∧ rest.foldl .entry (.entry slot k) = slotOf b := by
  obtain ⟨hb, -, slot, hp, hfold⟩ := h
  have hvalid : Valid (.entry slot k) := valid_of_foldl (hfold ▸ slotOf_valid hb)
  exact ⟨slot, hvalid.parent.1, hvalid.parent.2, hp, hfold⟩

theorem LeadsTo.ext {p : ℕ} (h : LeadsTo fs inode b p k rest) (he : Ext fs inode fs' inode') :
    LeadsTo fs' inode' b p k rest := by
  obtain ⟨slot, ht, -, rfl, hfold⟩ := h.valid
  exact ⟨h.1, h.2.1, slot, he.zone slot ht.valid h.2.1, hfold⟩

theorem Frame.Leads.ext (h : f.Leads fs inode) (he : Ext fs inode fs' inode') : f.Leads fs' inode' := by
  cases f with
  | user => trivial
  | placing b k z rest => exact h
  | reading b p k rest => exact LeadsTo.ext h he
  | linking b p k z rest => exact LeadsTo.ext h he

/-- Zones that calls hold are in no slot and differ from each other, all others are in their slots. -/
structure Inv (s : State) : Prop where
  wf : Wf s.fs s.inode
  leads : ∀ t, (s.task t).Leads s.fs s.inode
  loose : ∀ t z, (s.task t).zone = some z → Loose s.fs s.inode z
  apart : ∀ t t' z, (s.task t).zone = some z → (s.task t').zone = some z → t = t'
  kept : ∀ w ∈ s.allocated,
    (∃ t, (s.task t).zone = some w) ∨ ∃ slot, Valid slot ∧ zoneAt s.fs s.inode slot = w ∧ w ≠ 0
  stored : ∀ b z, (b, z) ∈ s.returned → z ≠ 0 → b < MAX_BLOCKS ∧ zoneAt s.fs s.inode (slotOf b) = z

theorem inv_begin (h : Wf fs inode) : Inv (begin fs inode) where
  wf := h
  leads _ := trivial
  loose _ _ hz := nomatch hz
  apart _ _ _ hz := nomatch hz
  kept _ hw := nomatch hw
  stored _ _ hb := nomatch hb

theorem Inv.safe (h : Inv s) : Safe s where
  same b z z' hz hz' h0 h0' := (h.stored b z hz h0).2.symm.trans (h.stored b z' hz' h0').2
  once hall w hw := by
    rcases h.kept w hw with ⟨t, ht⟩ | ⟨slot, hslot, hat, hw0⟩
    · rw [hall t] at ht
      cases ht
    · refine ⟨slot, ⟨hslot, hat⟩, fun slot' ⟨hslot', hat'⟩ => ?_⟩
      exact h.wf.inj slot' slot hslot' hslot (hat' ▸ hw0) (hat'.trans hat.symm)

namespace State

@[simp] theorem setTask_fs (s : State) (t : ℕ) (f : Frame) : (s.setTask t f).fs = s.fs := rfl

@[simp] theorem setTask_inode (s : State) (t : ℕ) (f : Frame) : (s.setTask t f).inode = s.inode := rfl

@[simp] theorem setTask_allocated (s : State) (t : ℕ) (f : Frame) : (s.setTask t f).allocated = s.allocated := rfl

@[simp] theorem setTask_returned (s : State) (t : ℕ) (f : Frame) : (s.setTask t f).returned = s.returned := rfl

@[simp] theorem setTask_self (s : State) (t : ℕ) (f : Frame) : (s.setTask t f).task t = f := update_self ..

theorem setTask_of_ne (s : State) (f : Frame) {t t' : ℕ} (h : t' ≠ t) : (s.setTask t f).task t' = s.task t' :=
  update_of_ne h ..

end State

/-- The file has grown, with the zone of the call `t` if it has one. -/
theorem Inv.release (h : Inv s) (he : Ext s.fs s.inode fs' inode')
    (hl : ∀ t' z, t' ≠ t → (s.task t').zone = some z → Loose fs' inode' z)
    (hk : ∀ w, (s.task t).zone = some w → ∃ slot, Valid slot ∧ zoneAt fs' inode' slot = w ∧ w ≠ 0) :
    Inv ({ s with fs := fs', inode := inode' }.setTask t .user) := by
  have hzone (t' z : ℕ) (hz : (update s.task t .user t').zone = some z) :
      t' ≠ t ∧ (s.task t').zone = some z := by
    rcases eq_or_ne t' t with rfl | hne
    · rw [update_self] at hz
      cases hz
    · rw [update_of_ne hne] at hz
      exact ⟨hne, hz⟩
  refine ⟨he.wf, fun t' => ?_, fun t' z hz => ?_, fun t₁ t₂ z h₁ h₂ => ?_, fun w hw => ?_, fun b z hb hz => ?_⟩
  · rcases eq_or_ne t' t with rfl | hne
    · rw [State.setTask_self]
      trivial
    · rw [State.setTask_of_ne _ _ hne]
      exact (h.leads t').ext he
  · obtain ⟨hne, hz⟩ := hzone t' z hz
    exact hl t' z hne hz
  · exact h.apart t₁ t₂ z (hzone t₁ z h₁).2 (hzone t₂ z h₂).2
  · rcases h.kept w hw with ⟨t', ht'⟩ | ⟨slot, hslot, hat, hw0⟩
    · rcases eq_or_ne t' t with rfl | hne
      · exact .inr (hk w ht')
      · exact .inl ⟨t', by rw [State.setTask_of_ne _ _ hne]; exact ht'⟩
    · exact .inr ⟨slot, hslot, (he.zone slot hslot (hat ▸ hw0)).trans hat, hw0⟩
  · obtain ⟨hlt, hat⟩ := h.stored b z hb hz
    exact ⟨hlt, (he.zone _ (slotOf_valid hlt) (hat ▸ hz)).trans hat⟩

/-- A call without a zone goes on. -/
theorem Inv.idle (h : Inv s) (hz : (s.task t).zone = none) : Inv (s.setTask t .user) :=
  h.release (.refl h.wf) (fun t' z _ ht' => h.loose t' z ht') fun _ hw => nomatch hz.symm.trans hw

/-- The zone of a call gets a slot. -/
theorem Inv.put (h : Inv s) (hz : (s.task t).zone = some z) (hp : Put s.fs s.inode slot z fs' inode') :
    Inv ({ s with fs := fs', inode := inode' }.setTask t .user) := by
  refine h.release hp.ext (fun t' z' hne hz' => ?_) fun w hw => ?_
  · obtain ⟨h₁, h₂, h₃, h₄⟩ := h.loose t' z' hz'
    refine ⟨h₁, by rwa [hp.first, hp.nzones], hp.mono _ h₃, fun slot' hslot' => ?_⟩
    rw [hp.zoneAt hslot']
    split_ifs
    · rintro rfl
      exact hne (h.apart t' t z hz' hz)
    · exact h₄ slot' hslot'
  · obtain rfl := Option.some.inj (hz.symm.trans hw)
    exact ⟨slot, hp.valid, hp.zoneAt_self, hp.ne⟩

/-- A call goes to sleep. -/
theorem Inv.sleep {zs : List ℕ} (h : Inv (s.setTask t .user)) (hl : f.Leads s.fs s.inode)
    (hz : ∀ z, f.zone = some z → Loose s.fs s.inode z ∧ ∀ t' ≠ t, (s.task t').zone ≠ some z)
    (hzs : ∀ w ∈ zs, w ∈ s.allocated ∨ f.zone = some w) : Inv { s.setTask t f with allocated := zs } := by
  have hother (t' : ℕ) (hne : t' ≠ t) : (s.setTask t .user).task t' = (s.setTask t f).task t' := by
    rw [State.setTask_of_ne _ _ hne, State.setTask_of_ne _ _ hne]
  refine ⟨h.wf, fun t' => ?_, fun t' z hz' => ?_, fun t₁ t₂ z h₁ h₂ => ?_, fun w hw => ?_, h.stored⟩
  · rcases eq_or_ne t' t with rfl | hne
    · exact (State.setTask_self s t' f).symm ▸ hl
    · exact hother t' hne ▸ h.leads t'
  · rcases eq_or_ne t' t with rfl | hne
    · rw [State.setTask_self] at hz'
      exact (hz z hz').1
    · exact h.loose t' z (hother t' hne ▸ hz')
  · have hsplit (t' : ℕ) (ht' : ((s.setTask t f).task t').zone = some z) :
        t' = t ∧ f.zone = some z ∨ t' ≠ t ∧ (s.task t').zone = some z := by
      rcases eq_or_ne t' t with rfl | hne
      · exact .inl ⟨rfl, (State.setTask_self s t' f) ▸ ht'⟩
      · exact .inr ⟨hne, (State.setTask_of_ne s f hne) ▸ ht'⟩
    rcases hsplit t₁ h₁ with ⟨rfl, hf⟩ | ⟨hne₁, hz₁⟩
    · rcases hsplit t₂ h₂ with ⟨rfl, -⟩ | ⟨hne₂, hz₂⟩
      · rfl
      · exact absurd hz₂ ((hz z hf).2 t₂ hne₂)
    · rcases hsplit t₂ h₂ with ⟨rfl, hf⟩ | ⟨hne₂, hz₂⟩
      · exact absurd hz₁ ((hz z hf).2 t₁ hne₁)
      · refine h.apart t₁ t₂ z ?_ ?_
        · rwa [State.setTask_of_ne _ _ hne₁]
        · rwa [State.setTask_of_ne _ _ hne₂]
  · rcases hzs w hw with hw | hf
    · rcases h.kept w hw with ⟨t', ht'⟩ | hslot
      · rcases eq_or_ne t' t with rfl | hne
        · rw [State.setTask_self] at ht'
          cases ht'
        · exact .inl ⟨t', hother t' hne ▸ ht'⟩
      · exact .inr hslot
    · exact .inl ⟨t, (State.setTask_self s t f).symm ▸ hf⟩

theorem Inv.return (h : Inv (s.setTask t .user)) (hz : z ≠ 0 → b < MAX_BLOCKS ∧ zoneAt s.fs s.inode (slotOf b) = z) :
    Inv (s.return t b z) := by
  refine ⟨h.wf, h.leads, h.loose, h.apart, h.kept, fun b' z' hmem hz' => ?_⟩
  rcases List.mem_cons.mp hmem with he | hmem
  · obtain ⟨rfl, rfl⟩ := Prod.mk.inj he
    exact hz hz'
  · exact h.stored b' z' hmem hz'

/-- The call goes on with a zone that is in its slot. -/
theorem Inv.follow (h : Inv (s.setTask t .user)) (hb : b < MAX_BLOCKS) (hz : z ≠ 0 → zoneAt s.fs s.inode slot = z)
    (hfold : rest.foldl .entry slot = slotOf b) : Inv (s.follow t b z rest) := by
  cases rest with
  | nil => exact h.return fun hz0 => ⟨hb, hfold ▸ hz hz0⟩
  | cons k rest =>
    unfold State.follow
    split_ifs with hz0
    · exact h.return fun hne => absurd rfl hne
    · exact h.sleep ⟨hb, hz0, slot, hz hz0, hfold⟩ (fun z hz => nomatch hz) fun w hw => .inl hw

/-- The call takes a zone, or finds none. -/
theorem Inv.allocate {g : ℕ → Frame} {fail : State → State} (h : Inv s) (hz : (s.task t).zone = none)
    (hg : ∀ z, (g z).zone = some z)
    (hl : ∀ fs' z, Ext s.fs s.inode fs' s.inode → (g z).Leads fs' s.inode)
    (hfail : ∀ fs', Inv ({ s with fs := fs' }.setTask t .user) → Inv (fail { s with fs := fs' })) :
    Inv (s.allocate t g fail) := by
  obtain ⟨hn, hnew⟩ := takeBit_spec h.wf.ok
  have hb := takeBit_blocks s.fs
  have he := hn.ext h.wf hb
  have hloose (t' z : ℕ) (ht' : (s.task t').zone = some z) : Loose (takeBit s.fs).1 s.inode z := by
    obtain ⟨h₁, h₂, h₃, h₄⟩ := h.loose t' z ht'
    refine ⟨h₁, by rwa [hn.first, hn.nzones], hn.mono _ h₃, fun slot hslot => ?_⟩
    rw [zoneAt_congr hb]
    exact h₄ slot hslot
  have hidle := h.release he (fun t' z _ => hloose t' z) fun w hw => nomatch hz.symm.trans hw
  unfold State.allocate
  dsimp only
  split_ifs with h0
  · exact hfail _ hidle
  · obtain ⟨hle, hlt, hfree, hused⟩ := hnew h0
    refine hidle.sleep (hl _ _ he) (fun z hz => ?_) fun w hw => ?_
    · obtain rfl := Option.some.inj ((hg _).symm.trans hz)
      refine ⟨⟨h0, ⟨hn.first ▸ hle, hn.nzones ▸ hlt⟩, hused, fun slot hslot hat => ?_⟩, fun t' _ ht' => ?_⟩
      · rw [zoneAt_congr hb] at hat
        exact hfree (hat ▸ (h.wf.used slot hslot (hat ▸ h0)).2.2)
      · exact hfree (h.loose t' _ ht').used
    · rcases List.mem_cons.mp hw with rfl | hw
      · exact .inr (hg _)
      · exact .inl hw

/-! ## Runs -/

theorem inv_call (h : Inv s) (ht : s.task t = .user) (hb : b < MAX_BLOCKS) : Inv (s.call t b) := by
  have hfold := foldl_entriesOf b
  have hz : (s.task t).zone = none := by rw [ht]; rfl
  unfold State.call
  dsimp only
  split_ifs with h0
  · refine h.allocate hz (fun _ => rfl) (fun _ _ _ => ⟨hb, hfold⟩) fun fs' hidle => ?_
    have hi : State.setZone { s with fs := fs' } (rootOf b) 0 = { s with fs := fs' } := by
      unfold State.setZone
      dsimp only
      rw [← h0, update_eq_self]
    rw [hi]
    exact hidle.follow hb (fun hne => absurd rfl hne) hfold
  · exact (h.idle hz).follow hb (fun _ => rfl) hfold

theorem inv_go (h : Inv s) (hok : StillEmpty s (.go t)) (hs : s.go t = some s') : Inv s' := by
  have hleads := h.leads t
  have hloose := h.loose t
  unfold StillEmpty at hok
  dsimp only at hok
  unfold State.go at hs
  cases hf : s.task t with
  | user =>
    rw [hf] at hs
    cases hs
  | placing b k z rest =>
    rw [hf] at hs hok hleads hloose
    obtain rfl := Option.some.inj hs
    obtain ⟨hb, hfold⟩ := hleads
    have hk : k < 9 := by
      cases valid_of_foldl (hfold ▸ slotOf_valid hb) with
      | root hk => exact hk
    have hput := (hloose z rfl).put_root h.wf hk hok
    exact (h.put (by rw [hf]; rfl) hput).follow hb (fun _ => hput.zoneAt_self) hfold
  | reading b p k rest =>
    rw [hf] at hs hleads
    obtain rfl := Option.some.inj hs
    have hz : (s.task t).zone = none := by rw [hf]; rfl
    obtain ⟨slot, ht, hk, hp, hfold⟩ := LeadsTo.valid hleads
    have hb := hleads.1
    have hp0 := hleads.2.1
    split_ifs with h0
    · refine h.allocate hz (fun _ => rfl) (fun _ _ he => LeadsTo.ext hleads he) fun fs' hidle => ?_
      exact hidle.follow hb (fun hne => absurd rfl hne) hfold
    · refine (h.idle hz).follow hb (fun _ => ?_) hfold
      rw [zoneAt, hp, if_neg hp0]
  | linking b p k z rest =>
    rw [hf] at hs hok hleads hloose
    obtain rfl := Option.some.inj hs
    obtain ⟨slot, ht, hk, rfl, hfold⟩ := LeadsTo.valid hleads
    have hput := (hloose z rfl).put_entry h.wf ht hk hleads.2.1 hok
    exact (h.put (by rw [hf]; rfl) hput).follow hleads.1 (fun _ => hput.zoneAt_self) hfold

theorem inv_fail (h : Inv s) (hs : s.fail t = some s') : Inv s' := by
  unfold State.fail at hs
  cases hf : s.task t with
  | reading b p k rest =>
    rw [hf] at hs
    obtain rfl := Option.some.inj hs
    exact (h.idle (by rw [hf]; rfl)).return fun hne => absurd rfl hne
  | user => rw [hf] at hs; cases hs
  | placing b k z rest => rw [hf] at hs; cases hs
  | linking b p k z rest => rw [hf] at hs; cases hs

theorem inv_step {a : Act} (h : Inv s) (hok : StillEmpty s a) (hs : advance a s = some s') : Inv s' := by
  cases a with
  | call t b =>
    unfold advance at hs
    dsimp only at hs
    split at hs
    · rename_i ht
      split_ifs at hs with hb
      obtain rfl := Option.some.inj hs
      exact inv_call h ht hb
    · cases hs
  | go t => exact inv_go h hok hs
  | fail t => exact inv_fail h hs

/-- As long as every zone is stored where there is still none, calls for one block return one zone, and each
zone taken from the bitmap has one slot when all calls are done. -/
theorem createBlock_safe (h₀ : Wf fs inode) (h : Run advance StillEmpty (begin fs inode) s) : Safe s :=
  (h.invariant (inv_begin h₀) fun _ _ _ => inv_step).safe

instance : DecidableRel StillEmpty := fun s a =>
  match a with
  | .go t =>
    match h : s.task t with
    | .placing _ k _ _ => decidable_of_iff (s.inode.iZone k = 0) (by simp [StillEmpty, h])
    | .linking _ p k _ _ => decidable_of_iff (word (s.fs.blocks p) k = 0) (by simp [StillEmpty, h])
    | .user => isTrue (by simp [StillEmpty, h])
    | .reading .. => isTrue (by simp [StillEmpty, h])
  | .call .. => isTrue trivial
  | .fail _ => isTrue trivial

/-- Two calls for blocks that share an indirect block, one after the other where it is stored. -/
def twoCalls : List Act := [.call 0 7, .go 0, .call 1 8, .go 0, .go 1, .go 1, .go 0]

theorem createBlock_safe_twoCalls :
    Safe ((runList advance twoCalls (begin newFile.fs newFile.inode)).get (by decide +kernel)) :=
  createBlock_safe newFile_ok.sound.wf (.of_each (by decide +kernel) (Option.some_get _).symm)

/-- Both calls have found the place empty. -/
def bothEmpty : List Act := [.call 0 0, .call 1 0, .go 0, .go 1]

theorem returned_bothEmpty : ((runList advance bothEmpty (begin newFile.fs newFile.inode)).get
    (by decide +kernel)).returned = [(0, 11), (0, 10)] := by decide +kernel

/-- Two calls for block 0 return two zones. -/
theorem not_createBlock_safe :
    ¬ ∀ fs inode s, Wf fs inode → Run advance Always (begin fs inode) s → Safe s := fun hall => by
  have hrun := Run.of_runList_get (show (runList advance bothEmpty (begin newFile.fs newFile.inode)).isSome
    by decide +kernel)
  have hsafe := hall _ _ _ newFile_ok.sound.wf hrun
  have hsame := hsafe.same 0 10 11 (by rw [returned_bothEmpty]; decide) (by rw [returned_bothEmpty]; decide)
    (by decide) (by decide)
  cases hsame

end Linux012.FileDev
