import Linux012.Fs.FileDev.Create
import Linux012.Fs.Files.Basic

/-! # Truncating a file

`truncate` of `fs/truncate.c` frees the zones of an inode. A zone that another task holds is kept for the
next round. Zones are freed from the ends of the tree, so a round may stop anywhere and leave a tree.
-/

namespace Linux012.FileDev.Truncate

open Function

/-- `calls` counts the calls of `free_block`, `cleared` are the zones whose bit it has cleared, and `reported`
those whose bit was clear already (none of them in the source). -/
structure State where
  fs : Fs
  inode : Inode
  calls : ℕ
  cleared : List ℕ
  reported : List ℕ

def clearBit (fs : Fs) (i j : ℕ) : Fs :=
  { fs with sZmap := update fs.sZmap i ((fs.sZmap i).map fun b => update b j false) }

def State.setZone (s : State) (k : ℕ) : State :=
  { s with inode := { s.inode with iZone := update s.inode.iZone k 0 } }

def State.setEntry (s : State) (z k : ℕ) : State :=
  { s with fs := { s.fs with blocks := update s.fs.blocks z (setWord (s.fs.blocks z) k 0) } }

section

variable (held : ℕ → ℕ → Bool) (bad : ℕ → Bool)

/-- At its call number `n` another task has a reference to the buffer of `block` if `held n block`. The result
is `none` for a panic. -/
def freeBlock (block : ℕ) (s : State) : Option (State × Bool) :=
  if block < s.fs.sFirstdatazone ∨ block ≥ s.fs.sNzones then none
  else
    let busy := held s.calls block
    let s := { s with calls := s.calls + 1 }
    if busy then some (s, false)
    else
      let bit := block + 1 - s.fs.sFirstdatazone
      (s.fs.sZmap (bit / 8192)).map fun b =>
        let s := { s with fs := clearBit s.fs (bit / 8192) (bit % 8192) }
        if b (bit % 8192) then ({ s with cleared := block :: s.cleared }, true)
        else ({ s with reported := block :: s.reported }, true)

/-- The loop over the words of the indirect block `z` from `i` on. -/
def freeEntries (free : ℕ → State → Option (State × Bool)) (z : ℕ) :
    ℕ → ℕ → Bool → State → Option (State × Bool)
  | 0, _, busy, s => some (s, busy)
  | n + 1, i, busy, s =>
    if word (s.fs.blocks z) i = 0 then freeEntries free z n (i + 1) busy s
    else
      (free (word (s.fs.blocks z) i) s).bind fun (s, ok) =>
        if ok then freeEntries free z n (i + 1) busy (s.setEntry z i)
        else freeEntries free z n (i + 1) true s

/-- What `free_ind` and `free_dind` do with a block. -/
def freeTable (free : ℕ → State → Option (State × Bool)) (block : ℕ) (s : State) : Option (State × Bool) :=
  if block = 0 then some (s, true)
  else
    let loop :=
      match bread s.fs bad block with
      | none => some (s, false)
      | some _ => freeEntries free block 512 0 false s
    loop.bind fun (s, busy) => if busy then some (s, false) else freeBlock held block s

def freeInd : ℕ → State → Option (State × Bool) := freeTable held bad (freeBlock held)

def freeDind : ℕ → State → Option (State × Bool) := freeTable held bad (freeInd held bad)

/-- The loop over the zones of the inode from `i` on. -/
def freeDirect : ℕ → ℕ → Bool → State → Option (State × Bool)
  | 0, _, busy, s => some (s, busy)
  | n + 1, i, busy, s =>
    if s.inode.iZone i = 0 then freeDirect n (i + 1) busy s
    else
      (freeBlock held (s.inode.iZone i) s).bind fun (s, ok) =>
        if ok then freeDirect n (i + 1) busy (s.setZone i) else freeDirect n (i + 1) true s

/-- What `truncate` does with `i_zone[k]`. -/
def freeRoot (free : ℕ → State → Option (State × Bool)) (k : ℕ) (busy : Bool) (s : State) :
    Option (State × Bool) :=
  (free (s.inode.iZone k) s).map fun (s, ok) => if ok then (s.setZone k, busy) else (s, true)

def round (s : State) : Option (State × Bool) :=
  (freeDirect held 7 0 false s).bind fun (s, busy) =>
    (freeRoot (freeInd held bad) 7 busy s).bind fun (s, busy) => freeRoot (freeDind held bad) 8 busy s

/-- The state after at most `n` rounds, and whether the last one has found no busy block. -/
def rounds : ℕ → State → Option (State × Bool)
  | 0, s => some (s, false)
  | n + 1, s =>
    (round held bad s).bind fun (s, busy) =>
      if busy then rounds n s else some ({ s with inode := { s.inode with iSize := 0 } }, true)

/-- `truncate`, which has returned if the second component is true. -/
def truncate (iMode : BitVec 16) (n : ℕ) (s : State) : Option (State × Bool) :=
  if iMode &&& Files.S_IFMT = Files.S_IFREG ∨ iMode &&& Files.S_IFMT = Files.S_IFDIR ∨
      iMode &&& Files.S_IFMT = Files.S_IFLNK then rounds held bad n s
  else some (s, true)

end

variable {held : ℕ → ℕ → Bool} {fs : Fs} {inode : Inode} {s s' s'' : State} {p q r : Slot} {i j k n w z : ℕ}
  {ok busy : Bool}

/-! ## Slots without a zone -/

def State.zoneAt (s : State) (q : Slot) : ℕ := FileDev.zoneAt s.fs s.inode q

/-- The zone number in the slot becomes 0. -/
def State.clear (s : State) : Slot → State
  | .root k => s.setZone k
  | .entry p k => s.setEntry (s.zoneAt p) k

@[simp] theorem clear_sZmap (s : State) (q : Slot) : (s.clear q).fs.sZmap = s.fs.sZmap := by cases q <;> rfl

@[simp] theorem clear_first (s : State) (q : Slot) :
    (s.clear q).fs.sFirstdatazone = s.fs.sFirstdatazone := by cases q <;> rfl

@[simp] theorem clear_nzones (s : State) (q : Slot) : (s.clear q).fs.sNzones = s.fs.sNzones := by cases q <;> rfl

@[simp] theorem clear_cleared (s : State) (q : Slot) : (s.clear q).cleared = s.cleared := by cases q <;> rfl

@[simp] theorem clear_reported (s : State) (q : Slot) : (s.clear q).reported = s.reported := by cases q <;> rfl

@[simp] theorem clear_calls (s : State) (q : Slot) : (s.clear q).calls = s.calls := by cases q <;> rfl

/-- All zones left are those of the file that is truncated. -/
def Sub (fs : Fs) (inode : Inode) (s : State) : Prop :=
  ∀ q, Valid q → s.zoneAt q = 0 ∨ s.zoneAt q = zoneAt fs inode q

theorem Sub.inj (h : Sub fs inode s) (hw : Wf fs inode) (hp : Valid p) (hq : Valid q) (h0 : s.zoneAt p ≠ 0)
    (he : s.zoneAt p = s.zoneAt q) : p = q := by
  have hp' := (h p hp).resolve_left h0
  have hq' := (h q hq).resolve_left (he ▸ h0)
  exact hw.inj p q hp hq (hp' ▸ h0) (by rw [← hp', ← hq', he])

/-- No other slot changes when a slot is cleared that has nothing below it. -/
theorem zoneAt_clear (h : Sub fs inode s) (hw : Wf fs inode) (hq : Valid q) (h0 : s.zoneAt q ≠ 0)
    (hleaf : Table q → ∀ k < 512, s.zoneAt (.entry q k) = 0) (hr : Valid r) :
    (s.clear q).zoneAt r = if r = q then 0 else s.zoneAt r := by
  induction r with
  | root i =>
    cases q with
    | root k =>
      change update s.inode.iZone k 0 i = if Slot.root i = .root k then 0 else s.inode.iZone i
      simp only [update_apply, Slot.root.injEq]
    | entry p k => exact (if_neg (by simp)).symm
  | entry r i ih =>
    obtain ⟨ht, hi⟩ := hr.parent
    have ih := ih ht.valid
    change (if (s.clear q).zoneAt r = 0 then 0 else word ((s.clear q).fs.blocks ((s.clear q).zoneAt r)) i) = _
    rw [ih]
    by_cases hrq : r = q
    · subst hrq
      rw [if_pos rfl, if_pos rfl, hleaf ht i hi, ite_self]
    rw [if_neg hrq]
    change _ = if Slot.entry r i = q then 0 else if s.zoneAt r = 0 then 0 else word (s.fs.blocks (s.zoneAt r)) i
    by_cases hr0 : s.zoneAt r = 0
    · rw [if_pos hr0, if_pos hr0, ite_self]
    rw [if_neg hr0, if_neg hr0]
    cases q with
    | root k => exact (if_neg (by simp)).symm
    | entry p k =>
      change word (update s.fs.blocks (s.zoneAt p) _ (s.zoneAt r)) i = _
      by_cases hrp : r = p
      · subst hrp
        rw [update_self]
        by_cases hik : i = k
        · rw [hik, if_pos rfl, word_setWord _ (by decide)]
        · rw [word_setWord_of_ne _ hik, if_neg (by simpa using hik)]
      · rw [update_of_ne fun he => hrp (h.inj hw ht.valid hq.parent.1.valid hr0 he), if_neg (by simp [hrp])]

/-! ## Freed zones -/

/-- The buffer of the bitmap and the bit in it that stand for zone `w`. -/
def bitOf (fs : Fs) (w : ℕ) : ℕ × ℕ := ((w + 1 - fs.sFirstdatazone) / 8192, (w + 1 - fs.sFirstdatazone) % 8192)

theorem bitOf_inj {w w' : ℕ} (hw : fs.sFirstdatazone ≤ w) (hw' : fs.sFirstdatazone ≤ w')
    (h : bitOf fs w = bitOf fs w') : w = w' := by
  obtain ⟨hdiv, hmod⟩ := Prod.mk.inj h
  omega

theorem bitSet_clearBit {i' j' : ℕ} : BitSet (clearBit fs i j) i' j' ↔ BitSet fs i' j' ∧ (i, j) ≠ (i', j') := by
  unfold BitSet clearBit
  dsimp only
  by_cases hi : i' = i
  · subst hi
    rw [update_self]
    cases fs.sZmap i' with
    | none => simp
    | some m =>
      simp only [Option.map_some, Option.some.injEq, exists_eq_left', ne_eq, Prod.mk.injEq, true_and]
      by_cases hj : j' = j
      · subst hj
        simp
      · rw [update_of_ne hj]
        exact (and_iff_left (Ne.symm hj)).symm
  · rw [update_of_ne hi]
    exact (and_iff_left fun he => hi (Prod.mk.inj he).1.symm).symm

theorem zoneAt_clearBit (fs : Fs) (inode : Inode) (i j : ℕ) (r : Slot) :
    zoneAt (clearBit fs i j) inode r = zoneAt fs inode r :=
  zoneAt_congr (show (clearBit fs i j).blocks = fs.blocks from rfl) r

/-- The zones whose slots are empty now have been freed once, and nothing else has. -/
structure Inv (fs : Fs) (inode : Inode) (s : State) : Prop where
  first : s.fs.sFirstdatazone = fs.sFirstdatazone
  nzones : s.fs.sNzones = fs.sNzones
  sub : Sub fs inode s
  nodup : s.cleared.Nodup
  cleared : ∀ w, w ∈ s.cleared ↔ ∃ q, Valid q ∧ zoneAt fs inode q = w ∧ w ≠ 0 ∧ s.zoneAt q = 0
  bits : ∀ i j, BitSet s.fs i j ↔ BitSet fs i j ∧ ∀ w ∈ s.cleared, bitOf fs w ≠ (i, j)
  reported : s.reported = []

theorem Inv.calls (h : Inv fs inode s) (n : ℕ) : Inv fs inode { s with calls := n } :=
  ⟨h.first, h.nzones, h.sub, h.nodup, h.cleared, h.bits, h.reported⟩

def depth : Slot → ℕ
  | .root _ => 0
  | .entry p _ => depth p + 1

/-- Another task has held a zone at a call between the two states. -/
def Held (held : ℕ → ℕ → Bool) (s s' : State) : Prop :=
  ∃ n z, s.calls ≤ n ∧ n < s'.calls ∧ held n z = true

theorem Held.mono {t t' : State} (h : Held held s s') (hle : t.calls ≤ s.calls) (hle' : s'.calls ≤ t'.calls) :
    Held held t t' := by
  obtain ⟨n, z, h₁, h₂, hz⟩ := h
  exact ⟨n, z, hle.trans h₁, h₂.trans_le hle', hz⟩

/-- What the freeing of the zone in the slot `q` does, before the slot is cleared. -/
structure Freed (held : ℕ → ℕ → Bool) (fs : Fs) (inode : Inode) (q : Slot) (s s' : State) (ok : Bool) : Prop where
  calls : s.calls ≤ s'.calls
  busy : ok = false → Held held s s'
  frame : ∀ r, Valid r → depth r ≤ depth q → s'.zoneAt r = s.zoneAt r
  kept : ok = false → Inv fs inode s'
  gone : ok = true → Inv fs inode (s'.clear q) ∧
    ∀ r, Valid r → (s'.clear q).zoneAt r = if r = q then 0 else s'.zoneAt r

/-- A zone that is still in its slot has not been freed. -/
theorem Inv.notMem (h : Inv fs inode s) (hw : Wf fs inode) (hq : Valid q) (h0 : s.zoneAt q ≠ 0) :
    s.zoneAt q ∉ s.cleared := by
  intro hmem
  obtain ⟨q', hq', hat, hne, hz⟩ := (h.cleared _).mp hmem
  have hsub := (h.sub q hq).resolve_left h0
  obtain rfl : q' = q := hw.inj q' q hq' hq (hat ▸ hne) (hat.trans hsub)
  exact h0 hz

/-- Its bit in the bitmap is set. -/
theorem Inv.bitSet (h : Inv fs inode s) (hw : Wf fs inode) (hq : Valid q) (h0 : s.zoneAt q ≠ 0) :
    fs.sFirstdatazone ≤ s.zoneAt q ∧ s.zoneAt q < fs.sNzones ∧
      BitSet s.fs (bitOf fs (s.zoneAt q)).1 (bitOf fs (s.zoneAt q)).2 := by
  have hsub := (h.sub q hq).resolve_left h0
  obtain ⟨hle, hlt, hused⟩ := hw.used q hq (hsub ▸ h0)
  rw [← hsub] at hle hlt hused
  refine ⟨hle, hlt, (h.bits _ _).mpr ⟨hused, fun w hmem he => ?_⟩⟩
  obtain ⟨q', hq', hat, hne, -⟩ := (h.cleared w).mp hmem
  have hle' := (hw.used q' hq' (hat ▸ hne)).1
  rw [hat] at hle'
  exact h.notMem hw hq h0 (bitOf_inj hle' hle he ▸ hmem)

/-- The bit of the zone in `q` is cleared, and then the slot. -/
theorem Inv.freed (h : Inv fs inode s) (hw : Wf fs inode) (hq : Valid q) (h0 : s.zoneAt q ≠ 0)
    (hleaf : Table q → ∀ k < 512, s.zoneAt (.entry q k) = 0)
    (hfs : s'.fs = clearBit s.fs (bitOf fs (s.zoneAt q)).1 (bitOf fs (s.zoneAt q)).2) (hi : s'.inode = s.inode)
    (hc : s'.cleared = s.zoneAt q :: s.cleared) (hrep : s'.reported = s.reported) :
    Inv fs inode (s'.clear q) ∧ ∀ r, Valid r → (s'.clear q).zoneAt r = if r = q then 0 else s'.zoneAt r := by
  have hat (r : Slot) : s'.zoneAt r = s.zoneAt r := by
    unfold State.zoneAt
    rw [hfs, hi, zoneAt_clearBit]
  have hsub' : Sub fs inode s' := fun r hr => by
    rw [hat]
    exact h.sub r hr
  have hclear (r : Slot) (hr : Valid r) : (s'.clear q).zoneAt r = if r = q then 0 else s'.zoneAt r :=
    zoneAt_clear hsub' hw hq (by rwa [hat]) (fun ht k hk => by rw [hat]; exact hleaf ht k hk) hr
  have hzone := (h.sub q hq).resolve_left h0
  refine ⟨⟨?_, ?_, fun r hr => ?_, ?_, fun w => ?_, fun i j => ?_, ?_⟩, hclear⟩
  · rw [clear_first, hfs]
    exact h.first
  · rw [clear_nzones, hfs]
    exact h.nzones
  · rw [hclear r hr]
    split_ifs
    · exact .inl rfl
    · exact hsub' r hr
  · rw [clear_cleared, hc]
    exact List.nodup_cons.mpr ⟨h.notMem hw hq h0, h.nodup⟩
  · rw [clear_cleared, hc, List.mem_cons, h.cleared]
    constructor
    · rintro (rfl | ⟨r, hr, hrw, hw0, hr0⟩)
      · exact ⟨q, hq, hzone.symm, h0, by rw [hclear q hq, if_pos rfl]⟩
      · refine ⟨r, hr, hrw, hw0, ?_⟩
        rw [hclear r hr, hat, hr0, ite_self]
    · rintro ⟨r, hr, hrw, hw0, hr0⟩
      rw [hclear r hr, hat] at hr0
      split_ifs at hr0 with hrq
      · exact .inl (by rw [← hrw, hrq, hzone])
      · exact .inr ⟨r, hr, hrw, hw0, hr0⟩
  · have hbits : BitSet (s'.clear q).fs i j ↔ BitSet s'.fs i j := by
      unfold BitSet
      rw [clear_sZmap]
    rw [hbits, hfs, bitSet_clearBit, h.bits, clear_cleared, hc]
    simp only [List.mem_cons, forall_eq_or_imp, Prod.mk.eta]
    tauto
  · rw [clear_reported, hrep, h.reported]

theorem freeBlock_spec (h : Inv fs inode s) (hw : Wf fs inode) (hq : Valid q) (h0 : s.zoneAt q ≠ 0)
    (hleaf : Table q → ∀ k < 512, s.zoneAt (.entry q k) = 0) :
    ∃ s' ok, freeBlock held (s.zoneAt q) s = some (s', ok) ∧ Freed held fs inode q s s' ok := by
  obtain ⟨hle, hlt, b, hb, hset⟩ := h.bitSet hw hq h0
  have hnot := h.notMem hw hq h0
  unfold freeBlock
  rw [if_neg (by rw [h.first, h.nzones]; omega)]
  dsimp only
  rw [h.first]
  cases hheld : held s.calls (s.zoneAt q) with
  | true =>
    rw [if_pos rfl]
    exact ⟨_, _, rfl, Nat.le_succ _, fun _ => ⟨s.calls, _, le_rfl, Nat.lt_succ_self _, hheld⟩, fun _ _ _ => rfl,
      fun _ => h.calls _, nofun⟩
  | false =>
    rw [if_neg Bool.false_ne_true]
    change s.fs.sZmap ((s.zoneAt q + 1 - fs.sFirstdatazone) / 8192) = some b at hb
    change b ((s.zoneAt q + 1 - fs.sFirstdatazone) % 8192) = true at hset
    rw [hb, Option.map_some, if_pos hset]
    refine ⟨_, _, rfl, Nat.le_succ _, nofun, fun r _ _ => zoneAt_clearBit .., nofun, fun _ => ?_⟩
    exact h.freed hw hq h0 hleaf rfl rfl rfl rfl

/-! ## Loops -/

/-- What `free_block`, `free_ind` and `free_dind` do with the zone of a slot. -/
def Frees (held : ℕ → ℕ → Bool) (fs : Fs) (inode : Inode) (free : ℕ → State → Option (State × Bool)) (q : Slot) :
    Prop :=
  ∀ s, Inv fs inode s → s.zoneAt q ≠ 0 →
    ∃ s' ok, free (s.zoneAt q) s = some (s', ok) ∧ Freed held fs inode q s s' ok

/-- A loop over the entries of the table `p` from `s` to `s'`. -/
structure Emptied (held : ℕ → ℕ → Bool) (fs : Fs) (inode : Inode) (p : Slot) (s s' : State) (busy : Bool) :
    Prop where
  inv : Inv fs inode s'
  calls : s.calls ≤ s'.calls
  held : busy = true → Held held s s'
  frame : ∀ r, Valid r → depth r ≤ depth p → s'.zoneAt r = s.zoneAt r
  empty : busy = false → ∀ k < 512, s'.zoneAt (.entry p k) = 0

theorem zoneAt_entry (h0 : s.zoneAt p ≠ 0) : s.zoneAt (.entry p k) = word (s.fs.blocks (s.zoneAt p)) k :=
  if_neg h0

theorem freeEntries_spec {free : ℕ → State → Option (State × Bool)} {t : State} (hp : Table p)
    (hfree : ∀ k < 512, Frees held fs inode free (.entry p k)) (hn : i + n = 512) (h : Inv fs inode s)
    (hz : s.zoneAt p = z) (hz0 : z ≠ 0) (hcalls : t.calls ≤ s.calls) (hheld : busy = true → Held held t s)
    (hframe : ∀ r, Valid r → depth r ≤ depth p → s.zoneAt r = t.zoneAt r)
    (hempty : busy = false → ∀ k < i, s.zoneAt (.entry p k) = 0) :
    ∃ s' busy', freeEntries free z n i busy s = some (s', busy') ∧ Emptied held fs inode p t s' busy' := by
  subst hz
  induction n generalizing i busy s with
  | zero =>
    obtain rfl : i = 512 := hn
    exact ⟨s, busy, rfl, h, hcalls, hheld, hframe, hempty⟩
  | succ n ih =>
    unfold freeEntries
    have hi : i < 512 := by omega
    have hq := Valid.entry hp hi
    rw [← zoneAt_entry hz0]
    by_cases h0 : s.zoneAt (.entry p i) = 0
    · rw [if_pos h0]
      refine ih (by omega) h hcalls hheld hframe (fun hb k hk => ?_) hz0
      rcases Nat.lt_succ_iff_lt_or_eq.mp hk with hlt | rfl
      · exact hempty hb k hlt
      · exact h0
    rw [if_neg h0]
    obtain ⟨s', ok, hrun, hfreed⟩ := hfree i hi s h h0
    have hp' : s'.zoneAt p = s.zoneAt p := hfreed.frame p hp.valid (Nat.le_succ _)
    rw [hrun, Option.bind_some]
    cases ok with
    | false =>
      dsimp only
      rw [if_neg Bool.false_ne_true, ← hp']
      refine ih (by omega) (hfreed.kept rfl) (hcalls.trans hfreed.calls)
        (fun _ => (hfreed.busy rfl).mono hcalls le_rfl) (fun r hr hd => ?_) nofun (hp' ▸ hz0)
      rw [hfreed.frame r hr (hd.trans (Nat.le_succ _)), hframe r hr hd]
    | true =>
      obtain ⟨hinv, hgone⟩ := hfreed.gone rfl
      dsimp only
      rw [if_pos rfl]
      have hset : s'.setEntry (s.zoneAt p) i = s'.clear (.entry p i) := by rw [← hp']; rfl
      have hne (r : Slot) (hd : depth r ≤ depth p) : r ≠ .entry p i := by
        rintro rfl
        exact absurd hd (Nat.not_succ_le_self _)
      have hframe' (r : Slot) (hr : Valid r) (hd : depth r ≤ depth p) :
          (s'.clear (.entry p i)).zoneAt r = s.zoneAt r := by
        rw [hgone r hr, if_neg (hne r hd), hfreed.frame r hr (hd.trans (Nat.le_succ _))]
      have hpc := hframe' p hp.valid le_rfl
      have hcalls' : s.calls ≤ (s'.clear (.entry p i)).calls := by
        rw [clear_calls]
        exact hfreed.calls
      rw [hset, ← hpc]
      refine ih (by omega) hinv (hcalls.trans hcalls') (fun hb => (hheld hb).mono le_rfl hcalls')
        (fun r hr hd => (hframe' r hr hd).trans (hframe r hr hd)) (fun hb k hk => ?_) (hpc ▸ hz0)
      have hvalid := Valid.entry hp (show k < 512 by omega)
      rw [hgone _ hvalid]
      split_ifs with hki
      · rfl
      · rw [hfreed.frame _ hvalid le_rfl]
        refine hempty hb k (lt_of_le_of_ne (Nat.lt_succ_iff.mp hk) ?_)
        rintro rfl
        exact hki rfl

theorem freeTable_spec {free : ℕ → State → Option (State × Bool)} (hw : Wf fs inode) (hp : Table p)
    (hfree : ∀ k < 512, Frees held fs inode free (.entry p k)) :
    Frees held fs inode (freeTable held fine free) p := by
  intro s h h0
  obtain ⟨s', busy, hrun, he⟩ := freeEntries_spec (t := s) hp hfree (Nat.zero_add 512) h rfl h0 le_rfl
    (fun hb => absurd hb Bool.false_ne_true) (fun _ _ _ => rfl) fun _ _ hk => absurd hk (Nat.not_lt_zero _)
  have hread : bread s.fs fine (s.zoneAt p) = some (s.fs.blocks (s.zoneAt p)) := if_neg Bool.false_ne_true
  unfold freeTable
  rw [if_neg h0, hread]
  dsimp only
  rw [hrun, Option.bind_some]
  cases busy with
  | true => exact ⟨s', false, rfl, he.calls, fun _ => he.held rfl, he.frame, fun _ => he.inv, nofun⟩
  | false =>
    have hp' := he.frame p hp.valid le_rfl
    obtain ⟨s'', ok, hrun', hfreed⟩ := freeBlock_spec he.inv hw hp.valid (hp' ▸ h0) fun _ => he.empty rfl
    refine ⟨s'', ok, hp' ▸ hrun', he.calls.trans hfreed.calls, fun hok => ?_, fun r hr hd => ?_, hfreed.kept,
      hfreed.gone⟩
    · exact (hfreed.busy hok).mono he.calls le_rfl
    · rw [hfreed.frame r hr hd, he.frame r hr hd]

theorem freeTable_zero (held : ℕ → ℕ → Bool) (bad : ℕ → Bool) (free : ℕ → State → Option (State × Bool))
    (s : State) : freeTable held bad free 0 s = some (s, true) := if_pos rfl

theorem freeBlock_frees (held : ℕ → ℕ → Bool) (hw : Wf fs inode) (hq : Valid q) (hleaf : ¬ Table q) :
    Frees held fs inode (freeBlock held) q :=
  fun _ h h0 => freeBlock_spec h hw hq h0 fun ht => absurd ht hleaf

theorem freeInd_spec (hw : Wf fs inode) (hp : Table p) (hleaf : ∀ k < 512, ¬ Table (.entry p k)) :
    Frees held fs inode (freeInd held fine) p :=
  freeTable_spec hw hp fun k hk => freeBlock_frees held hw (.entry hp hk) (hleaf k hk)

theorem freeDind_spec (hw : Wf fs inode) : Frees held fs inode (freeDind held fine) (.root 8) :=
  freeTable_spec hw .double fun _ hk => freeInd_spec hw (.second hk) fun _ _ => nofun

/-! ## Rounds -/

/-- The zones of the inode before `k` have been looked at since the state `t`. -/
structure Rooted (held : ℕ → ℕ → Bool) (fs : Fs) (inode : Inode) (t : State) (k : ℕ) (s : State) (busy : Bool) :
    Prop where
  inv : Inv fs inode s
  calls : t.calls ≤ s.calls
  held : busy = true → Held held t s
  empty : busy = false → ∀ j < k, s.inode.iZone j = 0

variable {t : State}

theorem Rooted.skip (h : Rooted held fs inode t k s busy) (h0 : s.inode.iZone k = 0) :
    Rooted held fs inode t (k + 1) s busy where
  inv := h.inv
  calls := h.calls
  held := h.held
  empty hb j hj := by
    rcases Nat.lt_succ_iff_lt_or_eq.mp hj with hlt | rfl
    · exact h.empty hb j hlt
    · exact h0

theorem Rooted.kept (h : Rooted held fs inode t k s busy) (hf : Freed held fs inode (.root k) s s' false) :
    Rooted held fs inode t (k + 1) s' true where
  inv := hf.kept rfl
  calls := h.calls.trans hf.calls
  held _ := (hf.busy rfl).mono h.calls le_rfl
  empty := nofun

theorem Rooted.cleared (h : Rooted held fs inode t k s busy) (hk : k < 9)
    (hf : Freed held fs inode (.root k) s s' true) : Rooted held fs inode t (k + 1) (s'.setZone k) busy where
  inv := (hf.gone rfl).1
  calls := h.calls.trans hf.calls
  held hb := (h.held hb).mono le_rfl hf.calls
  empty hb j hj := by
    have hvalid : Valid (.root j) := .root (by omega)
    have hz := (hf.gone rfl).2 (.root j) hvalid
    change (s'.setZone k).inode.iZone j = _ at hz
    rw [hz]
    split_ifs with hjk
    · rfl
    · rw [hf.frame _ hvalid le_rfl]
      refine h.empty hb j (lt_of_le_of_ne (Nat.lt_succ_iff.mp hj) ?_)
      rintro rfl
      exact hjk rfl

theorem freeDirect_spec (hw : Wf fs inode) (hn : i + n = 7) (h : Rooted held fs inode t i s busy) :
    ∃ s' busy', freeDirect held n i busy s = some (s', busy') ∧ Rooted held fs inode t 7 s' busy' := by
  induction n generalizing i busy s with
  | zero =>
    obtain rfl : i = 7 := hn
    exact ⟨s, busy, rfl, h⟩
  | succ n ih =>
    unfold freeDirect
    by_cases h0 : s.inode.iZone i = 0
    · rw [if_pos h0]
      exact ih (by omega) (h.skip h0)
    have hnot : ¬ Table (.root i) := fun ht => by cases ht <;> omega
    obtain ⟨s', ok, hrun, hfreed⟩ := freeBlock_frees held hw (.root (by omega)) hnot s h.inv h0
    change freeBlock held (s.inode.iZone i) s = _ at hrun
    rw [if_neg h0, hrun, Option.bind_some]
    cases ok with
    | false => exact ih (by omega) (h.kept hfreed)
    | true => exact ih (by omega) (h.cleared (by omega) hfreed)

theorem freeRoot_spec {free : ℕ → State → Option (State × Bool)} (hk : k < 9)
    (hfree : Frees held fs inode free (.root k)) (hzero : ∀ s, free 0 s = some (s, true))
    (h : Rooted held fs inode t k s busy) :
    ∃ s' busy', freeRoot free k busy s = some (s', busy') ∧ Rooted held fs inode t (k + 1) s' busy' := by
  unfold freeRoot
  by_cases h0 : s.inode.iZone k = 0
  · have hset : s.setZone k = s := by
      unfold State.setZone
      rw [← h0, update_eq_self]
    rw [h0, hzero, Option.map_some]
    dsimp only
    rw [if_pos rfl, hset]
    exact ⟨s, busy, rfl, h.skip h0⟩
  · obtain ⟨s', ok, hrun, hfreed⟩ := hfree s h.inv h0
    change free (s.inode.iZone k) s = _ at hrun
    rw [hrun, Option.map_some]
    cases ok with
    | false => exact ⟨s', true, rfl, h.kept hfreed⟩
    | true => exact ⟨s'.setZone k, busy, rfl, h.cleared hk hfreed⟩

theorem round_spec (held : ℕ → ℕ → Bool) (hw : Wf fs inode) (h : Inv fs inode s) :
    ∃ s' busy, round held fine s = some (s', busy) ∧ Rooted held fs inode s 9 s' busy := by
  have hstart : Rooted held fs inode s 0 s false :=
    ⟨h, le_rfl, fun hb => absurd hb Bool.false_ne_true, fun _ _ hj => absurd hj (Nat.not_lt_zero _)⟩
  obtain ⟨s₁, b₁, hrun₁, h₁⟩ := freeDirect_spec hw (Nat.zero_add 7) hstart
  have hleaf (k : ℕ) (_ : k < 512) : ¬ Table (.entry (.root 7) k) := nofun
  obtain ⟨s₂, b₂, hrun₂, h₂⟩ := freeRoot_spec (by omega) (freeInd_spec hw .single hleaf) (freeTable_zero _ _ _) h₁
  obtain ⟨s₃, b₃, hrun₃, h₃⟩ := freeRoot_spec (by omega) (freeDind_spec hw) (freeTable_zero _ _ _) h₂
  refine ⟨s₃, b₃, ?_, h₃⟩
  unfold round
  rw [hrun₁, Option.bind_some]
  dsimp only
  rw [hrun₂, Option.bind_some]
  exact hrun₃

/-- No round panics. When the call returns, every zone of the inode is 0, and it returns when no block is held
any more. -/
theorem rounds_spec (held : ℕ → ℕ → Bool) (n : ℕ) (hw : Wf fs inode) (h : Inv fs inode s) : ∃ s' returned,
    rounds held fine n s = some (s', returned) ∧
    (returned = true → ∃ s₁, Inv fs inode s₁ ∧ (∀ k < 9, s₁.inode.iZone k = 0) ∧
      s' = { s₁ with inode := { s₁.inode with iSize := 0 } }) ∧
    ∀ N, N < s.calls + n → 0 < n → (∀ m z, N ≤ m → held m z = false) → returned = true := by
  induction n generalizing s with
  | zero => exact ⟨s, false, rfl, nofun, fun _ _ h0 => absurd h0 (Nat.lt_irrefl 0)⟩
  | succ n ih =>
    obtain ⟨s₁, busy, hrun, hround⟩ := round_spec held hw h
    unfold rounds
    rw [hrun, Option.bind_some]
    dsimp only
    cases busy with
    | false => exact ⟨_, true, rfl, fun _ => ⟨s₁, hround.inv, hround.empty rfl, rfl⟩, fun _ _ _ _ => rfl⟩
    | true =>
      obtain ⟨s', returned, hrun', hres, hend⟩ := ih hround.inv
      refine ⟨s', returned, hrun', hres, fun N hN _ hfree => ?_⟩
      -- a busy round has made a call before `N`
      obtain ⟨m, z, hm, hm', hz⟩ := hround.held rfl
      have hmN : m < N := by
        by_contra hle
        rw [hfree m z (Nat.le_of_not_lt hle)] at hz
        cases hz
      exact hend N (by omega) (by omega) hfree

/-! ## The call -/

def start (fs : Fs) (inode : Inode) : State := ⟨fs, inode, 0, [], []⟩

theorem inv_start (fs : Fs) (inode : Inode) : Inv fs inode (start fs inode) where
  first := rfl
  nzones := rfl
  sub _ _ := .inr rfl
  nodup := .nil
  cleared w := by
    refine iff_of_false List.not_mem_nil ?_
    rintro ⟨q, _, hat, hne, h0⟩
    exact hne (hat.symm.trans h0)
  bits i j := (and_iff_left fun _ hmem => absurd hmem List.not_mem_nil).symm
  reported := rfl

/-- The data and indirect blocks of the file. -/
def Reachable (fs : Fs) (inode : Inode) (w : ℕ) : Prop := w ≠ 0 ∧ ∃ q, Valid q ∧ zoneAt fs inode q = w

structure Truncated (fs : Fs) (inode : Inode) (s : State) : Prop where
  zones : ∀ k < 9, s.inode.iZone k = 0
  size : s.inode.iSize = 0
  once : ∀ w, Reachable fs inode w → s.cleared.count w = 1
  only : ∀ w, ¬ Reachable fs inode w → s.cleared.count w = 0
  bits : ∀ i j, BitSet s.fs i j ↔ BitSet fs i j ∧ ∀ w, Reachable fs inode w → bitOf fs w ≠ (i, j)
  reported : s.reported = []

theorem zoneAt_of_roots (h : ∀ k < 9, s.inode.iZone k = 0) (hq : Valid q) : s.zoneAt q = 0 := by
  induction q with
  | root k =>
    cases hq with
    | root hk => exact h k hk
  | entry p k ih => exact zoneAt_entry_of_zero (ih hq.parent.1.valid)

theorem Inv.truncated (h : Inv fs inode s) (hz : ∀ k < 9, s.inode.iZone k = 0) :
    Truncated fs inode { s with inode := { s.inode with iSize := 0 } } := by
  have hmem (w : ℕ) : w ∈ s.cleared ↔ Reachable fs inode w := by
    rw [h.cleared]
    constructor
    · rintro ⟨q, hq, hat, hne, -⟩
      exact ⟨hne, q, hq, hat⟩
    · rintro ⟨hne, q, hq, hat⟩
      exact ⟨q, hq, hat, hne, zoneAt_of_roots hz hq⟩
  refine ⟨hz, rfl, fun w hw => ?_, fun w hw => ?_, fun i j => ?_, h.reported⟩
  · exact List.count_eq_one_of_mem h.nodup ((hmem w).mpr hw)
  · exact List.count_eq_zero_of_not_mem (mt (hmem w).mp hw)
  · rw [h.bits]
    simp only [hmem]

/-- Whatever blocks other tasks hold at whatever calls of `free_block`: `truncate` does not panic, when it returns
exactly the zones of the file have been freed, each once, and it returns when no block is held any more. -/
theorem truncate_frees {iMode : BitVec 16} (hw : Wf fs inode)
    (hm : iMode &&& Files.S_IFMT = Files.S_IFREG ∨ iMode &&& Files.S_IFMT = Files.S_IFDIR ∨
      iMode &&& Files.S_IFMT = Files.S_IFLNK) (held : ℕ → ℕ → Bool) (n : ℕ) :
    ∃ s' returned, truncate held fine iMode n (start fs inode) = some (s', returned) ∧
      (returned = true → Truncated fs inode s') ∧
      ∀ N < n, (∀ m z, N ≤ m → held m z = false) → returned = true := by
  obtain ⟨s', returned, hrun, hres, hend⟩ := rounds_spec held n hw (inv_start fs inode)
  refine ⟨s', returned, ?_, fun hret => ?_, fun N hN hfree => hend N ?_ (by omega) hfree⟩
  · unfold truncate
    rw [if_pos hm, hrun]
  · obtain ⟨s₁, hinv, hz, rfl⟩ := hres hret
    exact hinv.truncated hz
  · change N < 0 + n
    omega

/-! ## The buffers of the bitmap -/

/-- The same blocks of the bitmap are there. -/
def SameMaps (s s' : State) : Prop := ∀ i, (s'.fs.sZmap i).isSome = (s.fs.sZmap i).isSome

/-- What keeps the bitmap's blocks when it frees a zone. -/
def KeepsMaps (free : ℕ → State → Option (State × Bool)) : Prop :=
  ∀ z s s' ok, free z s = some (s', ok) → SameMaps s s'

theorem SameMaps.refl (s : State) : SameMaps s s := fun _ => rfl

theorem SameMaps.trans (h : SameMaps s s') (h' : SameMaps s' s'') : SameMaps s s'' := fun i => (h' i).trans (h i)

theorem keepsMaps_freeBlock (held : ℕ → ℕ → Bool) : KeepsMaps (freeBlock held) := by
  intro z s s' ok h
  unfold freeBlock at h
  dsimp only at h
  split_ifs at h
  · obtain ⟨rfl, -⟩ := Prod.mk.inj (Option.some.inj h)
    exact .refl s
  · obtain ⟨b, hb, he⟩ := Option.map_eq_some_iff.mp h
    have hfs : s'.fs = clearBit s.fs ((z + 1 - s.fs.sFirstdatazone) / 8192) ((z + 1 - s.fs.sFirstdatazone) % 8192) := by
      split_ifs at he <;> exact (Prod.mk.inj he).1 ▸ rfl
    intro i
    rw [hfs]
    unfold clearBit
    dsimp only
    by_cases hi : i = (z + 1 - s.fs.sFirstdatazone) / 8192
    · rw [hi, update_self, Option.isSome_map]
    · rw [update_of_ne hi]

theorem keepsMaps_freeEntries {free : ℕ → State → Option (State × Bool)} (hf : KeepsMaps free)
    (h : freeEntries free z n i busy s = some (s', ok)) : SameMaps s s' := by
  induction n generalizing i busy s with
  | zero =>
    obtain ⟨rfl, -⟩ := Prod.mk.inj (Option.some.inj h)
    exact .refl s
  | succ n ih =>
    rw [freeEntries] at h
    split_ifs at h
    · exact ih h
    · obtain ⟨⟨t, ok'⟩, ht, h⟩ := Option.bind_eq_some_iff.mp h
      have hkeep := hf _ _ _ _ ht
      dsimp only at h
      split_ifs at h
      · exact hkeep.trans (ih (s := t.setEntry z i) h)
      · exact hkeep.trans (ih h)

theorem keepsMaps_freeTable {free : ℕ → State → Option (State × Bool)} (hf : KeepsMaps free) (held : ℕ → ℕ → Bool)
    (bad : ℕ → Bool) : KeepsMaps (freeTable held bad free) := by
  intro z s s' ok h
  unfold freeTable at h
  split_ifs at h
  · obtain ⟨rfl, -⟩ := Prod.mk.inj (Option.some.inj h)
    exact .refl s
  · obtain ⟨⟨t, busy⟩, ht, h⟩ := Option.bind_eq_some_iff.mp h
    have hkeep : SameMaps s t := by
      split at ht
      · obtain ⟨rfl, -⟩ := Prod.mk.inj (Option.some.inj ht)
        exact .refl s
      · exact keepsMaps_freeEntries hf ht
    dsimp only at h
    split_ifs at h
    · obtain ⟨rfl, -⟩ := Prod.mk.inj (Option.some.inj h)
      exact hkeep
    · exact hkeep.trans (keepsMaps_freeBlock held _ _ _ _ h)

theorem keepsMaps_freeDirect {held : ℕ → ℕ → Bool} (h : freeDirect held n i busy s = some (s', ok)) : SameMaps s s' := by
  induction n generalizing i busy s with
  | zero =>
    obtain ⟨rfl, -⟩ := Prod.mk.inj (Option.some.inj h)
    exact .refl s
  | succ n ih =>
    rw [freeDirect] at h
    split_ifs at h
    · exact ih h
    · obtain ⟨⟨t, ok'⟩, ht, h⟩ := Option.bind_eq_some_iff.mp h
      have hkeep := keepsMaps_freeBlock held _ _ _ _ ht
      dsimp only at h
      split_ifs at h
      · exact hkeep.trans (ih (s := t.setZone i) h)
      · exact hkeep.trans (ih h)

theorem keepsMaps_freeRoot {free : ℕ → State → Option (State × Bool)} (hf : KeepsMaps free)
    (h : freeRoot free k busy s = some (s', ok)) : SameMaps s s' := by
  obtain ⟨⟨t, ok'⟩, ht, h⟩ := Option.map_eq_some_iff.mp h
  have hkeep := hf _ _ _ _ ht
  dsimp only at h
  split_ifs at h
  · exact (Prod.mk.inj h).1 ▸ hkeep
  · exact (Prod.mk.inj h).1 ▸ hkeep

theorem keepsMaps_rounds {held : ℕ → ℕ → Bool} {bad : ℕ → Bool} (h : rounds held bad n s = some (s', ok)) :
    SameMaps s s' := by
  induction n generalizing s with
  | zero =>
    obtain ⟨rfl, -⟩ := Prod.mk.inj (Option.some.inj h)
    exact .refl s
  | succ n ih =>
    have hind := keepsMaps_freeTable (keepsMaps_freeBlock held) held bad
    obtain ⟨⟨t, busy⟩, ht, h⟩ := Option.bind_eq_some_iff.mp h
    obtain ⟨⟨t₁, b₁⟩, h₁, ht⟩ := Option.bind_eq_some_iff.mp ht
    obtain ⟨⟨t₂, b₂⟩, h₂, h₃⟩ := Option.bind_eq_some_iff.mp ht
    have hround : SameMaps s t := (keepsMaps_freeDirect h₁).trans
      ((keepsMaps_freeRoot hind h₂).trans (keepsMaps_freeRoot (keepsMaps_freeTable hind held bad) h₃))
    dsimp only at h
    split_ifs at h
    · exact hround.trans (ih h)
    · exact (Prod.mk.inj (Option.some.inj h)).1 ▸ hround

/-- Before and after `truncate` the zones are consistent. -/
theorem truncate_wf {iMode : BitVec 16} {held : ℕ → ℕ → Bool} (hw : Wf fs inode)
    (h : truncate held fine iMode n (start fs inode) = some (s', true)) :
    Wf s'.fs s'.inode ∧ s'.inode.iSize ≤ inode.iSize := by
  unfold truncate at h
  split_ifs at h
  · obtain ⟨s'', returned, hrun, hres, -⟩ := rounds_spec held n hw (inv_start fs inode)
    have hmaps := keepsMaps_rounds h
    rw [hrun] at h
    obtain ⟨rfl, rfl⟩ := Prod.mk.inj (Option.some.inj h)
    obtain ⟨s₁, hinv, hz, rfl⟩ := hres rfl
    have hzero {q : Slot} (hq : Valid q) : zoneAt s₁.fs { s₁.inode with iSize := 0 } q = 0 :=
      (zoneAt_resize 0 q).trans (zoneAt_of_roots hz hq)
    refine ⟨⟨⟨hinv.first ▸ hw.ok.first, hinv.nzones ▸ hw.ok.nzones, fun m hm => ?_⟩,
      fun q hq h0 => absurd (hzero hq) h0, fun q q' hq _ h0 => absurd (hzero hq) h0⟩, Nat.zero_le _⟩
    obtain ⟨m₀, hm₀⟩ : ∃ m₀, fs.sZmap 0 = some m₀ := by
      have hsome := hmaps 0
      change (s₁.fs.sZmap 0).isSome = (fs.sZmap 0).isSome at hsome
      rw [show s₁.fs.sZmap 0 = some m from hm] at hsome
      exact Option.isSome_iff_exists.mp hsome.symm
    -- bit 0 stands for no zone
    have hbit : BitSet s₁.fs 0 0 := by
      rw [hinv.bits]
      refine ⟨⟨m₀, hm₀, hw.ok.reserved m₀ hm₀⟩, fun w hmem he => ?_⟩
      obtain ⟨q, hq, hat, hne, -⟩ := (hinv.cleared w).mp hmem
      have hle := (hw.used q hq (hat ▸ hne)).1
      rw [hat] at hle
      obtain ⟨hdiv, hmod⟩ := Prod.mk.inj he
      omega
    obtain ⟨m', hm', ht⟩ := hbit
    rw [show s₁.fs.sZmap 0 = some m from hm] at hm'
    obtain rfl := Option.some.inj hm'
    exact ht
  · obtain ⟨rfl, -⟩ := Prod.mk.inj (Option.some.inj h)
    exact ⟨hw, le_rfl⟩

/-- A file with a block behind the first 512 indirect ones. Two calls of `free_block` find their blocks held. -/
theorem truncate_frees_newFile : ∃ fs inode z, createBlock newFile.fs newFile.inode fine 600 = some (fs, inode, z) ∧
    ∃ s' returned, truncate (fun n _ => n < 2) fine 0o100644 3 (start fs inode) = some (s', returned) ∧
      (returned = true → Truncated fs inode s') ∧
      ∀ N < 3, (∀ m z, N ≤ m → (fun n _ => n < 2 : ℕ → ℕ → Bool) m z = false) → returned = true := by
  obtain ⟨fs, inode, z, hr, hc⟩ := createBlock_created newFile_ok.sound.wf (show 600 < MAX_BLOCKS by decide)
  exact ⟨fs, inode, z, hr, truncate_frees hc.ext.wf (.inl rfl) _ _⟩

end Linux012.FileDev.Truncate
