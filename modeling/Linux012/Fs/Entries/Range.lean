import Linux012.Fs.Entries.Empty
import Linux012.Fs.FileDev.Supply
import Linux012.Fs.FileDev.Truncate

/-! # Block numbers in range

A file or directory under the calls for it. The block map panics for a block number that is too big, and only
`file_write` may come to one.
-/

namespace Linux012.BlockRange

open Function (update)
open Splice Runs
open FileDev Entries

/-- An inode with the open files for it. -/
structure State where
  sys : FileDev.Sys
  isDir : Bool

/-- The calls with the reads that fail in them. `truncate` meets busy blocks and tries again. Calls for other files
change the device. -/
inductive Call
  | open (fd : ℕ) (append : Bool)
  | openTrunc (fd : ℕ) (append : Bool) (iMode : BitVec 16) (held : ℕ → ℕ → Bool) (rounds : ℕ)
  | lseek (fd : ℕ) (offset : BitVec 32) (origin : Origin)
  | read (fd count : ℕ) (bad : ℕ → ℕ → Bool)
  | write (fd : ℕ) (buf : List UInt8) (bad : ℕ → ℕ → Bool)
  | find (at_ : Place) (bad : ℕ → Bool) (name : Name)
  | add (bad : ℕ → Bool) (name : Name) (ino : ℕ)
  | empty (iNum : ℕ) (bad : ℕ → Bool)
  | others (fs : Fs)

def EISDIR : ℤ := 21

def State.put (s : State) : Option FileDev.Sys → Except Stop State
  | none => .error .panic
  | some sys => .ok { s with sys := sys }

def opened (sys : FileDev.Sys) (fd : ℕ) (append : Bool) : FileDev.Sys :=
  { sys with filp := update sys.filp fd { fPos := 0, append := append }, ret := fd, data := [] }

/-- A directory is not opened for writing, and only a directory is searched. -/
def step : Call → State → Except Stop State
  | .open fd append, s => s.put (some (opened s.sys fd append))
  | .openTrunc fd append iMode held rounds, s =>
    if s.isDir then s.put (some (s.sys.return (-EISDIR)))
    else
      match Truncate.truncate held fine iMode rounds (Truncate.start s.sys.fs s.sys.inode) with
      | none => .error .panic
      | some (_, false) => .error .endless
      | some (t, true) => s.put (some (opened { s.sys with fs := t.fs, inode := t.inode } fd append))
  | .lseek fd offset origin, s => s.put (some (sysLseek s.sys fd offset origin))
  | .read fd count bad, s => s.put (sysRead s.sys fd count bad)
  | .write fd buf bad, s =>
    if s.isDir ∧ buf ≠ [] then s.put (some (s.sys.return (-EINVAL))) else s.put (sysWrite s.sys fd buf bad)
  | .find at_ bad name, s =>
    if s.isDir then (findEntry s.sys.fs s.sys.inode at_ bad name).map fun _ => s else .ok s
  | .add bad name ino, s =>
    if s.isDir then
      (addEntry s.sys.fs s.sys.inode bad name).map fun ((fs, dir), r, _) =>
        { s with
          sys := { s.sys with
            fs := match r with
              | none => fs
              | some (z, k) => setInode fs z k ino
            inode := dir } }
    else .ok s
  | .empty iNum bad, s => if s.isDir then (emptyDir s.sys.fs s.sys.inode iNum bad).map fun _ => s else .ok s
  | .others fs, s => .ok { s with sys := { s.sys with fs := fs } }

/-- The zones are consistent, and the size is one that the block map has blocks for. -/
structure Good (s : State) : Prop where
  wf : Wf s.sys.fs s.sys.inode
  size : s.sys.inode.iSize ≤ MAX_SIZE

/-- Calls for other files leave the zones of this one alone. -/
def Legal (s : State) : Call → Prop
  | .others fs => Wf fs s.sys.inode
  | _ => True

/-- A write ends within the block map, or a block before the end of it cannot be had. -/
def Fits (s : State) : Call → Prop
  | .write fd buf bad => s.isDir = true ∨ s.sys.start fd + buf.length ≤ MAX_SIZE ∨
      ¬ Supplied s.sys.fs s.sys.inode bad (s.sys.start fd / BLOCK_SIZE)
  | _ => True

variable {s s' : State} {c : Call} {fs fs' : Fs} {dir dir' : Inode} {at_ : Place} {bad : ℕ → Bool} {name : Name}
  {entries fuel i k len z : ℕ} {held : List ℕ} {bh : Option ℕ}

/-! ## Directory scans -/

theorem bind_ne_panic {α β : Type} {x : Except Stop α} {f : α → Except Stop β} (hx : x ≠ .error .panic)
    (hf : ∀ a, f a ≠ .error .panic) : x.bind f ≠ .error .panic := by
  cases x with
  | error e => exact fun he => hx (congrArg Except.error (Except.error.inj he))
  | ok a => exact hf a

theorem map_ne_panic {α β : Type} {x : Except Stop α} {f : α → β} (hx : x ≠ .error .panic) :
    x.map f ≠ .error .panic := by
  cases x with
  | error e => exact fun he => hx (congrArg Except.error (Except.error.inj he))
  | ok a => rintro ⟨⟩

theorem brelse_ne_panic : brelse bh held ≠ .error .panic := by
  unfold brelse
  cases bh with
  | none => rintro ⟨⟩
  | some z =>
    dsimp only
    split_ifs <;> rintro ⟨⟩

theorem findTurn_ne_panic (hi : i / DIR_ENTRIES_PER_BLOCK < MAX_BLOCKS) :
    findTurn fs dir bad i z k held ≠ .error .panic := by
  unfold findTurn
  split_ifs
  · rintro ⟨⟩
  · refine bind_ne_panic brelse_ne_panic fun held => ?_
    obtain ⟨block, hb⟩ := Option.isSome_iff_exists.mp (@bmap_isSome fs dir bad _ hi)
    rw [hb]
    dsimp only
    split_ifs <;> rintro ⟨⟩

theorem findLoop_ne_panic (hn : entries ≤ DIR_ENTRIES_PER_BLOCK * MAX_BLOCKS) :
    findLoop fs dir bad name entries fuel i bh k held ≠ .error .panic := by
  induction fuel generalizing i bh k held with
  | zero => exact map_ne_panic brelse_ne_panic
  | succ fuel ih =>
    cases bh with
    | none =>
      rw [findLoop]
      split_ifs <;> rintro ⟨⟩
    | some z =>
      rw [findLoop]
      split_ifs with hi
      · refine bind_ne_panic (findTurn_ne_panic (Nat.div_lt_of_lt_mul (by omega))) fun t => ?_
        obtain ⟨t, held⟩ := t
        cases t with
        | here z k =>
          dsimp only
          split_ifs
          · rintro ⟨⟩
          · exact ih
        | skip => exact ih
        | stop => exact ih
      · exact map_ne_panic brelse_ne_panic

theorem findEntry_ne_panic (h : dir.iSize ≤ MAX_SIZE) : findEntry fs dir at_ bad name ≠ .error .panic := by
  unfold findEntry
  generalize at_.resolve fs dir (name.take NAME_LEN) = p
  obtain ⟨⟨fs', dir'⟩, name'⟩ := p
  dsimp only
  split_ifs
  · rintro ⟨⟩
  · apply findLoop_ne_panic
    unfold MAX_SIZE BLOCK_SIZE at h
    unfold DIR_ENTRIES_PER_BLOCK
    omega

theorem emptyTurn_ne_panic (hi : i / DIR_ENTRIES_PER_BLOCK < MAX_BLOCKS) :
    emptyTurn fs dir bad i z k held ≠ .error .panic := by
  unfold emptyTurn
  split_ifs
  · rintro ⟨⟩
  · refine bind_ne_panic brelse_ne_panic fun held => ?_
    obtain ⟨block, hb⟩ := Option.isSome_iff_exists.mp (@bmap_isSome fs dir bad _ hi)
    rw [hb]
    dsimp only
    split_ifs <;> rintro ⟨⟩

theorem emptyLoop_ne_panic (hn : len ≤ DIR_ENTRIES_PER_BLOCK * MAX_BLOCKS) :
    emptyLoop fs dir bad len fuel i z k held ≠ .error .panic := by
  induction fuel generalizing i z k held with
  | zero => exact map_ne_panic brelse_ne_panic
  | succ fuel ih =>
    rw [emptyLoop]
    split_ifs with hi
    · refine bind_ne_panic (emptyTurn_ne_panic (Nat.div_lt_of_lt_mul (by omega))) fun t => ?_
      obtain ⟨t, held⟩ := t
      cases t with
      | here z k =>
        dsimp only
        split_ifs
        · exact map_ne_panic brelse_ne_panic
        · exact ih
      | skip => exact ih
      | stop => rintro ⟨⟩
    · exact map_ne_panic brelse_ne_panic

theorem emptyDir_ne_panic {iNum : ℕ} (h : dir.iSize ≤ MAX_SIZE) : emptyDir fs dir iNum bad ≠ .error .panic := by
  unfold emptyDir
  dsimp only
  split_ifs
  · rintro ⟨⟩
  · apply emptyLoop_ne_panic
    unfold MAX_SIZE BLOCK_SIZE at h
    unfold DIR_ENTRIES_PER_BLOCK
    omega
  · rintro ⟨⟩

theorem addEntry_ne_panic (h : Wf fs dir) : addEntry fs dir bad name ≠ .error .panic := by
  unfold addEntry
  dsimp only
  split_ifs with hs
  · rintro ⟨⟩
  · rw [not_or, not_or, Bool.not_eq_true] at hs
    have hout := @addLoop_spec _ _ _ (name.take NAME_LEN) (dir.iSize / 16 + 3) _ _ _ h (by omega)
      (At.first (blockAt_zero hs.2.1 hs.2.2)) (fun j hj => absurd hj (Nat.not_lt_zero j))
    generalize addLoop bad (name.take NAME_LEN) _ fs dir 0 _ 0 _ = res at hout
    cases hout with
    | done => rintro ⟨⟩
    | null => rintro ⟨⟩

/-! ## The zones of a directory that grows -/

/-- The entry `k` of the zone `z` is the entry `i` of the directory, or the next block comes. -/
def Stands (fs : Fs) (dir : Inode) (i z k : ℕ) : Prop :=
  (k < DIR_ENTRIES_PER_BLOCK ∧ i % DIR_ENTRIES_PER_BLOCK = k ∧ i / DIR_ENTRIES_PER_BLOCK < MAX_BLOCKS ∧
    zoneAt fs dir (slotOf (i / DIR_ENTRIES_PER_BLOCK)) = z ∧ z ≠ 0) ∨
  (k = DIR_ENTRIES_PER_BLOCK ∧ i % DIR_ENTRIES_PER_BLOCK = 0)

/-- Consistent zones, a size in range, and the entry in a block of the directory. -/
def Sane (s : Fs × Inode) (r : Option (ℕ × ℕ)) : Prop :=
  Wf s.1 s.2 ∧ s.2.iSize ≤ MAX_SIZE ∧
    ∀ z k, r = some (z, k) → ∃ b < MAX_BLOCKS, zoneAt s.1 s.2 (slotOf b) = z ∧ z ≠ 0

theorem extend_sane (h : Wf fs dir) (hsize : dir.iSize ≤ MAX_SIZE) (hb : i / DIR_ENTRIES_PER_BLOCK < MAX_BLOCKS)
    (hz : zoneAt fs dir (slotOf (i / DIR_ENTRIES_PER_BLOCK)) = z) (hz0 : z ≠ 0) :
    Wf (extend fs dir i z k).1 (extend fs dir i z k).2 ∧ (extend fs dir i z k).2.iSize ≤ MAX_SIZE ∧
      ∀ s, Valid s → zoneAt (extend fs dir i z k).1 (extend fs dir i z k).2 s = zoneAt fs dir s := by
  unfold extend
  split_ifs
  · refine ⟨(store_spec h hb hz hz0 _).1.resize _, ?_, fun s hs => ?_⟩
    · change (i + 1) * 16 ≤ MAX_SIZE
      unfold DIR_ENTRIES_PER_BLOCK at hb
      unfold MAX_SIZE BLOCK_SIZE
      omega
    · rw [zoneAt_resize]
      exact zoneAt_store h hb hz _ hs
  · exact ⟨h, hsize, fun _ _ => rfl⟩

theorem Stands.next (hk : k < DIR_ENTRIES_PER_BLOCK) (hi : i % DIR_ENTRIES_PER_BLOCK = k)
    (hb : i / DIR_ENTRIES_PER_BLOCK < MAX_BLOCKS) (hz : zoneAt fs dir (slotOf (i / DIR_ENTRIES_PER_BLOCK)) = z)
    (hz0 : z ≠ 0) : Stands fs dir (i + 1) z (k + 1) := by
  unfold DIR_ENTRIES_PER_BLOCK at hk hi hb hz
  unfold Stands DIR_ENTRIES_PER_BLOCK
  by_cases hlast : k = 63
  · exact .inr ⟨by omega, by omega⟩
  · rw [show (i + 1) / 64 = i / 64 by omega]
    exact .inl ⟨by omega, by omega, hb, hz, hz0⟩

theorem addLoop_sane {r : Option (ℕ × ℕ)} {s : Fs × Inode} (h : Wf fs dir) (hsize : dir.iSize ≤ MAX_SIZE)
    (hat : Stands fs dir i z k) (hr : addLoop bad name fuel fs dir i (some z) k [z] = .ok (s, r, held)) : Sane s r := by
  induction fuel generalizing fs dir i z k with
  | zero => cases hr
  | succ fuel ih =>
    -- the loop at an entry of a block
    have hhere {fs : Fs} {dir : Inode} {z k : ℕ} (h : Wf fs dir) (hsize : dir.iSize ≤ MAX_SIZE)
        (hk : k < DIR_ENTRIES_PER_BLOCK) (hi : i % DIR_ENTRIES_PER_BLOCK = k)
        (hb : i / DIR_ENTRIES_PER_BLOCK < MAX_BLOCKS) (hz : zoneAt fs dir (slotOf (i / DIR_ENTRIES_PER_BLOCK)) = z)
        (hz0 : z ≠ 0)
        (hr : (if inodeAt ((extend fs dir i z k).1.blocks z) k = 0 then
          .ok ((putName (extend fs dir i z k).1 z k name, (extend fs dir i z k).2), some (z, k), [z])
        else addLoop bad name fuel (extend fs dir i z k).1 (extend fs dir i z k).2 (i + 1) (some z) (k + 1) [z]) =
          Except.ok (s, r, held)) : Sane s r := by
      obtain ⟨hwf, hsize', hsame⟩ := extend_sane (k := k) h hsize hb hz hz0
      have hz' := (hsame _ (slotOf_valid hb)).trans hz
      split_ifs at hr
      · obtain ⟨rfl, rfl, -⟩ := by simpa using hr
        refine ⟨(store_spec hwf hb hz' hz0 _).1, hsize', fun z' k' he => ?_⟩
        obtain ⟨rfl, rfl⟩ := Prod.mk.inj (Option.some.inj he)
        exact ⟨_, hb, (zoneAt_store hwf hb hz' _ (slotOf_valid hb)).trans hz', hz0⟩
      · exact ih hwf hsize' (.next hk hi hb hz' hz0) hr
    rw [addLoop] at hr
    dsimp only at hr
    rcases hat with ⟨hk, hi, hb, hz, hz0⟩ | ⟨rfl, hi⟩
    · rw [addTurn, if_pos hk] at hr
      exact hhere h hsize hk hi hb hz hz0 hr
    · rw [addTurn_behind] at hr
      cases hc : createBlock fs dir bad (i / DIR_ENTRIES_PER_BLOCK) with
      | none =>
        rw [hc] at hr
        cases hr
      | some p =>
        obtain ⟨fs', dir', block⟩ := p
        obtain ⟨hb, hext, hzone⟩ := _bmap_spec h hc
        rw [hc] at hr
        dsimp only at hr
        split_ifs at hr with h0 hbad
        · obtain ⟨rfl, rfl, -⟩ := by simpa [Except.bind] using hr
          exact ⟨hext.wf, hext.size ▸ hsize, fun _ _ he => by cases he⟩
        · cases fuel with
          | zero => cases hr
          | succ fuel => cases hr
        · exact hhere hext.wf (hext.size ▸ hsize) (by decide) hi hb (hzone h0) h0 hr

theorem addEntry_sane {r : Option (ℕ × ℕ)} {s : Fs × Inode} (h : Wf fs dir) (hsize : dir.iSize ≤ MAX_SIZE)
    (hr : addEntry fs dir bad name = .ok (s, r, held)) : Sane s r := by
  unfold addEntry at hr
  dsimp only at hr
  split_ifs at hr with hs
  · obtain ⟨rfl, rfl, -⟩ := by simpa using hr
    exact ⟨h, hsize, nofun⟩
  · rw [not_or, not_or] at hs
    exact addLoop_sane (i := 0) h hsize (.inl ⟨by decide, rfl, by decide, rfl, hs.2.1⟩) hr

/-! ## Calls on the file -/

theorem fileReadLoop_isSome {inode : Inode} {bads : ℕ → ℕ → Bool} {pos left : ℕ} {got : List UInt8}
    (hend : pos + left ≤ MAX_SIZE) : (fileReadLoop fs inode bads fuel pos left got).isSome := by
  induction fuel generalizing pos left got with
  | zero => rfl
  | succ fuel ih =>
    rw [fileReadLoop]
    split_ifs with h0
    · rfl
    · have hb : pos / BLOCK_SIZE < MAX_BLOCKS := by
        rw [Nat.div_lt_iff_lt_mul (by decide)]
        exact (show pos < MAX_SIZE by omega)
      obtain ⟨nr, hnr⟩ := Option.isSome_iff_exists.mp (@bmap_isSome fs inode (bads (pos / BLOCK_SIZE)) _ hb)
      dsimp only
      rw [hnr, Option.bind_some]
      split_ifs
      · rfl
      all_goals exact ih (by omega)

/-- A read stays below the size of the file. -/
theorem sysRead_outcome {sys : FileDev.Sys} (hsize : sys.inode.iSize ≤ MAX_SIZE) (fd count : ℕ) (bads : ℕ → ℕ → Bool) :
    ∃ sys', sysRead sys fd count bads = some sys' ∧ sys'.fs = sys.fs ∧ sys'.inode = sys.inode := by
  unfold sysRead fileRead
  dsimp only
  generalize hn : (if count + (sys.filp fd).fPos > sys.inode.iSize then sys.inode.iSize - (sys.filp fd).fPos
    else count) = n
  by_cases h0 : n = 0
  · rw [if_pos h0]
    exact ⟨_, rfl, rfl, rfl⟩
  · have hend : (sys.filp fd).fPos + n ≤ MAX_SIZE := by
      split_ifs at hn <;> omega
    have hsome : (fileReadLoop sys.fs sys.inode bads n (sys.filp fd).fPos n []).isSome := fileReadLoop_isSome hend
    obtain ⟨⟨pos, got⟩, hr⟩ := Option.isSome_iff_exists.mp hsome
    rw [if_neg h0, if_neg h0, hr]
    exact ⟨_, rfl, rfl, rfl⟩

/-- A write panics only behind the block map, with a zone for each block before. -/
theorem sysWrite_outcome {sys : FileDev.Sys} (h : Wf sys.fs sys.inode) (hsize : sys.inode.iSize ≤ MAX_SIZE) (fd : ℕ)
    (buf : List UInt8) (bads : ℕ → ℕ → Bool) :
    match sysWrite sys fd buf bads with
    | none => MAX_SIZE < sys.start fd + buf.length ∧ Supplied sys.fs sys.inode bads (sys.start fd / BLOCK_SIZE)
    | some sys' => Wf sys'.fs sys'.inode ∧ sys'.inode.iSize ≤ MAX_SIZE := by
  unfold sysWrite fileWrite
  by_cases h0 : buf = []
  · rw [if_pos h0]
    exact ⟨h, hsize⟩
  · rw [if_neg h0]
    have hloop := @fileWriteLoop_outcome _ _ 0 (sys.start fd) buf buf.length bads h hsize
    unfold Sys.start at hloop ⊢
    dsimp only
    revert hloop
    cases fileWriteLoop bads buf.length sys.fs sys.inode _ buf 0 with
    | none => exact id
    | some r =>
      intro hloop
      rw [Option.map_some]
      dsimp only
      split_ifs <;> exact hloop

theorem Good.put {sys : FileDev.Sys} (hs : s.put (some sys) = .ok s')
    (h : Wf sys.fs sys.inode ∧ sys.inode.iSize ≤ MAX_SIZE) : Good s' := by
  obtain rfl := Except.ok.inj hs
  exact ⟨h.1, h.2⟩

/-- No call comes to a block number out of range. -/
theorem Good.step_ne_panic (h : Good s) (hc : Fits s c) : step c s ≠ .error .panic := by
  cases c with
  | «open» fd append => rintro ⟨⟩
  | openTrunc fd append iMode held rounds =>
    unfold step
    dsimp only
    split_ifs with hd
    · rintro ⟨⟩
    · by_cases hm : iMode &&& Files.S_IFMT = Files.S_IFREG ∨ iMode &&& Files.S_IFMT = Files.S_IFDIR ∨
          iMode &&& Files.S_IFMT = Files.S_IFLNK
      · obtain ⟨t, returned, ht, -⟩ := Truncate.truncate_frees h.wf hm held rounds
        rw [ht]
        cases returned <;> rintro ⟨⟩
      · unfold Truncate.truncate
        rw [if_neg hm]
        rintro ⟨⟩
  | lseek fd offset origin => rintro ⟨⟩
  | read fd count bad =>
    obtain ⟨sys', hr, -⟩ := sysRead_outcome h.size fd count bad
    unfold step
    dsimp only
    rw [hr]
    rintro ⟨⟩
  | write fd buf bad =>
    unfold step
    dsimp only
    split_ifs with hd
    · rintro ⟨⟩
    · have hw := sysWrite_outcome h.wf h.size fd buf bad
      cases hr : sysWrite s.sys fd buf bad with
      | some sys' => rintro ⟨⟩
      | none =>
        rw [hr] at hw
        obtain ⟨hlt, hsup⟩ := hw
        rcases hc with hdir | hle | hno
        · have hbuf : buf = [] := by
            by_contra hne
            exact hd ⟨hdir, hne⟩
          rw [sysWrite, if_pos hbuf] at hr
          cases hr
        · exact absurd hle (by omega)
        · exact absurd hsup hno
  | find at_ bad name =>
    unfold step
    dsimp only
    split_ifs
    · exact map_ne_panic (findEntry_ne_panic h.size)
    · rintro ⟨⟩
  | add bad name ino =>
    unfold step
    dsimp only
    split_ifs
    · exact map_ne_panic (addEntry_ne_panic h.wf)
    · rintro ⟨⟩
  | empty iNum bad =>
    unfold step
    dsimp only
    split_ifs
    · exact map_ne_panic (emptyDir_ne_panic h.size)
    · rintro ⟨⟩
  | others fs => rintro ⟨⟩

/-- Every call keeps the zones consistent and the size in range. -/
theorem Good.step (h : Good s) (hc : Legal s c) (hs : BlockRange.step c s = .ok s') : Good s' := by
  unfold BlockRange.step at hs
  cases c with
  | «open» fd append => exact @Good.put _ _ (opened s.sys fd append) hs ⟨h.wf, h.size⟩
  | openTrunc fd append iMode held rounds =>
    dsimp only at hs
    split_ifs at hs with hd
    · exact .put hs ⟨h.wf, h.size⟩
    · split at hs
      · cases hs
      · cases hs
      · rename_i t ht
        obtain ⟨hwf, hsize⟩ := Truncate.truncate_wf h.wf ht
        exact .put hs ⟨hwf, hsize.trans h.size⟩
  | lseek fd offset origin =>
    refine .put hs ?_
    unfold sysLseek
    dsimp only
    split_ifs <;> exact ⟨h.wf, h.size⟩
  | read fd count bad =>
    obtain ⟨sys', hr, hfs, hinode⟩ := sysRead_outcome h.size fd count bad
    dsimp only at hs
    rw [hr] at hs
    refine .put hs ?_
    rw [hfs, hinode]
    exact ⟨h.wf, h.size⟩
  | write fd buf bad =>
    dsimp only at hs
    split_ifs at hs with hd
    · exact .put hs ⟨h.wf, h.size⟩
    · have hw := sysWrite_outcome h.wf h.size fd buf bad
      cases hr : sysWrite s.sys fd buf bad with
      | none =>
        rw [hr] at hs
        cases hs
      | some sys' =>
        rw [hr] at hs hw
        exact .put hs hw
  | find at_ bad name =>
    dsimp only at hs
    split_ifs at hs
    · cases hf : findEntry s.sys.fs s.sys.inode at_ bad name with
      | error e =>
        rw [hf] at hs
        cases hs
      | ok r =>
        rw [hf] at hs
        exact Except.ok.inj hs ▸ h
    · exact Except.ok.inj hs ▸ h
  | add bad name ino =>
    dsimp only at hs
    split_ifs at hs
    · cases ha : addEntry s.sys.fs s.sys.inode bad name with
      | error e =>
        rw [ha] at hs
        cases hs
      | ok r =>
        obtain ⟨⟨fs, dir⟩, r, held⟩ := r
        obtain ⟨hwf, hsize, hplace⟩ := addEntry_sane h.wf h.size ha
        rw [ha] at hs
        obtain rfl := Except.ok.inj hs
        cases r with
        | none => exact ⟨hwf, hsize⟩
        | some p =>
          obtain ⟨b, hb, hz, hz0⟩ := hplace p.1 p.2 rfl
          exact ⟨(store_spec hwf hb hz hz0 _).1, hsize⟩
    · exact Except.ok.inj hs ▸ h
  | empty iNum bad =>
    dsimp only at hs
    split_ifs at hs
    · cases he : emptyDir s.sys.fs s.sys.inode iNum bad with
      | error e =>
        rw [he] at hs
        cases hs
      | ok r =>
        rw [he] at hs
        exact Except.ok.inj hs ▸ h
    · exact Except.ok.inj hs ▸ h
  | others fs =>
    obtain rfl := Except.ok.inj hs
    exact ⟨hc, h.size⟩

/-- In every run whose calls meet the condition, no call passes a block number out of range to the block map. -/
theorem block_in_range {s₀ : State} (h₀ : Good s₀)
    (h : Run (fun c s => (step c s).toOption) (fun s c => Legal s c ∧ Fits s c) s₀ s) (hc : Fits s c) :
    step c s ≠ .error .panic := by
  have hgood : Good s := h.invariant h₀ fun s c s' hs hc hstep => by
    cases he : BlockRange.step c s with
    | error e =>
      rw [he] at hstep
      cases hstep
    | ok s'' =>
      rw [he] at hstep
      obtain rfl := Option.some.inj hstep
      exact hs.step hc.1 he
  exact hgood.step_ne_panic hc

/-- An empty regular file. -/
def emptyFile : State := ⟨newFile, false⟩

theorem emptyFile_good : Good emptyFile := ⟨newFile_ok.sound.wf, newFile_ok.sound.size⟩

/-- The position behind the last block of the block map. -/
def sought : State := { emptyFile with sys := sysLseek newFile 0 (BitVec.ofNat 32 MAX_SIZE) .SEEK_SET }

theorem sought_run {ok : State → Call → Prop} (hok : ok emptyFile (.lseek 0 (BitVec.ofNat 32 MAX_SIZE) .SEEK_SET)) :
    Run (fun c s => (step c s).toOption) ok emptyFile sought := .tail .refl hok rfl

theorem block_in_range_sought : step (.read 0 1 good) sought ≠ .error .panic :=
  block_in_range emptyFile_good (sought_run ⟨trivial, trivial⟩) trivial

/-- One byte written there is enough for the panic. -/
theorem block_out_of_range : ¬ ∀ s₀ s c, Good s₀ → Run (fun c s => (step c s).toOption) Legal s₀ s → Legal s c →
    step c s ≠ .error .panic := by
  intro h
  refine h emptyFile sought (.write 0 [0] good) emptyFile_good (sought_run trivial) trivial ?_
  have hr : sysWrite sought.sys 0 [0] good = none := by decide +kernel
  unfold step
  dsimp only
  rw [if_neg fun hc => Bool.false_ne_true hc.1, hr]
  rfl

end Linux012.BlockRange
