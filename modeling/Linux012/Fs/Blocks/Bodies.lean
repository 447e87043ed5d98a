import Linux012.Fs.Blocks.Tasks

/-! # The scripts are balanced

Each function releases the buffers that it gets, on every path. The functions that return a buffer are those
of the cache; the scripts return numbers, super blocks or nothing.
-/

namespace Linux012.Blocks

open Scripts Loans Buffer FileDev

variable {α β γ : Type} {self : Fn} {Q : α → Multiset ℕ → Prop} {h : Multiset ℕ} {inode filp buf : ℕ}

/-- The script of `self` ends as `Q` says when it holds the references `h`. -/
abbrev Ends (self : Fn) (Q : α → Multiset ℕ → Prop) (h : Multiset ℕ) (m : Code α) : Prop :=
  loans.Balanced (.fn self) Q h m

/-- The script of `self` ends with the references that it starts with. -/
abbrev Keeps (self : Fn) (h : Multiset ℕ) (m : Code α) : Prop := Ends self (fun _ h' => h' = h) h m

/-! ## Counts -/

namespace Sys

variable {s : Sys} {bh : ℕ}

theorem count_setHead {g : BufferHead Block → BufferHead Block} (hg : ∀ b, (g b).bCount = b.bCount) (i : ℕ) :
    (s.setHead bh g).count i = s.count i :=
  Cache.field_upd BufferHead.bCount (hg _) i

@[simp] theorem count_store (g : Block → Block) (i : ℕ) : (s.store bh g).count i = s.count i :=
  count_setHead (by intro b; rfl) i

@[simp] theorem count_storeAt (o : Option ℕ) (g : Block → Block) (i : ℕ) :
    (s.storeAt o g).count i = s.count i := by
  cases o with
  | none => rfl
  | some bh => exact count_store g i

@[simp] theorem count_setInode (g : MInode → MInode) (i : ℕ) : (s.setInode inode g).count i = s.count i := rfl

@[simp] theorem count_setFile (g : File → File) (i : ℕ) : (s.setFile filp g).count i = s.count i := rfl

end Sys

/-! ## Calls -/

theorem ends_pure {a : α} (ha : Q a h) : Ends self Q h (pure a : Code α) := ha

theorem ends_goto {g : Fn} (hg : g.kind = self.kind) : Ends self Q 0 (.goto (.fn g)) := ⟨rfl, hg⟩

theorem ends_reads {f : Sys → β} {c : β → Code α} (hc : ∀ b, Ends self Q h (c b)) :
    Ends self Q h (.reads f >>= c) := Balanced.reads_bind fun s _ => hc (f s)

theorem ends_modifies {g : Sys → Sys} {c : Unit → Code α} (hg : ∀ s i, (g s).count i = s.count i)
    (hc : Ends self Q h (c ())) : Ends self Q h (.modifies g >>= c) := Balanced.modifies_bind hg hc

theorem keeps_modifies {g : Sys → Sys} (hg : ∀ s i, (g s).count i = s.count i) :
    Keeps self h (.modifies g) := ⟨hg, rfl⟩

/-- A function that takes nothing over and returns no buffer -/
theorem ends_call {g : Callee} {k : Value → β} {c : β → Code α} (ht : g.takes = 0)
    (hk : g.kind ≠ .buffer) (hc : ∀ b, Ends self Q h (c b)) : Ends self Q h (.calls g k >>= c) := by
  have htakes : loans.takes g = 0 := ht
  refine Balanced.calls_bind (htakes ▸ Multiset.zero_le h) fun v hv => ?_
  have hgives : loans.gives v = 0 := by
    change v.Fits g.kind at hv
    cases v with
    | buffer bh =>
      cases bh with
      | none => rfl
      | some bh => cases hg : g.kind <;> simp_all [Value.Fits]
    | super | int => rfl
  rw [htakes, hgives, tsub_zero, add_zero]
  exact hc (k v)

theorem ends_getSuper {dev : Dev} {c : Option ℕ → Code α} (hc : ∀ sb, Ends self Q h (c sb)) :
    Ends self Q h (getSuper dev >>= c) := ends_call rfl nofun hc

theorem ends_callInt {g : Fn} {c : ℤ → Code α} (hg : g.kind = .int) (hc : ∀ i, Ends self Q h (c i)) :
    Ends self Q h (callInt g >>= c) := ends_call rfl (by simp [Callee.kind, hg]) hc

theorem ends_callVoid {g : Fn} {c : Unit → Code α} (hg : g.kind = .void) (hc : Ends self Q h (c ())) :
    Ends self Q h (callVoid g >>= c) := ends_call rfl (by simp [Callee.kind, hg]) fun _ => hc

theorem keeps_callInt {g : Fn} (hg : g.kind = .int) : Keeps self h (callInt g) :=
  ends_callInt (c := pure) hg fun _ => rfl

theorem keeps_callVoid {g : Fn} (hg : g.kind = .void) : Keeps self h (callVoid g) :=
  ends_callVoid (c := pure) hg rfl

/-- A function that may return a buffer -/
theorem ends_get {g : Callee} {c : Option ℕ → Code α} (ht : g.takes = 0) (hk : g.kind = .buffer)
    (hnull : Ends self Q h (c none)) (hgot : ∀ bh, Ends self Q (h + {bh}) (c (some bh))) :
    Ends self Q h (.calls g Value.toBuffer >>= c) := by
  have htakes : loans.takes g = 0 := ht
  refine Balanced.calls_bind (htakes ▸ Multiset.zero_le h) fun v hv => ?_
  change v.Fits g.kind at hv
  rw [hk] at hv
  rw [htakes, tsub_zero]
  cases v with
  | buffer bh =>
    cases bh with
    | none =>
      change Ends self Q (h + 0) (c none)
      rw [add_zero]
      exact hnull
    | some bh => exact hgot bh
  | super | int => exact hv.elim

theorem ends_brelse {bh : ℕ} {c : Unit → Code α} (hc : Ends self Q h (c ())) :
    Ends self Q (h + {bh}) (brelse bh >>= c) := by
  have htakes : loans.takes (.brelse bh) = {bh} := rfl
  refine Balanced.calls_bind (htakes ▸ Multiset.le_add_left {bh} h) fun v hv => ?_
  change v.Fits .void at hv
  have hgives : loans.gives v = 0 := by
    rcases v with (_ | bh) | _ | _
    · rfl
    · exact hv.elim
    · rfl
    · rfl
  rw [htakes, hgives, add_tsub_cancel_right, add_zero]
  exact hc

theorem ends_of_keeps {m : Code β} {c : β → Code α} (hm : Keeps self h m) (hc : ∀ b, Ends self Q h (c b)) :
    Ends self Q h (m >>= c) :=
  Balanced.bind hm fun b _ hh => hh ▸ hc b

/-! ## `fs/super.c` and the locks of inodes -/

theorem keeps_getSuperFrom {dev : Dev} {i : ℕ} : Keeps (.getSuper dev i) 0 (getSuperFrom dev i) := by
  unfold getSuperFrom
  refine Balanced.ite (fun _ => rfl) fun _ => Balanced.ite (fun _ => ?_) fun _ => rfl
  refine ends_reads fun sb => Balanced.ite (fun _ => ?_) fun _ => ?_
  · exact ends_goto rfl
  · exact ends_goto rfl

theorem keeps_getSuperWait {dev : Dev} {i : ℕ} : Keeps (.getSuperWait dev i) 0 (getSuperWait dev i) := by
  refine ends_reads fun sb => Balanced.ite (fun _ => ?_) fun _ => ?_
  · exact Balanced.pause_bind (ends_goto rfl)
  · exact Balanced.ite (fun _ => rfl) fun _ => ends_goto rfl

theorem keeps_waitOnInode : Keeps (.waitOnInode inode) 0 (waitOnInode inode) := by
  refine ends_reads fun x => Balanced.ite (fun _ => ?_) fun _ => rfl
  exact Balanced.pause_bind (ends_goto rfl)

theorem keeps_lockInode : Keeps (.lockInode inode) 0 (lockInode inode) := by
  refine ends_reads fun x => Balanced.ite (fun _ => ?_) fun _ => ?_
  · exact Balanced.pause_bind (ends_goto rfl)
  · exact keeps_modifies fun _ _ => rfl

theorem keeps_unlockInode : Keeps self h (unlockInode inode) := keeps_modifies fun _ _ => rfl

/-! ## `fs/bitmap.c` -/

theorem keeps_newBlockGot {dev : Dev} {j : ℤ} : Keeps self 0 (newBlockGot dev j) := by
  refine ends_get rfl rfl trivial fun bh => ?_
  refine ends_reads fun count => Balanced.ite (fun _ => trivial) fun _ => ?_
  refine ends_modifies (fun _ i => Sys.count_setHead (by intro b; rfl) i) ?_
  exact ends_brelse rfl

theorem keeps_newBlock {dev : Dev} : Keeps (.newBlock dev) 0 (newBlock dev) := by
  refine ends_getSuper fun sb => ?_
  cases sb with
  | none => trivial
  | some sb =>
    refine ends_reads fun found => ?_
    rcases found with _ | ⟨i, bh, j⟩
    · exact rfl
    · refine ends_reads fun isSet => Balanced.ite (fun _ => trivial) fun _ => ?_
      refine ends_modifies (fun _ i => Sys.count_store _ i) ?_
      refine ends_reads fun x => Balanced.ite (fun _ => rfl) fun _ => ?_
      exact keeps_newBlockGot

theorem keeps_freeBlockEnd {sb : ℕ} {block : ℤ} : Keeps self h (freeBlockEnd sb block) :=
  ends_modifies (fun _ i => Sys.count_storeAt _ _ i) rfl

/-- The count of the buffer that `get_hash_table` has returned is not 0, so one of the two calls of
`brelse` is made. -/
theorem keeps_freeBlockGot {sb bh : ℕ} {block : ℤ} :
    Ends self (fun _ h' => h' = 0) ({bh} : Multiset ℕ) (freeBlockGot sb block bh) := by
  rw [← zero_add ({bh} : Multiset ℕ)]
  refine ends_reads fun count => Balanced.ite (fun _ => ?_) fun _ => ?_
  · exact ends_brelse rfl
  · refine ends_modifies (fun _ i => Sys.count_setHead (by intro b; rfl) i) ?_
    refine Balanced.reads_bind fun s hs => ?_
    have hcount : s.count bh ≠ 0 := hs bh (by simp)
    refine Balanced.ite (fun _ => ?_) fun h => absurd hcount h
    exact ends_brelse keeps_freeBlockEnd

theorem keeps_freeBlock {dev : Dev} {block : ℤ} : Keeps (.freeBlock dev block) 0 (freeBlock dev block) := by
  refine ends_getSuper fun sb => ?_
  cases sb with
  | none => trivial
  | some sb =>
    refine ends_reads fun x => Balanced.ite (fun _ => trivial) fun _ => ?_
    refine ends_get rfl rfl keeps_freeBlockEnd fun bh => ?_
    rw [zero_add]
    exact keeps_freeBlockGot

/-! ## `fs/inode.c` -/

theorem keeps_zone {k : ℕ} {create : Bool} : Keeps self h (zone inode k create) := by
  refine ends_reads fun x => Balanced.ite (fun _ => ?_) fun _ => rfl
  refine ends_callInt rfl fun nr => ?_
  exact ends_modifies (fun _ _ => rfl) rfl

theorem keeps_newEntry {bh k : ℕ} : Keeps self h (newEntry inode bh k) := by
  refine ends_reads fun x => ends_callInt rfl fun i => Balanced.ite (fun _ => ?_) fun _ => rfl
  exact ends_modifies (fun _ i => Sys.count_store _ i) rfl

theorem keeps_fillEntry {bh k i : ℕ} {create : Bool} : Keeps self h (fillEntry inode bh k create i) := by
  unfold fillEntry
  exact Balanced.ite (fun _ => keeps_newEntry) fun _ => rfl

theorem keeps_entry {z : ℤ} {k : ℕ} {create : Bool} : Keeps self h (entry inode z k create) := by
  refine ends_reads fun x => ends_get rfl rfl rfl fun bh => ?_
  exact ends_reads fun i => ends_of_keeps keeps_fillEntry fun _ => ends_brelse rfl

theorem keeps_bmap {block : ℤ} {create : Bool} : Keeps self h (_bmap inode block create) := by
  unfold _bmap
  refine Balanced.ite (fun _ => trivial) fun _ => Balanced.ite (fun _ => trivial) fun _ => ?_
  refine Balanced.ite (fun _ => ?direct) fun _ => Balanced.ite (fun _ => ?single) fun _ => ?double
  case direct => exact ends_of_keeps keeps_zone fun z => rfl
  case single =>
    exact ends_of_keeps keeps_zone fun z => Balanced.ite (fun _ => rfl) fun _ => keeps_entry
  case double =>
    refine ends_of_keeps keeps_zone fun z => Balanced.ite (fun _ => rfl) fun _ => ?_
    exact ends_of_keeps keeps_entry fun i => Balanced.ite (fun _ => rfl) fun _ => keeps_entry

theorem ends_bmap {block : ℤ} {c : ℤ → Code α} (hc : ∀ i, Ends self Q h (c i)) :
    Ends self Q h (bmap inode block >>= c) := ends_callInt rfl hc

theorem ends_createBlock {block : ℤ} {c : ℤ → Code α} (hc : ∀ i, Ends self Q h (c i)) :
    Ends self Q h (createBlock inode block >>= c) := ends_callInt rfl hc

theorem keeps_readInode : Keeps (.readInode inode) 0 (readInode inode) := by
  refine ends_callVoid rfl (ends_reads fun x => ends_getSuper fun sb => ?_)
  cases sb with
  | none => trivial
  | some sb =>
    refine ends_reads fun x => ends_reads fun sb => ends_get rfl rfl trivial fun bh => ?_
    refine ends_modifies (fun _ _ => rfl) (ends_brelse ?_)
    exact ends_modifies (fun _ _ => rfl) keeps_unlockInode

theorem keeps_writeInode : Keeps (.writeInode inode) 0 (writeInode inode) := by
  refine ends_callVoid rfl (ends_reads fun x => Balanced.ite (fun _ => keeps_unlockInode) fun _ => ?_)
  refine ends_getSuper fun sb => ?_
  cases sb with
  | none => trivial
  | some sb =>
    refine ends_reads fun x => ends_reads fun sb => ends_get rfl rfl trivial fun bh => ?_
    refine ends_reads fun x => ends_modifies (fun _ i => Sys.count_store _ i) ?_
    exact ends_modifies (fun _ _ => rfl) (ends_brelse keeps_unlockInode)

theorem keeps_syncInodes : Keeps .syncInodes 0 syncInodes := by
  refine Balanced.foldlM fun _ inode _ => ?_
  refine ends_callVoid rfl (ends_reads fun x => Balanced.ite (fun _ => ?_) fun _ => rfl)
  exact keeps_callVoid rfl

/-! ## `fs/truncate.c` -/

theorem keeps_freeEntry {free : ℕ → Code ℤ} (hf : ∀ p, Keeps self h (free p)) {bh i : ℕ} {busy : Bool} :
    Keeps self h (freeEntry free bh busy i) := by
  refine ends_reads fun p => Balanced.ite (fun _ => rfl) fun _ => ?_
  refine ends_of_keeps (hf p) fun freed => Balanced.ite (fun _ => ?_) fun _ => rfl
  exact ends_modifies (fun _ i => Sys.count_store _ i) rfl

theorem keeps_freeEntries {free : ℕ → Code ℤ} (hf : ∀ p, Keeps self h (free p)) {bh : ℕ} :
    Keeps self h (freeEntries free bh) := by
  have hloop : ∀ l : List ℕ, Keeps self h (l.foldlM (freeEntry free bh) false) :=
    fun l => Balanced.foldlM fun _ _ _ => keeps_freeEntry hf
  unfold freeEntries
  exact hloop _

/-- The indirect block is held while the blocks that it names are freed. -/
theorem keeps_freeTable {free : ℕ → Code ℤ} (hf : ∀ h p, Keeps self h (free p)) {dev : Dev} {block : ℕ} :
    Keeps self h (freeTable free dev block) := by
  unfold freeTable
  refine Balanced.ite (fun _ => rfl) fun _ => ends_get rfl rfl (keeps_callInt rfl) fun bh => ?_
  refine ends_of_keeps (keeps_freeEntries (hf _)) fun busy => ends_brelse ?_
  exact Balanced.ite (fun _ => rfl) fun _ => keeps_callInt rfl

theorem keeps_freeInd {dev : Dev} {block : ℕ} : Keeps self h (freeInd dev block) :=
  keeps_freeTable fun _ _ => keeps_callInt rfl

theorem keeps_freeDind {dev : Dev} {block : ℕ} : Keeps self h (freeDind dev block) :=
  keeps_freeTable fun _ _ => keeps_callInt rfl

theorem keeps_freeZone {free : Dev → ℕ → Fn} (hf : ∀ dev z, (free dev z).kind = .int) {k : ℕ} {busy : Bool} :
    Keeps self h (freeZone inode free k busy) := by
  refine ends_reads fun x => ends_callInt (hf _ _) fun freed => Balanced.ite (fun _ => ?_) fun _ => rfl
  exact ends_modifies (fun _ _ => rfl) rfl

theorem keeps_truncate : Keeps (.truncate inode) 0 (truncate inode) :=
  ends_reads fun _ => Balanced.ite (fun _ => ends_goto rfl) fun _ => rfl

theorem keeps_truncateRepeat : Keeps (.truncateRepeat inode) 0 (truncateRepeat inode) := by
  have hdirect : Keeps (.truncateRepeat inode) 0 ((List.range 7).foldlM (freeDirect inode) false) :=
    Balanced.foldlM fun _ _ _ =>
      ends_reads fun x => Balanced.ite (fun _ => rfl) fun _ => keeps_freeZone fun _ _ => rfl
  refine ends_of_keeps hdirect fun busy => ?_
  refine ends_of_keeps (keeps_freeZone fun _ _ => rfl) fun busy => ?_
  refine ends_of_keeps (keeps_freeZone fun _ _ => rfl) fun busy => ?_
  refine ends_modifies (fun _ _ => rfl) (Balanced.ite (fun _ => ?_) fun _ => ?_)
  · exact Balanced.pause_bind (ends_goto rfl)
  · exact keeps_modifies fun _ _ => rfl

/-! ## `fs/file_dev.c` -/

theorem keeps_fileRead {count : ℤ} : Keeps (.fileRead inode filp buf count) 0 (fileRead inode filp buf count) := by
  unfold fileRead
  exact Balanced.ite (fun _ => rfl) fun _ => ends_goto rfl

theorem keeps_fileReadEnd {count : ℤ} {left : ℕ} : Keeps self h (fileReadEnd inode count left) :=
  ends_modifies (fun _ _ => rfl) rfl

theorem keeps_fileReadLoop {count : ℤ} {left : ℕ} :
    Keeps (.fileReadLoop inode filp buf count left) 0 (fileReadLoop inode filp buf count left) := by
  unfold fileReadLoop
  refine Balanced.ite (fun _ => keeps_fileReadEnd) fun _ => ends_reads fun f => ends_bmap fun nr => ?_
  refine ends_reads fun x => Balanced.ite (fun _ => ?block) fun _ => ?hole
  case block =>
    refine ends_get rfl rfl keeps_fileReadEnd fun bh => ends_reads fun f => ?_
    exact ends_modifies (fun _ _ => rfl) (ends_brelse (ends_goto rfl))
  case hole =>
    refine ends_reads fun f => ?_
    exact ends_modifies (fun _ _ => rfl) (ends_goto rfl)

theorem keeps_fileWrite {count : ℤ} :
    Keeps (.fileWrite inode filp buf count) 0 (fileWrite inode filp buf count) :=
  ends_reads fun _ => ends_reads fun _ => ends_goto rfl

theorem keeps_fileWriteEnd {pos i : ℤ} : Keeps self h (fileWriteEnd inode filp pos i) := by
  refine ends_modifies (fun _ _ => rfl) (ends_reads fun f => Balanced.ite (fun _ => rfl) fun _ => ?_)
  exact ends_modifies (fun _ _ => rfl) (ends_modifies (fun _ _ => rfl) rfl)

theorem keeps_fileWriteLoop {count pos i : ℤ} :
    Keeps (.fileWriteLoop inode filp buf count pos i) 0 (fileWriteLoop inode filp buf count pos i) := by
  unfold fileWriteLoop
  refine Balanced.ite (fun _ => ends_createBlock fun block => ?_) fun _ => keeps_fileWriteEnd
  refine Balanced.ite (fun _ => keeps_fileWriteEnd) fun _ => ends_reads fun x => ?_
  refine ends_get rfl rfl keeps_fileWriteEnd fun bh => ends_modifies (fun _ _ => rfl) ?_
  exact ends_modifies (fun _ i => Sys.count_store _ i) (ends_brelse (ends_goto rfl))

/-! ## `fs/block_dev.c` -/

theorem keeps_startIo {dev : Dev} {count : ℤ} {loop : BlockIo → Fn} (hl : ∀ r, (loop r).kind = self.kind) :
    Keeps self 0 (startIo dev filp buf count loop) :=
  ends_reads fun _ => ends_reads fun _ => ends_goto (hl _)

theorem ends_movePos {r : BlockIo} {c : Unit → Code α} (hc : Ends self Q h (c ())) :
    Ends self Q h (movePos r >>= c) := ends_modifies (fun _ _ => rfl) hc

theorem keeps_blockReadLoop {r : BlockIo} : Keeps (.blockReadLoop r) 0 (blockReadLoop r) := by
  unfold blockReadLoop
  refine Balanced.ite (fun _ => Balanced.ite (fun _ => rfl) fun _ => ?_) fun _ => rfl
  refine ends_get rfl rfl rfl fun bh => ends_movePos ?_
  exact ends_modifies (fun _ _ => rfl) (ends_brelse (ends_goto rfl))

theorem ends_blockToWrite {r : BlockIo} {c : Option ℕ → Code α} (hnull : Ends self Q h (c none))
    (hgot : ∀ bh, Ends self Q (h + {bh}) (c (some bh))) : Ends self Q h (blockToWrite r >>= c) := by
  unfold blockToWrite
  split
  · exact ends_get rfl rfl hnull hgot
  · exact ends_get rfl rfl hnull hgot

theorem keeps_blockWriteLoop {r : BlockIo} : Keeps (.blockWriteLoop r) 0 (blockWriteLoop r) := by
  unfold blockWriteLoop
  refine Balanced.ite (fun _ => Balanced.ite (fun _ => rfl) fun _ => ?_) fun _ => rfl
  refine ends_blockToWrite rfl fun bh => ends_movePos ?_
  exact ends_modifies (fun _ i => Sys.count_store _ i) (ends_brelse (ends_goto rfl))

/-! ## The bodies -/

theorem ends_int {m : Code ℤ} (hk : self.kind = .int) (hm : Keeps self 0 m) :
    Ends self (loans.Leaves (.fn self)) 0 (int m) :=
  ends_of_keeps hm fun i => ⟨by change Value.Fits self.kind _; rw [hk]; trivial, rfl⟩

theorem ends_void {m : Code Unit} (hk : self.kind = .void) (hm : Keeps self 0 m) :
    Ends self (loans.Leaves (.fn self)) 0 (void m) :=
  ends_of_keeps hm fun i => ⟨by change Value.Fits self.kind _; rw [hk]; trivial, rfl⟩

theorem ends_super {m : Code (Option ℕ)} (hk : self.kind = .super) (hm : Keeps self 0 m) :
    Ends self (loans.Leaves (.fn self)) 0 (super m) :=
  ends_of_keeps hm fun i => ⟨by change Value.Fits self.kind _; rw [hk]; trivial, rfl⟩

/-- Every function ends with no reference but those that its value comes with. -/
theorem ends_body (f : Fn) : Ends f (loans.Leaves (.fn f)) 0 (body f) := by
  cases f with
  | getSuper => exact ends_super rfl keeps_getSuperFrom
  | getSuperWait => exact ends_super rfl keeps_getSuperWait
  | waitOnInode => exact ends_void rfl keeps_waitOnInode
  | lockInode => exact ends_void rfl keeps_lockInode
  | newBlock => exact ends_int rfl keeps_newBlock
  | freeBlock => exact ends_int rfl keeps_freeBlock
  | _bmap => exact ends_int rfl keeps_bmap
  | freeInd => exact ends_int rfl keeps_freeInd
  | freeDind => exact ends_int rfl keeps_freeDind
  | truncate => exact ends_void rfl keeps_truncate
  | truncateRepeat => exact ends_void rfl keeps_truncateRepeat
  | fileRead => exact ends_int rfl keeps_fileRead
  | fileReadLoop => exact ends_int rfl keeps_fileReadLoop
  | fileWrite => exact ends_int rfl keeps_fileWrite
  | fileWriteLoop => exact ends_int rfl keeps_fileWriteLoop
  | blockRead => exact ends_int rfl (keeps_startIo fun _ => rfl)
  | blockReadLoop => exact ends_int rfl keeps_blockReadLoop
  | blockWrite => exact ends_int rfl (keeps_startIo fun _ => rfl)
  | blockWriteLoop => exact ends_int rfl keeps_blockWriteLoop
  | readInode => exact ends_void rfl keeps_readInode
  | writeInode => exact ends_void rfl keeps_writeInode
  | syncInodes => exact ends_void rfl keeps_syncInodes

end Linux012.Blocks
