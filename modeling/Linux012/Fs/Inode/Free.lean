import Linux012.Fs.Inode.Unique
import Linux012.Lib.Index

/-! # Freeing an inode

`iput` sleeps in `truncate` before it frees an inode without links, which `iget` still finds in
the table. When nobody takes a reference meanwhile, an inode is freed by the last one who holds
it, and every inode in use has its bit set.
-/

namespace Linux012.Inodes

open Function Coop Runs
open scoped Index

variable {T T' : Table} {f g : Frame} {nx : Next Frame Value Panic} {e i : ℕ} {req k : Key}
  {c : Choice}

/-! ## What a piece of code leaves alone -/

/-- The count and the links of an entry stay the same. -/
def Kept (e : ℕ) (T T' : Table) : Prop :=
  (T'.inodes e).iCount = (T.inodes e).iCount ∧ (T'.inodes e).iNlinks = (T.inodes e).iNlinks

theorem Kept.refl (e : ℕ) (T : Table) : Kept e T T := ⟨rfl, rfl⟩

theorem kept_upd_of_ne (h : e ≠ i) (g : MInode → MInode) : Kept e T (T.upd i g) := by
  simp [Kept, Table.inodes_upd, h]

theorem kept_upd_flags {g : MInode → MInode}
    (hg : ∀ x, (g x).iCount = x.iCount ∧ (g x).iNlinks = x.iNlinks) : Kept e T (T.upd i g) := by
  rw [Kept, Table.inodes_upd]
  split_ifs with hi
  · rw [hi]
    exact hg _
  · exact ⟨rfl, rfl⟩

theorem Kept.imap {m : ℕ → ℕ → Bool} (h : Kept e { T with imap := m } T') : Kept e T T' := h

theorem kept_waitOnInode {self : Frame} {go : Piece} (hgo : go = (T', nx) → Kept e T T')
    (h : waitOnInode T i self go = (T', nx)) : Kept e T T' := by
  unfold waitOnInode at h
  split_ifs at h
  · obtain ⟨rfl, rfl⟩ := Prod.mk.inj h
    exact .refl e T
  · exact hgo h

theorem ne_of_one (h : one e i = 0) : e ≠ i := by
  rintro rfl
  simp at h

theorem kept_freeInode (hi : e ≠ i) (h : freeInode T i = (T', nx)) : Kept e T T' := by
  unfold freeInode at h
  dsimp only at h
  split_ifs at h
  · obtain ⟨rfl, rfl⟩ := Prod.mk.inj h
    exact kept_upd_of_ne hi _
  · obtain ⟨rfl, rfl⟩ := Prod.mk.inj h
    exact .refl e T
  · obtain ⟨rfl, rfl⟩ := Prod.mk.inj h
    exact .refl e T
  · split at h
    · obtain ⟨rfl, rfl⟩ := Prod.mk.inj h
      exact .refl e T
    · split_ifs at h <;> obtain ⟨rfl, rfl⟩ := Prod.mk.inj h
      · exact .refl e T
      · exact Kept.imap (kept_upd_of_ne hi _)

theorem kept_code {held : List ℕ} (hr : held.count e = 0)
    (h : execCode T held c = some (T', nx)) : Kept e T T' := by
  have hne : ∀ i ∈ held, e ≠ i := by
    rintro i hi rfl
    exact absurd (List.count_pos_iff.mpr hi) (by omega)
  cases c with
  | dup i =>
    simp only [execCode] at h
    split_ifs at h with hm
    obtain ⟨rfl, rfl⟩ := Prod.mk.inj (Option.some.inj h)
    exact kept_upd_of_ne (hne i hm) _
  | setInode i d =>
    simp only [execCode] at h
    split_ifs at h with hm
    obtain ⟨rfl, rfl⟩ := Prod.mk.inj (Option.some.inj h)
    exact kept_upd_of_ne (hne i hm) _
  | iput | done =>
    simp only [execCode] at h
    split_ifs at h
    obtain ⟨rfl, rfl⟩ := Prod.mk.inj (Option.some.inj h)
    exact .refl e T
  | busy | fail => cases h
  | iget | newInode | getPipeInode | writeInode | sleep =>
    obtain ⟨rfl, rfl⟩ := Prod.mk.inj (Option.some.inj h)
    exact .refl e T

/-- Only those who hold an entry in use, and `iget` when it finds one, change its count. -/
theorem exec_kept (hr : f.refs e = 0) (hc : (T.inodes e).iCount ≠ 0)
    (htake : ∀ req k m, f = .igetWait req k m e → (T.inodes e).iLock = false → T.key e ≠ k)
    (h : exec T c f = some (T', nx)) : Kept e T T' := by
  have hdec : ∀ i, one e i = 0 → Kept e T (decCount T i) := fun i hi =>
    kept_upd_of_ne (ne_of_one hi) _
  cases f with
  | code held => exact kept_code hr h
  | getEmptyInode =>
    simp only [exec, getEmptyInode, Option.some.injEq] at h
    split at h <;> obtain ⟨rfl, rfl⟩ := Prod.mk.inj h <;> exact .refl e T
  | getEmptyWait i =>
    refine kept_waitOnInode (fun h => ?_) (Option.some.inj h)
    split_ifs at h with hd hi <;> obtain ⟨rfl, rfl⟩ := Prod.mk.inj h
    · exact .refl e T
    · exact .refl e T
    · refine kept_upd_of_ne ?_ _
      rintro rfl
      exact hc (not_not.mp hi)
  | iget dev nr =>
    simp only [exec, Option.some.injEq] at h
    split_ifs at h <;> obtain ⟨rfl, rfl⟩ := Prod.mk.inj h <;> exact .refl e T
  | igetScan req k m =>
    simp only [exec, igetScan, Option.some.injEq] at h
    split at h <;> obtain ⟨rfl, rfl⟩ := Prod.mk.inj h
    · exact .refl e T
    · exact kept_upd_of_ne (ne_of_one hr) _
  | igetWait req k m i =>
    simp only [exec, igetWait, waitOnInode, Option.some.injEq] at h
    have hinc : T.key i = k → (T.inodes i).iLock = false → Kept e T (incCount T i) := by
      intro hk hl
      refine kept_upd_of_ne ?_ _
      rintro rfl
      exact htake req k m rfl hl hk
    split_ifs at h with hl hk hm
    · obtain ⟨rfl, rfl⟩ := Prod.mk.inj h
      exact .refl e T
    · obtain ⟨rfl, rfl⟩ := Prod.mk.inj h
      exact .refl e T
    · have hinc := hinc (not_not.mp hk) (by simpa using hl)
      split at h <;> obtain ⟨rfl, rfl⟩ := Prod.mk.inj h <;> exact hinc
    · obtain ⟨rfl, rfl⟩ := Prod.mk.inj h
      exact hinc (not_not.mp hk) (by simpa using hl)
  | readInode req i =>
    refine kept_waitOnInode (fun h => ?_) (Option.some.inj h)
    split at h <;> obtain ⟨rfl, rfl⟩ := Prod.mk.inj h
    · exact .refl e T
    · exact kept_upd_flags fun _ => ⟨rfl, rfl⟩
  | readInodeBread req i =>
    simp only [exec, afterBread, Option.some.injEq] at h
    split at h <;> obtain ⟨rfl, rfl⟩ := Prod.mk.inj h
    · exact .refl e T
    · exact kept_upd_of_ne (ne_of_one hr) _
  | iput i =>
    refine kept_waitOnInode (fun h => ?_) (Option.some.inj h)
    split_ifs at h <;> obtain ⟨rfl, rfl⟩ := Prod.mk.inj h
    · exact .refl e T
    · exact kept_upd_of_ne (ne_of_one hr) _
    · exact hdec i hr
    · exact hdec i hr
    · exact .refl e T
    · exact .refl e T
  | iputWait i =>
    refine kept_waitOnInode (fun h => ?_) (Option.some.inj h)
    obtain ⟨rfl, rfl⟩ := Prod.mk.inj h
    exact .refl e T
  | iputRepeat i =>
    simp only [exec, iputRepeat, Option.some.injEq] at h
    split_ifs at h <;> obtain ⟨rfl, rfl⟩ := Prod.mk.inj h
    · exact hdec i hr
    · exact .refl e T
    · exact .refl e T
    · exact hdec i hr
  | iputTruncate i =>
    have hfree : freeInode T i = (T', nx) → Kept e T T' := kept_freeInode (ne_of_one hr)
    simp only [exec, iputTruncate, Option.some.injEq] at h
    split at h
    · split_ifs at h
      · obtain ⟨rfl, rfl⟩ := Prod.mk.inj h
        exact .refl e T
      · exact hfree h
    · split_ifs at h
      · obtain ⟨rfl, rfl⟩ := Prod.mk.inj h
        exact kept_upd_flags fun _ => ⟨rfl, rfl⟩
      · exact hfree h
    · exact hfree h
  | writeInode i =>
    refine kept_waitOnInode (fun h => ?_) (Option.some.inj h)
    split_ifs at h
    · obtain ⟨rfl, rfl⟩ := Prod.mk.inj h
      exact .refl e T
    · split at h <;> obtain ⟨rfl, rfl⟩ := Prod.mk.inj h
      · exact .refl e T
      · exact kept_upd_flags fun _ => ⟨rfl, rfl⟩
  | writeInodeBread i =>
    simp only [exec, afterBread, Option.some.injEq] at h
    split at h <;> obtain ⟨rfl, rfl⟩ := Prod.mk.inj h
    · exact .refl e T
    · have hk : Kept e T (T.upd i fun x => { x with iDirt := false, iLock := false }) :=
        kept_upd_flags fun _ => ⟨rfl, rfl⟩
      exact hk
  | newInodeGot dev i =>
    simp only [exec, newInodeGot, Option.some.injEq] at h
    split at h
    · obtain ⟨rfl, rfl⟩ := Prod.mk.inj h
      exact .refl e T
    · split at h
      · obtain ⟨rfl, rfl⟩ := Prod.mk.inj h
        exact .refl e T
      · split_ifs at h <;> obtain ⟨rfl, rfl⟩ := Prod.mk.inj h
        · exact .refl e T
        · exact Kept.imap (kept_upd_of_ne (ne_of_one hr) _)
  | pipeGot i =>
    simp only [exec, pipeGot, Option.some.injEq] at h
    split at h <;> obtain ⟨rfl, rfl⟩ := Prod.mk.inj h
    · exact .refl e T
    · exact kept_upd_of_ne (ne_of_one hr) _
    · exact kept_upd_of_ne (ne_of_one hr) _
  | igetRet | returnNull | newInode | getPipeInode =>
    obtain ⟨rfl, rfl⟩ := Prod.mk.inj (Option.some.inj h)
    exact .refl e T
  | igetEmpty | newInodeEmpty | pipeEmpty => cases h

/-! ## The bitmap -/

theorem imap_waitOnInode {self : Frame} {go : Piece} (hgo : go = (T', nx) → T'.imap = T.imap)
    (h : waitOnInode T i self go = (T', nx)) : T'.imap = T.imap := by
  unfold waitOnInode at h
  split_ifs at h
  · obtain ⟨rfl, rfl⟩ := Prod.mk.inj h
    rfl
  · exact hgo h

/-- A bitmap with the bit of an inode set or cleared. -/
def Table.setBit (T : Table) (k : Key) (b : Bool) : ℕ → ℕ → Bool :=
  update T.imap k.1 (update (T.imap k.1) k.2 b)

theorem Table.setBit_self (T : Table) (k : Key) (b : Bool) : T.setBit k b k.1 k.2 = b := by
  simp [setBit]

theorem Table.setBit_of_ne (T : Table) {k k' : Key} (b : Bool) (h : k' ≠ k) :
    T.setBit k b k'.1 k'.2 = T.imap k'.1 k'.2 := by
  unfold setBit
  by_cases h₁ : k'.1 = k.1
  · have h₂ : k'.2 ≠ k.2 := fun h₂ => h (Prod.ext h₁ h₂)
    rw [h₁, update_self, update_of_ne h₂]
  · rw [update_of_ne h₁]

theorem imap_freeInode (h : freeInode T i = (T', nx)) :
    T'.imap = T.imap ∨ (T'.imap = T.setBit (T.key i) false ∧ (T'.key i).1 = 0) := by
  unfold freeInode at h
  dsimp only at h
  split_ifs at h
  · obtain ⟨rfl, rfl⟩ := Prod.mk.inj h
    exact .inl rfl
  · obtain ⟨rfl, rfl⟩ := Prod.mk.inj h
    exact .inl rfl
  · obtain ⟨rfl, rfl⟩ := Prod.mk.inj h
    exact .inl rfl
  · split at h
    · obtain ⟨rfl, rfl⟩ := Prod.mk.inj h
      exact .inl rfl
    · split_ifs at h <;> obtain ⟨rfl, rfl⟩ := Prod.mk.inj h
      · exact .inl rfl
      · refine .inr ⟨rfl, ?_⟩
        rw [Table.key_upd, if_pos rfl]
        rfl

/-- What happens to the bitmap: `new_inode` sets a bit that is not set, `free_inode` clears one. -/
inductive Marks (T : Table) : Frame → Table → Next Frame Value Panic → Prop
  | same {f : Frame} {T' : Table} {nx : Next Frame Value Panic} : T'.imap = T.imap →
      (∀ dev e, f = .newInodeGot dev e → nx ≠ .ret (.inode e)) → Marks T f T' nx
  | set {dev i j : ℕ} {T' : Table} {nx : Next Frame Value Panic} : freeNumber T dev = some j →
      T'.imap = T.setBit (dev, j) true → Marks T (.newInodeGot dev i) T' nx
  | clear {i : ℕ} {T' : Table} {nx : Next Frame Value Panic} :
      T'.imap = T.setBit (T.key i) false → (T'.key i).1 = 0 → Marks T (.iputTruncate i) T' nx

theorem marks_same (h : T'.imap = T.imap) (hf : ∀ dev i, f ≠ .newInodeGot dev i) :
    Marks T f T' nx :=
  .same h fun dev e he => absurd he (hf dev e)

theorem exec_marks (h : exec T c f = some (T', nx)) : Marks T f T' nx := by
  cases f with
  | code held =>
    refine marks_same ?_ (by simp)
    cases c <;> simp only [exec, execCode, reduceCtorEq] at h <;> try split_ifs at h
    all_goals
      obtain ⟨rfl, rfl⟩ := Prod.mk.inj (Option.some.inj h)
      rfl
  | getEmptyInode =>
    simp only [exec, getEmptyInode, Option.some.injEq] at h
    split at h <;> obtain ⟨rfl, rfl⟩ := Prod.mk.inj h <;> exact marks_same rfl (by simp)
  | getEmptyWait i =>
    refine marks_same (imap_waitOnInode (fun h => ?_) (Option.some.inj h)) (by simp)
    split_ifs at h <;> obtain ⟨rfl, rfl⟩ := Prod.mk.inj h <;> rfl
  | iget dev nr =>
    simp only [exec, Option.some.injEq] at h
    split_ifs at h <;> obtain ⟨rfl, rfl⟩ := Prod.mk.inj h <;> exact marks_same rfl (by simp)
  | igetScan req k m =>
    simp only [exec, igetScan, Option.some.injEq] at h
    split at h <;> obtain ⟨rfl, rfl⟩ := Prod.mk.inj h <;> exact marks_same rfl (by simp)
  | igetWait req k m i =>
    refine marks_same (imap_waitOnInode (fun h => ?_) (Option.some.inj h)) (by simp)
    split_ifs at h
    · obtain ⟨rfl, rfl⟩ := Prod.mk.inj h
      rfl
    · split at h <;> obtain ⟨rfl, rfl⟩ := Prod.mk.inj h <;> rfl
    · obtain ⟨rfl, rfl⟩ := Prod.mk.inj h
      rfl
  | readInode req i =>
    refine marks_same (imap_waitOnInode (fun h => ?_) (Option.some.inj h)) (by simp)
    split at h <;> obtain ⟨rfl, rfl⟩ := Prod.mk.inj h <;> rfl
  | readInodeBread req i =>
    simp only [exec, afterBread, Option.some.injEq] at h
    split at h <;> obtain ⟨rfl, rfl⟩ := Prod.mk.inj h <;> exact marks_same rfl (by simp)
  | iput i =>
    refine marks_same (imap_waitOnInode (fun h => ?_) (Option.some.inj h)) (by simp)
    split_ifs at h <;> obtain ⟨rfl, rfl⟩ := Prod.mk.inj h <;> rfl
  | iputWait i =>
    refine marks_same (imap_waitOnInode (fun h => ?_) (Option.some.inj h)) (by simp)
    obtain ⟨rfl, rfl⟩ := Prod.mk.inj h
    rfl
  | iputRepeat i =>
    simp only [exec, iputRepeat, Option.some.injEq] at h
    split_ifs at h <;> obtain ⟨rfl, rfl⟩ := Prod.mk.inj h <;> exact marks_same rfl (by simp)
  | iputTruncate i =>
    have hfree : freeInode T i = (T', nx) → Marks T (.iputTruncate i) T' nx := by
      intro h
      obtain h | ⟨h₁, h₂⟩ := imap_freeInode h
      · exact marks_same h (by simp)
      · exact .clear h₁ h₂
    simp only [exec, iputTruncate, Option.some.injEq] at h
    split at h
    · split_ifs at h
      · obtain ⟨rfl, rfl⟩ := Prod.mk.inj h
        exact marks_same rfl (by simp)
      · exact hfree h
    · split_ifs at h
      · obtain ⟨rfl, rfl⟩ := Prod.mk.inj h
        exact marks_same rfl (by simp)
      · exact hfree h
    · exact hfree h
  | writeInode i =>
    refine marks_same (imap_waitOnInode (fun h => ?_) (Option.some.inj h)) (by simp)
    split_ifs at h
    · obtain ⟨rfl, rfl⟩ := Prod.mk.inj h
      rfl
    · split at h <;> obtain ⟨rfl, rfl⟩ := Prod.mk.inj h <;> rfl
  | writeInodeBread i =>
    simp only [exec, afterBread, Option.some.injEq] at h
    split at h <;> obtain ⟨rfl, rfl⟩ := Prod.mk.inj h <;> exact marks_same rfl (by simp)
  | newInodeGot dev i =>
    simp only [exec, newInodeGot, Option.some.injEq] at h
    split at h
    · obtain ⟨rfl, rfl⟩ := Prod.mk.inj h
      exact .same rfl fun _ _ _ => by simp
    · split at h
      · obtain ⟨rfl, rfl⟩ := Prod.mk.inj h
        exact .same rfl fun _ _ _ => by simp
      · rename_i hj
        split_ifs at h <;> obtain ⟨rfl, rfl⟩ := Prod.mk.inj h
        · exact .same rfl fun _ _ _ => by simp
        · exact .set hj rfl
  | pipeGot i =>
    simp only [exec, pipeGot, Option.some.injEq] at h
    split at h <;> obtain ⟨rfl, rfl⟩ := Prod.mk.inj h <;> exact marks_same rfl (by simp)
  | igetRet | returnNull | newInode | getPipeInode =>
    obtain ⟨rfl, rfl⟩ := Prod.mk.inj (Option.some.inj h)
    exact marks_same rfl (by simp)
  | igetEmpty | newInodeEmpty | pipeEmpty => cases h

/-! ## What frames know -/

/-- Indices lie in the table, and an inode that is being freed has one holder and no links. -/
def Frame.Guarded (T : Table) : Frame → Prop
  | .getEmptyWait e => e < NR_INODE
  | .igetWait _ _ _ e => e < NR_INODE
  | .iputTruncate e => (T.inodes e).iCount = 1 ∧ (T.inodes e).iNlinks = 0
  | _ => True

theorem scanEmpty_lt {fuel last last' : ℕ} {o : Option ℕ} (ho : ∀ e, o = some e → e < NR_INODE)
    (h : scanEmpty T fuel last o = (last', some e)) : e < NR_INODE := by
  induction fuel generalizing last o with
  | zero => exact ho e (Prod.mk.inj h).2
  | succ fuel ih =>
    unfold scanEmpty at h
    have hlast : (if last + 1 ≥ NR_INODE then 0 else last + 1) < NR_INODE := by
      split_ifs
      · decide
      · omega
    generalize (if last + 1 ≥ NR_INODE then 0 else last + 1) = x at h hlast
    dsimp only at h
    split_ifs at h
    · obtain rfl := Option.some.inj (Prod.mk.inj h).2
      exact hlast
    · refine ih (fun j hj => ?_) h
      obtain rfl := Option.some.inj hj
      exact hlast
    · exact ih ho h

theorem Table.find_some (h : T.find k = some e) : e < NR_INODE :=
  List.mem_range.mp (List.mem_of_find?_eq_some h)

theorem guarded_waitOnInode {self : Frame} {go : Piece} (hself : self.Guarded T)
    (hgo : go = (T', nx) → ∀ g ∈ nx.frames, g.Guarded T')
    (h : waitOnInode T i self go = (T', nx)) : ∀ g ∈ nx.frames, g.Guarded T' := by
  unfold waitOnInode at h
  split_ifs at h
  · obtain ⟨rfl, rfl⟩ := Prod.mk.inj h
    simpa [Next.frames] using hself
  · exact hgo h

theorem frames_freeInode (h : freeInode T i = (T', nx)) : nx.frames = [] := by
  unfold freeInode at h
  dsimp only at h
  split_ifs at h
  · obtain ⟨rfl, rfl⟩ := Prod.mk.inj h
    rfl
  · obtain ⟨rfl, rfl⟩ := Prod.mk.inj h
    rfl
  · obtain ⟨rfl, rfl⟩ := Prod.mk.inj h
    rfl
  · split at h
    · obtain ⟨rfl, rfl⟩ := Prod.mk.inj h
      rfl
    · split_ifs at h <;> obtain ⟨rfl, rfl⟩ := Prod.mk.inj h <;> rfl

/-- A piece of code leaves frames that know as much as it did; `iput` has just looked. -/
theorem exec_guarded (hf : f.Guarded T) (hle : ∀ e, f.refs e ≤ (T.inodes e).iCount)
    (h : exec T c f = some (T', nx)) : ∀ g ∈ nx.frames, g.Guarded T' := by
  cases f with
  | code held =>
    cases c <;> simp only [exec, execCode, reduceCtorEq] at h <;> try split_ifs at h
    all_goals
      obtain ⟨rfl, rfl⟩ := Prod.mk.inj (Option.some.inj h)
      simp [Next.frames, Frame.Guarded]
  | getEmptyInode =>
    simp only [exec, getEmptyInode, Option.some.injEq] at h
    split at h <;> obtain ⟨rfl, rfl⟩ := Prod.mk.inj h
    · simp [Next.frames]
    · rename_i hscan
      simpa [Next.frames, Frame.Guarded] using scanEmpty_lt (by simp) hscan
  | getEmptyWait i =>
    refine guarded_waitOnInode hf (fun h => ?_) (Option.some.inj h)
    split_ifs at h <;> obtain ⟨rfl, rfl⟩ := Prod.mk.inj h
    · simpa [Next.frames, Frame.Guarded] using hf
    · simp [Next.frames, Frame.Guarded]
    · simp [Next.frames]
  | iget dev nr =>
    simp only [exec, Option.some.injEq] at h
    split_ifs at h <;> obtain ⟨rfl, rfl⟩ := Prod.mk.inj h <;> simp [Next.frames, Frame.Guarded]
  | igetScan req k m =>
    simp only [exec, igetScan, Option.some.injEq] at h
    split at h <;> obtain ⟨rfl, rfl⟩ := Prod.mk.inj h
    · rename_i hfind
      simpa [Next.frames, Frame.Guarded] using Table.find_some hfind
    · simp [Next.frames, Frame.Guarded]
  | igetWait req k m i =>
    refine guarded_waitOnInode hf (fun h => ?_) (Option.some.inj h)
    split_ifs at h
    · obtain ⟨rfl, rfl⟩ := Prod.mk.inj h
      simp [Next.frames, Frame.Guarded]
    · split at h <;> obtain ⟨rfl, rfl⟩ := Prod.mk.inj h <;> simp [Next.frames, Frame.Guarded]
    · obtain ⟨rfl, rfl⟩ := Prod.mk.inj h
      simp [Next.frames, Frame.Guarded]
  | readInode req i =>
    refine guarded_waitOnInode (show Frame.Guarded T (.readInode req i) from trivial) (fun h => ?_) (Option.some.inj h)
    split at h <;> obtain ⟨rfl, rfl⟩ := Prod.mk.inj h <;> simp [Next.frames, Frame.Guarded]
  | readInodeBread req i =>
    simp only [exec, afterBread, Option.some.injEq] at h
    split at h <;> obtain ⟨rfl, rfl⟩ := Prod.mk.inj h <;> simp [Next.frames, Frame.Guarded]
  | iput i =>
    refine guarded_waitOnInode (show Frame.Guarded T (.iput i) from trivial) (fun h => ?_) (Option.some.inj h)
    split_ifs at h <;> obtain ⟨rfl, rfl⟩ := Prod.mk.inj h <;> simp [Next.frames, Frame.Guarded]
  | iputWait i =>
    refine guarded_waitOnInode (show Frame.Guarded T (.iputWait i) from trivial) (fun h => ?_) (Option.some.inj h)
    obtain ⟨rfl, rfl⟩ := Prod.mk.inj h
    simp [Next.frames, Frame.Guarded]
  | iputRepeat i =>
    simp only [exec, iputRepeat, Option.some.injEq] at h
    split_ifs at h with hone hlinks <;> obtain ⟨rfl, rfl⟩ := Prod.mk.inj h
    · simp [Next.frames]
    · have := hle i
      simp only [Frame.refs, one_self] at this
      simp only [Next.frames, List.mem_singleton, forall_eq]
      exact ⟨by omega, hlinks⟩
    · simp [Next.frames, Frame.Guarded]
    · simp [Next.frames]
  | iputTruncate i =>
    have hfree : freeInode T i = (T', nx) → ∀ g ∈ nx.frames, g.Guarded T' := by
      intro h
      simp [frames_freeInode h]
    simp only [exec, iputTruncate, Option.some.injEq] at h
    split at h
    · split_ifs at h
      · obtain ⟨rfl, rfl⟩ := Prod.mk.inj h
        simpa [Next.frames] using hf
      · exact hfree h
    · split_ifs at h
      · obtain ⟨rfl, rfl⟩ := Prod.mk.inj h
        simpa [Next.frames, Frame.Guarded, Table.inodes_upd] using hf
      · exact hfree h
    · exact hfree h
  | writeInode i =>
    refine guarded_waitOnInode (show Frame.Guarded T (.writeInode i) from trivial) (fun h => ?_) (Option.some.inj h)
    split_ifs at h
    · obtain ⟨rfl, rfl⟩ := Prod.mk.inj h
      simp [Next.frames]
    · split at h <;> obtain ⟨rfl, rfl⟩ := Prod.mk.inj h <;> simp [Next.frames, Frame.Guarded]
  | writeInodeBread i =>
    simp only [exec, afterBread, Option.some.injEq] at h
    split at h <;> obtain ⟨rfl, rfl⟩ := Prod.mk.inj h <;> simp [Next.frames, Frame.Guarded]
  | newInodeGot dev i =>
    simp only [exec, newInodeGot, Option.some.injEq] at h
    split at h
    · obtain ⟨rfl, rfl⟩ := Prod.mk.inj h
      simp [Next.frames]
    · split at h
      · obtain ⟨rfl, rfl⟩ := Prod.mk.inj h
        simp [Next.frames, Frame.Guarded]
      · split_ifs at h <;> obtain ⟨rfl, rfl⟩ := Prod.mk.inj h <;> simp [Next.frames]
  | pipeGot i =>
    simp only [exec, pipeGot, Option.some.injEq] at h
    split at h <;> obtain ⟨rfl, rfl⟩ := Prod.mk.inj h <;> simp [Next.frames, Frame.Guarded]
  | igetRet | returnNull | newInode | getPipeInode =>
    obtain ⟨rfl, rfl⟩ := Prod.mk.inj (Option.some.inj h)
    simp [Next.frames, Frame.Guarded]
  | igetEmpty | newInodeEmpty | pipeEmpty => cases h

/-! ## Panics -/

/-- The piece does not end in one of the panics of `free_inode` about counts and links. -/
def Harmless (p : Piece) : Prop := p.2 ≠ .panic .freeInode ∧ p.2 ≠ .panic .freeWithLinks

theorem harmless_waitOnInode {self : Frame} {go : Piece} (h : Harmless go) :
    Harmless (waitOnInode T i self go) := by
  unfold waitOnInode
  split_ifs
  · simp [Harmless]
  · exact h

theorem harmless_freeInode (hc : (T.inodes i).iCount = 1) (hl : (T.inodes i).iNlinks = 0) :
    Harmless (freeInode T i) := by
  unfold freeInode
  dsimp only
  rw [if_neg (show ¬ (T.inodes i).iCount > 1 by omega), if_neg (not_not.mpr hl)]
  split_ifs
  · simp [Harmless]
  · split
    · simp [Harmless]
    · split_ifs <;> simp [Harmless]

theorem exec_harmless {p : Piece} (hf : f.Guarded T) (h : exec T c f = some p) : Harmless p := by
  cases f with
  | code held =>
    cases c <;> simp only [exec, execCode, reduceCtorEq] at h <;> try split_ifs at h
    all_goals
      obtain rfl := Option.some.inj h
      simp [Harmless]
  | igetEmpty | newInodeEmpty | pipeEmpty => cases h
  | getEmptyInode =>
    obtain rfl := Option.some.inj h
    unfold getEmptyInode
    split <;> simp [Harmless]
  | getEmptyWait i =>
    obtain rfl := Option.some.inj h
    apply harmless_waitOnInode
    split_ifs <;> simp [Harmless]
  | iget dev nr =>
    obtain rfl := Option.some.inj h
    split_ifs <;> simp [Harmless]
  | igetScan req k m =>
    obtain rfl := Option.some.inj h
    unfold igetScan
    split <;> simp [Harmless]
  | igetWait req k m i =>
    obtain rfl := Option.some.inj h
    apply harmless_waitOnInode
    split_ifs
    · simp [Harmless]
    · split <;> simp [Harmless]
    · simp [Harmless]
  | readInode req i =>
    obtain rfl := Option.some.inj h
    apply harmless_waitOnInode
    split <;> simp [Harmless]
  | readInodeBread req i =>
    obtain rfl := Option.some.inj h
    unfold afterBread
    split <;> simp [Harmless, readInodeBread]
  | iput i =>
    obtain rfl := Option.some.inj h
    apply harmless_waitOnInode
    split_ifs <;> simp [Harmless]
  | iputWait i =>
    obtain rfl := Option.some.inj h
    apply harmless_waitOnInode
    simp [Harmless]
  | iputRepeat i =>
    obtain rfl := Option.some.inj h
    unfold iputRepeat
    dsimp only
    split_ifs <;> simp [Harmless]
  | iputTruncate i =>
    obtain rfl := Option.some.inj h
    unfold iputTruncate
    split
    · split_ifs
      · simp [Harmless]
      · exact harmless_freeInode hf.1 hf.2
    · split_ifs
      · simp [Harmless]
      · exact harmless_freeInode hf.1 hf.2
    · exact harmless_freeInode hf.1 hf.2
  | writeInode i =>
    obtain rfl := Option.some.inj h
    apply harmless_waitOnInode
    split_ifs
    · simp [Harmless]
    · split <;> simp [Harmless]
  | writeInodeBread i =>
    obtain rfl := Option.some.inj h
    unfold afterBread
    split <;> simp [Harmless, writeInodeBread]
  | newInodeGot dev i =>
    obtain rfl := Option.some.inj h
    unfold newInodeGot
    split
    · simp [Harmless]
    · split
      · simp [Harmless]
      · split_ifs <;> simp [Harmless]
  | pipeGot i =>
    obtain rfl := Option.some.inj h
    unfold pipeGot
    split <;> simp [Harmless]
  | igetRet | returnNull | newInode | getPipeInode =>
    obtain rfl := Option.some.inj h
    simp [Harmless]

/-! ## Runs -/

section Freeing

variable {n : ℕ} {s s' s₀ : State n Table Frame Panic} {a : Act n Choice Empty}

/-- No count is at its end, `iget` looks only for inodes whose bit is set, and it takes no
reference to an inode that is being freed. -/
def Undisturbed (s : State n Table Frame Panic) : Act n Choice Empty → Prop
  | .run t _ => (∀ e, (s.shared.inodes e).iCount < 65535) ∧
      (∀ req k m fs, s.stack t = .igetScan req k m :: fs → s.shared.find k = none →
        s.shared.imap k.1 k.2 = true) ∧
      ∀ req k m e fs, s.stack t = .igetWait req k m e :: fs → (s.shared.inodes e).iLock = false →
        s.shared.key e = k → ∀ u, .iputTruncate e ∉ s.stack u
  | _ => True

structure Freed (s : State n Table Frame Panic) : Prop where
  accounted : Accounted s
  guarded : Holds (fun _ => True) (fun T f => f.Guarded T) s
  marked : ∀ e < NR_INODE, (s.shared.key e).1 ≠ 0 →
    s.shared.imap (s.shared.key e).1 (s.shared.key e).2 = true
  outside : ∀ e, NR_INODE ≤ e → (s.shared.inodes e).iCount = 0
  panic : s.panicked ≠ some .freeInode ∧ s.panicked ≠ some .freeWithLinks

theorem getSuper_ne_zero {dev : ℕ} {sb : Super} (h : T.getSuper dev = some sb) : dev ≠ 0 := by
  rintro rfl
  simp [Table.getSuper] at h

theorem findFirstZero_spec {bits : ℕ → Bool} {fuel j m : ℕ}
    (h : findFirstZero bits fuel j = some m) : bits m = false := by
  induction fuel generalizing j with
  | zero => cases h
  | succ fuel ih =>
    unfold findFirstZero at h
    split_ifs at h with hb
    · exact ih h
    · obtain rfl := Option.some.inj h
      simpa using hb

/-- The number that `new_inode` takes has no bit and so no entry. -/
theorem freeNumber_spec {dev j : ℕ} (h : freeNumber T dev = some j) :
    dev ≠ 0 ∧ T.imap dev j = false := by
  obtain ⟨sb, hsb, h⟩ := Option.bind_eq_some_iff.mp h
  obtain ⟨m, hm, h⟩ := Option.bind_eq_some_iff.mp h
  split_ifs at h
  obtain rfl := Option.some.inj h
  exact ⟨getSuper_ne_zero hsb, findFirstZero_spec hm⟩

theorem Freed.admissible (hi : Freed s) (ha : Undisturbed s a) : Admissible s a := by
  cases a with
  | run t c =>
    refine ⟨ha.1, fun dev e fs j _ hj i hlt hk => ?_⟩
    obtain ⟨hdev, hbit⟩ := freeNumber_spec hj
    have := hi.marked i hlt (by rw [hk]; exact hdev)
    rw [hk, hbit] at this
    cases this
  | tick => trivial
  | intr i => trivial

/-- The keys that entries get. -/
theorem Effect.key_cases (h : Effect T f T' nx) (hnp : ∀ q, nx ≠ .panic q) (e : ℕ) :
    T'.key e = T.key e ∨ (T'.key e).1 = 0 ∨
    (∃ req k, f = .igetScan req k e ∧ T.find k = none ∧ T'.key e = k) ∨
    ∃ dev j, f = .newInodeGot dev e ∧ nx = .ret (.inode e) ∧ freeNumber T dev = some j ∧
      T'.key e = (dev, j) := by
  have become : ∀ {i : ℕ} {k : Key} {c : ℕ}, Becomes T i k c T' → T'.key e = T.key e ∨
      e = i ∧ T'.key e = k := by
    intro i k c hb
    rcases eq_or_ne e i with rfl | hne
    · exact .inr ⟨rfl, hb.key_self⟩
    · exact .inl (hb.key e hne)
  have same : ∀ {i c : ℕ}, Becomes T i (T.key i) c T' → T'.key e = T.key e := by
    intro i c hb
    obtain h | ⟨rfl, h⟩ := become hb
    · exact h
    · exact h
  cases h with
  | quiet hs => exact .inl (hs.key e)
  | panic q => exact absurd rfl (hnp q)
  | dup _ hb => exact .inl (same hb)
  | take hk hb =>
    subst hk
    exact .inl (same hb)
  | release _ hb => exact .inl (same hb)
  | clear _ hb =>
    obtain h | ⟨-, h⟩ := become hb
    · exact .inl h
    · exact .inr (.inl (by rw [h]))
  | assign hfind hb =>
    obtain h | ⟨rfl, h⟩ := become hb
    · exact .inl h
    · exact .inr (.inr (.inl ⟨_, _, rfl, hfind, h⟩))
  | alloc hj hb =>
    obtain h | ⟨rfl, h⟩ := become hb
    · exact .inl h
    · exact .inr (.inr (.inr ⟨_, _, rfl, rfl, hj, h⟩))
  | free _ hb =>
    obtain h | ⟨-, h⟩ := become hb
    · exact .inl h
    · exact .inr (.inl (by rw [h]))
  | pipe hb => exact .inl (same hb)
  | noPipe hb => exact .inl (same hb)

/-- Every inode in the table keeps its bit. -/
theorem Effect.marked (h : Effect T f T' nx) (hm : Marks T f T' nx) (hnp : ∀ q, nx ≠ .panic q)
    (hs : Sound T) (hlt : ∀ e, 1 ≤ f.refs e → e < NR_INODE)
    (hscan : ∀ req k m, f = .igetScan req k m → T.find k = none → T.imap k.1 k.2 = true)
    (hT : ∀ e < NR_INODE, (T.key e).1 ≠ 0 → T.imap (T.key e).1 (T.key e).2 = true) :
    ∀ e < NR_INODE, (T'.key e).1 ≠ 0 → T'.imap (T'.key e).1 (T'.key e).2 = true := by
  intro e he hdev
  have hk := h.key_cases hnp e
  cases hm with
  | same himap hn =>
    rw [himap]
    rcases hk with hk | hk | ⟨req, k, rfl, hfind, hk⟩ | ⟨dev, j, rfl, hnx, -⟩
    · rw [hk] at hdev ⊢
      exact hT e he hdev
    · exact absurd hk hdev
    · rw [hk]
      exact hscan _ _ _ rfl hfind
    · exact absurd hnx (hn _ _ rfl)
  | @set dev i j _ _ hj himap =>
    rw [himap]
    rcases hk with hk | hk | ⟨req, k, hf, -⟩ | ⟨dev', j', hf, -, hj', hk⟩
    · by_cases hkj : T'.key e = (dev, j)
      · rw [hkj]
        exact T.setBit_self (dev, j) true
      · rw [T.setBit_of_ne _ hkj, hk]
        rw [hk] at hdev
        exact hT e he hdev
    · exact absurd hk hdev
    · cases hf
    · cases hf
      obtain rfl := Option.some.inj (hj.symm.trans hj')
      rw [hk]
      exact T.setBit_self (dev, j) true
  | @clear i _ _ himap hzero =>
    rw [himap]
    rcases hk with hk | hk | ⟨req, k, hf, -⟩ | ⟨dev, j, hf, -⟩
    · have hne : T'.key e ≠ T.key i := by
        intro heq
        rw [hk] at heq hdev
        obtain rfl := hs.unique e he i (hlt i (by simp [Frame.refs])) hdev heq
        rw [hk] at hzero
        exact hdev hzero
      rw [T.setBit_of_ne _ hne, hk]
      rw [hk] at hdev
      exact hT e he hdev
    · exact absurd hk hdev
    · cases hf
    · cases hf

/-- Nothing outside the table gets a count. -/
theorem Effect.outside (h : Effect T f T' nx) (hnp : ∀ q, nx ≠ .panic q) (hf : f.Guarded T)
    (hlt : ∀ e, 1 ≤ f.refs e → e < NR_INODE) (he : NR_INODE ≤ e) :
    (T'.inodes e).iCount = (T.inodes e).iCount := by
  have become : ∀ {i : ℕ} {k : Key} {c : ℕ}, Becomes T i k c T' → i < NR_INODE →
      (T'.inodes e).iCount = (T.inodes e).iCount := by
    intro i k c hb hi
    exact hb.count e (by omega)
  cases h with
  | quiet hs => exact hs.count e
  | panic q => exact absurd rfl (hnp q)
  | dup h₁ hb => exact become hb (hlt _ h₁)
  | take _ hb => exact become hb hf
  | release h₁ hb => exact become hb (hlt _ h₁)
  | clear _ hb => exact become hb hf
  | assign _ hb => exact become hb (hlt _ (by simp [Frame.refs]))
  | alloc _ hb => exact become hb (hlt _ (by simp [Frame.refs]))
  | free _ hb => exact become hb (hlt _ (by simp [Frame.refs]))
  | pipe hb => exact become hb (hlt _ (by simp [Frame.refs]))
  | noPipe hb => exact become hb (hlt _ (by simp [Frame.refs]))

theorem Freed.refs_le (hi : Freed s) {t : Fin n} (hf : f ∈ s.stack t) (e : ℕ) :
    f.refs e ≤ (s.shared.inodes e).iCount := by
  have := State.frame_le_total (w := Frame.refs e) hf
  have := hi.accounted.count e
  omega

theorem Freed.lt (hi : Freed s) {t : Fin n} (hf : f ∈ s.stack t) (h : 1 ≤ f.refs e) :
    e < NR_INODE := by
  by_contra hge
  have := hi.refs_le hf e
  have := hi.outside e (by omega)
  omega

/-- `1` for a frame that frees the entry. -/
def Frame.frees (e : ℕ) : Frame → ℕ
  | .iputTruncate i => one e i
  | _ => 0

theorem total_frees (h : ∀ u, .iputTruncate e ∉ s.stack u) : s.total (Frame.frees e) = 0 := by
  refine Finset.sum_eq_zero fun u _ => List.sum_eq_zero fun x hx => ?_
  obtain ⟨g, hg, rfl⟩ := List.mem_map.mp hx
  cases g with
  | iputTruncate i =>
    refine if_neg ?_
    rintro rfl
    exact h u hg
  | _ => rfl

/-- An entry that is being freed has no other holder, so other code leaves it alone. -/
theorem Freed.stable (hi : Freed s) {t : Fin n} {fs : List Frame}
    (ha : Undisturbed s (.run t c)) (hst : s.stack t = f :: fs)
    (hx : exec s.shared c f = some (T', nx)) (hap : Apart s f g)
    (hg : g.Guarded s.shared) : g.Guarded T' := by
  cases g with
  | iputTruncate e =>
    have hrefs := hap (Frame.refs e)
    have hself : (Frame.iputTruncate e).refs e = 1 := one_self
    have hcount := hi.accounted.count e
    rw [hg.1] at hcount
    have hkept : Kept e s.shared T' := by
      refine exec_kept (by omega) ?_ ?_ hx
      · rw [hg.1]
        exact one_ne_zero
      · rintro req k m rfl hl hk
        have hfrees := hap (Frame.frees e)
        rw [total_frees (ha.2.2 req k m e fs hst hl hk)] at hfrees
        simp [Frame.frees] at hfrees
    exact ⟨hkept.1.trans hg.1, hkept.2.trans hg.2⟩
  | getEmptyWait | igetWait => exact hg
  | _ => trivial

theorem Frame.Guarded.resume {v : Value} (hf : f.Guarded T) (h : resume f v = some g) :
    g.Guarded T := by
  cases f <;> cases v <;> simp only [Inodes.resume, reduceCtorEq, Option.some.injEq] at h <;>
    subst h
  case getEmptyWait.null => exact hf
  all_goals trivial

theorem Freed.step (hi : Freed s) (ha : Undisturbed s a) (h : (program n).step a s = some s') :
    Freed s' := by
  have hacc := hi.accounted.step (hi.admissible ha) h
  have hguard : Holds (fun _ => True) (fun T f => f.Guarded T) s' := by
    refine hi.guarded.step (fun _ _ => True) h ?_ (fun _ _ _ _ hf _ hr => hf.resume hr) fun i => i.elim
    rintro t c f fs T' nx rfl hst hx hnp
    have hmem : f ∈ s.stack t := hst ▸ List.mem_cons_self
    exact ⟨trivial, fun g hap hg => hi.stable ha hst hx hap hg,
      exec_guarded (hi.guarded.frames t f hmem) (hi.refs_le hmem) hx, fun _ _ => trivial⟩
  obtain ⟨-, ⟨t, c, f, fs, T', nx, rfl, -, hst, hx, ⟨q, rfl, rfl⟩ | ⟨fs', cpu', he, rfl⟩⟩ |
    ⟨-, rfl⟩ | ⟨i, -⟩⟩ := Program.step_cases h
  · have hq := exec_harmless (hi.guarded.frames t f (hst ▸ List.mem_cons_self)) hx
    refine ⟨hacc, hguard, hi.marked, hi.outside, ?_, ?_⟩
    · rintro ⟨⟩
      exact hq.1 rfl
    · rintro ⟨⟩
      exact hq.2 rfl
  · have hmem : f ∈ s.stack t := hst ▸ List.mem_cons_self
    have hnp : ∀ q, nx ≠ .panic q := by rintro q rfl; cases he
    have heff := exec_effect hx
    have hlt : ∀ e, 1 ≤ f.refs e → e < NR_INODE := fun e => hi.lt hmem
    refine ⟨hacc, hguard, ?_, fun e he => ?_, hi.panic⟩
    · refine heff.marked (exec_marks hx) hnp hi.accounted.holds.shared hlt ?_ hi.marked
      rintro req k m rfl
      exact ha.2.1 req k m fs hst
    · exact (heff.outside hnp (hi.guarded.frames t f hmem) hlt he).trans (hi.outside e he)
  · exact ⟨hacc, hguard, hi.marked, hi.outside, hi.panic⟩
  · exact i.elim

/-- Tasks run code that holds inodes, each of which has its bit. -/
structure Start (s : State n Table Frame Panic) : Prop extends Quiet s where
  marked : ∀ e < NR_INODE, (s.shared.key e).1 ≠ 0 →
    s.shared.imap (s.shared.key e).1 (s.shared.key e).2 = true
  outside : ∀ e, NR_INODE ≤ e → (s.shared.inodes e).iCount = 0
  panic : s.panicked = none

theorem Start.freed (h : Start s) : Freed s := by
  refine ⟨h.toQuiet.accounted, ⟨trivial, fun t f hf => ?_⟩, h.marked, h.outside, ?_⟩
  · obtain ⟨held, hst⟩ := h.code t
    rw [hst, List.mem_singleton] at hf
    subst hf
    trivial
  · simp [h.panic]

/-- In every run in which nobody takes a reference to an inode that is being freed, and `iget`
looks only for inodes whose bit is set, an inode without links that is on its way to `free_inode`
has a count of 1, `free_inode` does not panic over it, and every inode that a task holds has its
bit. -/
theorem inode_freed (h₀ : Start s₀) (h : Run (program n).step Undisturbed s₀ s) :
    (∀ t e, .iputTruncate e ∈ s.stack t →
      (s.shared.inodes e).iCount = 1 ∧ (s.shared.inodes e).iNlinks = 0) ∧
    (s.panicked ≠ some .freeInode ∧ s.panicked ≠ some .freeWithLinks) ∧
    ∀ t f e, f ∈ s.stack t → 1 ≤ f.refs e → (s.shared.key e).1 ≠ 0 →
      s.shared.imap (s.shared.key e).1 (s.shared.key e).2 = true := by
  have hi : Freed s := h.invariant h₀.freed fun _ _ _ hi ha hs => hi.step ha hs
  exact ⟨fun t e he => hi.guarded.frames t _ he, hi.panic,
    fun t f e hf hr hdev => hi.marked e (hi.lt hf hr) hdev⟩

end Freeing

/-! ## An inode that is found while it is being freed -/

theorem start_deleting : Start deleting where
  toQuiet := quiet_deleting
  marked := by decide +kernel
  outside e he := by
    have h0 : e ≠ 0 := by
      rintro rfl
      exact absurd he (by decide)
    simp [deleting, h0]
  panic := rfl

/-- Task 1 has read the number 5 in a directory and sleeps in `iget` while an entry is written
out. Task 0 deletes the file and sleeps in `truncate`. -/
def truncateSteps : List (Act 2 Choice Empty) :=
  [.run 1 (.iget 0x301 5), .run 1 .done, .run 1 .done, .run 1 .done, .run 1 .done, .run 1 .sleep,
    .run 0 (.setInode 0 ⟨S_IFREG, 0⟩), .run 0 (.iput 0), .run 0 .done, .run 0 .done, .run 0 .sleep]

/-- Task 1 finds the inode and takes a reference; task 0 goes on. -/
def foundSteps : List (Act 2 Choice Empty) :=
  [.run 1 .done, .run 1 .done, .run 1 .done, .run 1 .done, .run 1 .done, .run 1 .done, .run 1 .sleep,
    .run 0 .done]

def freedInUse : State 2 Table Frame Panic :=
  (runList (program 2).step (truncateSteps ++ foundSteps) deleting).get (by decide +kernel)

theorem freed_in_use : Start deleting ∧ Run (program 2).step Always deleting freedInUse ∧
    (freedInUse.shared.inodes 0).iNlinks = 0 ∧ (freedInUse.shared.inodes 0).iCount = 2 ∧
    freedInUse.panicked = some .freeInode :=
  ⟨start_deleting, .of_runList_get _, by decide +kernel, by decide +kernel, by decide +kernel⟩

/-- Task 0 has removed the last link of the file that it holds. -/
def unlinked : State 2 Table Frame Panic :=
  ((program 2).step (.run 0 (.setInode 0 ⟨S_IFREG, 0⟩)) deleting).get (by decide +kernel)

theorem inode_freed_unlinked : (unlinked.shared.inodes 0).iNlinks = 0 ∧
    ∀ t f e, f ∈ unlinked.stack t → 1 ≤ f.refs e → (unlinked.shared.key e).1 ≠ 0 →
      unlinked.shared.imap (unlinked.shared.key e).1 (unlinked.shared.key e).2 = true := by
  refine ⟨by decide +kernel,
    (inode_freed start_deleting (.tail .refl ?_ (Option.some_get _).symm)).2.2⟩
  refine ⟨fun e => ?_, ?_, ?_⟩
  · by_cases he : e = 0 <;> simp [deleting, he]
  · intro req k m fs hst
    simp [deleting] at hst
  · intro req k m e fs hst
    simp [deleting] at hst

end Linux012.Inodes
