import Linux012.Fs.Inode.Basic

/-! # What a piece of code does to the table

Every piece of code has one of nine effects on keys and counts. Frames hold references to
entries, and some hold an entry that is still empty.
-/

namespace Linux012.Inodes

open Function Coop

variable {T T' : Table} {f g : Frame} {nx : Next Frame Value Panic} {e : ℕ} {req k : Key}

namespace Table

theorem inodes_upd (g : MInode → MInode) (e' : ℕ) :
    (T.upd e g).inodes e' = if e' = e then g (T.inodes e) else T.inodes e' := update_apply ..

@[simp] theorem superBlock_upd (g : MInode → MInode) : (T.upd e g).superBlock = T.superBlock := rfl

theorem key_upd (g : MInode → MInode) (e' : ℕ) : (T.upd e g).key e' =
    if e' = e then ((g (T.inodes e)).iDev, (g (T.inodes e)).iNum) else T.key e' := by
  unfold key
  rw [inodes_upd]
  split_ifs <;> rfl

end Table

/-- `1` at the entry itself. -/
def one (e e' : ℕ) : ℕ := if e' = e then 1 else 0

@[simp] theorem one_self : one e e = 1 := if_pos rfl

/-- The references to the entry `e` that a frame holds. -/
def Frame.refs (e : ℕ) : Frame → ℕ
  | .code held => held.count e
  | .igetScan _ _ empty => one e empty
  | .igetWait _ _ empty _ => one e empty
  | .igetRet _ i => one e i
  | .readInode _ i => one e i
  | .readInodeBread _ i => one e i
  | .iput i => one e i
  | .iputWait i => one e i
  | .iputRepeat i => one e i
  | .iputTruncate i => one e i
  | .newInodeGot _ i => one e i
  | .pipeGot i => one e i
  | _ => 0

def Value.refs (e : ℕ) : Value → ℕ
  | .null => 0
  | .empty i => one e i
  | .inode i => one e i
  | .pipe i => 2 * one e i

theorem refs_resume {v : Value} (h : resume f v = some g) :
    g.refs e = f.refs e + Value.refs e v := by
  cases f <;> cases v <;> simp only [resume, reduceCtorEq, Option.some.injEq] at h <;> subst h <;>
    simp [Frame.refs, Value.refs, one, List.count_cons]
  split_ifs <;> rfl

/-- Only flags and the part on the disk change. -/
structure SameKeys (T T' : Table) : Prop where
  superBlock : T'.superBlock = T.superBlock
  key : ∀ e, T'.key e = T.key e
  count : ∀ e, (T'.inodes e).iCount = (T.inodes e).iCount

/-- The entry `e` gets a key and a count. -/
structure Becomes (T : Table) (e : ℕ) (k : Key) (count : ℕ) (T' : Table) : Prop where
  superBlock : T'.superBlock = T.superBlock
  key_self : T'.key e = k
  count_self : (T'.inodes e).iCount = count
  key : ∀ i, i ≠ e → T'.key i = T.key i
  count : ∀ i, i ≠ e → (T'.inodes i).iCount = (T.inodes i).iCount

/-- The frames and the value left by a piece of code account for what the frame held. -/
def Passes (f : Frame) (nx : Next Frame Value Panic) (plus minus : ℕ → ℕ) : Prop :=
  ∀ e, nx.weight (Frame.refs e) (Value.refs e) + minus e = f.refs e + plus e

inductive Effect (T : Table) : Frame → Table → Next Frame Value Panic → Prop
  | quiet {f : Frame} {T' : Table} {nx : Next Frame Value Panic} : SameKeys T T' →
      Passes f nx 0 0 → Effect T f T' nx
  | panic {f : Frame} {T' : Table} (q : Panic) : Effect T f T' (.panic q)
  | dup {f : Frame} {T' : Table} {nx : Next Frame Value Panic} {e : ℕ} : 1 ≤ f.refs e →
      Becomes T e (T.key e) (((T.inodes e).iCount + 1) % 65536) T' → Passes f nx (one · e) 0 →
      Effect T f T' nx
  | take {req k : Key} {empty e : ℕ} {T' : Table} {nx : Next Frame Value Panic} : T.key e = k →
      Becomes T e k (((T.inodes e).iCount + 1) % 65536) T' →
      Passes (.igetWait req k empty e) nx (one · e) 0 → Effect T (.igetWait req k empty e) T' nx
  | release {f : Frame} {T' : Table} {nx : Next Frame Value Panic} {e : ℕ} : 1 ≤ f.refs e →
      Becomes T e (T.key e) ((T.inodes e).iCount - 1) T' → Passes f nx 0 (one · e) →
      Effect T f T' nx
  | clear {e : ℕ} {T' : Table} : (T.inodes e).iCount = 0 → Becomes T e (0, 0) 1 T' →
      Effect T (.getEmptyWait e) T' (.ret (.empty e))
  | assign {req k : Key} {empty : ℕ} {T' : Table} : T.find k = none →
      Becomes T empty k (T.inodes empty).iCount T' →
      Effect T (.igetScan req k empty) T' (.goto (.readInode req empty))
  | alloc {dev e j : ℕ} {T' : Table} : freeNumber T dev = some j → Becomes T e (dev, j) 1 T' →
      Effect T (.newInodeGot dev e) T' (.ret (.inode e))
  | free {e : ℕ} {T' : Table} : ((T.key e).1 ≠ 0 → (T.inodes e).iCount ≤ 1) →
      Becomes T e (0, 0) 0 T' → Effect T (.iputTruncate e) T' (.ret .null)
  | pipe {e : ℕ} {T' : Table} : Becomes T e (T.key e) 2 T' →
      Effect T (.pipeGot e) T' (.ret (.pipe e))
  | noPipe {e : ℕ} {T' : Table} : Becomes T e (T.key e) 0 T' →
      Effect T (.pipeGot e) T' (.ret .null)

/-! ## The pieces -/

theorem SameKeys.refl (T : Table) : SameKeys T T := ⟨rfl, fun _ => rfl, fun _ => rfl⟩

theorem sameKeys_upd {h : MInode → MInode}
    (hh : ∀ x, ((h x).iDev, (h x).iNum, (h x).iCount) = (x.iDev, x.iNum, x.iCount)) :
    SameKeys T (T.upd e h) := by
  have hx := hh (T.inodes e)
  simp only [Prod.mk.injEq] at hx
  constructor
  · rfl
  · intro i
    rw [Table.key_upd]
    split_ifs with hi
    · rw [hx.1, hx.2.1, hi]; rfl
    · rfl
  · intro i
    rw [Table.inodes_upd]
    split_ifs with hi
    · rw [hx.2.2, hi]
    · rfl

theorem becomes_upd {h : MInode → MInode} {c : ℕ}
    (hk : ((h (T.inodes e)).iDev, (h (T.inodes e)).iNum) = k) (hc : (h (T.inodes e)).iCount = c) :
    Becomes T e k c (T.upd e h) := by
  constructor
  · rfl
  · rw [Table.key_upd, if_pos rfl, hk]
  · rw [Table.inodes_upd, if_pos rfl, hc]
  · intro i hi
    rw [Table.key_upd, if_neg hi]
  · intro i hi
    rw [Table.inodes_upd, if_neg hi]

/-- The bitmap has nothing to do with it. -/
theorem Becomes.imap {h : MInode → MInode} {c : ℕ} (hb : Becomes T e k c (T.upd e h))
    (m : ℕ → ℕ → Bool) : Becomes T e k c (Table.upd { T with imap := m } e h) :=
  ⟨hb.superBlock, hb.key_self, hb.count_self, hb.key, hb.count⟩

theorem effect_quiet {nx' : Next Frame Value Panic} (hp : Passes f nx 0 0)
    (h : (T, nx) = (T', nx')) : Effect T f T' nx' := by
  obtain ⟨rfl, rfl⟩ := Prod.mk.inj h
  exact .quiet (.refl T) hp

theorem effect_waitOnInode {self : Frame} {go : Piece} (hgo : go = (T', nx) → Effect T self T' nx)
    (h : waitOnInode T e self go = (T', nx)) : Effect T self T' nx := by
  unfold waitOnInode at h
  split_ifs at h
  · exact effect_quiet (fun _ => rfl) h
  · exact hgo h

theorem effect_code {held : List ℕ} {ch : Choice} (h : execCode T held ch = some (T', nx)) :
    Effect T (.code held) T' nx := by
  cases ch with
  | iput e =>
    simp only [execCode] at h
    split_ifs at h with hm
    refine effect_quiet (fun i => ?_) (Option.some.inj h)
    have hpos := List.count_pos_iff.mpr hm
    by_cases hi : e = i
    · subst hi
      simp only [Next.weight, Frame.refs, List.count_erase_self, one_self, Pi.zero_apply]
      omega
    · simp [Next.weight, Frame.refs, List.count_erase_of_ne (Ne.symm hi), one, hi]
  | dup e =>
    simp only [execCode] at h
    split_ifs at h with hm
    obtain ⟨rfl, rfl⟩ := Prod.mk.inj (Option.some.inj h)
    refine .dup (List.count_pos_iff.mpr hm) (becomes_upd rfl rfl) fun i => ?_
    simp [Next.weight, Frame.refs, List.count_cons, one]
  | setInode e d =>
    simp only [execCode] at h
    split_ifs at h
    obtain ⟨rfl, rfl⟩ := Prod.mk.inj (Option.some.inj h)
    exact .quiet (sameKeys_upd fun _ => rfl) fun _ => rfl
  | done =>
    simp only [execCode] at h
    split_ifs at h with hheld
    refine effect_quiet (fun i => ?_) (Option.some.inj h)
    simp [Next.weight, Frame.refs, Value.refs, hheld]
  | busy | fail => cases h
  | iget | newInode | getPipeInode | writeInode | sleep =>
    exact effect_quiet (fun i => by simp [Next.weight, Frame.refs]) (Option.some.inj h)

theorem sameKeys_lastInode (last : ℕ) : SameKeys T { T with lastInode := last } :=
  ⟨rfl, fun _ => rfl, fun _ => rfl⟩

theorem effect_getEmptyInode (h : getEmptyInode T = (T', nx)) : Effect T .getEmptyInode T' nx := by
  unfold getEmptyInode at h
  split at h <;> obtain ⟨rfl, rfl⟩ := Prod.mk.inj h
  · exact .panic _
  · exact .quiet (sameKeys_lastInode _) fun _ => rfl

theorem effect_getEmptyWait (h : getEmptyWait T e = (T', nx)) :
    Effect T (.getEmptyWait e) T' nx := by
  refine effect_waitOnInode (fun h => ?_) h
  split_ifs at h with hd hc
  · exact effect_quiet (fun _ => rfl) h
  · exact effect_quiet (fun _ => rfl) h
  · obtain ⟨rfl, rfl⟩ := Prod.mk.inj h
    exact .clear (not_not.mp hc) (becomes_upd rfl rfl)

theorem effect_igetScan {empty : ℕ} (h : igetScan T req k empty = (T', nx)) :
    Effect T (.igetScan req k empty) T' nx := by
  unfold igetScan at h
  split at h
  · exact effect_quiet (fun _ => rfl) h
  · rename_i hf
    obtain ⟨rfl, rfl⟩ := Prod.mk.inj h
    exact .assign hf (becomes_upd rfl rfl)

theorem effect_igetWait {empty : ℕ} (h : igetWait T req k empty e = (T', nx)) :
    Effect T (.igetWait req k empty e) T' nx := by
  have htake : T.key e = k →
      Becomes T e k (((T.inodes e).iCount + 1) % 65536) (incCount T e) := by
    intro hk
    exact becomes_upd hk rfl
  refine effect_waitOnInode (fun h => ?_) h
  split_ifs at h with hk hm
  · exact effect_quiet (fun _ => rfl) h
  · split at h <;> obtain ⟨rfl, rfl⟩ := Prod.mk.inj h
    · refine .take (not_not.mp hk) (htake (not_not.mp hk)) fun i => ?_
      simp [Next.weight, Frame.refs, Nat.add_comm]
    · refine .take (not_not.mp hk) (htake (not_not.mp hk)) fun i => ?_
      simp [Next.weight, Frame.refs]
  · obtain ⟨rfl, rfl⟩ := Prod.mk.inj h
    refine .take (not_not.mp hk) (htake (not_not.mp hk)) fun i => ?_
    simp [Next.weight, Frame.refs, Nat.add_comm]

theorem effect_readInode (h : readInode T req e = (T', nx)) : Effect T (.readInode req e) T' nx := by
  refine effect_waitOnInode (fun h => ?_) h
  split at h <;> obtain ⟨rfl, rfl⟩ := Prod.mk.inj h
  · exact .panic _
  · exact .quiet (sameKeys_upd fun _ => rfl) fun _ => rfl

theorem effect_afterBread {self : Frame} {go : Piece} {ch : Choice}
    (hgo : go = (T', nx) → Effect T self T' nx) (h : afterBread T self go ch = (T', nx)) :
    Effect T self T' nx := by
  unfold afterBread at h
  split at h
  · exact effect_quiet (fun _ => rfl) h
  · exact hgo h

theorem effect_iput (h : iput T e = (T', nx)) : Effect T (.iput e) T' nx := by
  have hdec : Effect T (.iput e) (decCount T e) (.ret .null) := by
    refine .release (e := e) (by simp [Frame.refs]) (becomes_upd rfl rfl) fun i => ?_
    simp [Next.weight, Value.refs, Frame.refs]
  refine effect_waitOnInode (fun h => ?_) h
  split_ifs at h with hc hp hone hdev hblk <;> obtain ⟨rfl, rfl⟩ := Prod.mk.inj h
  · exact .panic _
  · refine .release (e := e) (by simp [Frame.refs]) ?_ fun i => ?_
    · rw [hone]; exact becomes_upd rfl rfl
    · simp [Next.weight, Value.refs, Frame.refs]
  · exact hdec
  · exact hdec
  · exact .quiet (.refl T) fun i => by simp [Next.weight, Frame.refs]
  · exact .quiet (.refl T) fun _ => rfl

theorem effect_iputRepeat (h : iputRepeat T e = (T', nx)) : Effect T (.iputRepeat e) T' nx := by
  have hdec : Effect T (.iputRepeat e) (decCount T e) (.ret .null) := by
    refine .release (e := e) (by simp [Frame.refs]) (becomes_upd rfl rfl) fun i => ?_
    simp [Next.weight, Value.refs, Frame.refs]
  unfold iputRepeat at h
  dsimp only at h
  split_ifs at h <;> obtain ⟨rfl, rfl⟩ := Prod.mk.inj h
  · exact hdec
  · exact .quiet (.refl T) fun _ => rfl
  · exact .quiet (.refl T) fun i => by simp [Next.weight, Frame.refs]
  · exact hdec

theorem effect_freeInode (h : freeInode T e = (T', nx)) : Effect T (.iputTruncate e) T' nx := by
  unfold freeInode at h
  dsimp only at h
  split_ifs at h with hdev hc hl
  · obtain ⟨rfl, rfl⟩ := Prod.mk.inj h
    exact .free (fun h => absurd hdev h) (becomes_upd rfl rfl)
  · obtain ⟨rfl, rfl⟩ := Prod.mk.inj h
    exact .panic _
  · obtain ⟨rfl, rfl⟩ := Prod.mk.inj h
    exact .panic _
  · split at h
    · obtain ⟨rfl, rfl⟩ := Prod.mk.inj h
      exact .panic _
    · split_ifs at h <;> obtain ⟨rfl, rfl⟩ := Prod.mk.inj h
      · exact .panic _
      · refine .free (fun _ => not_lt.mp hc) ?_
        refine Becomes.imap ?_ _
        exact becomes_upd rfl rfl

theorem effect_iputTruncate {ch : Choice} (h : iputTruncate T e ch = (T', nx)) :
    Effect T (.iputTruncate e) T' nx := by
  unfold iputTruncate at h
  split at h
  · split_ifs at h
    · exact effect_quiet (fun _ => rfl) h
    · exact effect_freeInode h
  · split_ifs at h
    · obtain ⟨rfl, rfl⟩ := Prod.mk.inj h
      exact .quiet (sameKeys_upd fun _ => rfl) fun _ => rfl
    · exact effect_freeInode h
  · exact effect_freeInode h

theorem effect_writeInode (h : writeInode T e = (T', nx)) : Effect T (.writeInode e) T' nx := by
  refine effect_waitOnInode (fun h => ?_) h
  split_ifs at h
  · exact effect_quiet (fun _ => rfl) h
  · split at h <;> obtain ⟨rfl, rfl⟩ := Prod.mk.inj h
    · exact .panic _
    · exact .quiet (sameKeys_upd fun _ => rfl) fun _ => rfl

theorem effect_newInodeGot {dev : ℕ} (h : newInodeGot T dev e = (T', nx)) :
    Effect T (.newInodeGot dev e) T' nx := by
  unfold newInodeGot at h
  split at h
  · obtain ⟨rfl, rfl⟩ := Prod.mk.inj h
    exact .panic _
  · split at h
    · exact effect_quiet (fun i => by simp [Next.weight, Frame.refs]) h
    · rename_i j hj
      split_ifs at h <;> obtain ⟨rfl, rfl⟩ := Prod.mk.inj h
      · exact .panic _
      · refine .alloc hj ?_
        refine Becomes.imap ?_ _
        exact becomes_upd rfl rfl

theorem effect_pipeGot {ch : Choice} (h : pipeGot T e ch = (T', nx)) :
    Effect T (.pipeGot e) T' nx := by
  unfold pipeGot at h
  split at h
  · exact effect_quiet (fun _ => rfl) h
  · obtain ⟨rfl, rfl⟩ := Prod.mk.inj h
    exact .noPipe (becomes_upd rfl rfl)
  · obtain ⟨rfl, rfl⟩ := Prod.mk.inj h
    exact .pipe (becomes_upd rfl rfl)

/-- Everything an uninterrupted piece of code can do. -/
theorem exec_effect {ch : Choice} (h : exec T ch f = some (T', nx)) : Effect T f T' nx := by
  cases f with
  | code held => exact effect_code h
  | getEmptyInode => exact effect_getEmptyInode (Option.some.inj h)
  | getEmptyWait e => exact effect_getEmptyWait (Option.some.inj h)
  | iget dev nr =>
    simp only [exec, Option.some.injEq] at h
    split_ifs at h
    · obtain ⟨rfl, rfl⟩ := Prod.mk.inj h
      exact .panic _
    · exact effect_quiet (fun _ => rfl) h
  | igetScan req k empty => exact effect_igetScan (Option.some.inj h)
  | igetWait req k empty e => exact effect_igetWait (Option.some.inj h)
  | readInode req e => exact effect_readInode (Option.some.inj h)
  | readInodeBread req e =>
    refine effect_afterBread (fun h => ?_) (Option.some.inj h)
    obtain ⟨rfl, rfl⟩ := Prod.mk.inj h
    exact .quiet (sameKeys_upd fun _ => rfl) fun _ => rfl
  | iput e => exact effect_iput (Option.some.inj h)
  | iputWait e =>
    exact effect_waitOnInode (fun h => effect_quiet (fun _ => rfl) h) (Option.some.inj h)
  | iputRepeat e => exact effect_iputRepeat (Option.some.inj h)
  | iputTruncate e => exact effect_iputTruncate (Option.some.inj h)
  | writeInode e => exact effect_writeInode (Option.some.inj h)
  | writeInodeBread e =>
    refine effect_afterBread (fun h => ?_) (Option.some.inj h)
    obtain ⟨rfl, rfl⟩ := Prod.mk.inj h
    have hs : SameKeys T (T.upd e fun x => { x with iDirt := false, iLock := false }) :=
      sameKeys_upd fun _ => rfl
    exact .quiet ⟨hs.superBlock, hs.key, hs.count⟩ fun _ => rfl
  | newInodeGot dev e => exact effect_newInodeGot (Option.some.inj h)
  | pipeGot e => exact effect_pipeGot (Option.some.inj h)
  | igetRet | newInode | returnNull | getPipeInode =>
    exact effect_quiet (fun _ => rfl) (Option.some.inj h)
  | igetEmpty | newInodeEmpty | pipeEmpty => cases h

end Linux012.Inodes
