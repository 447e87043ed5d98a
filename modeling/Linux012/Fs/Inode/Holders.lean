import Linux012.Fs.Inode.Effect

/-! # What holders of inodes rely on

Counts are the references that tasks and mounts hold. A piece of code therefore leaves the
keys of entries that others hold alone, and an empty entry belongs to the task that got it.
-/

namespace Linux012.Inodes

open Function Coop

variable {T T' : Table} {f g : Frame} {nx : Next Frame Value Panic} {e : ℕ} {req k : Key}

/-- The inodes that stand for `req`: itself, or the root of a device mounted on such an inode. -/
inductive Names (T : Table) (req : Key) : Key → Prop
  | refl : Names T req req
  | mount {sb : Super} {e : ℕ} : sb ∈ T.superBlock → sb.sImount = some e →
      Names T req (T.key e) → Names T req (sb.sDev, ROOT_INO)

def superRefs (e : ℕ) (sb : Super) : ℕ := sb.sImount.elim 0 (one e) + sb.sIsup.elim 0 (one e)

/-- The references to an entry that mounted file systems hold. -/
def mountRefs (T : Table) (e : ℕ) : ℕ := (T.superBlock.map (superRefs e)).sum

theorem mountRefs_pos {sb : Super} (h : sb ∈ T.superBlock) (he : sb.sImount = some e) :
    1 ≤ mountRefs T e := by
  have h₁ : 1 ≤ superRefs e sb := by simp [superRefs, he]
  exact h₁.trans (List.single_le_sum (by simp) _ (List.mem_map_of_mem h))

/-- An entry that `get_empty_inode` has given away and nobody has named yet. -/
def Fresh (T : Table) (e : ℕ) : Prop := (T.key e).1 = 0 ∧ (T.inodes e).iCount = 1

/-- What a frame relies on. -/
def Frame.Ok (T : Table) : Frame → Prop
  | .igetEmpty req => req.1 ≠ 0
  | .igetScan req k empty => k.1 ≠ 0 ∧ Names T req k ∧ Fresh T empty
  | .igetWait req k empty _ => k.1 ≠ 0 ∧ Names T req k ∧ Fresh T empty
  | .igetRet req e => (T.key e).1 ≠ 0 ∧ Names T req (T.key e)
  | .readInode req e => (T.key e).1 ≠ 0 ∧ Names T req (T.key e)
  | .readInodeBread req e => (T.key e).1 ≠ 0 ∧ Names T req (T.key e)
  | .iputWait e => (T.key e).1 ≠ 0
  | .iputRepeat e => (T.key e).1 ≠ 0
  | .iputTruncate e => (T.key e).1 ≠ 0
  | .newInodeGot _ e => Fresh T e
  | .pipeGot e => Fresh T e
  | _ => True

def Value.Ok (T : Table) : Value → Prop
  | .empty e => Fresh T e
  | _ => True

theorem Frame.Ok.resume {v : Value} (hf : f.Ok T) (hv : v.Ok T) (hr : resume f v = some g) :
    g.Ok T := by
  cases f <;> cases v <;> simp only [Inodes.resume, reduceCtorEq, Option.some.injEq] at hr <;>
    subst hr
  case igetEmpty.empty => exact ⟨hf, .refl, hv⟩
  case newInodeEmpty.empty => exact hv
  case pipeEmpty.empty => exact hv
  all_goals exact hf

/-! ## What a piece of code leaves alone -/

/-- Entries that mounts or `refs` refer to keep their keys, and empty ones stay empty. -/
structure Keeps (T T' : Table) (refs : ℕ → ℕ) : Prop where
  superBlock : T'.superBlock = T.superBlock
  key : ∀ e, 1 ≤ refs e ∨ 1 ≤ mountRefs T e → T'.key e = T.key e
  fresh : ∀ e, 1 ≤ refs e → Fresh T e → Fresh T' e

theorem Names.keeps {r : ℕ → ℕ} (h : Keeps T T' r) (hn : Names T req k) : Names T' req k := by
  induction hn with
  | refl => exact .refl
  | mount hsb he _ ih =>
    refine .mount (h.superBlock ▸ hsb) he ?_
    rwa [h.key _ (.inr (mountRefs_pos hsb he))]

theorem Frame.Ok.keeps (hg : g.Ok T) (h : Keeps T T' fun e => g.refs e) : g.Ok T' := by
  cases g with
  | igetEmpty => exact hg
  | igetScan => exact ⟨hg.1, hg.2.1.keeps h, h.fresh _ (by simp [Frame.refs]) hg.2.2⟩
  | igetWait => exact ⟨hg.1, hg.2.1.keeps h, h.fresh _ (by simp [Frame.refs]) hg.2.2⟩
  | igetRet | readInode | readInodeBread =>
    simp only [Frame.Ok]
    rw [h.key _ (.inl (by simp [Frame.refs]))]
    exact ⟨hg.1, hg.2.keeps h⟩
  | iputWait | iputRepeat | iputTruncate =>
    simp only [Frame.Ok]
    rw [h.key _ (.inl (by simp [Frame.refs]))]
    exact hg
  | newInodeGot | pipeGot => exact h.fresh _ (by simp [Frame.refs]) hg
  | _ => trivial

theorem SameKeys.keeps (h : SameKeys T T') (r : ℕ → ℕ) : Keeps T T' r :=
  ⟨h.superBlock, fun e _ => h.key e, fun e _ he => by
    rwa [Fresh, h.key, h.count]⟩

theorem Becomes.keeps {c : ℕ} {r : ℕ → ℕ} (h : Becomes T e k c T')
    (hr : (r e = 0 ∧ mountRefs T e = 0) ∨ (k = T.key e ∧ (1 ≤ r e → ¬ Fresh T e))) :
    Keeps T T' r := by
  constructor
  · exact h.superBlock
  · intro i hi
    by_cases hie : i = e
    · subst hie
      rcases hr with ⟨h₁, h₂⟩ | ⟨rfl, -⟩
      · omega
      · exact h.key_self
    · exact h.key i hie
  · intro i hi hfr
    by_cases hie : i = e
    · subst hie
      rcases hr with ⟨h₁, -⟩ | ⟨-, h₂⟩
      · omega
      · exact absurd hfr (h₂ hi)
    · rwa [Fresh, h.key i hie, h.count i hie]

/-- A piece of code does not disturb those who hold other references. -/
theorem Effect.keeps (h : Effect T f T' nx) (hnp : ∀ q, nx ≠ .panic q) (hf : f.Ok T) {r : ℕ → ℕ}
    (hr : ∀ e, f.refs e + r e + mountRefs T e ≤ (T.inodes e).iCount) : Keeps T T' r := by
  -- who shares an entry with `f` does not hold it as an empty one
  have hshared : ∀ e, 1 ≤ f.refs e → 1 ≤ r e → ¬ Fresh T e := by
    intro e h₁ h₂ hfr
    have := hr e
    have := hfr.2
    omega
  have hown : ∀ e, f.refs e = 1 → (T.inodes e).iCount ≤ 1 → r e = 0 ∧ mountRefs T e = 0 := by
    intro e h₁ h₂
    have := hr e
    omega
  cases h with
  | quiet hs => exact hs.keeps r
  | panic q => exact absurd rfl (hnp q)
  | dup h₁ hb => exact hb.keeps (.inr ⟨rfl, hshared _ h₁⟩)
  | take hk hb => exact hb.keeps (.inr ⟨hk.symm, fun _ hfr => hf.1 (hk ▸ hfr.1)⟩)
  | release h₁ hb => exact hb.keeps (.inr ⟨rfl, hshared _ h₁⟩)
  | @clear e _ hc hb =>
    have := hr e
    exact hb.keeps (.inl (by omega))
  | assign _ hb => exact hb.keeps (.inl (hown _ one_self hf.2.2.2.le))
  | alloc _ hb => exact hb.keeps (.inl (hown _ one_self hf.2.le))
  | free hc hb => exact hb.keeps (.inl (hown _ one_self (hc hf)))
  | pipe hb => exact hb.keeps (.inr ⟨rfl, hshared _ one_self.ge⟩)
  | noPipe hb => exact hb.keeps (.inr ⟨rfl, hshared _ one_self.ge⟩)

/-! ## What a piece of code leaves behind -/

/-- Devices are numbered from 1, what is mounted is mounted on an inode, and no key is there
twice. -/
structure Sound (T : Table) : Prop where
  mounted : ∀ sb ∈ T.superBlock, sb.sDev ≠ 0 ∧ ∀ e, sb.sImount = some e → (T.key e).1 ≠ 0
  unique : ∀ e < NR_INODE, ∀ i < NR_INODE, (T.key e).1 ≠ 0 → T.key e = T.key i → e = i

/-- The frames and the value at the end of a piece of code are as they should be. -/
def Leaves (T : Table) (nx : Next Frame Value Panic) : Prop :=
  (∀ g ∈ nx.frames, g.Ok T) ∧ ∀ v, nx = .ret v → v.Ok T

theorem leaves_wait {self : Frame} {go : Piece} (hself : self.Ok T)
    (hgo : go = (T', nx) → Leaves T' nx) (h : waitOnInode T e self go = (T', nx)) :
    Leaves T' nx := by
  unfold waitOnInode at h
  split_ifs at h
  · obtain ⟨rfl, rfl⟩ := Prod.mk.inj h
    exact ⟨by simpa [Next.frames] using hself, by simp⟩
  · exact hgo h

theorem leaves_goto (hg : g.Ok T) : Leaves T (.goto g) := ⟨by simpa [Next.frames] using hg, by simp⟩

theorem leaves_sleep (hg : g.Ok T) : Leaves T (.sleep g) :=
  ⟨by simpa [Next.frames] using hg, by simp⟩

theorem leaves_call (hf : f.Ok T) (hg : g.Ok T) : Leaves T (.call f g) :=
  ⟨by simpa [Next.frames] using ⟨hg, hf⟩, by simp⟩

theorem leaves_ret {v : Value} (hv : v.Ok T) : Leaves T (.ret v) :=
  ⟨by simp [Next.frames], by rintro _ ⟨⟩; exact hv⟩

theorem leaves_panic {q : Panic} : Leaves T (.panic q) := ⟨by simp [Next.frames], by simp⟩

theorem sameKeys_fresh (hs : SameKeys T T') (h : Fresh T e) : Fresh T' e := by
  rwa [Fresh, hs.key, hs.count]

theorem leaves_igetScan {empty : ℕ} (hf : (Frame.igetScan req k empty).Ok T)
    (h : igetScan T req k empty = (T', nx)) (hkeep : Keeps T T' 0) : Leaves T' nx := by
  unfold igetScan at h
  split at h <;> obtain ⟨rfl, rfl⟩ := Prod.mk.inj h
  · exact leaves_goto hf
  · apply leaves_goto
    simp only [Frame.Ok]
    rw [Table.key_upd, if_pos rfl]
    exact ⟨hf.1, hf.2.1.keeps hkeep⟩

theorem leaves_igetWait {empty : ℕ} (hs : Sound T) (hf : (Frame.igetWait req k empty e).Ok T)
    (hx : igetWait T req k empty e = (T', nx)) (hkeep : Keeps T T' 0) : Leaves T' nx := by
  refine leaves_wait hf (fun h => ?_) hx
  obtain ⟨hk₀, hn, hfr⟩ := hf
  have hkey : ∀ i, (incCount T e).key i = T.key i := by
    intro i
    rw [incCount, Table.key_upd]
    split_ifs with hi
    · rw [hi]; rfl
    · rfl
  split_ifs at h with hk hm
  · obtain ⟨rfl, rfl⟩ := Prod.mk.inj h
    exact leaves_goto ⟨hk₀, hn, hfr⟩
  · have hk := not_not.mp hk
    split at h <;> obtain ⟨rfl, rfl⟩ := Prod.mk.inj h
    · refine leaves_call ⟨?_, ?_⟩ trivial <;> rw [hkey, hk]
      · exact hk₀
      · exact hn.keeps hkeep
    · rename_i sb hsb
      have hmem := List.mem_of_find?_eq_some hsb
      have hon : sb.sImount = some e := by simpa using List.find?_some hsb
      have hne : empty ≠ e := by
        rintro rfl
        exact hk₀ (hk ▸ hfr.1)
      refine leaves_call ⟨(hs.mounted sb hmem).1, ?_, ?_⟩ trivial
      · refine Names.keeps hkeep (.mount hmem hon ?_)
        rwa [hk]
      · rw [Fresh, hkey, incCount, Table.inodes_upd, if_neg hne]
        exact hfr
  · have hk := not_not.mp hk
    obtain ⟨rfl, rfl⟩ := Prod.mk.inj h
    refine leaves_call ⟨?_, ?_⟩ trivial <;> rw [hkey, hk]
    · exact hk₀
    · exact hn.keeps hkeep

theorem leaves_quiet_upd {h : MInode → MInode}
    (hh : ∀ x, ((h x).iDev, (h x).iNum, (h x).iCount) = (x.iDev, x.iNum, x.iCount))
    (hg : g.Ok T) : g.Ok (T.upd e h) :=
  hg.keeps ((sameKeys_upd hh).keeps _)

theorem leaves_freeInode (h : freeInode T e = (T', nx)) : Leaves T' nx := by
  unfold freeInode at h
  dsimp only at h
  split_ifs at h
  · obtain ⟨rfl, rfl⟩ := Prod.mk.inj h
    exact leaves_ret trivial
  · obtain ⟨rfl, rfl⟩ := Prod.mk.inj h
    exact leaves_panic
  · obtain ⟨rfl, rfl⟩ := Prod.mk.inj h
    exact leaves_panic
  · split at h
    · obtain ⟨rfl, rfl⟩ := Prod.mk.inj h
      exact leaves_panic
    · split_ifs at h <;> obtain ⟨rfl, rfl⟩ := Prod.mk.inj h
      · exact leaves_panic
      · exact leaves_ret trivial

theorem leaves_iput (h : iput T e = (T', nx)) : Leaves T' nx := by
  refine leaves_wait (show Frame.Ok T (.iput e) from trivial) (fun h => ?_) h
  split_ifs at h with hc hp hone hdev <;> obtain ⟨rfl, rfl⟩ := Prod.mk.inj h
  · exact leaves_panic
  · exact leaves_ret trivial
  · exact leaves_ret trivial
  · exact leaves_ret trivial
  · exact leaves_call hdev trivial
  · exact leaves_goto hdev

theorem leaves_iputRepeat (hf : (Frame.iputRepeat e).Ok T) (h : iputRepeat T e = (T', nx)) :
    Leaves T' nx := by
  unfold iputRepeat at h
  dsimp only at h
  split_ifs at h <;> obtain ⟨rfl, rfl⟩ := Prod.mk.inj h
  · exact leaves_ret trivial
  · exact leaves_goto hf
  · exact leaves_call hf trivial
  · exact leaves_ret trivial

theorem leaves_iputTruncate {ch : Choice} (hf : (Frame.iputTruncate e).Ok T)
    (h : iputTruncate T e ch = (T', nx)) : Leaves T' nx := by
  unfold iputTruncate at h
  split at h
  · split_ifs at h
    · obtain ⟨rfl, rfl⟩ := Prod.mk.inj h
      exact leaves_sleep hf
    · exact leaves_freeInode h
  · split_ifs at h
    · obtain ⟨rfl, rfl⟩ := Prod.mk.inj h
      exact leaves_sleep (leaves_quiet_upd (fun _ => rfl) hf)
    · exact leaves_freeInode h
  · exact leaves_freeInode h

theorem leaves_code {held : List ℕ} {ch : Choice} (h : execCode T held ch = some (T', nx)) :
    Leaves T' nx := by
  cases ch <;> simp only [execCode, reduceCtorEq] at h <;> try split_ifs at h
  all_goals obtain ⟨rfl, rfl⟩ := Prod.mk.inj (Option.some.inj h)
  all_goals first
    | exact leaves_call trivial trivial
    | exact leaves_goto trivial
    | exact leaves_sleep trivial
    | exact leaves_ret trivial

theorem exec_leaves {ch : Choice} (hs : Sound T) (hf : f.Ok T)
    (h : exec T ch f = some (T', nx)) (hkeep : Keeps T T' 0) : Leaves T' nx := by
  cases f with
  | code held => exact leaves_code h
  | getEmptyInode =>
    simp only [exec, getEmptyInode, Option.some.injEq] at h
    split at h <;> obtain ⟨rfl, rfl⟩ := Prod.mk.inj h
    · exact leaves_panic
    · exact leaves_goto trivial
  | getEmptyWait e =>
    refine leaves_wait (show Frame.Ok T (.getEmptyWait e) from trivial) (fun h => ?_) (Option.some.inj h)
    split_ifs at h <;> obtain ⟨rfl, rfl⟩ := Prod.mk.inj h
    · exact leaves_call trivial trivial
    · exact leaves_goto trivial
    · apply leaves_ret
      simp only [Value.Ok, Fresh]
      rw [Table.key_upd, Table.inodes_upd, if_pos rfl, if_pos rfl]
      exact ⟨rfl, rfl⟩
  | iget dev nr =>
    simp only [exec, Option.some.injEq] at h
    split_ifs at h with hdev <;> obtain ⟨rfl, rfl⟩ := Prod.mk.inj h
    · exact leaves_panic
    · exact leaves_call hdev trivial
  | igetScan req k empty => exact leaves_igetScan hf (Option.some.inj h) hkeep
  | igetWait req k empty e => exact leaves_igetWait hs hf (Option.some.inj h) hkeep
  | readInode req e =>
    refine leaves_wait hf (fun h => ?_) (Option.some.inj h)
    split at h <;> obtain ⟨rfl, rfl⟩ := Prod.mk.inj h
    · exact leaves_panic
    · exact leaves_goto
        (leaves_quiet_upd (g := .readInodeBread req e) (fun _ => rfl) hf)
  | readInodeBread req e =>
    simp only [exec, afterBread, Option.some.injEq] at h
    split at h <;> obtain ⟨rfl, rfl⟩ := Prod.mk.inj h
    · exact leaves_sleep hf
    · exact leaves_ret trivial
  | iput e => exact leaves_iput (Option.some.inj h)
  | iputWait e =>
    refine leaves_wait hf (fun h => ?_) (Option.some.inj h)
    obtain ⟨rfl, rfl⟩ := Prod.mk.inj h
    exact leaves_goto hf
  | iputRepeat e => exact leaves_iputRepeat hf (Option.some.inj h)
  | iputTruncate e => exact leaves_iputTruncate hf (Option.some.inj h)
  | writeInode e =>
    refine leaves_wait (show Frame.Ok T (.writeInode e) from trivial) (fun h => ?_) (Option.some.inj h)
    split_ifs at h
    · obtain ⟨rfl, rfl⟩ := Prod.mk.inj h
      exact leaves_ret trivial
    · split at h <;> obtain ⟨rfl, rfl⟩ := Prod.mk.inj h
      · exact leaves_panic
      · exact leaves_goto trivial
  | writeInodeBread e =>
    simp only [exec, afterBread, Option.some.injEq] at h
    split at h <;> obtain ⟨rfl, rfl⟩ := Prod.mk.inj h
    · exact leaves_sleep trivial
    · exact leaves_ret trivial
  | newInodeGot dev e =>
    simp only [exec, newInodeGot, Option.some.injEq] at h
    split at h
    · obtain ⟨rfl, rfl⟩ := Prod.mk.inj h
      exact leaves_panic
    · split at h
      · obtain ⟨rfl, rfl⟩ := Prod.mk.inj h
        exact leaves_call trivial trivial
      · split_ifs at h <;> obtain ⟨rfl, rfl⟩ := Prod.mk.inj h
        · exact leaves_panic
        · exact leaves_ret trivial
  | pipeGot e =>
    simp only [exec, pipeGot, Option.some.injEq] at h
    split at h <;> obtain ⟨rfl, rfl⟩ := Prod.mk.inj h
    · exact leaves_sleep hf
    · exact leaves_ret trivial
    · exact leaves_ret trivial
  | igetRet | returnNull =>
    obtain ⟨rfl, rfl⟩ := Prod.mk.inj (Option.some.inj h)
    exact leaves_ret trivial
  | newInode | getPipeInode =>
    obtain ⟨rfl, rfl⟩ := Prod.mk.inj (Option.some.inj h)
    exact leaves_call trivial trivial
  | igetEmpty | newInodeEmpty | pipeEmpty => cases h

/-! ## Counts and keys -/

/-- Counts follow the references. -/
theorem Effect.count (h : Effect T f T' nx) (hnp : ∀ q, nx ≠ .panic q) (hf : f.Ok T)
    {tot tot' : ℕ → ℕ} (hcount : ∀ e, (T.inodes e).iCount = tot e + mountRefs T e)
    (hle : ∀ e, f.refs e ≤ tot e) (hlt : ∀ e, (T.inodes e).iCount < 65535)
    (hw : ∀ e, tot' e + f.refs e = tot e + nx.weight (Frame.refs e) (Value.refs e)) (e : ℕ) :
    (T'.inodes e).iCount = tot' e + mountRefs T' e := by
  have hmount : ∀ {T'' : Table}, T''.superBlock = T.superBlock → mountRefs T'' e = mountRefs T e :=
    fun hs => by rw [mountRefs, hs, mountRefs]
  have hcount := hcount e
  have hle := hle e
  have hlt := hlt e
  have hw := hw e
  -- one entry changes, by what the frame passes on
  have become : ∀ {i : ℕ} {k : Key} {c : ℕ}, Becomes T i k c T' →
      (i = e → c + f.refs e = (T.inodes e).iCount + nx.weight (Frame.refs e) (Value.refs e)) →
      (i ≠ e → f.refs e = nx.weight (Frame.refs e) (Value.refs e)) →
      (T'.inodes e).iCount = tot' e + mountRefs T' e := by
    intro i k c hb h₁ h₂
    rw [hmount hb.superBlock]
    by_cases hi : i = e
    · have := h₁ hi
      have := hb.count_self
      subst hi
      omega
    · have := h₂ hi
      rw [hb.count e (Ne.symm hi)]
      omega
  cases h with
  | quiet hs hp =>
    have := hp e
    simp only [Pi.zero_apply, add_zero] at this
    rw [hs.count, hmount hs.superBlock]
    omega
  | panic q => exact absurd rfl (hnp q)
  | @dup _ _ _ i _ hb hp =>
    have := hp e
    simp only [Pi.zero_apply, add_zero] at this
    refine become hb (fun hi => ?_) fun hi => ?_
    · subst hi
      rw [one_self] at this
      omega
    · simp only [one, hi, if_false] at this
      omega
  | @take _ _ _ i _ _ _ hb hp =>
    have := hp e
    simp only [Pi.zero_apply, add_zero] at this
    refine become hb (fun hi => ?_) fun hi => ?_
    · subst hi
      rw [one_self] at this
      omega
    · simp only [one, hi, if_false] at this
      omega
  | @release _ _ _ i h₁ hb hp =>
    have := hp e
    simp only [Pi.zero_apply, add_zero] at this
    refine become hb (fun hi => ?_) fun hi => ?_
    · subst hi
      rw [one_self] at this
      omega
    · simp only [one, hi, if_false] at this
      omega
  | @clear i _ hc hb =>
    refine become hb (fun hi => ?_) fun hi => ?_
    · subst hi
      simp [Frame.refs, Next.weight, Value.refs, hc]
    · simp [Frame.refs, Next.weight, Value.refs, one, hi]
  | @assign _ _ i _ _ hb =>
    refine become hb (fun hi => ?_) fun hi => ?_
    · subst hi
      simp [Frame.refs, Next.weight]
    · simp [Frame.refs, Next.weight]
  | @alloc _ i _ _ _ hb =>
    refine become hb (fun hi => ?_) fun hi => ?_
    · subst hi
      simp [Frame.refs, Next.weight, Value.refs, hf.2]
    · simp [Frame.refs, Next.weight, Value.refs]
  | @free i _ hc hb =>
    refine become hb (fun hi => ?_) fun hi => ?_
    · subst hi
      have := hc hf
      simp only [Frame.refs, one_self] at hle
      simp only [Frame.refs, one_self, Next.weight, Value.refs]
      omega
    · simp [Frame.refs, Next.weight, Value.refs, one, hi]
  | @pipe i _ hb =>
    refine become hb (fun hi => ?_) fun hi => ?_
    · subst hi
      simp [Frame.refs, Next.weight, Value.refs, hf.2]
    · simp [Frame.refs, Next.weight, Value.refs, one, hi]
  | @noPipe i _ hb =>
    refine become hb (fun hi => ?_) fun hi => ?_
    · subst hi
      simp [Frame.refs, Next.weight, Value.refs, hf.2]
    · simp [Frame.refs, Next.weight, Value.refs, one, hi]

end Linux012.Inodes
