import Linux012.Lib.Runs
import Linux012.Fs.Inode.Holders

/-! # One entry for each inode

Two entries with one key arise only when `new_inode` takes a number that is still in the
table. In all other runs keys are unique, and `iget` returns what it was asked for.
-/

namespace Linux012.Inodes

open Function Coop Runs

variable {T T' : Table} {f g : Frame} {nx : Next Frame Value Panic} {e : ℕ} {req k : Key}

theorem Sound.congr (h : Sound T) (hsb : T'.superBlock = T.superBlock)
    (hk : ∀ e, T'.key e = T.key e) : Sound T' := by
  constructor
  · intro sb hmem
    rw [hsb] at hmem
    simp only [hk]
    exact h.mounted sb hmem
  · intro e he i hi
    rw [hk, hk]
    exact h.unique e he i hi

theorem Sound.sameKey {c : ℕ} (h : Sound T) (hb : Becomes T e (T.key e) c T') : Sound T' := by
  refine h.congr hb.superBlock fun i => ?_
  by_cases hi : i = e
  · rw [hi, hb.key_self]
  · exact hb.key i hi

/-- One entry gets a key that no other entry has. -/
theorem Sound.becomes {c : ℕ} (h : Sound T) (hb : Becomes T e k c T')
    (hm : 1 ≤ mountRefs T e → k = T.key e)
    (hk : k.1 ≠ 0 → ∀ i < NR_INODE, i ≠ e → T.key i ≠ k) : Sound T' := by
  constructor
  · intro sb hsb
    rw [hb.superBlock] at hsb
    obtain ⟨hdev, hon⟩ := h.mounted sb hsb
    refine ⟨hdev, fun i hi => ?_⟩
    by_cases hie : i = e
    · subst hie
      rw [hb.key_self, hm (mountRefs_pos hsb hi)]
      exact hon i hi
    · rw [hb.key i hie]
      exact hon i hi
  · intro i hi j hj hne heq
    by_cases hie : i = e <;> by_cases hje : j = e
    · rw [hie, hje]
    · subst hie
      rw [hb.key_self] at hne heq
      rw [hb.key j hje] at heq
      exact absurd heq.symm (hk hne j hj hje)
    · subst hje
      rw [heq, hb.key_self] at hne
      rw [hb.key_self, hb.key i hie] at heq
      exact absurd heq (hk hne i hi hie)
    · rw [hb.key i hie] at hne heq
      rw [hb.key j hje] at heq
      exact h.unique i hi j hj hne heq

theorem Table.find_none (h : T.find k = none) {i : ℕ} (hi : i < NR_INODE) : T.key i ≠ k := by
  have := List.find?_eq_none.mp h i (List.mem_range.mpr hi)
  simpa using this

theorem Effect.sound (h : Effect T f T' nx) (hnp : ∀ q, nx ≠ .panic q) (hs : Sound T) (hf : f.Ok T)
    (hr : ∀ e, f.refs e + mountRefs T e ≤ (T.inodes e).iCount)
    (hnew : ∀ dev e j, f = .newInodeGot dev e → freeNumber T dev = some j →
      ∀ i < NR_INODE, T.key i ≠ (dev, j)) : Sound T' := by
  -- the only holder of an entry may rename it
  have hown : ∀ e, f.refs e = 1 → (T.inodes e).iCount ≤ 1 → ¬ 1 ≤ mountRefs T e := by
    intro e h₁ h₂ h₃
    have := hr e
    omega
  cases h with
  | quiet hk => exact hs.congr hk.superBlock hk.key
  | panic q => exact absurd rfl (hnp q)
  | dup _ hb => exact hs.sameKey hb
  | take hk hb =>
    rw [← hk] at hb
    exact hs.sameKey hb
  | release _ hb => exact hs.sameKey hb
  | @clear e _ hc hb =>
    have := hr e
    exact hs.becomes hb (by omega) fun hne => absurd rfl hne
  | assign hfind hb =>
    exact hs.becomes hb (fun h => absurd h (hown _ one_self hf.2.2.2.le))
      fun _ i hi _ => Table.find_none hfind hi
  | alloc hj hb =>
    exact hs.becomes hb (fun h => absurd h (hown _ one_self hf.2.le))
      fun _ i hi _ => hnew _ _ _ rfl hj i hi
  | free hc hb =>
    exact hs.becomes hb (fun h => absurd h (hown _ one_self (hc hf))) fun hne => absurd rfl hne
  | pipe hb => exact hs.sameKey hb
  | noPipe hb => exact hs.sameKey hb

/-! ## Runs -/

variable {n : ℕ} {s s' s₀ : State n Table Frame Panic}

/-- Keys are unique, frames can rely on what they hold, and counts are right. -/
structure Accounted (s : State n Table Frame Panic) : Prop where
  holds : Holds Sound (fun T f => f.Ok T) s
  count : ∀ e, (s.shared.inodes e).iCount = s.total (Frame.refs e) + mountRefs s.shared e

/-- No count is at its end, and the number that `new_inode` takes is not in the table. -/
def Admissible (s : State n Table Frame Panic) : Act n Choice Empty → Prop
  | .run t _ => (∀ e, (s.shared.inodes e).iCount < 65535) ∧
      ∀ dev e fs j, s.stack t = .newInodeGot dev e :: fs → freeNumber s.shared dev = some j →
        ∀ i < NR_INODE, s.shared.key i ≠ (dev, j)
  | _ => True

theorem Accounted.step {a : Act n Choice Empty} (hi : Accounted s) (ha : Admissible s a)
    (hstep : (program n).step a s = some s') : Accounted s' := by
  have hexec : ∀ t c f fs T' nx, a = .run t c → s.stack t = f :: fs →
      (program n).exec t c f s.shared = some (T', nx) → (∀ q, nx ≠ .panic q) →
      Sound T' ∧ (∀ g, Apart s f g → g.Ok s.shared → g.Ok T') ∧ (∀ g ∈ nx.frames, g.Ok T') ∧
        ∀ v, nx = .ret v → v.Ok T' := by
    rintro t c f fs T' nx rfl hst hx hnp
    have heff := exec_effect hx
    have hf := hi.holds.frames t f (hst ▸ List.mem_cons_self)
    have hle : ∀ e, f.refs e ≤ s.total (Frame.refs e) := fun e =>
      State.frame_le_total (hst ▸ List.mem_cons_self)
    have hkeep : ∀ r : ℕ → ℕ, (∀ e, f.refs e + r e ≤ s.total (Frame.refs e)) →
        Keeps s.shared T' r := by
      intro r hr
      refine heff.keeps hnp hf fun e => ?_
      have := hr e
      have := hi.count e
      omega
    refine ⟨heff.sound hnp hi.holds.shared hf (fun e => ?_) ?_, fun g hg hok => ?_, ?_⟩
    · have := hle e
      have := hi.count e
      omega
    · rintro dev e j rfl
      exact ha.2 dev e fs j hst
    · exact hok.keeps (hkeep _ fun e => hg (Frame.refs e))
    · exact exec_leaves hi.holds.shared hf hx (hkeep 0 hle)
  constructor
  · exact hi.holds.step (fun T v => v.Ok T) hstep hexec
      (fun _ _ _ _ hf hv hr => hf.resume hv hr) fun i => i.elim
  · obtain ⟨-, ⟨t, c, f, fs, T', nx, rfl, -, hst, hx, ⟨q, -, rfl⟩ | ⟨fs', cpu', he, rfl⟩⟩ |
      ⟨-, rfl⟩ | ⟨i, -⟩⟩ := Program.step_cases hstep
    · exact hi.count
    · have hnp : ∀ q, nx ≠ .panic q := by rintro q rfl; cases he
      exact (exec_effect hx).count hnp (hi.holds.frames t f (hst ▸ List.mem_cons_self)) hi.count
        (fun e => State.frame_le_total (hst ▸ List.mem_cons_self)) ha.1
        fun e => State.total_enter (fun _ _ _ => refs_resume) hst he T' cpu'
    · exact hi.count
    · exact i.elim

/-- Every task runs code that holds some inodes, and counts are right. -/
structure Quiet (s : State n Table Frame Panic) : Prop where
  sound : Sound s.shared
  code : ∀ t, ∃ held, s.stack t = [.code held]
  count : ∀ e, (s.shared.inodes e).iCount = s.total (Frame.refs e) + mountRefs s.shared e

theorem Quiet.accounted (h : Quiet s) : Accounted s := by
  refine ⟨⟨h.sound, fun t f hf => ?_⟩, h.count⟩
  obtain ⟨held, hst⟩ := h.code t
  rw [hst, List.mem_singleton] at hf
  subst hf
  trivial

/-- What a frame of `iget` was called for. -/
def Frame.request : Frame → Option Key
  | .igetEmpty req => some req
  | .igetScan req _ _ => some req
  | .igetWait req _ _ _ => some req
  | .igetRet req _ => some req
  | .readInode req _ => some req
  | .readInodeBread req _ => some req
  | _ => none

/-- What a call of `iget` returns is in use and stands for what it was asked for. -/
theorem Accounted.returns {c : Choice} {T' : Table} (hf : f.Ok T) (hreq : f.request = some req)
    (hx : exec T c f = some (T', .ret (.inode e))) :
    (T'.key e).1 ≠ 0 ∧ Names T' req (T'.key e) := by
  cases f <;> simp only [Frame.request, reduceCtorEq, Option.some.injEq] at hreq <;> subst hreq
  case igetRet =>
    obtain ⟨rfl, h⟩ := Prod.mk.inj (Option.some.inj hx)
    obtain ⟨⟩ := h
    exact hf
  case readInodeBread req i =>
    simp only [exec, afterBread, Option.some.injEq] at hx
    split at hx
    · cases (Prod.mk.inj hx).2
    · obtain ⟨rfl, h⟩ := Prod.mk.inj hx
      obtain ⟨⟩ := h
      exact leaves_quiet_upd (g := .readInodeBread req e) (fun _ => rfl) hf
  case igetEmpty => cases hx
  case igetScan req k empty =>
    simp only [exec, igetScan, Option.some.injEq] at hx
    split at hx <;> cases (Prod.mk.inj hx).2
  case igetWait req k empty i =>
    simp only [exec, igetWait, waitOnInode, Option.some.injEq] at hx
    split_ifs at hx
    · cases (Prod.mk.inj hx).2
    · cases (Prod.mk.inj hx).2
    · split at hx <;> cases (Prod.mk.inj hx).2
    · cases (Prod.mk.inj hx).2
  case readInode req i =>
    simp only [exec, readInode, waitOnInode, Option.some.injEq] at hx
    split_ifs at hx
    · cases (Prod.mk.inj hx).2
    · split at hx <;> cases (Prod.mk.inj hx).2

/-- In every run in which `new_inode` never takes a number that is still in the table, no two
entries in use have the same key, and `iget` returns an entry for what it was asked for. -/
theorem inode_unique (h₀ : Quiet s₀) (h : Run (program n).step Admissible s₀ s) :
    (∀ e < NR_INODE, ∀ i < NR_INODE, 0 < (s.shared.inodes e).iCount →
      0 < (s.shared.inodes i).iCount → (s.shared.inodes e).iDev ≠ 0 →
      s.shared.key e = s.shared.key i → e = i) ∧
    ∀ t c f fs T' req e, s.stack t = f :: fs → f.request = some req →
      exec s.shared c f = some (T', .ret (.inode e)) → Names T' req (T'.key e) := by
  have hacc : Accounted s := h.invariant h₀.accounted fun _ _ _ hi ha hs => hi.step ha hs
  constructor
  · intro e he i hi _ _ hdev heq
    exact hacc.holds.shared.unique e he i hi hdev heq
  · intro t c f fs T' req e hst hreq hx
    exact (Accounted.returns (hacc.holds.frames t f (hst ▸ List.mem_cons_self)) hreq hx).2

/-! ## A number that is freed and taken again -/

section Examples

/-- Task 0 holds the file with number 5; all other entries are unused and dirty. -/
def deleting : State 2 Table Frame Panic where
  shared :=
    { inodes := fun e => if e = 0 then
        { iMode := S_IFREG, iNlinks := 1, iDev := 0x301, iNum := 5, iCount := 1, iLock := false,
          iDirt := false, iPipe := false, iMount := false }
      else
        { iMode := S_IFREG, iNlinks := 1, iDev := 0x301, iNum := 100 + e, iCount := 0,
          iLock := false, iDirt := true, iPipe := false, iMount := false }
      lastInode := 0
      superBlock := [⟨0x301, 200, 8192, none, none⟩]
      imap := fun _ j => j ≤ 200
      disk := fun _ _ => ⟨S_IFREG, 1⟩ }
  stack := fun t => if t = 0 then [.code [0]] else [.code []]
  cpu := none
  panicked := none

theorem quiet_deleting : Quiet deleting := by
  constructor
  · constructor
    · intro sb hsb
      obtain rfl := List.mem_singleton.mp hsb
      exact ⟨by decide, by simp⟩
    · decide +kernel
  · intro t
    by_cases ht : t = 0
    · exact ⟨[0], by simp [deleting, ht]⟩
    · exact ⟨[], by simp [deleting, ht]⟩
  · intro e
    have hm : mountRefs deleting.shared e = 0 := rfl
    rw [hm, State.total, Fin.sum_univ_two]
    by_cases he : e = 0
    · subst he
      rfl
    · simp [deleting, Frame.refs, he, Ne.symm he]

/-- Task 1 asks for the file with number 5 and sleeps while an empty entry is written out. Task 0
deletes the file, so task 1 does not find it in the table. -/
def igetSteps : List (Act 2 Choice Empty) :=
  [.run 1 (.iget 0x301 5), .run 1 .done, .run 1 .done, .run 1 .done, .run 1 .done, .run 1 .sleep,
    .run 0 (.setInode 0 ⟨S_IFREG, 0⟩), .run 0 (.iput 0), .run 0 .done, .run 0 .done, .run 0 .done,
    .run 0 .sleep,
    .run 1 .done, .run 1 .done, .run 1 .done, .run 1 .done, .run 1 .done, .run 1 .sleep]

/-- Task 0 creates a file, for which the number 5 is free. -/
def newInodeSteps : List (Act 2 Choice Empty) :=
  [.run 0 (.newInode 0x301), .run 0 .done, .run 0 .done, .run 0 .done, .run 0 .done]

def twice : State 2 Table Frame Panic :=
  (runList (program 2).step (igetSteps ++ newInodeSteps) deleting).get (by decide +kernel)

theorem two_entries : Quiet deleting ∧ Run (program 2).step Always deleting twice ∧
    0 < (twice.shared.inodes 0).iCount ∧ 0 < (twice.shared.inodes 63).iCount ∧
    twice.shared.key 0 = (0x301, 5) ∧ twice.shared.key 63 = (0x301, 5) :=
  ⟨quiet_deleting, .of_runList_get _, by decide +kernel, by decide +kernel, by decide +kernel,
    by decide +kernel⟩

/-- Task 1 has begun to look for an empty entry. -/
def asking : State 2 Table Frame Panic :=
  ((program 2).step (.run 1 (.iget 0x301 5)) deleting).get (by decide +kernel)

theorem inode_unique_asking : asking.shared.key 0 = (0x301, 5) ∧ ∀ e < NR_INODE, ∀ i < NR_INODE,
    0 < (asking.shared.inodes e).iCount → 0 < (asking.shared.inodes i).iCount →
    (asking.shared.inodes e).iDev ≠ 0 → asking.shared.key e = asking.shared.key i → e = i := by
  refine ⟨by decide +kernel,
    (inode_unique quiet_deleting (.tail .refl ?_ (Option.some_get _).symm)).1⟩
  constructor
  · intro e
    by_cases he : e = 0 <;> simp [deleting, he]
  · intro dev e fs j hst
    simp [deleting] at hst

end Examples

end Linux012.Inodes
