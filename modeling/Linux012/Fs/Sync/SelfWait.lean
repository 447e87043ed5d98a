import Linux012.Fs.Sync.Basic
import Linux012.Lib.Runs
import Linux012.Lib.Index

/-! # Waiting for one's own lock

A task that holds the lock of an inode is in `bread` or about to unlock it. As long as `getblk`
then chooses a clean buffer, it does not come to `sync_inodes`, which waits for every inode.
-/

namespace Linux012

/-- In `bread`, `brelse` or what they call, `sync_dev` apart. -/
def Buffer.Frame.inBread : Buffer.Frame → Bool
  | .getblk .. => true
  | .getblkHash .. => true
  | .getblkScan .. => true
  | .getblkWait .. => true
  | .getblkNull => true
  | .brelse _ => true
  | .bread .. => true
  | .breadGot => true
  | .breadRead _ => true
  | .breadWait _ => true
  | .returnNull => true
  | .llRwBlock .. => true
  | .lockBuffer .. => true
  | .findRequest .. => true
  | _ => false

namespace Sync

open Function Coop Runs
open scoped Index

variable {D : Type*} {n : ℕ} {fmt : Format D} {s s' : Sys D} {f g h : Frame} {fs fs' : List Frame}
  {ch : Choice D} {nx : Next Frame Value Panic} {e : ℕ}

namespace Frame

/-- Between `lock_inode` and `unlock_inode`. -/
def locks (e : ℕ) : Frame → Prop
  | .inode (.readInodeBread _ i) => i = e
  | .readInodeGot _ i => i = e
  | .readInodeCopy _ i _ => i = e
  | .readInodeUnlock _ i => i = e
  | .inode (.writeInodeBread i) => i = e
  | .writeInodeGot i => i = e
  | .writeInodeCopy i _ => i = e
  | .writeInodeUnlock i => i = e
  | _ => False

/-- At a call of `wait_on_inode` or `lock_inode`. -/
def waitsFor (e : ℕ) : Frame → Prop
  | .inode (.getEmptyWait i) => i = e
  | .inode (.igetWait _ _ _ i) => i = e
  | .inode (.readInode _ i) => i = e
  | .inode (.iput i) => i = e
  | .inode (.iputWait i) => i = e
  | .inode (.writeInode i) => i = e
  | .syncInodes i => i = e ∧ i < Inodes.NR_INODE
  | _ => False

def inBread : Frame → Prop
  | .cache f => f.inBread = true
  | _ => False

/-- The lock of some inode is held. -/
def holdsLock (f : Frame) : Prop := ∃ e, f.locks e

theorem not_waitsFor_of_inBread (h : f.inBread) : ¬ f.waitsFor e := by
  cases f <;> first | exact id | exact h.elim

theorem not_waitsFor_of_locks {i : ℕ} (h : f.locks i) : ¬ f.waitsFor e := by
  cases f with
  | inode f => cases f <;> first | exact id | exact h.elim
  | syncInodes i => exact h.elim
  | _ => exact id

end Frame

/-! ## Pieces of code -/

theorem frames_lift {F V P : Type*} (k : F → Frame) (v : V → Value) (q : P → Panic)
    (nx : Next F V P) : (lift k v q nx).frames = nx.frames.map k := by
  cases nx <;> rfl

/-- A buffer that `getblk` may take is clean. -/
def Clean (c : Buffer.Cache D) (bh : ℕ) : Prop :=
  (c.heads bh).bLock = false → (c.heads bh).bCount = 0 → (c.heads bh).bDirt = false

section Cache

open Buffer

variable {c c' : Cache D} {k k' : Buffer.Frame} {ny : Next Buffer.Frame Buffer.Value Buffer.Panic}

/-- The frames that a piece of code leaves have the property. -/
def Leaves {F V P : Type*} (Q : F → Prop) (nx : Next F V P) : Prop := ∀ k ∈ nx.frames, Q k

section Leaves

variable {F V P : Type*} {Q : F → Prop} {a b : F}

theorem leaves_goto (ha : Q a) : Leaves Q (.goto a : Next F V P) := by simpa [Leaves, Next.frames]

theorem leaves_sleep (ha : Q a) : Leaves Q (.sleep a : Next F V P) := by
  simpa [Leaves, Next.frames]

theorem leaves_call (ha : Q a) (hb : Q b) : Leaves Q (.call a b : Next F V P) := by
  simpa [Leaves, Next.frames] using ⟨hb, ha⟩

theorem leaves_ret (v : V) : Leaves Q (.ret v : Next F V P) := by simp [Leaves, Next.frames]

theorem leaves_panic (q : P) : Leaves Q (.panic q : Next F V P) := by simp [Leaves, Next.frames]

end Leaves

theorem leaves_waitOnBuffer {bh : ℕ} {self : Buffer.Frame} {go : Buffer.Piece D}
    {Q : Buffer.Frame → Prop} (hself : Q self) (hgo : Leaves Q go.2) :
    Leaves Q (waitOnBuffer c bh self go).2 := by
  unfold waitOnBuffer
  split_ifs
  · exact leaves_sleep hself
  · exact hgo

theorem llRwBlock_inBread {rw : Rw} {bh : ℕ} :
    Leaves (fun k => k.inBread = true) (llRwBlock c rw bh).2 := by
  unfold llRwBlock
  cases rw with
  | read | write =>
    dsimp only
    split_ifs
    · exact leaves_ret _
    · exact leaves_goto rfl
  | reada | writea =>
    dsimp only
    split_ifs
    · exact leaves_ret _
    · exact leaves_ret _
    · exact leaves_goto rfl

theorem takeFree_inBread {dev : Dev} {block : BlockNr} {bh : ℕ} (hclean : Clean c bh) :
    Leaves (fun k => k.inBread = true) (takeFree c dev block bh).2 := by
  unfold takeFree waitOnBuffer
  split_ifs with hl hc hd
  · exact leaves_sleep rfl
  · exact leaves_goto rfl
  · rw [hclean (by simpa using hl) (not_not.mp hc)] at hd
    cases hd
  · exact leaves_goto rfl
  · split
    · exact leaves_panic _
    · exact leaves_ret _

/-- `bread` and what it calls stay among themselves while `getblk` finds clean buffers. -/
theorem exec_cache_inBread {r : Buffer.Piece D} (hk : k.inBread = true)
    (hclean : ∀ dev block bh, k = .getblkWait dev block bh → Clean c bh)
    (hx : Buffer.exec c .done k = some r) : Leaves (fun k => k.inBread = true) r.2 := by
  cases k with
  | getblk dev block =>
    obtain rfl := Option.some.inj hx
    unfold lookup
    split
    · exact leaves_goto rfl
    · exact leaves_goto rfl
  | getblkHash dev block bh =>
    obtain rfl := Option.some.inj hx
    refine leaves_waitOnBuffer rfl ?_
    split_ifs
    · exact leaves_ret _
    · exact leaves_goto rfl
  | getblkScan dev block =>
    obtain rfl := Option.some.inj hx
    split
    · exact leaves_sleep rfl
    · exact leaves_goto rfl
  | getblkWait dev block bh =>
    obtain rfl := Option.some.inj hx
    exact takeFree_inBread (hclean dev block bh rfl)
  | getblkNull =>
    obtain rfl := Option.some.inj hx
    exact leaves_panic _
  | brelse bh =>
    obtain rfl := Option.some.inj hx
    refine leaves_waitOnBuffer rfl ?_
    split_ifs
    · exact leaves_panic _
    · exact leaves_ret _
  | bread dev block =>
    obtain rfl := Option.some.inj hx
    exact leaves_call rfl rfl
  | breadGot => cases hx
  | breadRead bh =>
    obtain rfl := Option.some.inj hx
    split_ifs
    · exact leaves_ret _
    · exact leaves_call rfl rfl
  | breadWait bh =>
    obtain rfl := Option.some.inj hx
    refine leaves_waitOnBuffer rfl ?_
    split_ifs
    · exact leaves_ret _
    · exact leaves_call rfl rfl
  | returnNull =>
    obtain rfl := Option.some.inj hx
    exact leaves_ret _
  | llRwBlock rw bh =>
    obtain rfl := Option.some.inj hx
    exact llRwBlock_inBread
  | lockBuffer rw ahead bh =>
    obtain rfl := Option.some.inj hx
    refine leaves_waitOnBuffer rfl ?_
    dsimp only
    split_ifs
    · exact leaves_ret _
    · exact leaves_goto rfl
  | findRequest rw ahead bh =>
    obtain rfl := Option.some.inj hx
    unfold findRequest
    split
    · exact leaves_ret _
    · split_ifs
      · exact leaves_ret _
      · exact leaves_sleep rfl
  | _ => cases hk

theorem resume_cache_inBread {v : Buffer.Value} (hk : k.inBread = true)
    (hr : Buffer.resume k v = some k') : k'.inBread = true := by
  cases k <;> cases hk
  all_goals
    cases v <;> simp only [Buffer.resume, reduceCtorEq, Option.some.injEq] at hr
    all_goals
      subst hr
      rfl

theorem ofCache_inBread (hk : k.inBread = true) (l : List ℕ) :
    (ofCache l k).inBread := by
  cases k <;> first | exact hk | cases hk

end Cache

theorem exec_cache {k : Buffer.Frame} (hk : ∀ dev again i, k ≠ .syncDev dev again i) :
    exec fmt s ch (.cache k) = (Buffer.exec s.cache .done k).map (liftCache s []) := by
  cases k <;> first | rfl | exact absurd rfl (hk _ _ _)

/-- A frame in `bread` leaves only such frames, if `getblk` finds a clean buffer. -/
theorem exec_inBread (hf : f.inBread)
    (hclean : ∀ dev block bh, f = .cache (.getblkWait dev block bh) → Clean s.cache bh)
    (hx : exec fmt s ch f = some (s', nx)) : Leaves Frame.inBread nx := by
  cases f with
  | cache k =>
    rw [exec_cache (by rintro dev again i rfl; cases hf)] at hx
    obtain ⟨r, hr, hl⟩ := Option.map_eq_some_iff.mp hx
    obtain ⟨rfl, rfl⟩ := Prod.mk.inj hl
    intro g hg
    rw [frames_lift] at hg
    obtain ⟨k', hk', rfl⟩ := List.mem_map.mp hg
    refine ofCache_inBread (exec_cache_inBread hf (fun dev block bh h => ?_) hr k' hk') []
    exact hclean dev block bh (by rw [h])
  | _ => exact hf.elim

theorem resume_inBread {v : Value} (hf : f.inBread) (hr : resume f v = some g) : g.inBread := by
  cases f with
  | cache k =>
    cases v with
    | cache v =>
      obtain ⟨k', hk', rfl⟩ := Option.map_eq_some_iff.mp hr
      exact ofCache_inBread (resume_cache_inBread hf hk') []
    | inode v => cases hr
  | _ => exact hf.elim

theorem not_locks_ofCache (l : List ℕ) (k : Buffer.Frame) : ¬ (ofCache l k).holdsLock := by
  rintro ⟨e, he⟩
  cases k <;> exact he

section Callers

/-- A piece of code that ends in a call leaves a frame with the property below. -/
def Caller {F V P : Type*} (Q : F → Prop) (nx : Next F V P) : Prop := ∀ a b, nx = .call a b → Q a

variable {F V P : Type*} {Q : F → Prop} {a b : F}

theorem caller_goto : Caller Q (.goto a : Next F V P) := by rintro _ _ ⟨⟩

theorem caller_sleep : Caller Q (.sleep a : Next F V P) := by rintro _ _ ⟨⟩

theorem caller_call (ha : Q a) : Caller Q (.call a b : Next F V P) := by
  rintro _ _ ⟨⟩
  exact ha

theorem caller_ret (v : V) : Caller Q (.ret v : Next F V P) := by rintro _ _ ⟨⟩

theorem caller_panic (q : P) : Caller Q (.panic q : Next F V P) := by rintro _ _ ⟨⟩

theorem Caller.lift {f : F → Frame} {v : V → Value} {q : P → Panic} {R : Frame → Prop}
    {nx : Next F V P} (h : Caller (fun a => R (f a)) nx) : Caller R (Sync.lift f v q nx) := by
  cases nx with
  | call a b => exact caller_call (h a b rfl)
  | goto a => exact caller_goto
  | sleep a => exact caller_sleep
  | ret x => exact caller_ret _
  | panic x => exact caller_panic _

end Callers

section Table

open Inodes

variable {T : Table} {l : List ℕ} {c : Inodes.Choice} {k : Inodes.Frame} {r : Inodes.Piece}

/-- The frame holds no lock. -/
def NoLock (l : List ℕ) (k : Inodes.Frame) : Prop := ¬ (ofInode l k).holdsLock

theorem noLock_code (held : List ℕ) : NoLock l (.code held) := fun ⟨_, h⟩ => h

theorem caller_waitOnInode {self : Inodes.Frame} {go : Inodes.Piece} {Q : Inodes.Frame → Prop}
    (hgo : Caller Q go.2) : Caller Q (waitOnInode T e self go).2 := by
  unfold waitOnInode
  split_ifs
  · exact caller_sleep
  · exact hgo

theorem execCode_call {held : List ℕ} (hx : Inodes.execCode T held c = some r) :
    Caller (NoLock l) r.2 := by
  cases c <;> simp only [Inodes.execCode] at hx
  case iget => obtain rfl := Option.some.inj hx; exact caller_call (noLock_code _)
  case newInode => obtain rfl := Option.some.inj hx; exact caller_call (noLock_code _)
  case getPipeInode => obtain rfl := Option.some.inj hx; exact caller_call (noLock_code _)
  case writeInode => obtain rfl := Option.some.inj hx; exact caller_call (noLock_code _)
  case iput =>
    split_ifs at hx
    obtain rfl := Option.some.inj hx
    exact caller_call (noLock_code _)
  case dup =>
    split_ifs at hx
    obtain rfl := Option.some.inj hx
    exact caller_goto
  case setInode =>
    split_ifs at hx
    obtain rfl := Option.some.inj hx
    exact caller_goto
  case sleep => obtain rfl := Option.some.inj hx; exact caller_sleep
  case done =>
    split_ifs at hx
    obtain rfl := Option.some.inj hx
    exact caller_ret _
  all_goals cases hx

theorem freeInode_call {Q : Inodes.Frame → Prop} : Caller Q (freeInode T e).2 := by
  unfold freeInode
  dsimp only
  split_ifs
  · exact caller_ret _
  · exact caller_panic _
  · exact caller_panic _
  · split
    · exact caller_panic _
    · split_ifs
      · exact caller_panic _
      · exact caller_ret _

theorem iputTruncate_call {Q : Inodes.Frame → Prop} : Caller Q (Inodes.iputTruncate T e c).2 := by
  cases c with
  | sleep =>
    unfold Inodes.iputTruncate
    dsimp only
    split_ifs
    · exact caller_sleep
    · exact freeInode_call
  | busy =>
    unfold Inodes.iputTruncate
    dsimp only
    split_ifs
    · exact caller_sleep
    · exact freeInode_call
  | _ => exact freeInode_call

theorem iput_call : Caller (NoLock l) (Inodes.iput T e).2 := by
  refine caller_waitOnInode ?_
  split_ifs
  · exact caller_panic _
  · exact caller_ret _
  · exact caller_ret _
  · exact caller_ret _
  · exact caller_call fun ⟨_, h⟩ => h
  · exact caller_goto

/-- A function of the inode table that calls another holds no lock. -/
theorem inode_call (hx : Inodes.exec T c k = some r) : Caller (NoLock l) r.2 := by
  cases k with
  | code held => exact execCode_call hx
  | getEmptyInode =>
    obtain rfl := Option.some.inj hx
    unfold getEmptyInode
    split
    · exact caller_panic _
    · exact caller_goto
  | getEmptyWait e =>
    obtain rfl := Option.some.inj hx
    refine caller_waitOnInode ?_
    split_ifs
    · exact caller_call fun ⟨_, h⟩ => h
    · exact caller_goto
    · exact caller_ret _
  | iget dev nr =>
    obtain rfl := Option.some.inj hx
    split_ifs
    · exact caller_panic _
    · exact caller_call fun ⟨_, h⟩ => h
  | igetScan req key empty =>
    obtain rfl := Option.some.inj hx
    unfold igetScan
    split
    · exact caller_goto
    · exact caller_goto
  | igetWait req key empty e =>
    obtain rfl := Option.some.inj hx
    refine caller_waitOnInode ?_
    split_ifs
    · exact caller_goto
    · split
      · exact caller_call fun ⟨_, h⟩ => h
      · exact caller_call fun ⟨_, h⟩ => h
    · exact caller_call fun ⟨_, h⟩ => h
  | igetRet req e => obtain rfl := Option.some.inj hx; exact caller_ret _
  | readInode req e =>
    obtain rfl := Option.some.inj hx
    refine caller_waitOnInode ?_
    split
    · exact caller_panic _
    · exact caller_goto
  | readInodeBread req e =>
    obtain rfl := Option.some.inj hx
    unfold afterBread
    split
    · exact caller_sleep
    · exact caller_ret _
  | iput e => obtain rfl := Option.some.inj hx; exact iput_call
  | iputWait e => obtain rfl := Option.some.inj hx; exact caller_waitOnInode caller_goto
  | iputRepeat e =>
    obtain rfl := Option.some.inj hx
    unfold iputRepeat
    dsimp only
    split_ifs
    · exact caller_ret _
    · exact caller_goto
    · exact caller_call fun ⟨_, h⟩ => h
    · exact caller_ret _
  | iputTruncate e => obtain rfl := Option.some.inj hx; exact iputTruncate_call
  | writeInode e =>
    obtain rfl := Option.some.inj hx
    refine caller_waitOnInode ?_
    split_ifs
    · exact caller_ret _
    · split
      · exact caller_panic _
      · exact caller_goto
  | writeInodeBread e =>
    obtain rfl := Option.some.inj hx
    unfold afterBread
    split
    · exact caller_sleep
    · exact caller_ret _
  | newInode dev => obtain rfl := Option.some.inj hx; exact caller_call fun ⟨_, h⟩ => h
  | newInodeGot dev e =>
    obtain rfl := Option.some.inj hx
    unfold newInodeGot
    split
    · exact caller_panic _
    · split
      · exact caller_call fun ⟨_, h⟩ => h
      · split_ifs
        · exact caller_panic _
        · exact caller_ret _
  | returnNull => obtain rfl := Option.some.inj hx; exact caller_ret _
  | getPipeInode => obtain rfl := Option.some.inj hx; exact caller_call fun ⟨_, h⟩ => h
  | pipeGot e =>
    obtain rfl := Option.some.inj hx
    cases c with
    | sleep => exact caller_sleep
    | _ => exact caller_ret _
  | igetEmpty req => cases hx
  | newInodeEmpty dev => cases hx
  | pipeEmpty => cases hx

end Table

theorem caller_liftInode {l : List ℕ} {r : Inodes.Piece} (h : Caller (NoLock l) r.2) :
    Caller (fun g => ¬ g.holdsLock) (liftInode s l r).2 :=
  Caller.lift h

theorem caller_liftCache {l : List ℕ} {r : Buffer.Piece D} :
    Caller (fun g => ¬ g.holdsLock) (liftCache s l r).2 :=
  Caller.lift fun _ _ _ => not_locks_ofCache l _

theorem caller_map_liftCache {l : List ℕ} {o : Option (Buffer.Piece D)}
    (hx : o.map (liftCache s l) = some (s', nx)) : Caller (fun g => ¬ g.holdsLock) nx := by
  obtain ⟨r, -, hl⟩ := Option.map_eq_some_iff.mp hx
  obtain rfl := congrArg Prod.snd hl
  exact caller_liftCache

theorem caller_map_liftInode {l : List ℕ} {o : Option Inodes.Piece}
    (ho : ∀ r, o = some r → Caller (NoLock l) r.2)
    (hx : o.map (liftInode s l) = some (s', nx)) : Caller (fun g => ¬ g.holdsLock) nx := by
  obtain ⟨r, hr, hl⟩ := Option.map_eq_some_iff.mp hx
  obtain rfl := congrArg Prod.snd hl
  exact caller_liftInode (ho r hr)

theorem iput_caller (hx : iput s e ch = some (s', nx)) : Caller (fun g => ¬ g.holdsLock) nx := by
  unfold iput at hx
  split at hx
  · rename_i T f g hr
    cases ch with
    | zone dev =>
      obtain ⟨-, rfl⟩ := Prod.mk.inj (Option.some.inj hx)
      have h := iput_call (T := s.table) (e := e) (l := []) f g (by rw [hr])
      refine caller_call fun ⟨i, hl⟩ => h ⟨i, ?_⟩
      cases f <;> exact hl
    | _ => cases hx
  · obtain rfl := congrArg Prod.snd (Option.some.inj hx)
    exact caller_liftInode iput_call

theorem iputTruncate_caller (hx : iputTruncate s e ch = some (s', nx)) :
    Caller (fun g => ¬ g.holdsLock) nx := by
  cases ch with
  | use =>
    obtain rfl := congrArg Prod.snd (Option.some.inj hx)
    exact caller_call fun ⟨_, h⟩ => h
  | inode c =>
    obtain rfl := congrArg Prod.snd (Option.some.inj hx)
    exact caller_liftInode iputTruncate_call
  | _ => cases hx

theorem execCode_caller {bufs inodes : List ℕ} (hx : execCode s bufs inodes ch = some (s', nx)) :
    Caller (fun g => ¬ g.holdsLock) nx := by
  cases ch with
  | cache c =>
    cases c with
    | done =>
      simp only [execCode] at hx
      split_ifs at hx
      obtain rfl := congrArg Prod.snd (Option.some.inj hx)
      exact caller_ret _
    | _ =>
      simp only [execCode] at hx
      exact caller_map_liftCache hx
  | inode c =>
    cases c with
    | done => cases hx
    | writeInode e => cases hx
    | _ =>
      simp only [execCode] at hx
      exact caller_map_liftInode (fun _ => execCode_call) hx
  | sysSync =>
    obtain rfl := congrArg Prod.snd (Option.some.inj hx)
    exact caller_call fun ⟨_, h⟩ => h
  | zone dev => cases hx
  | use => cases hx

theorem syncInodes_caller {i : ℕ} : Caller (fun g => ¬ g.holdsLock) (syncInodes s i).2 := by
  unfold syncInodes
  split_ifs
  · exact caller_sleep
  · exact caller_call fun ⟨_, h⟩ => h
  · exact caller_goto
  · exact caller_ret _

theorem sysSyncBuffers_caller {i : ℕ} :
    Caller (fun g => ¬ g.holdsLock) (sysSyncBuffers s i).2 := by
  unfold sysSyncBuffers
  split_ifs
  · exact caller_sleep
  · exact caller_call fun ⟨_, h⟩ => h
  · exact caller_goto
  · exact caller_ret _

theorem syncDev_caller {dev : Buffer.Dev} {again : Bool} {i : ℕ} :
    Caller (fun g => ¬ g.holdsLock) (syncDev s dev again i).2 := by
  unfold syncDev
  split_ifs
  · exact caller_call fun ⟨_, h⟩ => h
  · exact caller_liftCache

theorem exec_cache_caller {k : Buffer.Frame} (hx : exec fmt s ch (.cache k) = some (s', nx)) :
    Caller (fun g => ¬ g.holdsLock) nx := by
  by_cases hk : ∃ dev again i, k = .syncDev dev again i
  · obtain ⟨dev, again, i, rfl⟩ := hk
    obtain rfl := congrArg Prod.snd (Option.some.inj hx)
    exact syncDev_caller
  · rw [exec_cache fun dev again i h => hk ⟨dev, again, i, h⟩] at hx
    exact caller_map_liftCache hx

theorem execInode_caller {k : Inodes.Frame} (hx : execInode s ch k = some (s', nx)) :
    Caller (fun g => ¬ g.holdsLock) nx := by
  cases ch with
  | inode c =>
    simp only [execInode] at hx
    exact caller_map_liftInode (fun _ => inode_call) hx
  | _ => cases hx

/-- A frame that calls something while it holds a lock calls `bread` or `brelse`. -/
theorem exec_call (hx : exec fmt s ch f = some (s', .call g h)) (hg : g.holdsLock) : h.inBread := by
  cases f with
  | code bufs inodes => exact absurd hg (execCode_caller hx g h rfl)
  | cache k => exact absurd hg (exec_cache_caller hx g h rfl)
  | inode k =>
    cases k with
    | readInodeBread req e => cases hx; rfl
    | writeInodeBread e => cases hx; rfl
    | iput e => exact absurd hg (iput_caller hx g h rfl)
    | iputTruncate e => exact absurd hg (iputTruncate_caller hx g h rfl)
    | _ => exact absurd hg (execInode_caller hx g h rfl)
  | readInodeGot req e => cases hx
  | writeInodeGot e => cases hx
  | noInodeBlock => cases hx
  | readInodeCopy req e bh => cases hx; rfl
  | writeInodeCopy e bh => cases hx; rfl
  | readInodeUnlock req e => cases hx
  | writeInodeUnlock e => cases hx
  | syncInodes i => exact absurd hg (syncInodes_caller g h (congrArg Prod.snd (Option.some.inj hx)))
  | sysSync =>
    cases hx
    exact absurd hg fun ⟨_, h⟩ => h
  | sysSyncBuffers i =>
    exact absurd hg (sysSyncBuffers_caller g h (congrArg Prod.snd (Option.some.inj hx)))

/-! ## Stacks -/

/-- Above a frame that holds a lock there are only frames in `bread`. -/
def Nested : List Frame → Prop
  | [] => True
  | f :: fs => ((∃ g ∈ fs, g.holdsLock) → f.inBread) ∧ Nested fs

theorem Nested.enter {fs fs' : List Frame} (hn : Nested (f :: fs))
    (he : (program n fmt).Enters fs nx fs')
    (hin : (∃ g ∈ fs, g.holdsLock) → f.inBread → Leaves Frame.inBread nx)
    (hcall : ∀ g h, nx = .call g h → g.holdsLock → h.inBread) : Nested fs' := by
  obtain ⟨hf, hfs⟩ := hn
  cases he with
  | goto => exact ⟨fun h => hin h (hf h) _ (by simp [Next.frames]), hfs⟩
  | sleep => exact ⟨fun h => hin h (hf h) _ (by simp [Next.frames]), hfs⟩
  | @call g h _ =>
    refine ⟨?_, fun h => hin h (hf h) _ (by simp [Next.frames]), hfs⟩
    rintro ⟨k, hk, hl⟩
    rcases List.mem_cons.mp hk with rfl | hk
    · exact hcall _ _ rfl hl
    · exact hin ⟨k, hk, hl⟩ (hf ⟨k, hk, hl⟩) _ (by simp [Next.frames])
  | ret hr =>
    obtain ⟨hh, hhs⟩ := hfs
    exact ⟨fun h => resume_inBread (hh h) hr, hhs⟩

/-- A task that waits for an inode does not hold a lock. -/
theorem Nested.not_locks (hn : Nested (f :: fs)) (hf : f.waitsFor e) :
    ∀ g ∈ f :: fs, ∀ i, ¬ g.locks i := by
  rintro g hg i hl
  rcases List.mem_cons.mp hg with rfl | hg
  · exact Frame.not_waitsFor_of_locks hl hf
  · exact Frame.not_waitsFor_of_inBread (hn.1 ⟨g, hg, i, hl⟩) hf

/-! ## Every run -/

section EveryRun

variable {S S' : State n (Sys D) Frame Panic}

/-- A task in `getblk` that holds the lock of an inode, and finds the buffer it has chosen unlocked
and unused, finds it clean. -/
def FindsClean (S : State n (Sys D) Frame Panic) :
    Act n (Choice D) (Buffer.EndRequest D) → Prop
  | .run t _ => ∀ dev block bh fs, S.stack t = .cache (.getblkWait dev block bh) :: fs →
      (∃ g ∈ fs, g.holdsLock) → Clean S.shared.cache bh
  | _ => True

/-- A task waits in `wait_on_inode` or `lock_inode` for an inode that it has locked itself. -/
def SelfWait (S : State n (Sys D) Frame Panic) (t : Fin n) (e : ℕ) : Prop :=
  ∃ f fs, S.stack t = f :: fs ∧ f.waitsFor e ∧ (S.shared.table.inodes e).iLock = true ∧
    ∃ g ∈ f :: fs, g.locks e

theorem nested_step {a : Act n (Choice D) (Buffer.EndRequest D)}
    (hn : ∀ t, Nested (S.stack t)) (hok : FindsClean S a)
    (hs : (program n fmt).step a S = some S') : ∀ t, Nested (S'.stack t) := by
  obtain ⟨-, ⟨t, c, f, fs, σ', nx, rfl, -, hst, hx, hq | he⟩ | ⟨-, rfl⟩ | ⟨i, σ', -, -, rfl⟩⟩ :=
    Program.step_cases hs
  · obtain ⟨q, -, rfl⟩ := hq
    exact hn
  · obtain ⟨fs', cpu', he, rfl⟩ := he
    intro u
    rcases eq_or_ne u t with rfl | hu
    · have hu := hn u
      rw [hst] at hu
      dsimp only
      rw [update_self]
      refine hu.enter he (fun h₁ hf => ?_) fun g h hg => exec_call (hg ▸ hx)
      exact exec_inBread hf (fun dev block bh hb => hok dev block bh fs (hb ▸ hst) h₁) hx
    · dsimp only
      rw [update_of_ne hu]
      exact hn u
  · exact hn
  · exact hn

/-- No task waits for an inode that it has locked itself, while lock holders find clean buffers. -/
theorem no_self_wait (s : Sys D) (hr : Run (program n fmt).step FindsClean (initial n s) S) :
    ∀ t e, ¬ SelfWait S t e := by
  have hn : ∀ t, Nested (S.stack t) := by
    refine hr.invariant (fun t => ⟨?_, trivial⟩) fun S a S' => nested_step
    rintro ⟨g, hg, -⟩
    cases hg
  rintro t e ⟨f, fs, hst, hf, -, g, hg, hl⟩
  exact (hst ▸ hn t).not_locks hf g hg e hl

end EveryRun

/-! ## All free buffers dirty -/

def noInodes : Format Unit where
  dInode _ _ := ⟨0, 1⟩
  setDInode d _ _ := d

/-- A cache of two buffers, and no inode in memory. -/
def twoBuffers : Sys Unit where
  cache := Buffer.bufferInit 0 (2 * (Buffer.BLOCK_SIZE + Buffer.sizeofBufferHead))
    ⟨fun _ => (), fun _ => 0⟩ (fun m => m = 3) fun _ _ => ()
  table :=
    { inodes := fun _ => .zero, lastInode := 0, superBlock := [⟨0x301, 100, 8192, none, none⟩],
      imap := fun _ _ => false, disk := fun _ _ => ⟨0, 1⟩ }
  sImapBlocks _ := 1
  sZmapBlocks _ := 1

/-- The task gets two blocks, stores into them and releases them. -/
def dirtySteps : List (Act 1 (Choice Unit) (Buffer.EndRequest Unit)) :=
  [.run 0 (.cache (.getblk 0x301 100)), .run 0 .use, .run 0 .use, .run 0 .use,
    .run 0 (.cache (.getblk 0x301 101)), .run 0 .use, .run 0 .use, .run 0 .use,
    .run 0 (.cache (.store 0 ())), .run 0 (.cache (.store 1 ())),
    .run 0 (.cache (.brelse 0)), .run 0 .use, .run 0 (.cache (.brelse 1)), .run 0 .use]

/-- Then it asks for an inode. -/
def igetSteps : List (Act 1 (Choice Unit) (Buffer.EndRequest Unit)) :=
  .run 0 (.inode (.iget 0x301 5)) :: List.replicate 23 (.run 0 (.inode .done))

def allDirty : State 1 (Sys Unit) Frame Panic :=
  (runList (program 1 noInodes).step (dirtySteps ++ igetSteps) (initial 1 twoBuffers)).get
    (by decide +kernel)

/-- `read_inode` locks entry 1 of the table, finds both buffers dirty in `getblk`, and comes to wait
for entry 1 in `sync_inodes`. -/
theorem iget_waits_for_itself : Run (program 1 noInodes).step Always (initial 1 twoBuffers) allDirty ∧
    allDirty.panicked = none ∧ SelfWait allDirty 0 1 := by
  refine ⟨.of_runList_get _, by decide +kernel, ?_⟩
  refine ⟨.syncInodes 1, [.cache (.syncDev 0x301 true 0), .cache (.getblkWait 0x301 4 0),
    .cache .breadGot, .readInodeGot (0x301, 5) 1, .code [] []], by decide +kernel, ⟨rfl, by decide⟩,
    by decide +kernel, .readInodeGot (0x301, 5) 1, by decide, rfl⟩

/-- No task has chosen a buffer in `getblk`. -/
def NoneChosen (S : State n (Sys D) Frame Panic) : Bool :=
  (List.finRange n).all fun t =>
    match S.stack t with
    | .cache (.getblkWait ..) :: _ => false
    | _ => true

theorem findsClean_of_noneChosen {S : State n (Sys D) Frame Panic}
    {a : Act n (Choice D) (Buffer.EndRequest D)} (h : NoneChosen S = true) : FindsClean S a := by
  cases a with
  | run t c =>
    intro dev block bh fs hst
    have ht := List.all_eq_true.mp h t (List.mem_finRange t)
    simp [hst] at ht
  | tick => trivial
  | intr e => trivial

/-- In a clean cache the task gets into `getblk` with the lock of entry 1. -/
def lockHeld : State 1 (Sys Unit) Frame Panic :=
  (runList (program 1 noInodes).step (igetSteps.take 9) (initial 1 twoBuffers)).get
    (by decide +kernel)

theorem no_self_wait_lockHeld : (lockHeld.shared.table.inodes 1).iLock = true ∧
    ∀ t e, ¬ SelfWait lockHeld t e := by
  have hr : Run (program 1 noInodes).step (fun S _ => NoneChosen S = true)
      (initial 1 twoBuffers) lockHeld := .of_each (by decide +kernel) (Option.some_get _).symm
  exact ⟨by decide +kernel, no_self_wait twoBuffers (hr.mono fun _ _ => findsClean_of_noneChosen)⟩

end Sync

end Linux012
