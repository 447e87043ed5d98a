import Mathlib.Data.Finset.Insert
import Linux012.Lib.Runs

/-! # User and group identities

`setuid`, `setreuid`, `setgid` and `setregid` of `kernel/sys.c`. The calls take `int`s and
store them into `unsigned short`s. A process without a zero among its user identities
collects no identity that it did not have.
-/

namespace Linux012.Creds

open Runs

structure Cred where
  uid : BitVec 16
  euid : BitVec 16
  suid : BitVec 16
  gid : BitVec 16
  egid : BitVec 16
  sgid : BitVec 16
  deriving DecidableEq

def EPERM : ℤ := 1

def Cred.suser (c : Cred) : Bool := c.euid = 0

/-- An `unsigned short` in an expression is an `int`. -/
def promote (id : BitVec 16) : BitVec 32 := id.setWidth 32

/-- An `int` is cut off where it is stored. -/
def stored (id : BitVec 32) : BitVec 16 := id.setWidth 16

def sysSetregid (rgid egid : BitVec 32) (c : Cred) : Cred × ℤ :=
  if 0 < rgid.toInt ∧ ¬ (promote c.gid = rgid ∨ c.suser) then (c, -EPERM)
  else
    let c := if 0 < rgid.toInt then { c with gid := stored rgid } else c
    if 0 < egid.toInt then
      if promote c.gid = egid ∨ promote c.egid = egid ∨ c.suser then
        ({ c with egid := stored egid, sgid := stored egid }, 0)
      -- the real group has been set
      else (c, -EPERM)
    else (c, 0)

def sysSetgid (gid : BitVec 32) (c : Cred) : Cred × ℤ :=
  if c.suser then ({ c with gid := stored gid, egid := stored gid, sgid := stored gid }, 0)
  else if gid = promote c.gid ∨ gid = promote c.sgid then ({ c with egid := stored gid }, 0)
  else (c, -EPERM)

def sysSetreuid (ruid euid : BitVec 32) (c : Cred) : Cred × ℤ :=
  let oldRuid := c.uid
  if 0 < ruid.toInt ∧ ¬ (promote c.euid = ruid ∨ promote oldRuid = ruid ∨ c.suser) then
    (c, -EPERM)
  else
    let c := if 0 < ruid.toInt then { c with uid := stored ruid } else c
    if 0 < euid.toInt then
      if promote oldRuid = euid ∨ promote c.euid = euid ∨ c.suser then
        ({ c with euid := stored euid, suid := stored euid }, 0)
      else ({ c with uid := oldRuid }, -EPERM)
    else (c, 0)

def sysSetuid (uid : BitVec 32) (c : Cred) : Cred × ℤ :=
  if c.suser then ({ c with uid := stored uid, euid := stored uid, suid := stored uid }, 0)
  else if uid = promote c.uid ∨ uid = promote c.suid then ({ c with euid := stored uid }, 0)
  else (c, -EPERM)

inductive Call
  | setuid (uid : BitVec 32)
  | setreuid (ruid euid : BitVec 32)
  | setgid (gid : BitVec 32)
  | setregid (rgid egid : BitVec 32)

def call : Call → Cred → Cred × ℤ
  | .setuid uid => sysSetuid uid
  | .setreuid ruid euid => sysSetreuid ruid euid
  | .setgid gid => sysSetgid gid
  | .setregid rgid egid => sysSetregid rgid egid

/-- A process makes one call after another, whether they fail or not. -/
def step (a : Call) (c : Cred) : Option Cred := some (call a c).1

/-! ## The identities of a process -/

namespace Cred

def uids (c : Cred) : Finset (BitVec 16) := {c.uid, c.euid, c.suid}

def gids (c : Cred) : Finset (BitVec 16) := {c.gid, c.egid, c.sgid}

/-- All identities of `c` are among those of `c₀`. -/
structure Among (c c₀ : Cred) : Prop where
  uid : c.uid ∈ c₀.uids
  euid : c.euid ∈ c₀.uids
  suid : c.suid ∈ c₀.uids
  gid : c.gid ∈ c₀.gids
  egid : c.egid ∈ c₀.gids
  sgid : c.sgid ∈ c₀.gids

variable {c c₀ : Cred}

theorem Among.refl (c : Cred) : c.Among c := by
  constructor <;> simp [uids, gids]

theorem Among.uids_subset (h : c.Among c₀) : c.uids ⊆ c₀.uids := by
  intro id hid
  simp only [uids, Finset.mem_insert, Finset.mem_singleton] at hid
  rcases hid with rfl | rfl | rfl
  · exact h.uid
  · exact h.euid
  · exact h.suid

theorem Among.gids_subset (h : c.Among c₀) : c.gids ⊆ c₀.gids := by
  intro id hid
  simp only [gids, Finset.mem_insert, Finset.mem_singleton] at hid
  rcases hid with rfl | rfl | rfl
  · exact h.gid
  · exact h.egid
  · exact h.sgid

/-- Zero is not among the user identities, so a process that holds only some of them is not the
super user. -/
theorem Among.not_suser (h : c.Among c₀) (hz : 0 ∉ c₀.uids) : c.suser = false := by
  apply decide_eq_false
  intro he
  exact hz (he ▸ h.euid)

end Cred

/-- An identity that compares equal to an `int` is what the `int` is stored as. -/
theorem stored_mem {ids : Finset (BitVec 16)} {id : BitVec 16} {v : BitVec 32} (hid : id ∈ ids)
    (h : promote id = v) : stored v ∈ ids := by
  have hs : stored (promote id) = id := BitVec.setWidth_setWidth_of_le id (by decide)
  rw [← h, hs]
  exact hid

/-! ## The calls -/

variable {c c₀ : Cred}

theorem sysSetregid_among (h : c.Among c₀) (hz : 0 ∉ c₀.uids) (rgid egid : BitVec 32) :
    (sysSetregid rgid egid c).1.Among c₀ := by
  unfold sysSetregid
  split
  · exact h
  rename_i hr
  have h' : (if 0 < rgid.toInt then { c with gid := stored rgid } else c).Among c₀ := by
    split_ifs with hpos
    · rcases not_not.mp (not_and.mp hr hpos) with he | he
      · exact { h with gid := stored_mem h.gid he }
      · rw [h.not_suser hz] at he
        cases he
    · exact h
  generalize (if 0 < rgid.toInt then { c with gid := stored rgid } else c) = c' at h'
  dsimp only
  split_ifs with heg hok
  · rcases hok with he | he | he
    · exact { h' with egid := stored_mem h'.gid he, sgid := stored_mem h'.gid he }
    · exact { h' with egid := stored_mem h'.egid he, sgid := stored_mem h'.egid he }
    · rw [h'.not_suser hz] at he
      cases he
  · exact h'
  · exact h'

theorem sysSetreuid_among (h : c.Among c₀) (hz : 0 ∉ c₀.uids) (ruid euid : BitVec 32) :
    (sysSetreuid ruid euid c).1.Among c₀ := by
  change (if 0 < ruid.toInt ∧ ¬ (promote c.euid = ruid ∨ promote c.uid = ruid ∨ c.suser) then
    (c, -EPERM) else _).1.Among c₀
  split
  · exact h
  rename_i hr
  have h' : (if 0 < ruid.toInt then { c with uid := stored ruid } else c).Among c₀ := by
    split_ifs with hpos
    · rcases not_not.mp (not_and.mp hr hpos) with he | he | he
      · exact { h with uid := stored_mem h.euid he }
      · exact { h with uid := stored_mem h.uid he }
      · rw [h.not_suser hz] at he
        cases he
    · exact h
  generalize (if 0 < ruid.toInt then { c with uid := stored ruid } else c) = c' at h'
  split_ifs with heu hok
  · rcases hok with he | he | he
    · exact { h' with euid := stored_mem h.uid he, suid := stored_mem h.uid he }
    · exact { h' with euid := stored_mem h'.euid he, suid := stored_mem h'.euid he }
    · rw [h'.not_suser hz] at he
      cases he
  -- the real user is as before the call
  · exact { h' with uid := h.uid }
  · exact h'

theorem sysSetgid_among (h : c.Among c₀) (hz : 0 ∉ c₀.uids) (gid : BitVec 32) :
    (sysSetgid gid c).1.Among c₀ := by
  unfold sysSetgid
  simp only [h.not_suser hz, Bool.false_eq_true, if_false]
  split_ifs with he
  · rcases he with he | he
    · exact { h with egid := stored_mem h.gid he.symm }
    · exact { h with egid := stored_mem h.sgid he.symm }
  · exact h

theorem sysSetuid_among (h : c.Among c₀) (hz : 0 ∉ c₀.uids) (uid : BitVec 32) :
    (sysSetuid uid c).1.Among c₀ := by
  unfold sysSetuid
  simp only [h.not_suser hz, Bool.false_eq_true, if_false]
  split_ifs with he
  · rcases he with he | he
    · exact { h with euid := stored_mem h.uid he.symm }
    · exact { h with euid := stored_mem h.suid he.symm }
  · exact h

theorem call_among (h : c.Among c₀) (hz : 0 ∉ c₀.uids) (a : Call) : (call a c).1.Among c₀ := by
  cases a with
  | setuid uid => exact sysSetuid_among h hz uid
  | setreuid ruid euid => exact sysSetreuid_among h hz ruid euid
  | setgid gid => exact sysSetgid_among h hz gid
  | setregid rgid egid => exact sysSetregid_among h hz rgid egid

/-- Without a zero among its user identities a process keeps to the identities it has, over any
sequence of calls. -/
theorem no_escalation (h : Run step Always c₀ c) (hz : 0 ∉ c₀.uids) :
    c.uids ⊆ c₀.uids ∧ c.gids ⊆ c₀.gids := by
  have ha : c.Among c₀ := by
    apply h.invariant (I := fun c => c.Among c₀) (.refl c₀)
    intro c a c' hi _ hs
    obtain rfl := Option.some.inj hs
    exact call_among hi hz a
  exact ⟨ha.uids_subset, ha.gids_subset⟩

/-- A set-user-id program of user 8, run by user 100. -/
def setUidProgram : Cred := { uid := 100, euid := 8, suid := 8, gid := 10, egid := 10, sgid := 10 }

/-- It swaps its real and effective user, tries to become the super user, and takes its saved
user as the effective one. -/
def swapped : Cred :=
  (runList step [.setreuid 8 100, .setuid 0, .setuid 8, .setregid 10 0] setUidProgram).get
    (by decide)

theorem no_escalation_swapped : (swapped.uid, swapped.euid) = (8, 8) ∧
    swapped.uids ⊆ setUidProgram.uids ∧ swapped.gids ⊆ setUidProgram.gids :=
  ⟨by decide, no_escalation (.of_runList_get _) (by decide)⟩

end Linux012.Creds
