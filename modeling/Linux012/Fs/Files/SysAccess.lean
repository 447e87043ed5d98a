import Mathlib.Tactic
import Linux012.Fs.Files.Basic

/-! # What sys_access says

`sys_access` decides by the real identities what `permission` decides by the effective ones. For
a member of the group it looks at the bits of the owner.
-/

namespace Linux012.Files

/-- The real identities of a task -/
structure RealIds where
  uid : ℕ
  gid : ℕ

/-- `sys_access` where `namei` has returned `found`. -/
def sysAccess (c : RealIds) (found : Option Inode) (mode : BitVec 32) :
    Except Errno Unit :=
  let mode := mode &&& 0o7
  match found with
  | none => .error .EACCES
  | some inode =>
    let iMode : BitVec 32 := inode.iMode.setWidth 32 &&& 0o777
    let res := if c.uid = inode.iUid then iMode >>> 6
      else if c.gid = inode.iGid then iMode >>> 6 else iMode
    if res &&& 0o7 &&& mode = mode then .ok ()
    else if c.uid = 0 ∧ (mode &&& 1 = 0 ∨ iMode &&& 0o111 ≠ 0) then .ok ()
    else .error .EACCES

variable {c : RealIds} {cred : Cred} {inode : Inode} {m mode : BitVec 32}

/-- The last three of the bits grant the mode, as far as it is in range. -/
def Grants (bits mode : BitVec 32) : Prop := bits &&& 0o7 &&& (mode &&& 0o7) = mode &&& 0o7

instance (bits mode : BitVec 32) : Decidable (Grants bits mode) :=
  inferInstanceAs (Decidable (_ = _))

/-- The task is in the group of the file, and is not the owner. -/
def Member (c : RealIds) (inode : Inode) : Prop := c.uid ≠ inode.iUid ∧ c.gid = inode.iGid

instance (c : RealIds) (inode : Inode) : Decidable (Member c inode) :=
  inferInstanceAs (Decidable (_ ∧ _))

/-- The bits that are meant for the owner, the group or the others -/
def classBits (c : RealIds) (inode : Inode) : BitVec 32 :=
  let mode := inode.iMode.setWidth 32
  if c.uid = inode.iUid then mode >>> 6 else if c.gid = inode.iGid then mode >>> 3 else mode

/-- For a member of the group the bits of the owner grant what those of the group grant. A mode
out of range is refused for what is in range. -/
def Alike (c : RealIds) (inode : Inode) (mode : BitVec 32) : Prop :=
  if Member c inode then
    (Grants (inode.iMode.setWidth 32 >>> 6) mode ↔
      mode &&& 0o7 = mode ∧ Grants (inode.iMode.setWidth 32 >>> 3) mode)
  else Grants (classBits c inode) mode → mode &&& 0o7 = mode

/-! ## Bits -/

theorem and_seven (m : BitVec 32) : (m &&& 0o7).toNat = m.toNat % 8 :=
  (BitVec.toNat_and ..).trans (Nat.and_two_pow_sub_one_eq_mod m.toNat 3)

theorem and_mode (m : BitVec 32) : (m &&& 0o777).toNat = m.toNat % 512 :=
  (BitVec.toNat_and ..).trans (Nat.and_two_pow_sub_one_eq_mod m.toNat 9)

theorem mode_owner (m : BitVec 32) :
    ((m &&& 0o777) >>> 6) &&& (0o7 : BitVec 32) = (m >>> 6) &&& (0o7 : BitVec 32) := by
  apply BitVec.eq_of_toNat_eq
  rw [and_seven, and_seven, BitVec.toNat_ushiftRight, BitVec.toNat_ushiftRight, and_mode,
    Nat.shiftRight_eq_div_pow, Nat.shiftRight_eq_div_pow]
  omega

theorem mode_other (m : BitVec 32) : m &&& 0o777 &&& 0o7 = m &&& 0o7 := by
  apply BitVec.eq_of_toNat_eq
  rw [and_seven, and_seven, and_mode]
  omega

/-- The test of `permission` -/
theorem mask_iff (bits : BitVec 32) :
    bits &&& mode &&& 0o7 = mode ↔ mode &&& 0o7 = mode ∧ Grants bits mode := by
  unfold Grants
  have hswap : bits &&& 0o7 &&& (mode &&& 0o7) = bits &&& mode &&& 0o7 := by
    ext i
    simp only [BitVec.getElem_and]
    grind
  rw [hswap]
  constructor
  · intro h
    have hmode : mode &&& 0o7 = mode := by
      rw [← h, BitVec.and_assoc, BitVec.and_self]
    exact ⟨hmode, h.trans hmode.symm⟩
  · rintro ⟨hmode, h⟩
    exact h.trans hmode

theorem sysAccess_ok (hroot : c.uid ≠ 0) :
    sysAccess c (some inode) mode = .ok () ↔
      Grants (if Member c inode then inode.iMode.setWidth 32 >>> 6 else classBits c inode) mode := by
  have hres : (if c.uid = inode.iUid then (inode.iMode.setWidth 32 &&& 0o777 : BitVec 32) >>> 6
      else if c.gid = inode.iGid then (inode.iMode.setWidth 32 &&& 0o777) >>> 6
      else inode.iMode.setWidth 32 &&& 0o777) &&& (0o7 : BitVec 32) =
      (if Member c inode then inode.iMode.setWidth 32 >>> 6 else classBits c inode) &&& (0o7 : BitVec 32) := by
    unfold classBits
    by_cases hu : c.uid = inode.iUid
    · have hm : ¬ Member c inode := fun h => h.1 hu
      simp only [if_pos hu, if_neg hm, mode_owner]
    · by_cases hg : c.gid = inode.iGid
      · have hm : Member c inode := ⟨hu, hg⟩
        simp only [if_neg hu, if_pos hg, if_pos hm, mode_owner]
      · have hm : ¬ Member c inode := fun h => hg h.2
        simp only [if_neg hu, if_neg hg, if_neg hm, mode_other]
  unfold sysAccess Grants
  dsimp only
  rw [hres]
  generalize (if Member c inode then inode.iMode.setWidth 32 >>> 6 else classBits c inode) = bits
  split
  · rename_i h
    exact iff_of_true rfl h
  · rename_i h
    rw [if_neg fun hr => hroot hr.1]
    exact iff_of_false nofun h

theorem permission_iff (hroot : cred.euid ≠ 0) (hlinks : inode.iNlinks ≠ 0) (huid : c.uid = cred.euid)
    (hgid : c.gid = cred.egid) (hgroups : cred.groups = []) :
    permission cred inode mode = true ↔
      mode &&& 0o7 = mode ∧ Grants (classBits c inode) mode := by
  have hgroup : cred.inGroupP inode.iGid = true ↔ c.gid = inode.iGid := by
    simp [Cred.inGroupP, hgroups, hgid, eq_comm]
  have hbits : (if cred.euid = inode.iUid then (inode.iMode.setWidth 32 : BitVec 32) >>> 6
      else if cred.inGroupP inode.iGid then inode.iMode.setWidth 32 >>> 3
      else inode.iMode.setWidth 32) = classBits c inode := by
    unfold classBits
    rw [huid]
    exact if_congr Iff.rfl rfl (if_congr hgroup rfl rfl)
  have hsuser : cred.suser = false := decide_eq_false hroot
  unfold permission
  dsimp only
  rw [if_neg (fun h => hlinks h.2), hbits, hsuser, Bool.or_false, decide_eq_true_iff, mask_iff]

/-- `sys_access` agrees with `permission` exactly on these modes. -/
theorem sys_access_agrees (hroot : cred.euid ≠ 0) (hlinks : inode.iNlinks ≠ 0)
    (huid : c.uid = cred.euid) (hgid : c.gid = cred.egid) (hgroups : cred.groups = []) :
    (sysAccess c (some inode) mode = .ok () ↔ permission cred inode mode = true) ↔
      Alike c inode mode := by
  rw [sysAccess_ok (huid ▸ hroot), permission_iff hroot hlinks huid hgid hgroups, Alike]
  split
  · rename_i hm
    rw [classBits, if_neg hm.1, if_pos hm.2]
  · constructor
    · exact fun h hg => (h.mp hg).1
    · exact fun h => ⟨fun hg => ⟨h hg, hg⟩, And.right⟩

/-- A file that only the group may read: a member of the group, who is not the owner. -/
def groupOnly : Inode :=
  { iMode := 0o100040, iUid := 1, iGid := 5, iNlinks := 1, iDev := 1, iPipe := false, iSize := 0,
    data := fun _ => 0 }

/-- The owner reads a file of their own. -/
theorem sys_access_agrees_owner :
    (sysAccess ⟨1, 5⟩ (some groupOnly) 0o4 = .ok () ↔
      permission ⟨1, 5, []⟩ groupOnly 0o4 = true) ↔ Alike ⟨1, 5⟩ groupOnly 0o4 :=
  sys_access_agrees (by decide) (by decide) rfl rfl rfl

/-- `sys_access` refuses a member of the group what `permission` grants. -/
theorem sys_access_member :
    ¬ (sysAccess ⟨2, 5⟩ (some groupOnly) 0o4 = .ok () ↔
      permission ⟨2, 5, []⟩ groupOnly 0o4 = true) := by
  decide

end Linux012.Files
