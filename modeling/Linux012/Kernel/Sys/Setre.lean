import Linux012.Kernel.Sys.Cred

/-! # What setreuid and setregid set

Both calls take -1 for an identity that is not to be set, but they leave out every argument that
is not positive. A process that swaps its real and effective identity cannot swap them back if
one of them is zero.
-/

namespace Linux012.Creds

variable {c : Cred} {r e v : BitVec 32} {id : BitVec 16}

/-- The argument has become the identity, or is not given. -/
def Given (id : BitVec 16) (v : BitVec 32) : Prop := v = -1 ∨ promote id = v

instance (id : BitVec 16) (v : BitVec 32) : Decidable (Given id v) :=
  inferInstanceAs (Decidable (_ ∨ _))

/-- A call sets all that is given and returns 0, or returns `-EPERM` and sets nothing. -/
structure Contract (real eff : Cred → BitVec 16) (r e : BitVec 32) (c : Cred) (res : Cred × ℤ) :
    Prop where
  real : res.2 = 0 → Given (real res.1) r
  eff : res.2 = 0 → Given (eff res.1) e
  denied : res.2 = -EPERM → res.1 = c

/-- An argument that the identity becomes, or that is not given, or the zero that it has. -/
def Takes (id : BitVec 16) (v : BitVec 32) : Prop :=
  v = -1 ∨ 0 < v.toInt ∧ v.toInt < 65536 ∨ v = 0 ∧ id = 0

/-- The identity after a positive argument has been stored -/
def taken (id : BitVec 16) (v : BitVec 32) : BitVec 16 := if 0 < v.toInt then stored v else id

theorem promote_toInt : (promote id).toInt = id.toNat := by
  have hlt := id.isLt
  have hn : (promote id).toNat = id.toNat :=
    (BitVec.toNat_setWidth 32 id).trans (Nat.mod_eq_of_lt (by omega))
  rw [BitVec.toInt_eq_toNat_cond, hn, if_pos (by omega)]

/-- A positive `int` is stored without loss exactly when it fits. -/
theorem promote_stored (h : 0 < v.toInt) : promote (stored v) = v ↔ v.toInt < 65536 := by
  have hv := v.isLt
  have hnat : v.toInt = v.toNat := by
    rw [BitVec.toInt_eq_toNat_cond] at h ⊢
    split at h <;> omega
  rw [← BitVec.toNat_inj, hnat]
  simp only [promote, stored, BitVec.toNat_setWidth]
  omega

theorem given_taken : Given (taken id v) v ↔ Takes id v := by
  unfold Given taken Takes
  apply or_congr_right
  split
  · rename_i h
    rw [promote_stored h]
    constructor
    · exact fun hlt => .inl ⟨h, hlt⟩
    · rintro (⟨-, hlt⟩ | ⟨rfl, -⟩)
      · exact hlt
      · exact absurd h (by decide)
  · rename_i h
    constructor
    · rintro rfl
      rw [promote_toInt] at h
      have hz : id = 0 := BitVec.eq_of_toNat_eq (by simp; omega)
      exact .inr ⟨hz ▸ rfl, hz⟩
    · rintro (⟨hpos, -⟩ | ⟨rfl, rfl⟩)
      · exact absurd hpos h
      · rfl

/-- The call either fails and sets nothing, or takes both arguments. -/
structure Sets (real eff : Cred → BitVec 16) (denied : Prop) (r e : BitVec 32) (c : Cred)
    (res : Cred × ℤ) : Prop where
  refused : denied → res = (c, -EPERM)
  done : ¬ denied → res.2 = 0
  real : ¬ denied → real res.1 = taken (real c) r
  eff : ¬ denied → eff res.1 = taken (eff c) e

theorem Sets.contract_iff {real eff : Cred → BitVec 16} {denied : Prop} {res : Cred × ℤ}
    (h : Sets real eff denied r e c res) :
    Contract real eff r e c res ↔ denied ∨ Takes (real c) r ∧ Takes (eff c) e := by
  by_cases hd : denied
  · have hres := h.refused hd
    have hne : res.2 ≠ 0 := hres ▸ (by decide : -EPERM ≠ 0)
    exact ⟨fun _ => .inl hd, fun _ => ⟨(absurd · hne), (absurd · hne), fun _ => congrArg Prod.fst hres⟩⟩
  · have hz := h.done hd
    rw [or_iff_right hd, ← given_taken, ← given_taken, ← h.real hd, ← h.eff hd]
    constructor
    · exact fun hc => ⟨hc.real hz, hc.eff hz⟩
    · rintro ⟨hr, he⟩
      exact ⟨fun _ => hr, fun _ => he, fun hp => absurd (hz.symm.trans hp) (by decide)⟩

/-- `setreuid` is not allowed. -/
def DeniedUid (r e : BitVec 32) (c : Cred) : Prop :=
  0 < r.toInt ∧ ¬ (promote c.euid = r ∨ promote c.uid = r ∨ c.suser = true) ∨
    0 < e.toInt ∧ ¬ (promote c.uid = e ∨ promote c.euid = e ∨ c.suser = true)

/-- `setregid` is not allowed: the effective group may not become the real one. -/
def DeniedGid (r e : BitVec 32) (c : Cred) : Prop :=
  0 < r.toInt ∧ ¬ (promote c.gid = r ∨ c.suser = true) ∨
    0 < e.toInt ∧ ¬ (promote c.gid = e ∨ promote c.egid = e ∨ c.suser = true)

/-- The real user is restored where the effective one may not be set. -/
theorem sysSetreuid_sets : Sets Cred.uid Cred.euid (DeniedUid r e c) r e c (sysSetreuid r e c) := by
  unfold DeniedUid sysSetreuid
  by_cases hr : 0 < r.toInt ∧ ¬ (promote c.euid = r ∨ promote c.uid = r ∨ c.suser = true)
  · rw [if_pos hr]
    exact ⟨fun _ => rfl, fun h => absurd (.inl hr) h, fun h => absurd (.inl hr) h,
      fun h => absurd (.inl hr) h⟩
  rw [if_neg hr]
  dsimp only
  -- setting the real user changes neither the effective one nor what the checks find
  have heuid : (if 0 < r.toInt then { c with uid := stored r } else c).euid = c.euid := by
    split <;> rfl
  have hsuser : (if 0 < r.toInt then { c with uid := stored r } else c).suser = c.suser := by
    split <;> rfl
  have huid : (if 0 < r.toInt then { c with uid := stored r } else c).uid = taken c.uid r := by
    unfold taken
    split <;> rfl
  have hback : { (if 0 < r.toInt then { c with uid := stored r } else c) with uid := c.uid } = c := by
    split <;> rfl
  rw [heuid, hsuser, or_iff_right hr]
  generalize (if 0 < r.toInt then { c with uid := stored r } else c) = c' at *
  by_cases he : 0 < e.toInt
  · by_cases hm : promote c.uid = e ∨ promote c.euid = e ∨ c.suser = true
    · simp only [if_pos he, if_pos hm]
      exact ⟨fun h => absurd hm h.2, fun _ => rfl, fun _ => huid, fun _ => (if_pos he).symm⟩
    · dsimp only at hback
      rw [heuid] at hback
      simp only [if_pos he, if_neg hm, hback]
      exact ⟨fun _ => rfl, fun h => absurd ⟨he, hm⟩ h, fun h => absurd ⟨he, hm⟩ h,
        fun h => absurd ⟨he, hm⟩ h⟩
  · simp only [if_neg he]
    exact ⟨fun h => absurd h.1 he, fun _ => rfl, fun _ => huid,
      fun _ => heuid.trans (if_neg he).symm⟩

/-- Without the super user the real group has only been set to itself when the effective one may
not be set. -/
theorem sysSetregid_sets : Sets Cred.gid Cred.egid (DeniedGid r e c) r e c (sysSetregid r e c) := by
  unfold DeniedGid sysSetregid
  by_cases hr : 0 < r.toInt ∧ ¬ (promote c.gid = r ∨ c.suser = true)
  · rw [if_pos hr]
    exact ⟨fun _ => rfl, fun h => absurd (.inl hr) h, fun h => absurd (.inl hr) h,
      fun h => absurd (.inl hr) h⟩
  rw [if_neg hr]
  dsimp only
  have hegid : (if 0 < r.toInt then { c with gid := stored r } else c).egid = c.egid := by
    split <;> rfl
  have hsuser : (if 0 < r.toInt then { c with gid := stored r } else c).suser = c.suser := by
    split <;> rfl
  have hgid : (if 0 < r.toInt then { c with gid := stored r } else c).gid = taken c.gid r := by
    unfold taken
    split <;> rfl
  have hsame : c.suser ≠ true → (if 0 < r.toInt then { c with gid := stored r } else c) = c := by
    intro hs
    split
    · rename_i hpos
      have hg := (not_not.mp (not_and.mp hr hpos)).resolve_right hs
      have hst : stored r = c.gid := hg ▸ BitVec.setWidth_setWidth_of_le c.gid (by decide)
      rw [hst]
    · rfl
  rw [hegid, hsuser, or_iff_right hr]
  generalize (if 0 < r.toInt then { c with gid := stored r } else c) = c' at *
  have hcheck : (promote c'.gid = e ∨ promote c.egid = e ∨ c.suser = true) ↔
      (promote c.gid = e ∨ promote c.egid = e ∨ c.suser = true) := by
    by_cases hs : c.suser = true
    · simp [hs]
    · rw [hsame hs]
  by_cases he : 0 < e.toInt
  · by_cases hm : promote c.gid = e ∨ promote c.egid = e ∨ c.suser = true
    · simp only [if_pos he, if_pos (hcheck.mpr hm)]
      exact ⟨fun h => absurd hm h.2, fun _ => rfl, fun _ => hgid, fun _ => (if_pos he).symm⟩
    · have hs : c.suser ≠ true := fun h => hm (.inr (.inr h))
      simp only [if_pos he, if_neg (mt hcheck.mp hm)]
      rw [hsame hs]
      exact ⟨fun _ => rfl, fun h => absurd ⟨he, hm⟩ h, fun h => absurd ⟨he, hm⟩ h,
        fun h => absurd ⟨he, hm⟩ h⟩
  · simp only [if_neg he]
    exact ⟨fun h => absurd h.1 he, fun _ => rfl, fun _ => hgid,
      fun _ => hegid.trans (if_neg he).symm⟩

/-! ## Swapping -/

/-- `setreuid(geteuid(), getuid())` -/
def swapUids (c : Cred) : Cred := (sysSetreuid (promote c.euid) (promote c.uid) c).1

/-- A process has its real and effective user back after it has swapped them twice. -/
def SwapsBack (c : Cred) : Prop :=
  (swapUids (swapUids c)).uid = c.uid ∧ (swapUids (swapUids c)).euid = c.euid

theorem taken_promote {id id' : BitVec 16} :
    taken id (promote id') = if id' = 0 then id else id' := by
  unfold taken
  rw [promote_toInt]
  by_cases hz : id' = 0
  · rw [if_pos hz, if_neg (by simp [hz])]
  · have hpos : 0 < id'.toNat := Nat.pos_of_ne_zero fun h => hz (BitVec.eq_of_toNat_eq h)
    rw [if_neg hz, if_pos (by omega)]
    exact BitVec.setWidth_setWidth_of_le id' (by decide)

/-- Everyone may swap, but a zero does not take the place of the other user. -/
theorem swapUids_spec (c : Cred) :
    (swapUids c).uid = (if c.euid = 0 then c.uid else c.euid) ∧
      (swapUids c).euid = if c.uid = 0 then c.euid else c.uid := by
  have hs := sysSetreuid_sets (c := c) (r := promote c.euid) (e := promote c.uid)
  have hd : ¬ DeniedUid (promote c.euid) (promote c.uid) c := by
    rintro (⟨-, h⟩ | ⟨-, h⟩)
    · exact h (.inl rfl)
    · exact h (.inl rfl)
  exact ⟨(hs.real hd).trans taken_promote, (hs.eff hd).trans taken_promote⟩

theorem swapsBack_iff : SwapsBack c ↔ (c.uid = 0 ↔ c.euid = 0) := by
  unfold SwapsBack
  rw [(swapUids_spec (swapUids c)).1, (swapUids_spec (swapUids c)).2, (swapUids_spec c).1,
    (swapUids_spec c).2]
  grind

/-- The contract holds of a call that is refused, or whose arguments are positive and fit, are -1 or
are the zero that is already there. Swapping goes back and forth exactly when no zero
is left out of it. -/
theorem setre_contract (r e : BitVec 32) (c : Cred) :
    (Contract Cred.uid Cred.euid r e c (sysSetreuid r e c) ↔
      DeniedUid r e c ∨ Takes c.uid r ∧ Takes c.euid e) ∧
    (Contract Cred.gid Cred.egid r e c (sysSetregid r e c) ↔
      DeniedGid r e c ∨ Takes c.gid r ∧ Takes c.egid e) ∧
    (SwapsBack c ↔ (c.uid = 0 ↔ c.euid = 0)) :=
  ⟨sysSetreuid_sets.contract_iff, sysSetregid_sets.contract_iff, swapsBack_iff⟩

/-- A set-user-id program of user 100, run by the super user -/
def rootAsUser : Cred := { uid := 0, euid := 100, suid := 100, gid := 10, egid := 10, sgid := 10 }

/-- The swap returns 0, but the process has lost the super user: both users are 100 now. -/
theorem setre_loses_root :
    ¬ Contract Cred.uid Cred.euid 100 0 rootAsUser (sysSetreuid 100 0 rootAsUser) ∧
      ¬ SwapsBack rootAsUser :=
  ⟨fun h => absurd (h.eff (by decide)) (by decide), fun h => absurd h.1 (by decide)⟩

end Linux012.Creds
