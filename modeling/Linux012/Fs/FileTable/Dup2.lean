import Linux012.Fs.FileTable.Calls

/-! # dup2

`sys_dup2` closes `newfd` before `dupfd` looks at `oldfd`. A call that fails has closed it all the
same, and a descriptor is not duplicated to itself.
-/

namespace Linux012.FileTable

open Function Finset

variable {s s' : State} {t : Fin NR_TASKS} {fd newfd : Fin NR_OPEN} {f g : Fin NR_FILE} {o : ℕ → ℕ}
  {oldfd : ℕ} {ret : ℤ} {r : State × ℤ}

/-- What a successful call has done: nothing where the descriptors are equal. -/
structure Duplicated (t : Fin NR_TASKS) (oldfd newfd : ℕ) (s s' : State) (ret : ℤ) : Prop where
  ret : ret = newfd
  shared : ∃ f, filpAt s t oldfd = some f ∧ filpAt s' t newfd = some f ∧ filpAt s' t oldfd = some f ∧
    (s'.file f).fCount = refs s' f
  others : ∀ u fd, u ≠ t ∨ fd.val ≠ newfd → (s'.task u).filp fd = (s.task u).filp fd
  closed : ∀ g, filpAt s t newfd = some g → filpAt s t oldfd ≠ some g →
    (s'.file g).fCount + 1 = (s.file g).fCount
  equal : newfd = oldfd → s' = s

/-- The descriptors and flags of the task and the file table are as before. -/
structure Untouched (t : Fin NR_TASKS) (s s' : State) : Prop where
  filp : (s'.task t).filp = (s.task t).filp
  file : s'.file = s.file
  closeOnExec : (s'.task t).closeOnExec = (s.task t).closeOnExec

/-- The call ends, and it has duplicated the descriptor or changed nothing. -/
def Contract (t : Fin NR_TASKS) (oldfd newfd : ℕ) (s : State) : Prop :=
  ∃ r, sysDup2 t oldfd newfd s = some r ∧
    (0 ≤ r.2 → Duplicated t oldfd newfd s r.1 r.2) ∧ (r.2 < 0 → Untouched t s r.1)

/-- `newfd` is out of range, or `oldfd` is another descriptor that is open, or neither is open and
`newfd` has no flag to lose. -/
def Harmless (t : Fin NR_TASKS) (oldfd newfd : ℕ) (s : State) : Prop :=
  NR_OPEN ≤ newfd ∨ (filpAt s t oldfd).isSome ∧ oldfd ≠ newfd ∨
    filpAt s t oldfd = none ∧ filpAt s t newfd = none ∧
      (s.task t).closeOnExec &&& ~~~((1 : BitVec 32) <<< newfd) = (s.task t).closeOnExec

/-! ## The close -/

/-- The task with the descriptor closed -/
def shut (s : State) (t : Fin NR_TASKS) (fd : Fin NR_OPEN) : State :=
  (s.keepOnExec t fd).setFilp t fd none

/-- What `sys_close` does to the tables. -/
structure Shut (t : Fin NR_TASKS) (fd : Fin NR_OPEN) (s s' : State) : Prop where
  task : s'.task = (shut s t fd).task
  file : ∀ f, (s.task t).filp fd ≠ some f → s'.file f = s.file f
  count : ∀ f, (s.task t).filp fd = some f → (s'.file f).fCount + 1 = (s.file f).fCount

theorem setFilp_none (h : (s.task t).filp fd = none) : s.setFilp t fd none = s := by
  have hfilp : update (s.task t).filp fd none = (s.task t).filp := h ▸ update_eq_self ..
  have htask : update s.task t { s.task t with filp := update (s.task t).filp fd none } = s.task := by
    rw [hfilp]
    exact update_eq_self ..
  exact congrArg (fun task => { s with task }) htask

theorem file_of_iput {p : Option ℕ} (h : s.iput p = some s') : s'.file = s.file := by
  cases p with
  | none => exact congrArg State.file (Option.some.inj h).symm
  | some i =>
    simp only [State.iput] at h
    split at h
    · cases h
    · obtain rfl := Option.some.inj h
      rfl

theorem Law.shuts (h : Law o s) (hl : (s.task t).life = .live) (fd : Fin NR_OPEN) :
    ∃ r, FileTable.sysClose t fd s = some r ∧ Law o r.1 ∧ Shut t fd s r.1 := by
  obtain ⟨r, hr, hlaw, -⟩ := h.sysClose hl fd
  refine ⟨r, hr, hlaw, ?_⟩
  cases hd : (s.task t).filp fd with
  | none =>
    have heq : FileTable.sysClose t fd s = some (s.keepOnExec t fd, -EINVAL) := by
      simp only [FileTable.sysClose, dif_pos fd.isLt, keepOnExec_filp, hd]
    obtain rfl := Option.some.inj (heq.symm.trans hr)
    have hshut : shut s t fd = s.keepOnExec t fd := setFilp_none (by rw [keepOnExec_filp, hd])
    exact ⟨by rw [hshut], fun _ _ => rfl, fun f hf => by rw [hd] at hf; cases hf⟩
  | some f =>
    have hpos : (s.file f).fCount ≠ 0 := by
      have := own_le_refs hl hd
      rw [h.count f]
      omega
    rw [sysClose_eq fd.isLt hd hpos] at hr
    obtain ⟨s', hput, rfl⟩ := Option.map_eq_some_iff.mp hr
    have hfile : s'.file = update s.file f { s.file f with fCount := (s.file f).fCount - 1 } :=
      file_of_iput hput
    refine ⟨(State.task_of_iput hput :), fun f' hf' => ?_, fun f' hf' => ?_⟩
    · have hne : f' ≠ f := fun he => hf' (by rw [hd, he])
      rw [hfile, update_of_ne hne]
    · obtain rfl : f = f' := Option.some.inj (hd.symm.trans hf')
      rw [hfile, update_self]
      exact Nat.succ_pred_eq_of_pos (Nat.pos_of_ne_zero hpos)

theorem filpAt_of_lt (h : oldfd < NR_OPEN) : filpAt s t oldfd = (s.task t).filp ⟨oldfd, h⟩ := dif_pos h

theorem shut_filp (fd' : Fin NR_OPEN) :
    ((shut s t fd).task t).filp fd' = if fd' = fd then none else (s.task t).filp fd' := by
  unfold shut State.setFilp
  rw [State.setTask_task_self, keepOnExec_filp]
  exact update_apply ..

theorem Shut.filpAt (h : Shut t fd s s') (k : ℕ) :
    filpAt s' t k = if k = fd.val then none else filpAt s t k := by
  unfold FileTable.filpAt
  rw [h.task]
  split
  · rename_i hk
    rw [shut_filp]
    exact if_congr Fin.ext_iff rfl rfl
  · rename_i hk
    exact (if_neg fun he : k = fd.val => hk (he ▸ fd.isLt)).symm

/-! ## The duplicate -/

/-- A descriptor that is free is the first one that is not below it. -/
theorem dupfd_free (hold : filpAt s t oldfd = some f) (hnew : (s.task t).filp fd = none) :
    dupfd t oldfd fd s = (((s.keepOnExec t fd).setFilp t fd (some f)).incCount f, (fd.val : ℤ)) := by
  have hfind : ((List.finRange NR_OPEN).find? fun a => fd.val ≤ a.val ∧ (s.task t).filp a = none) =
      some fd := by
    rw [← Fin.find?_eq_find?_finRange, Fin.find?_eq_some_iff]
    constructor
    · simp [hnew]
    · intro a ha
      simp only [decide_eq_false_iff_not]
      rintro ⟨hle, -⟩
      exact absurd ha (Fin.not_lt.mpr hle)
  unfold dupfd
  simp only [hold, if_neg (Nat.not_le.mpr fd.isLt), hfind]

theorem dupfd_bad (hold : filpAt s t oldfd = none) : dupfd t oldfd newfd s = (s, -EBADF) := by
  unfold dupfd
  simp only [hold]

/-- The descriptor is closed first, then it is the first free one. -/
theorem Law.duplicated (h : Law o s) (hl : (s.task t).life = .live)
    (hold : FileTable.filpAt s t oldfd = some f) (hne : oldfd ≠ newfd.val) :
    ∃ r, FileTable.sysDup2 t oldfd newfd s = some r ∧ 0 ≤ r.2 ∧
      Duplicated t oldfd newfd s r.1 r.2 := by
  obtain ⟨r, hr, hlaw, hshut⟩ := h.shuts hl newfd
  have hlive : (r.1.task t).life = .live := by
    rw [hshut.task]
    exact (closes_keepOnExec.trans closes_setFilp).life.trans hl
  have hold₁ : FileTable.filpAt r.1 t oldfd = some f := by
    rw [hshut.filpAt, if_neg hne, hold]
  have hnew₁ : (r.1.task t).filp newfd = none := by
    rw [hshut.task, shut_filp, if_pos rfl]
  have hdup := dupfd_free hold₁ hnew₁
  have hcount := hlaw.dupfd hlive oldfd newfd
  rw [hdup] at hcount
  refine ⟨_, Option.map_eq_some_iff.mpr ⟨r, hr, hdup⟩, Int.natCast_nonneg _, ?_⟩
  have hfilp : ∀ a, ((((r.1.keepOnExec t newfd).setFilp t newfd (some f)).incCount f).task t).filp a =
      if a = newfd then some f else (r.1.task t).filp a := by
    intro a
    rw [State.incCount_task, State.setFilp, State.setTask_task_self, keepOnExec_filp]
    exact update_apply ..
  constructor
  · rfl
  · refine ⟨f, hold, ?_, ?_, hcount.count f⟩
    · rw [filpAt_of_lt newfd.isLt, hfilp, if_pos rfl]
    · unfold FileTable.filpAt at hold₁ ⊢
      split at hold₁
      · rename_i hlt
        rw [dif_pos hlt, hfilp, if_neg fun he => hne (congrArg Fin.val he)]
        exact hold₁
      · cases hold₁
  · intro u fd hu
    rcases eq_or_ne u t with rfl | hut
    · have hfd : fd ≠ newfd := fun he => hu.elim (absurd rfl) fun h => h (congrArg Fin.val he)
      rw [hfilp, if_neg hfd, hshut.task, shut_filp, if_neg hfd]
    · have hother : (r.1.task u).filp = (s.task u).filp := by
        rw [hshut.task]
        exact congrArg Task.filp ((closes_keepOnExec.trans closes_setFilp).other u hut)
      rw [← hother]
      exact congrFun (congrArg Task.filp
        ((update_of_ne hut ..).trans (update_of_ne hut ..))) fd
  · intro g hg hgf
    have hne' : g ≠ f := fun he => hgf (he ▸ hold)
    rw [filpAt_of_lt newfd.isLt] at hg
    rw [← hshut.count g hg]
    exact congrArg (fun x : File => x.fCount + 1) (update_of_ne hne' ..)
  · exact fun he => absurd he.symm hne

/-! ## The contract -/

/-- Nothing is touched by a close exactly when nothing is there to close and no flag is set. -/
theorem Shut.untouched_iff (h : Shut t fd s s') : Untouched t s s' ↔
    (s.task t).filp fd = none ∧
      (s.task t).closeOnExec &&& ~~~((1 : BitVec 32) <<< fd.val) = (s.task t).closeOnExec := by
  have hflags : (s'.task t).closeOnExec =
      (s.task t).closeOnExec &&& ~~~((1 : BitVec 32) <<< fd.val) := by
    rw [h.task, shut, State.setFilp, State.setTask_task_self, State.keepOnExec,
      State.setTask_task_self]
  constructor
  · intro hu
    constructor
    · rw [← hu.filp, h.task, shut_filp, if_pos rfl]
    · rw [← hflags, hu.closeOnExec]
  · rintro ⟨hnone, hbit⟩
    constructor
    · funext a
      rw [h.task, shut_filp]
      split
      · rename_i ha
        rw [ha, hnone]
      · rfl
    · funext f
      exact h.file f (by simp [hnone])
    · rw [hflags, hbit]

/-- Out of range, the calls only find their errors. -/
theorem sysDup2_out (s : State) (t : Fin NR_TASKS) (oldfd : ℕ) {n : ℕ} (hn : NR_OPEN ≤ n) :
    ∃ e, e < 0 ∧ sysDup2 t oldfd n s = some (s, e) := by
  have hclose : sysClose t n s = some (s, -EINVAL) := dif_neg (Nat.not_lt.mpr hn)
  unfold sysDup2
  rw [hclose, Option.map_some]
  cases hold : filpAt s t oldfd with
  | none => exact ⟨-EBADF, by decide, congrArg some (by simp [dupfd, hold])⟩
  | some f => exact ⟨-EINVAL, by decide, congrArg some (by simp [dupfd, hold, hn])⟩

/-- `dup2` keeps its contract exactly in these cases. -/
theorem dup2_contract {n : ℕ} (h : Law o s) (hl : (s.task t).life = .live) :
    Contract t oldfd n s ↔ Harmless t oldfd n s := by
  rcases Nat.lt_or_ge n NR_OPEN with hn | hn
  · lift n to Fin NR_OPEN using hn
    have hlt : ¬ NR_OPEN ≤ n.val := Nat.not_le.mpr n.isLt
    by_cases hgood : (filpAt s t oldfd).isSome ∧ oldfd ≠ n.val
    · obtain ⟨f, hf⟩ := Option.isSome_iff_exists.mp hgood.1
      obtain ⟨r, hr, hret, hdup⟩ := h.duplicated hl hf hgood.2
      exact iff_of_true ⟨r, hr, fun _ => hdup, fun hneg => absurd hret (not_le.mpr hneg)⟩
        (.inr (.inl hgood))
    · obtain ⟨r, hr, -, hshut⟩ := h.shuts hl n
      have hbad : filpAt r.1 t oldfd = none := by
        rw [hshut.filpAt]
        split
        · rfl
        · rename_i hne
          exact Option.not_isSome_iff_eq_none.mp fun hs => hgood ⟨hs, hne⟩
      have hdup : sysDup2 t oldfd n s = some (r.1, -EBADF) :=
        Option.map_eq_some_iff.mpr ⟨r, hr, dupfd_bad hbad⟩
      have hcontract : Contract t oldfd n s ↔ Untouched t s r.1 := by
        constructor
        · rintro ⟨r', hr', -, hfail⟩
          obtain rfl := Option.some.inj (hdup.symm.trans hr')
          exact hfail (by simp [EBADF])
        · exact fun hu => ⟨_, hdup, fun hpos => absurd hpos (by simp [EBADF]), fun _ => hu⟩
      rw [hcontract, hshut.untouched_iff, Harmless, or_iff_right hlt, or_iff_right hgood,
        filpAt_of_lt n.isLt]
      constructor
      · rintro ⟨hnone, hbit⟩
        refine ⟨?_, hnone, hbit⟩
        rw [hshut.filpAt] at hbad
        split at hbad
        · rename_i he
          rw [he, filpAt_of_lt n.isLt, hnone]
        · exact hbad
      · exact fun hh => hh.2
  · obtain ⟨e, he, hr⟩ := sysDup2_out s t oldfd hn
    exact iff_of_true ⟨_, hr, fun hpos => absurd hpos (not_le.mpr he), fun _ => ⟨rfl, rfl, rfl⟩⟩
      (.inl hn)

theorem nr_tasks_pos : 0 < NR_TASKS := by decide

/-- The first task has opened a file. -/
def oneOpen : State :=
  (Runs.runList step [(⟨0, nr_tasks_pos⟩, .open 0 (.ok ⟨5, 0o100000⟩) false)] (initial 1 fun _ => 0)).get
    (by decide +kernel)

/-- Descriptor 0 is duplicated to descriptor 3. -/
theorem dup2_contract_oneOpen :
    Contract ⟨0, by decide⟩ 0 3 oneOpen ↔ Harmless ⟨0, by decide⟩ 0 3 oneOpen :=
  dup2_contract (law_of_run 1 (fun _ => 0) (.of_runList_get _)) (by decide +kernel)

/-- To itself it is closed, and the call fails. -/
theorem dup2_closes_itself : ¬ Contract ⟨0, by decide⟩ 0 0 oneOpen := by
  rintro ⟨r, hr, -, hfail⟩
  have hret : (sysDup2 ⟨0, by decide⟩ 0 0 oneOpen).map Prod.snd = some (-EBADF) := by decide +kernel
  have hclosed : (sysDup2 ⟨0, by decide⟩ 0 0 oneOpen).map
      (fun r => (r.1.task ⟨0, by decide⟩).filp ⟨0, by decide⟩) = some none := by decide +kernel
  rw [hr, Option.map_some, Option.some_inj] at hret hclosed
  have hopen : (oneOpen.task ⟨0, by decide⟩).filp ⟨0, by decide⟩ ≠ none := by decide +kernel
  have hsame := (hfail (hret ▸ by decide)).filp
  exact hopen ((congrFun hsame _).symm.trans hclosed)

end Linux012.FileTable
