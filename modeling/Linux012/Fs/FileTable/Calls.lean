import Linux012.Fs.FileTable.Counts
import Linux012.Lib.Runs

/-! # What each call does to the counts

A call that fails on its way leaves entries and descriptors as they were; every call keeps the
counts exact and never finds one that is 0 too early.
-/

namespace Linux012.FileTable

open Function

variable {s s' : State} {t nr : Fin NR_TASKS} {f f₀ f₁ : Fin NR_FILE} {fd : Fin NR_OPEN}
  {o : ℕ → ℕ} {r : State × ℤ}

/-! ## close -/

/-- Only descriptors and flags of the task change. -/
structure Closes (t : Fin NR_TASKS) (s s' : State) : Prop where
  other : ∀ u, u ≠ t → s'.task u = s.task u
  task : ∃ filp flags, s'.task t = { s.task t with filp := filp, closeOnExec := flags }
  filp : ∀ fd, (s.task t).filp fd = none → (s'.task t).filp fd = none

theorem Closes.refl (t : Fin NR_TASKS) (s : State) : Closes t s s :=
  ⟨fun _ _ => rfl, ⟨_, _, rfl⟩, fun _ h => h⟩

theorem Closes.trans {s'' : State} (h : Closes t s s') (h' : Closes t s' s'') :
    Closes t s s'' := by
  refine ⟨fun u hu => (h'.other u hu).trans (h.other u hu), ?_, fun fd hfd => h'.filp fd (h.filp fd hfd)⟩
  obtain ⟨p, c, hp⟩ := h.task
  obtain ⟨p', c', hp'⟩ := h'.task
  exact ⟨p', c', by rw [hp', hp]⟩

theorem Closes.life (h : Closes t s s') : (s'.task t).life = (s.task t).life := by
  obtain ⟨p, c, hp⟩ := h.task
  rw [hp]

theorem Closes.congr {s'' : State} (h : Closes t s s') (ht : s''.task = s'.task) :
    Closes t s s'' :=
  ⟨fun u hu => by rw [ht, h.other u hu], by rw [ht]; exact h.task, by rw [ht]; exact h.filp⟩

theorem closes_setTask {g : Task → Task} {p : Fin NR_OPEN → Option (Fin NR_FILE)}
    {c : BitVec 32} (hg : g (s.task t) = { s.task t with filp := p, closeOnExec := c })
    (hp : ∀ fd, (s.task t).filp fd = none → p fd = none) : Closes t s (s.setTask t g) := by
  refine ⟨fun u hu => update_of_ne hu .., ⟨p, c, ?_⟩, fun fd hfd => ?_⟩
  · rw [State.setTask_task_self, hg]
  · rw [State.setTask_task_self, hg]
    exact hp fd hfd

theorem closes_keepOnExec : Closes t s (s.keepOnExec t fd) :=
  closes_setTask rfl fun _ h => h

theorem closes_setFilp : Closes t s (s.setFilp t fd none) := by
  refine closes_setTask rfl fun fd' h => ?_
  rcases eq_or_ne fd' fd with rfl | hne
  · exact update_self ..
  · rwa [update_of_ne hne]

@[simp] theorem keepOnExec_filp : ((s.keepOnExec t fd).task t).filp = (s.task t).filp := by
  simp [State.keepOnExec]

theorem sysClose_eq {fd : ℕ} (hfd : fd < NR_OPEN) (hd : (s.task t).filp ⟨fd, hfd⟩ = some f)
    (hpos : (s.file f).fCount ≠ 0) :
    sysClose t fd s =
      ((((s.keepOnExec t ⟨fd, hfd⟩).setFilp t ⟨fd, hfd⟩ none).setCount f
          ((s.file f).fCount - 1)).iput
        (if (s.file f).fCount = 1 then some (s.file f).fInode else none)).map fun s => (s, 0) := by
  unfold sysClose
  have hpos' : ¬ (((s.keepOnExec t ⟨fd, hfd⟩).setFilp t ⟨fd, hfd⟩ none).file f).fCount = 0 := hpos
  simp only [dif_pos hfd, keepOnExec_filp, hd]
  rw [if_neg hpos']
  simp only [State.setCount, State.setFile_file_self]
  change (if (s.file f).fCount - 1 ≠ 0 then _ else _) = _
  by_cases hlast : (s.file f).fCount = 1
  · rw [if_neg (by omega), if_pos hlast]
    rfl
  · rw [if_pos (by omega), if_neg hlast]
    rfl

/-- A close never finds a count of 0. -/
theorem Law.sysClose (h : Law o s) (hl : (s.task t).life = .live) (fd : ℕ) :
    ∃ r, sysClose t fd s = some r ∧ Law o r.1 ∧ Closes t s r.1 ∧
      ∀ hfd : fd < NR_OPEN, (r.1.task t).filp ⟨fd, hfd⟩ = none := by
  by_cases hfd : fd < NR_OPEN
  · cases hd : (s.task t).filp ⟨fd, hfd⟩ with
    | none =>
      refine ⟨(s.keepOnExec t ⟨fd, hfd⟩, -EINVAL), ?_, h.keepOnExec, closes_keepOnExec, fun _ => ?_⟩
      · simp only [FileTable.sysClose, dif_pos hfd, keepOnExec_filp, hd]
      · rw [keepOnExec_filp, hd]
    | some f =>
      have hlk : ((s.keepOnExec t ⟨fd, hfd⟩).task t).life = .live :=
        closes_keepOnExec.life.trans hl
      have hkeep : Law o (s.keepOnExec t ⟨fd, hfd⟩) := h.keepOnExec
      obtain ⟨hpos, hdrop⟩ := hkeep.drop hlk (by rw [keepOnExec_filp, hd])
      obtain ⟨s', hput, htask, -, hs'⟩ := hdrop.iput
      refine ⟨(s', 0), ?_, hs', ?_, fun _ => ?_⟩
      · rw [sysClose_eq hfd hd hpos]
        exact Option.map_eq_some_iff.mpr ⟨s', hput, rfl⟩
      · exact (closes_keepOnExec.trans closes_setFilp).congr htask
      · rw [htask]
        simp [State.setFilp]
  · exact ⟨_, dif_neg hfd, h, .refl t s, fun h' => absurd h' hfd⟩

/-! ## open -/

/-- What `open` and `pipe` leave alone: the entries in use and the descriptors for them. -/
structure Spares (s s' : State) : Prop where
  file : ∀ f, (s.file f).fCount ≠ 0 → s'.file f = s.file f
  filp : ∀ u fd f, (s.file f).fCount ≠ 0 →
    ((s'.task u).filp fd = some f ↔ (s.task u).filp fd = some f)

theorem Spares.refl (s : State) : Spares s s := ⟨fun _ _ => rfl, fun _ _ _ _ => Iff.rfl⟩

theorem Spares.trans {s'' : State} (h : Spares s s') (h' : Spares s' s'') : Spares s s'' := by
  refine ⟨fun f hf => ?_, fun u fd f hf => ?_⟩
  · exact (h'.file f (by rwa [h.file f hf])).trans (h.file f hf)
  · exact (h'.filp u fd f (by rwa [h.file f hf])).trans (h.filp u fd f hf)

theorem spares_keepOnExec : Spares s (s.keepOnExec t fd) := by
  refine ⟨fun _ _ => rfl, fun u fd' f _ => ?_⟩
  rcases eq_or_ne u t with rfl | hu
  · rw [keepOnExec_filp]
  · simp [State.keepOnExec, State.setTask, hu]

/-- The entry `f`, not in use, is now the file `x` of the descriptor. -/
def attach (s : State) (t : Fin NR_TASKS) (fd : Fin NR_OPEN) (f : Fin NR_FILE) (x : File) : State :=
  ((s.grab (some x.fInode)).setFilp t fd (some f)).setFile f fun _ => x

theorem Law.attached (h : Law o s) {x : File} (hl : (s.task t).life = .live)
    (hfd : (s.task t).filp fd = none) (hf : (s.file f).fCount = 0) (hx : x.fCount = 1) :
    Law o (FileTable.attach s t fd f x) :=
  (h.grab (some x.fInode)).attach hl hfd hf hx

theorem spares_attach {x : File} (hfd : (s.task t).filp fd = none)
    (hf : (s.file f).fCount = 0) : Spares s (attach s t fd f x) := by
  refine ⟨fun f' hf' => ?_, fun u fd' f' hf' => ?_⟩
  · have hne : f' ≠ f := fun e => hf' (e ▸ hf)
    exact update_of_ne hne ..
  · have hne : f ≠ f' := fun e => hf' (e ▸ hf)
    change (((s.setFilp t fd (some f)).task u).filp fd' = some f') ↔ _
    rcases eq_or_ne u t with rfl | hu
    · rcases eq_or_ne fd' fd with rfl | hfd'
      · simp [State.setFilp, hfd, hne]
      · simp [State.setFilp, hfd']
    · simp [State.setFilp, State.setTask, hu]

theorem emptyFd_spec (h : emptyFd s t = some fd) : (s.task t).filp fd = none := by
  simpa using List.find?_some h

theorem emptyFile_spec (h : emptyFile s = some f) : (s.file f).fCount = 0 := by
  simpa using List.find?_some h

/-- Taking back an entry and a descriptor that have just been taken. -/
theorem undo_take {c : ℕ} (hfd : (s.task t).filp fd = none) (hf : (s.file f).fCount = 0) :
    (((s.setFilp t fd (some f)).setCount f c).setFilp t fd none).setCount f 0 = s := by
  cases s with
  | mk task file iCount =>
    simp only [State.setFilp, State.setTask, State.setCount, State.setFile, update_idem,
      update_self, State.mk.injEq, and_true] at hfd hf ⊢
    constructor
    · rw [← hfd, update_eq_self]
      exact update_eq_self ..
    · rw [← hf]
      exact update_eq_self ..

theorem incCount_eq {s : State} (h : (s.file f).fCount = 0) : s.incCount f = s.setCount f 1 := by
  rw [State.incCount, h]

theorem iput_grab (s : State) (p : Option ℕ) : (s.grab p).iput p = some s := by
  cases p with
  | none => rfl
  | some i => simp [State.grab, State.iput]

theorem setFile_grab_setCount {c i : ℕ} (x : File) :
    ((s.setCount f c).grab (some i)).setFile f (fun _ => x) =
      (s.grab (some i)).setFile f fun _ => x := by
  simp [State.setCount, State.setFile, State.grab]

theorem sysOpen_cases (t : Fin NR_TASKS) (flag : BitVec 32) (namei : Except ℤ Opened)
    (busy : Bool) (s : State) :
    ∃ r, sysOpen t flag namei busy s = some r ∧
      (r.1 = s ∨ ∃ fd, (s.task t).filp fd = none ∧ (r.1 = s.keepOnExec t fd ∨
        ∃ f x, (s.file f).fCount = 0 ∧ x.fCount = 1 ∧
          r.1 = attach (s.keepOnExec t fd) t fd f x)) := by
  unfold sysOpen
  cases hfd : emptyFd s t with
  | none => exact ⟨_, rfl, .inl rfl⟩
  | some fd =>
    have hempty : ((s.keepOnExec t fd).task t).filp fd = none := by
      rw [keepOnExec_filp, emptyFd_spec hfd]
    dsimp only
    cases hf : emptyFile (s.keepOnExec t fd) with
    | none => exact ⟨_, rfl, .inr ⟨fd, emptyFd_spec hfd, .inl rfl⟩⟩
    | some f =>
      have hzero : ((s.keepOnExec t fd).file f).fCount = 0 := emptyFile_spec hf
      have hcount : (((s.keepOnExec t fd).setFilp t fd (some f)).file f).fCount = 0 := hzero
      dsimp only
      rw [incCount_eq hcount]
      cases namei with
      | error e => exact ⟨_, rfl, .inr ⟨fd, emptyFd_spec hfd, .inl (undo_take hempty hzero)⟩⟩
      | ok x =>
        dsimp only
        by_cases hbusy : x.iMode &&& S_IFMT = S_IFCHR ∧ busy
        · rw [if_pos hbusy, iput_grab]
          exact ⟨_, rfl, .inr ⟨fd, emptyFd_spec hfd, .inl (undo_take hempty hzero)⟩⟩
        · rw [if_neg hbusy]
          refine ⟨_, rfl, .inr ⟨fd, emptyFd_spec hfd, .inr ⟨f,
            { fMode := x.iMode, fFlags := flag.setWidth 16, fCount := 1, fInode := x.inode,
              fPos := 0 }, hzero, rfl, ?_⟩⟩⟩
          exact setFile_grab_setCount _

theorem Law.sysOpen (h : Law o s) (hl : (s.task t).life = .live) (flag : BitVec 32)
    (namei : Except ℤ Opened) (busy : Bool) :
    ∃ r, sysOpen t flag namei busy s = some r ∧ Law o r.1 ∧ Spares s r.1 := by
  obtain ⟨r, hr, hs | ⟨fd, hfd, hs | ⟨f, x, hf, hx, hs⟩⟩⟩ := sysOpen_cases t flag namei busy s
  · exact ⟨r, hr, hs ▸ h, hs ▸ .refl s⟩
  · refine ⟨r, hr, hs ▸ h.keepOnExec, hs ▸ spares_keepOnExec⟩
  · have hlk : ((s.keepOnExec t fd).task t).life = .live := closes_keepOnExec.life.trans hl
    have hempty : ((s.keepOnExec t fd).task t).filp fd = none := by rwa [keepOnExec_filp]
    refine ⟨r, hr, hs ▸ h.keepOnExec.attached hlk hempty hf hx, hs ▸ ?_⟩
    exact spares_keepOnExec.trans (spares_attach hempty hf)

/-! ## dup and fcntl -/

theorem filpAt_spec {fd : ℕ} (h : filpAt s t fd = some f) : ∃ fd, (s.task t).filp fd = some f := by
  unfold filpAt at h
  split at h
  · exact ⟨_, h⟩
  · cases h

theorem Law.dupfd (h : Law o s) (hl : (s.task t).life = .live) (fd arg : ℕ) :
    Law o (dupfd t fd arg s).1 := by
  unfold FileTable.dupfd
  split
  · exact h
  · rename_i f hf
    obtain ⟨fd', hfd'⟩ := filpAt_spec hf
    split_ifs
    · exact h
    · split
      · exact h
      · rename_i a ha
        have hempty : (s.task t).filp a = none := by
          have := List.find?_some ha
          simp only [decide_eq_true_eq] at this
          exact this.2
        have hpos : (s.file f).fCount ≠ 0 := by
          have := own_le_refs hl hfd'
          rw [h.count f]
          omega
        exact h.keepOnExec.share (closes_keepOnExec.life.trans hl) (by rwa [keepOnExec_filp]) hpos

theorem Law.sysDup2 (h : Law o s) (hl : (s.task t).life = .live) (oldfd newfd : ℕ) :
    ∃ r, sysDup2 t oldfd newfd s = some r ∧ Law o r.1 := by
  obtain ⟨r, hr, hs, hcl, -⟩ := h.sysClose hl newfd
  exact ⟨_, Option.map_eq_some_iff.mpr ⟨r, hr, rfl⟩, hs.dupfd (hcl.life.trans hl) oldfd newfd⟩

theorem Law.sysFcntl (h : Law o s) (hl : (s.task t).life = .live) (fd cmd : ℕ)
    (arg : BitVec 32) : Law o (sysFcntl t fd cmd arg s).1 := by
  unfold FileTable.sysFcntl
  split
  · split
    · exact h
    · split_ifs
      · exact h.dupfd hl fd _
      · exact h
      · dsimp only
        exact h.setTask_same _ (fun _ => rfl) fun _ => rfl
      · exact h.keepOnExec
      · exact h
      · dsimp only
        exact h.setFile_same _ rfl rfl
      · exact h
  · exact h

/-! ## pipe -/

theorem takeFiles_spec {is : List (Fin NR_FILE)} (hnd : is.Nodup) (j : ℕ) (s : State) :
    (takeFiles j is s).2.length ≤ j ∧ (takeFiles j is s).2.Nodup ∧
      (∀ f ∈ (takeFiles j is s).2, f ∈ is ∧ (s.file f).fCount = 0) ∧
      (takeFiles j is s).1 = (takeFiles j is s).2.foldl (fun s f => s.setCount f 1) s := by
  induction is generalizing j s with
  | nil => cases j <;> simp [takeFiles]
  | cons i is ih =>
    obtain ⟨hi, hnd⟩ := List.nodup_cons.mp hnd
    cases j with
    | zero => simp [takeFiles]
    | succ j =>
      unfold takeFiles
      by_cases hfree : (s.file i).fCount = 0
      · rw [if_pos hfree, incCount_eq hfree]
        obtain ⟨hlen, hnd', hmem, hs⟩ := ih hnd j (s.setCount i 1)
        have hne : ∀ f ∈ (takeFiles j is (s.setCount i 1)).2, f ≠ i := fun f hf e =>
          hi (e ▸ (hmem f hf).1)
        refine ⟨Nat.succ_le_succ hlen, List.nodup_cons.mpr ⟨fun h => hne i h rfl, hnd'⟩, ?_, hs⟩
        intro f hf
        rcases List.mem_cons.mp hf with rfl | hf
        · exact ⟨List.mem_cons_self, hfree⟩
        · obtain ⟨h₁, h₂⟩ := hmem f hf
          refine ⟨List.mem_cons_of_mem _ h₁, ?_⟩
          simpa [State.setCount, State.setFile, hne f hf] using h₂
      · rw [if_neg hfree]
        obtain ⟨hlen, hnd', hmem, hs⟩ := ih hnd (j + 1) s
        exact ⟨hlen, hnd', fun f hf => ⟨List.mem_cons_of_mem _ (hmem f hf).1, (hmem f hf).2⟩, hs⟩

theorem takeFds_spec {is : List (Fin NR_OPEN)} (hnd : is.Nodup) (fs : List (Fin NR_FILE))
    (s : State) :
    (takeFds t fs is s).2.length ≤ fs.length ∧ (takeFds t fs is s).2.Nodup ∧
      (∀ fd ∈ (takeFds t fs is s).2, fd ∈ is ∧ (s.task t).filp fd = none) ∧
      (takeFds t fs is s).1 = (fs.zip (takeFds t fs is s).2).foldl
        (fun s p => s.setFilp t p.2 (some p.1)) s := by
  induction is generalizing fs s with
  | nil => cases fs <;> simp [takeFds]
  | cons i is ih =>
    obtain ⟨hi, hnd⟩ := List.nodup_cons.mp hnd
    cases fs with
    | nil => simp [takeFds]
    | cons f fs =>
      unfold takeFds
      by_cases hfree : (s.task t).filp i = none
      · rw [if_pos hfree]
        obtain ⟨hlen, hnd', hmem, hs⟩ := ih hnd fs (s.setFilp t i (some f))
        have hne : ∀ fd ∈ (takeFds t fs is (s.setFilp t i (some f))).2, fd ≠ i := fun fd hf e =>
          hi (e ▸ (hmem fd hf).1)
        refine ⟨Nat.succ_le_succ hlen, List.nodup_cons.mpr ⟨fun h => hne i h rfl, hnd'⟩, ?_, hs⟩
        intro fd hf
        rcases List.mem_cons.mp hf with rfl | hf
        · exact ⟨List.mem_cons_self, hfree⟩
        · obtain ⟨h₁, h₂⟩ := hmem fd hf
          refine ⟨List.mem_cons_of_mem _ h₁, ?_⟩
          simpa [State.setFilp, hne fd hf] using h₂
      · rw [if_neg hfree]
        obtain ⟨hlen, hnd', hmem, hs⟩ := ih hnd (f :: fs) s
        exact ⟨hlen, hnd', fun f hf => ⟨List.mem_cons_of_mem _ (hmem f hf).1, (hmem f hf).2⟩, hs⟩

theorem File.setCount_self {x : File} {c : ℕ} (h : x.fCount = c) : { x with fCount := c } = x := by
  cases x
  cases h
  rfl

theorem setCount_undo {c : ℕ} (hf : (s.file f).fCount = 0) : (s.setCount f c).setCount f 0 = s := by
  simp [State.setCount, State.setFile, File.setCount_self hf]

theorem setCount_comm {c c' : ℕ} (hne : f₀ ≠ f₁) :
    (s.setCount f₀ c).setCount f₁ c' = (s.setCount f₁ c').setCount f₀ c := by
  simp [State.setCount, State.setFile, hne, hne.symm, update_comm hne]

theorem setCount_undo₂ {c : ℕ} (hne : f₀ ≠ f₁) (h₀ : (s.file f₀).fCount = 0)
    (h₁ : (s.file f₁).fCount = 0) :
    (((s.setCount f₀ c).setCount f₁ c).setCount f₀ 0).setCount f₁ 0 = s := by
  have h₁' : ((s.setCount f₀ c).file f₁).fCount = 0 := by
    simpa [State.setCount, State.setFile, hne.symm] using h₁
  rw [setCount_comm hne, setCount_undo h₁', setCount_undo h₀]

theorem setFilp_undo {x : Option (Fin NR_FILE)} (hfd : (s.task t).filp fd = none) :
    (s.setFilp t fd x).setFilp t fd none = s := by
  have hT : { s.task t with filp := update (s.task t).filp fd none } = s.task t := by
    rw [← hfd, update_eq_self]
  simp [State.setFilp, State.setTask, hT]

theorem setFilp_comm {fd₀ fd₁ : Fin NR_OPEN} {x y : Option (Fin NR_FILE)} (hne : fd₀ ≠ fd₁) :
    (s.setFilp t fd₀ x).setFilp t fd₁ y = (s.setFilp t fd₁ y).setFilp t fd₀ x := by
  simp [State.setFilp, State.setTask, update_comm hne]

theorem setFilp_undo₂ {fd₀ fd₁ : Fin NR_OPEN} {x y : Option (Fin NR_FILE)} (hne : fd₀ ≠ fd₁)
    (h₀ : (s.task t).filp fd₀ = none) (h₁ : (s.task t).filp fd₁ = none) :
    (((s.setFilp t fd₀ x).setFilp t fd₁ y).setFilp t fd₀ none).setFilp t fd₁ none = s := by
  have h₁' : ((s.setFilp t fd₀ x).task t).filp fd₁ = none := by
    simpa [State.setFilp, hne.symm] using h₁
  rw [setFilp_comm hne, setFilp_undo h₁', setFilp_undo h₀]

theorem attach_attach {fd₀ fd₁ : Fin NR_OPEN} {i : ℕ} (hne : f₀ ≠ f₁) (hi : s.iCount i = 0) :
    ({ ((((s.setCount f₀ 1).setCount f₁ 1).setFilp t fd₀ (some f₀)).setFilp t fd₁ (some f₁)) with
        iCount := update s.iCount i 2 }.setFile f₀
          fun x => { x with fInode := i, fPos := 0, fMode := 1 }).setFile f₁
            (fun x => { x with fInode := i, fPos := 0, fMode := 2 }) =
      attach
        (attach s t fd₀ f₀ { s.file f₀ with fCount := 1, fInode := i, fPos := 0, fMode := 1 })
        t fd₁ f₁ { s.file f₁ with fCount := 1, fInode := i, fPos := 0, fMode := 2 } := by
  simp only [attach, State.grab, State.setFile, State.setCount, State.setFilp, State.setTask, hi,
    hne, hne.symm, update_self, update_of_ne, update_idem, ne_eq, not_false_eq_true, zero_add]
  rw [update_comm hne.symm, update_idem, update_idem]

/-- A pipe that cannot be made leaves everything as it was. -/
theorem sysPipe_cases (t : Fin NR_TASKS) (found : Option ℕ) (s : State) :
    (sysPipe t found s).1 = s ∨ ∃ f₀ f₁ fd₀ fd₁ x₀ x₁, f₀ ≠ f₁ ∧ fd₀ ≠ fd₁ ∧
      (s.file f₀).fCount = 0 ∧ (s.file f₁).fCount = 0 ∧ (s.task t).filp fd₀ = none ∧
      (s.task t).filp fd₁ = none ∧ x₀.fCount = 1 ∧ x₁.fCount = 1 ∧
      (sysPipe t found s).1 = attach (attach s t fd₀ f₀ x₀) t fd₁ f₁ x₁ := by
  obtain ⟨hlen, hnd, hfree, hs⟩ := takeFiles_spec (List.nodup_finRange NR_FILE) 2 s
  unfold sysPipe
  rcases hfs : takeFiles 2 (List.finRange NR_FILE) s with ⟨s₁, fs⟩
  rw [hfs] at hlen hnd hfree hs
  obtain _ | ⟨f₀, _ | ⟨f₁, fs⟩⟩ := fs
  · exact .inl hs
  · left
    dsimp only at hs ⊢
    rw [hs]
    exact setCount_undo (hfree f₀ List.mem_cons_self).2
  · obtain rfl : fs = [] := List.length_eq_zero_iff.mp (by simpa using hlen)
    have hf₀ := (hfree f₀ List.mem_cons_self).2
    have hf₁ := (hfree f₁ (List.mem_cons_of_mem _ List.mem_cons_self)).2
    have hne : f₀ ≠ f₁ := by simpa using hnd
    simp only [List.foldl_cons, List.foldl_nil] at hs
    obtain ⟨hlen', hnd', hfree', hs'⟩ :=
      takeFds_spec (t := t) (List.nodup_finRange NR_OPEN) [f₀, f₁] s₁
    dsimp only
    rcases hfds : takeFds t [f₀, f₁] (List.finRange NR_OPEN) s₁ with ⟨s₂, fds⟩
    rw [hfds] at hlen' hnd' hfree' hs'
    have htask : s₁.task = s.task := by rw [hs]; rfl
    obtain _ | ⟨fd₀, _ | ⟨fd₁, fds⟩⟩ := fds
    · left
      dsimp only [List.zip_nil_right, List.foldl_nil] at hs' ⊢
      rw [hs', hs]
      exact setCount_undo₂ hne hf₀ hf₁
    · left
      have hfd₀ := (hfree' fd₀ List.mem_cons_self).2
      simp only [List.zip_cons_cons, List.zip_nil_right, List.foldl_cons, List.foldl_nil] at hs'
      dsimp only
      rw [hs', setFilp_undo hfd₀, hs]
      exact setCount_undo₂ hne hf₀ hf₁
    · obtain rfl : fds = [] := List.length_eq_zero_iff.mp (by simpa using hlen')
      have hfd₀ := (hfree' fd₀ List.mem_cons_self).2
      have hfd₁ := (hfree' fd₁ (List.mem_cons_of_mem _ List.mem_cons_self)).2
      have hnefd : fd₀ ≠ fd₁ := by simpa using hnd'
      simp only [List.zip_cons_cons, List.zip_nil_right, List.foldl_cons, List.foldl_nil] at hs'
      dsimp only
      cases hi : getPipeInode s₂ found with
      | none =>
        left
        dsimp only
        rw [hs', setFilp_undo₂ hnefd hfd₀ hfd₁, hs]
        exact setCount_undo₂ hne hf₀ hf₁
      | some i =>
        right
        have hicount : s.iCount i = 0 := by
          have h := (Option.filter_eq_some_iff.mp hi).2
          rw [hs', hs] at h
          exact of_decide_eq_true h
        refine ⟨f₀, f₁, fd₀, fd₁,
          { s.file f₀ with fCount := 1, fInode := i, fPos := 0, fMode := 1 },
          { s.file f₁ with fCount := 1, fInode := i, fPos := 0, fMode := 2 }, hne, hnefd, hf₀, hf₁,
          htask ▸ hfd₀, htask ▸ hfd₁, rfl, rfl, ?_⟩
        dsimp only
        rw [hs', hs]
        exact attach_attach hne hicount

theorem filp_attach {fd' : Fin NR_OPEN} {x : File} (hne : fd' ≠ fd) :
    ((attach s t fd f x).task t).filp fd' = (s.task t).filp fd' := by
  simp [attach, State.setFilp, hne]

theorem Law.sysPipe (h : Law o s) (hl : (s.task t).life = .live) (found : Option ℕ) :
    Law o (sysPipe t found s).1 ∧ Spares s (sysPipe t found s).1 := by
  obtain hs | ⟨f₀, f₁, fd₀, fd₁, x₀, x₁, hne, hnefd, hf₀, hf₁, hfd₀, hfd₁, hx₀, hx₁, hs⟩ :=
    sysPipe_cases t found s
  · rw [hs]
    exact ⟨h, .refl s⟩
  · rw [hs]
    have hl' : ((FileTable.attach s t fd₀ f₀ x₀).task t).life = .live := by
      simpa [FileTable.attach, State.setFilp] using hl
    have hfd₁' : ((FileTable.attach s t fd₀ f₀ x₀).task t).filp fd₁ = none := by
      rwa [filp_attach hnefd.symm]
    have hf₁' : ((FileTable.attach s t fd₀ f₀ x₀).file f₁).fCount = 0 :=
      (congrArg File.fCount (update_of_ne hne.symm _ _)).trans hf₁
    refine ⟨(h.attached hl hfd₀ hf₀ hx₀).attached hl' hfd₁' hf₁' hx₁, ?_⟩
    exact (spares_attach hfd₀ hf₀).trans (spares_attach hfd₁' hf₁')

/-! ## fork -/

theorem countFiles_spec (nr : Fin NR_TASKS) (is : List (Fin NR_OPEN)) (s : State)
    (hlt : ∀ f, (s.file f).fCount + (is.map fun i => own f ((s.task nr).filp i)).sum < 65536) :
    (countFiles nr is s).task = s.task ∧ (countFiles nr is s).iCount = s.iCount ∧
      ∀ f, (countFiles nr is s).file f = { s.file f with
        fCount := (s.file f).fCount + (is.map fun i => own f ((s.task nr).filp i)).sum } := by
  induction is generalizing s with
  | nil => exact ⟨rfl, rfl, fun f => rfl⟩
  | cons i is ih =>
    rw [countFiles]
    cases hd : (s.task nr).filp i with
    | none =>
      obtain ⟨h₁, h₂, h₃⟩ := ih s fun f => by simpa [hd, own] using hlt f
      refine ⟨h₁, h₂, fun f => ?_⟩
      simp [h₃ f, hd, own]
    | some g =>
      have hfile : ∀ f, (s.incCount g).file f =
          { s.file f with fCount := (s.file f).fCount + own f (some g) } := by
        intro f
        have hf := hlt f
        simp only [List.map_cons, List.sum_cons, hd] at hf
        rcases eq_or_ne f g with rfl | hne
        · simp only [own, if_true] at hf ⊢
          simp only [State.incCount, State.setCount, State.setFile_file_self]
          rw [Nat.mod_eq_of_lt (by omega)]
        · simp [State.incCount, State.setCount, State.setFile, own, hne, hne.symm]
      obtain ⟨h₁, h₂, h₃⟩ := ih (s.incCount g) fun f => by
        have hf := hlt f
        simp only [List.map_cons, List.sum_cons, hd] at hf
        rw [hfile f, State.incCount_task]
        dsimp only
        omega
      refine ⟨h₁, h₂, fun f => ?_⟩
      rw [h₃ f, hfile f]
      simp [hd, Nat.add_assoc]

theorem sum_own_eq (f : Fin NR_FILE) {T : Task} (hl : T.life = .live) :
    ((List.finRange NR_OPEN).map fun i => own f (T.filp i)).sum = T.refs f := by
  rw [Task.refs, if_pos hl, ← List.ofFn_eq_map, List.sum_ofFn]

theorem findEmptyProcess_spec (h : findEmptyProcess s = some nr) : (s.task nr).life = .free := by
  have := List.find?_some h
  simp only [decide_eq_true_eq] at this
  exact this.2

theorem setTask_undo (T : Task) :
    (s.setTask nr fun _ => T).setTask nr (fun T => { T with life := .free }) =
      s.setTask nr fun _ => { T with life := .free } := by
  simp [State.setTask]

theorem Law.setFree (h : Law o s) (hnr : (s.task nr).life = .free) (T : Task) :
    Law o (s.setTask nr fun _ => { T with life := .free }) :=
  h.setTask_same _ (fun _ => by simp [Task.refs, hnr]) fun _ => by simp [Task.pointers, hnr]

/-- A new task has the descriptors and pointers of a task that is alive, and each is counted. -/
theorem Law.forked (h : Law o s) (hnr : (s.task nr).life = .free)
    (htask : s'.task = update s.task nr (s.task t))
    (hfile : ∀ f, s'.file f =
      { s.file f with fCount := (s.file f).fCount + (s.task t).refs f })
    (hiCount : ∀ i, s'.iCount i = s.iCount i + (s.task t).pointers i) : Law o s' := by
  have hle : ∀ f, (s.task t).refs f ≤ refs s f := fun f =>
    Sums.single_le (Finset.mem_univ t) fun t => (s.task t).refs f
  constructor
  · intro f
    have h₁ := Sums.sum_update_add (Finset.mem_univ nr) s.task (s.task t) (Task.refs f)
    have hz : (s.task nr).refs f = 0 := by simp [Task.refs, hnr]
    rw [hfile, refs, htask]
    dsimp only
    rw [h.count f, refs]
    omega
  · intro i
    have h₁ := Sums.sum_update_add (Finset.mem_univ nr) s.task (s.task t) (Task.pointers i)
    have hz : (s.task nr).pointers i = 0 := by simp [Task.pointers, hnr]
    have hopen : openFiles s' i = openFiles s i := by
      refine Finset.sum_congr rfl fun f _ => ?_
      have hf := hle f
      have hc := h.count f
      have hiff : (s.file f).fCount + (s.task t).refs f ≠ 0 ↔ (s.file f).fCount ≠ 0 := by omega
      simp [hfile, File.holds, hiff]
    have h₂ := h.inode i
    rw [hiCount, hopen, pointers, htask]
    rw [pointers] at h₂
    omega

theorem Law.sysFork (h : Law o s) (hl : (s.task t).life = .live) (page copied : Bool) (pid : ℤ) :
    Law o (sysFork t page copied pid s).1 := by
  unfold FileTable.sysFork
  cases hnr : findEmptyProcess s with
  | none => exact h
  | some nr =>
    have hfree := findEmptyProcess_spec hnr
    have hne : t ≠ nr := by
      rintro rfl
      rw [hl] at hfree
      cases hfree
    dsimp only
    unfold copyProcess
    by_cases hp : page
    · rw [if_neg (by simpa using hp)]
      by_cases hc : copied
      · dsimp only
        rw [if_neg (by simpa using hc)]
        have hself : (s.setTask nr fun _ => s.task t).task nr = s.task t := update_self ..
        obtain ⟨h₁, h₂, h₃⟩ := countFiles_spec nr (List.finRange NR_OPEN)
          (s.setTask nr fun _ => s.task t) fun f => by
            have hlt := refs_lt s f
            have hle : (s.task t).refs f ≤ NR_OPEN := Task.refs_le f _
            have hb := refs_le s f
            rw [hself, sum_own_eq f hl, State.setTask_file, h.count f]
            exact Nat.lt_of_le_of_lt (Nat.add_le_add hb hle) (by decide)
        rw [hself] at h₃
        generalize countFiles nr (List.finRange NR_OPEN) (s.setTask nr fun _ => s.task t) = s₂ at *
        change s₂.task = update s.task nr (s.task t) at h₁
        have ht : s₂.task t = s.task t := by rw [h₁, update_of_ne hne]
        refine h.forked (t := t) hfree ?_ (fun f => ?_) fun i => ?_
        · simp [h₁]
        · simp [h₃ f, sum_own_eq f hl]
        · simp only [State.grab_iCount, State.grab_task, h₂, ht, Task.pointers, if_pos hl,
            State.setTask_iCount]
          omega
      · dsimp only
        rw [if_pos hc, setTask_undo]
        exact h.setFree hfree _
    · rw [if_pos hp]
      exact h

/-! ## execve and exit -/

/-- All descriptors of the list that meet the test are closed. -/
theorem Law.closeIf (test : Task → Fin NR_OPEN → Bool) (is : List (Fin NR_OPEN)) (h : Law o s)
    (hl : (s.task t).life = .live) :
    ∃ s', closeIf test t is s = some s' ∧ Law o s' ∧ Closes t s s' ∧
      ∀ i ∈ is, (∀ T, test T i = false → T.filp i = none) → (s'.task t).filp i = none := by
  induction is generalizing s with
  | nil => exact ⟨s, rfl, h, .refl t s, by simp⟩
  | cons i is ih =>
    unfold FileTable.closeIf
    -- closed now or not to be closed; either way it stays as it is to the end
    obtain ⟨s₁, hs₁, hlaw, hcl, hi⟩ : ∃ s₁,
        (if test (s.task t) i then (FileTable.sysClose t i s).bind fun r =>
          FileTable.closeIf test t is r.1 else FileTable.closeIf test t is s) =
            FileTable.closeIf test t is s₁ ∧ Law o s₁ ∧ Closes t s s₁ ∧
        ((∀ T, test T i = false → T.filp i = none) → (s₁.task t).filp i = none) := by
      cases htest : test (s.task t) i with
      | true =>
        obtain ⟨r, hr, hs, hcl, hnone⟩ := h.sysClose hl i
        refine ⟨r.1, ?_, hs, hcl, fun _ => hnone i.isLt⟩
        simp [hr]
      | false => exact ⟨s, by simp, h, .refl t s, fun hall => hall _ htest⟩
    obtain ⟨s', hs', hlaw', hcl', hall⟩ := ih hlaw (hcl.life.trans hl)
    refine ⟨s', hs₁.trans hs', hlaw', hcl.trans hcl', fun j hj hjt => ?_⟩
    rcases List.mem_cons.mp hj with rfl | hj
    · exact hcl'.filp _ (hi hjt)
    · exact hall j hj hjt

theorem Law.doExecve (h : Law o s) (hl : (s.task t).life = .live) (image : Except ℤ ℕ) :
    ∃ r, doExecve t image s = some r ∧ Law o r.1 := by
  cases image with
  | error e => exact ⟨_, rfl, h⟩
  | ok inode =>
    obtain ⟨s₁, hput, htask, hs₁⟩ := (h.grab (some inode)).swap t (s.task t).executable o
      (fun T => { T with executable := some inode }) (fun _ => rfl) fun i => by
        simp [Task.pointers, hl]
        omega
    have hl₁ : ((s₁.setTask t fun T => { T with executable := some inode }).task t).life = .live := by
      simp [htask, hl]
    obtain ⟨s₂, hs₂, hlaw, -, -⟩ := hs₁.closeIf
      (fun T i => (T.closeOnExec >>> i.val) &&& 1 ≠ 0) (List.finRange NR_OPEN) hl₁
    have hend : Law o (s₂.setTask t fun T => { T with closeOnExec := 0 }) :=
      hlaw.setTask_same _ (fun _ => rfl) fun _ => rfl
    refine ⟨(s₂.setTask t fun T => { T with closeOnExec := 0 }, 0), ?_, hend⟩
    simp only [FileTable.doExecve, State.grab_task, hput, Option.bind_some, hs₂, Option.map_some]

theorem Law.doExit (h : Law o s) (hl : (s.task t).life = .live) :
    ∃ r, doExit t s = some r ∧ Law o r.1 := by
  obtain ⟨s₀, hs₀, hlaw, hcl, hall⟩ := h.closeIf (fun T i => (T.filp i).isSome)
    (List.finRange NR_OPEN) hl
  have hl₀ : (s₀.task t).life = .live := hcl.life.trans hl
  have hnone : ∀ fd, (s₀.task t).filp fd = none := fun fd =>
    hall fd (List.mem_finRange fd) fun T hT => by simpa using hT
  obtain ⟨s₁, hput₁, ht₁, h₁⟩ := hlaw.swap t (s₀.task t).pwd o (fun T => { T with pwd := none })
    (fun _ => rfl) fun i => by
      simp [Task.pointers, hl₀, pointer]
      omega
  obtain ⟨s₂, hput₂, ht₂, h₂⟩ := h₁.swap t (s₀.task t).root o (fun T => { T with root := none })
    (fun _ => rfl) fun i => by
      simp [Task.pointers, hl₀, pointer, ht₁]
      omega
  obtain ⟨s₃, hput₃, ht₃, h₃⟩ := h₂.swap t (s₀.task t).executable o
    (fun T => { T with executable := none }) (fun _ => rfl) fun i => by
      simp [Task.pointers, hl₀, pointer, ht₁, ht₂]
      omega
  obtain ⟨s₄, hput₄, -, h₄⟩ := h₃.swap t (s₀.task t).library o
    (fun T => { T with library := none, life := .zombie })
    (fun f => by simp [Task.refs, own, ht₁, ht₂, ht₃, hnone]) fun i => by
      simp [Task.pointers, hl₀, pointer, ht₁, ht₂, ht₃]
      omega
  refine ⟨(s₄.setTask t fun T => { T with library := none, life := .zombie }, 0), ?_, h₄⟩
  simp only [FileTable.doExit, hs₀, Option.bind_some, hput₁, State.setTask_task_self, ht₁, hput₂,
    ht₂, hput₃, ht₃, hput₄, Option.map_some]

theorem Law.release (h : Law o s) (nr : Fin NR_TASKS) : Law o (release nr s).1 := by
  unfold FileTable.release
  split
  · rename_i hz
    dsimp only
    exact h.setTask_same _ (fun _ => by simp [Task.refs, hz]) fun _ => by simp [Task.pointers, hz]
  · exact h

/-! ## Whole runs -/

/-- No call panics, and each keeps the counts exact. -/
theorem Law.exec (h : Law o s) (hl : (s.task t).life = .live) (c : Call) :
    ∃ r, c.exec t s = some r ∧ Law o r.1 := by
  cases c with
  | «open» flag namei busy =>
    obtain ⟨r, hr, hs, -⟩ := h.sysOpen hl flag namei busy
    exact ⟨r, hr, hs⟩
  | creat namei busy =>
    obtain ⟨r, hr, hs, -⟩ := h.sysOpen hl (O_CREAT ||| O_TRUNC) namei busy
    exact ⟨r, hr, hs⟩
  | close fd =>
    obtain ⟨r, hr, hs, -⟩ := h.sysClose hl fd
    exact ⟨r, hr, hs⟩
  | dup fd => exact ⟨_, rfl, h.dupfd hl fd 0⟩
  | dup2 oldfd newfd => exact h.sysDup2 hl oldfd newfd
  | fcntl fd cmd arg => exact ⟨_, rfl, h.sysFcntl hl fd cmd arg⟩
  | pipe found => exact ⟨_, rfl, (h.sysPipe hl found).1⟩
  | fork page copied pid => exact ⟨_, rfl, h.sysFork hl page copied pid⟩
  | execve image => exact h.doExecve hl image
  | exit => exact h.doExit hl
  | release nr => exact ⟨_, rfl, h.release nr⟩

theorem law_initial (root : ℕ) (other : ℕ → ℕ) : Law other (initial root other) := by
  have htask : ∀ w : Task → ℕ, w freeTask = 0 →
      ∑ t, w ((initial root other).task t) = w (firstTask root) := by
    intro w hw
    rw [Finset.sum_eq_single (⟨0, by decide⟩ : Fin NR_TASKS)]
    · rfl
    · intro t _ ht
      have h0 : t.val ≠ 0 := fun e => ht (Fin.ext e)
      simp [initial, h0, hw]
    · simp
  constructor
  · intro f
    rw [refs, htask (Task.refs f) (by simp [Task.refs, freeTask])]
    simp [initial, Task.refs, firstTask, own]
  · intro i
    rw [pointers, htask (Task.pointers i) (by simp [Task.pointers, freeTask])]
    simp [initial, openFiles, File.holds, Task.pointers, firstTask, pointer, eq_comm]
    split <;> omega

theorem law_of_run (root : ℕ) (other : ℕ → ℕ)
    (h : Runs.Run step Runs.Always (initial root other) s) : Law other s := by
  refine h.invariant (law_initial root other) fun s a s' hs _ hstep => ?_
  unfold step at hstep
  split at hstep
  · rename_i hl
    obtain ⟨r, hr, rfl⟩ := Option.map_eq_some_iff.mp hstep
    obtain ⟨r', hr', hs'⟩ := hs.exec hl a.2
    rw [hr] at hr'
    rwa [Option.some.inj hr']
  · cases hstep

/-- In every state that calls lead to, each count is the number of descriptors of the live tasks
for the entry, and the references to an inode are those of the entries in use, those of the tasks
and those of others, which stay the same. No call panics, and `open`, `creat` and `pipe` leave
entries in use and their descriptors alone. -/
theorem counts_exact (root : ℕ) (other : ℕ → ℕ)
    (h : Runs.Run step Runs.Always (initial root other) s) :
    (∀ f, (s.file f).fCount = refs s f) ∧
    (∀ i, s.iCount i = openFiles s i + pointers s i + other i) ∧
    (∀ t (c : Call), (s.task t).life = .live → (c.exec t s).isSome) ∧
    ∀ t r, (s.task t).life = .live →
      ((∃ flag namei busy, Call.exec t s (.open flag namei busy) = some r) ∨
        (∃ namei busy, Call.exec t s (.creat namei busy) = some r) ∨
        ∃ found, Call.exec t s (.pipe found) = some r) →
      ∀ f, refs s f ≠ 0 → r.1.file f = s.file f ∧
        ∀ u fd, (r.1.task u).filp fd = some f ↔ (s.task u).filp fd = some f := by
  have hlaw := law_of_run root other h
  refine ⟨hlaw.count, hlaw.inode, fun t c hl => ?_, fun t r hl hr f hf => ?_⟩
  · obtain ⟨r, hr, -⟩ := hlaw.exec hl c
    simp [hr]
  · have hsp : Spares s r.1 := by
      rcases hr with ⟨flag, namei, busy, hr⟩ | ⟨namei, busy, hr⟩ | ⟨found, hr⟩
      · obtain ⟨r', hr', -, hsp⟩ := hlaw.sysOpen hl flag namei busy
        rwa [Option.some.inj (hr.symm.trans hr')]
      · obtain ⟨r', hr', -, hsp⟩ := hlaw.sysOpen hl (O_CREAT ||| O_TRUNC) namei busy
        rwa [Option.some.inj (hr.symm.trans hr')]
      · obtain rfl := Option.some.inj hr
        exact (hlaw.sysPipe hl found).2
    rw [← hlaw.count f] at hf
    exact ⟨hsp.file f hf, fun u fd => hsp.filp u fd f hf⟩

/-- A pipe, a second task, and the first one exits. -/
def forkedPipe : List (Fin NR_TASKS × Call) :=
  [(⟨0, by decide⟩, .pipe (some 5)), (⟨0, by decide⟩, .fork true true 1),
    (⟨1, by decide⟩, .close 0), (⟨0, by decide⟩, .exit)]

def afterExit : State := (Runs.runList step forkedPipe (initial 1 fun _ => 0)).get (by decide +kernel)

/-- The writing end of the pipe is left, with one of its two references. -/
theorem counts_exact_pipe :
    refs afterExit ⟨1, by decide⟩ = 1 ∧ (afterExit.file ⟨1, by decide⟩).fCount = 1 ∧
      (∀ f, (afterExit.file f).fCount = refs afterExit f) := by
  have h := counts_exact 1 (fun _ => 0) (s := afterExit) (.of_runList_get _)
  exact ⟨by decide +kernel, by decide +kernel, h.1⟩

end Linux012.FileTable
