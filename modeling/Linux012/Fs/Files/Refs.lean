import Linux012.Lib.Sums
import Linux012.Fs.Files.Basic

/-! # Counted files

The count of a file is the number of descriptors that refer to it. An entry with count 0
can therefore be given to another `open`, and one in use cannot.
-/

namespace Linux012.Files

open Function

variable {s s' : State} {t : Fin NR_TASKS} {T T' : Task} {fd f : ℕ} {d : Desc}

/-! ## Projections -/

@[simp] theorem filp_setFilp (o : Option Desc) (fd' : ℕ) :
    (T.setFilp fd o).filp fd' = if fd' = fd then o else T.filp fd' := update_apply ..

namespace State

variable {i : ℕ} (g : File → File) (h : Inode → Inode)

theorem files_setFile (f' : ℕ) :
    (s.setFile f g).files f' = if f' = f then g (s.files f) else s.files f' := update_apply ..

theorem inodes_setInode (j : ℕ) :
    (s.setInode i h).inodes j = if j = i then h (s.inodes i) else s.inodes j := update_apply ..

@[simp] theorem tasks_setFile : (s.setFile f g).tasks = s.tasks := rfl
@[simp] theorem inodes_setFile : (s.setFile f g).inodes = s.inodes := rfl
@[simp] theorem tasks_setInode : (s.setInode i h).tasks = s.tasks := rfl
@[simp] theorem files_setInode : (s.setInode i h).files = s.files := rfl
@[simp] theorem tasks_setTask : (s.setTask t T).tasks = update s.tasks t (some T) := rfl
@[simp] theorem files_setTask : (s.setTask t T).files = s.files := rfl
@[simp] theorem inodes_setTask : (s.setTask t T).inodes = s.inodes := rfl

end State

/-! ## Counts -/

/-- Whether an entry of `filp` refers to the file `f`. -/
def own (f : ℕ) : Option Desc → ℕ
  | none => 0
  | some d => if d.file = f then 1 else 0

def taskRefs (f : ℕ) (T : Task) : ℕ := ∑ fd ∈ Finset.range NR_OPEN, own f (T.filp fd)

def slotRefs (f : ℕ) : Option Task → ℕ
  | none => 0
  | some T => taskRefs f T

/-- The number of descriptors that refer to the file `f`. -/
def refs (tasks : Fin NR_TASKS → Option Task) (f : ℕ) : ℕ := ∑ t, slotRefs f (tasks t)

theorem own_le_one (f : ℕ) (o : Option Desc) : own f o ≤ 1 := by
  cases o with
  | none => exact Nat.zero_le _
  | some d => simp only [own]; split_ifs <;> omega

theorem taskRefs_le (f : ℕ) (T : Task) : taskRefs f T ≤ NR_OPEN := by
  have := Finset.sum_le_card_nsmul (Finset.range NR_OPEN) (fun fd => own f (T.filp fd)) 1
    fun fd _ => own_le_one f _
  simpa [taskRefs] using this

/-- No count overflows an `unsigned short`. -/
theorem refs_le (tasks : Fin NR_TASKS → Option Task) (f : ℕ) :
    refs tasks f ≤ NR_TASKS * NR_OPEN := by
  have := Finset.sum_le_card_nsmul Finset.univ (fun t => slotRefs f (tasks t)) NR_OPEN
    fun t _ => by
      cases h : tasks t with
      | none => exact Nat.zero_le _
      | some T => exact taskRefs_le f T
  simpa [refs] using this

theorem refs_update (tasks : Fin NR_TASKS → Option Task) (t : Fin NR_TASKS) (o : Option Task)
    (f : ℕ) : refs (update tasks t o) f + slotRefs f (tasks t) = refs tasks f + slotRefs f o :=
  Sums.sum_update_add (Finset.mem_univ t) tasks o (slotRefs f)

theorem taskRefs_setFilp (hfd : fd < NR_OPEN) (o : Option Desc) (f : ℕ) :
    taskRefs f (T.setFilp fd o) + own f (T.filp fd) = taskRefs f T + own f o :=
  Sums.sum_update_add (Finset.mem_range.mpr hfd) T.filp o (own f)

theorem own_pos_le_refs (hT : s.tasks t = some T) (hfd : fd < NR_OPEN) (hd : T.filp fd = some d) :
    1 ≤ refs s.tasks d.file := by
  have h₁ := Sums.single_le (Finset.mem_range.mpr hfd) fun fd => own d.file (T.filp fd)
  have h₂ := Sums.single_le (Finset.mem_univ t) fun t => slotRefs d.file (s.tasks t)
  simp only [hd, own, if_true] at h₁
  simp only [hT, slotRefs] at h₂
  exact h₁.trans h₂

/-- The descriptor is open in the task. -/
def Task.Has (T : Task) (d : Desc) : Prop := ∃ fd < NR_OPEN, T.filp fd = some d

/-- The descriptor is open in some task. -/
def State.Has (s : State) (d : Desc) : Prop := ∃ t T, s.tasks t = some T ∧ T.Has d

theorem Task.Has.of_setFilp {o : Option Desc} (h : (T.setFilp fd o).Has d) : T.Has d ∨ o = some d := by
  obtain ⟨fd', hfd', hd⟩ := h
  rw [filp_setFilp] at hd
  split_ifs at hd
  · exact .inr hd
  · exact .inl ⟨fd', hfd', hd⟩

theorem State.Has.of_update {o : Option Task} (ht : s'.tasks = update s.tasks t o)
    (h : s'.Has d) : s.Has d ∨ ∃ T', o = some T' ∧ T'.Has d := by
  obtain ⟨u, T', hT', hd⟩ := h
  rw [ht, update_apply] at hT'
  split_ifs at hT'
  · exact .inr ⟨T', hT', hd⟩
  · exact .inl ⟨u, T', hT', hd⟩

theorem State.Has.of_setFilp {o : Option Desc} (hT : s.tasks t = some T)
    (ht : s'.tasks = update s.tasks t (some (T.setFilp fd o))) (h : s'.Has d) :
    s.Has d ∨ o = some d := by
  rcases h.of_update ht with h | ⟨T', hT', hd⟩
  · exact .inl h
  · obtain rfl := Option.some.inj hT'
    exact hd.of_setFilp.imp_left fun hd => ⟨t, T, hT, hd⟩

/-- Every count is the number of descriptors. -/
structure Counted (s : State) : Prop where
  count : ∀ f, (s.files f).fCount = refs s.tasks f
  bound : ∀ d, s.Has d → d.file < NR_FILE

namespace Counted

theorem pos (h : Counted s) (hd : s.Has d) : (s.files d.file).fCount ≠ 0 := by
  obtain ⟨t, T, hT, fd, hfd, hd⟩ := hd
  have := own_pos_le_refs hT hfd hd
  rw [h.count]
  omega

theorem lt (h : Counted s) (f : ℕ) : (s.files f).fCount + 1 < 65536 := by
  have := refs_le s.tasks f
  rw [h.count]
  exact Nat.lt_of_le_of_lt (Nat.add_le_add_right this 1) (by decide)

/-- Counts, tasks and file numbers stay the same. -/
theorem congr (h : Counted s) (hc : ∀ f, (s'.files f).fCount = (s.files f).fCount)
    (ht : s'.tasks = s.tasks) : Counted s' := by
  constructor
  · intro f; rw [hc, h.count, ht]
  · rintro d ⟨t, T, hT, hd⟩
    exact h.bound d ⟨t, T, ht ▸ hT, hd⟩

theorem setFile (h : Counted s) (f : ℕ) (g : File → File)
    (hg : ∀ x, (g x).fCount = x.fCount) : Counted (s.setFile f g) := by
  refine h.congr (fun f' => ?_) rfl
  rw [State.files_setFile]
  split_ifs with hf
  · rw [hg, hf]
  · rfl

theorem setInode (h : Counted s) (i : ℕ) (g : Inode → Inode) : Counted (s.setInode i g) :=
  h.congr (fun _ => rfl) rfl

/-- The descriptor `fd` of a task changes, and one count with it on either side. -/
theorem setFilp (h : Counted s) (hT : s.tasks t = some T) (hfd : fd < NR_OPEN) {o : Option Desc}
    (ho : ∀ d, o = some d → d.file < NR_FILE)
    (ht : s'.tasks = update s.tasks t (some (T.setFilp fd o)))
    (hc : ∀ f, (s'.files f).fCount + own f (T.filp fd) = (s.files f).fCount + own f o) :
    Counted s' := by
  constructor
  · intro f
    have h₁ := refs_update s.tasks t (some (T.setFilp fd o)) f
    have h₂ := taskRefs_setFilp (T := T) hfd o f
    have h₃ := hc f
    rw [hT] at h₁
    simp only [slotRefs] at h₁
    rw [h.count] at h₃
    rw [ht]
    omega
  · intro d hd
    rcases hd.of_setFilp hT ht with hd | hd
    · exact h.bound d hd
    · exact ho d hd

end Counted

/-! ## Close, fork and exit -/

theorem sysClose_cases {r : State × Ret} (h : sysClose s t T fd = some r) :
    r.1 = s ∨ ∃ d, fd < NR_OPEN ∧ T.filp fd = some d ∧ (s.files d.file).fCount ≠ 0 ∧
      r.1 = (s.setTask t (T.setFilp fd none)).setFile d.file
        fun x => { x with fCount := x.fCount - 1 } := by
  unfold sysClose at h
  split_ifs at h with hfd
  · exact .inl (Option.some.inj h ▸ rfl)
  · split at h
    · exact .inl (Option.some.inj h ▸ rfl)
    · rename_i d hd
      split_ifs at h with hc
      obtain rfl := Option.some.inj h
      exact .inr ⟨d, by omega, hd, hc, rfl⟩

/-- A close never finds a count of 0. -/
theorem Counted.sysClose_isSome (h : Counted s) (hT : s.tasks t = some T) :
    (sysClose s t T fd).isSome := by
  unfold sysClose
  split_ifs with hfd
  · rfl
  · cases hd : T.filp fd with
    | none => rfl
    | some d => simp [h.pos ⟨t, T, hT, fd, by omega, hd⟩]

theorem Counted.sysClose (h : Counted s) (hT : s.tasks t = some T) {r : State × Ret}
    (hr : sysClose s t T fd = some r) : Counted r.1 := by
  rcases sysClose_cases hr with hs | ⟨d, hfd, hd, hc, hs⟩
  · exact hs ▸ h
  · rw [hs]
    refine h.setFilp hT hfd (by simp) rfl fun f => ?_
    rw [State.files_setFile, hd]
    simp only [State.files_setTask, own]
    by_cases hf : f = d.file
    · rw [if_pos hf, if_pos hf.symm, hf]
      simp only
      omega
    · rw [if_neg hf, if_neg (Ne.symm hf)]

theorem countFiles_spec (fds : List ℕ)
    (hlt : ∀ f, (s.files f).fCount + (fds.map fun fd => own f (T.filp fd)).sum < 65536) :
    (countFiles T fds s).tasks = s.tasks ∧ (countFiles T fds s).inodes = s.inodes ∧
      ∀ f, (countFiles T fds s).files f = { s.files f with
        fCount := (s.files f).fCount + (fds.map fun fd => own f (T.filp fd)).sum } := by
  induction fds generalizing s with
  | nil => exact ⟨rfl, rfl, fun f => rfl⟩
  | cons fd fds ih =>
    rw [countFiles]
    cases hd : T.filp fd with
    | none =>
      obtain ⟨h₁, h₂, h₃⟩ := ih fun f => by simpa [hd, own] using hlt f
      refine ⟨h₁, h₂, fun f => ?_⟩
      simp [h₃ f, hd, own]
    | some d =>
      have hfile : ∀ f, (incCount s d.file).files f =
          { s.files f with fCount := (s.files f).fCount + own f (some d) } := fun f => by
        have hf := hlt f
        rw [List.map_cons, List.sum_cons, hd] at hf
        simp only [own] at hf
        rw [incCount, State.files_setFile]
        by_cases hfd : f = d.file
        · rw [if_pos hfd.symm] at hf
          rw [if_pos hfd, ← hfd]
          simp only [own, hfd, if_true, File.mk.injEq, true_and, and_true]
          rw [hfd] at hf
          omega
        · simp [own, hfd, Ne.symm hfd]
      obtain ⟨h₁, h₂, h₃⟩ := ih (s := incCount s d.file) fun f => by
        have hf := hlt f
        rw [List.map_cons, List.sum_cons, hd] at hf
        rw [hfile f]
        simp only
        omega
      refine ⟨h₁, h₂, fun f => ?_⟩
      rw [h₃ f, hfile f]
      simp [hd, Nat.add_assoc]

theorem taskRefs_eq_sum (f : ℕ) (T : Task) :
    taskRefs f T = ((List.range NR_OPEN).map fun fd => own f (T.filp fd)).sum := rfl

theorem Counted.fork (h : Counted s) (hT : s.tasks t = some T) {nr : Fin NR_TASKS}
    {r : State × Ret} (hr : fork s T nr = some r) :
    Counted r.1 ∧ (∀ d, r.1.Has d → s.Has d) ∧ r.1.inodes = s.inodes ∧
      ∀ f, r.1.files f = { s.files f with fCount := (s.files f).fCount + taskRefs f T } := by
  unfold Files.fork at hr
  split at hr
  · cases hr
  · rename_i hnr
    obtain rfl := Option.some.inj hr
    obtain ⟨h₁, h₂, h₃⟩ := countFiles_spec (s := s.setTask nr T) (T := T) (List.range NR_OPEN)
      fun f => by
        have hle := taskRefs_le f T
        have := refs_le s.tasks f
        rw [taskRefs_eq_sum] at hle
        rw [State.files_setTask, h.count]
        exact Nat.lt_of_le_of_lt (Nat.add_le_add this hle) (by decide)
    have hhas : ∀ d, (countFiles T (List.range NR_OPEN) (s.setTask nr T)).Has d → s.Has d := by
      intro d hd
      rcases hd.of_update (s := s) (t := nr) (o := some T) h₁ with hd | ⟨T', hT', hd⟩
      · exact hd
      · exact ⟨t, T, hT, Option.some.inj hT' ▸ hd⟩
    refine ⟨⟨fun f => ?_, fun d hd => h.bound d (hhas d hd)⟩, hhas, h₂, h₃⟩
    have hu := refs_update s.tasks nr (some T) f
    rw [hnr] at hu
    simp only [slotRefs, taskRefs_eq_sum] at hu
    rw [h₃ f, h₁, State.tasks_setTask, State.files_setTask]
    simp only
    rw [h.count]
    omega

/-- Only descriptors of the task `t` are closed, and counts go down. -/
structure Closes (t : Fin NR_TASKS) (s s' : State) : Prop where
  has : ∀ d, s'.Has d → s.Has d
  inodes : s'.inodes = s.inodes
  files : ∀ f, ∃ n, s'.files f = { s.files f with fCount := n }
  filp : ∀ T', s'.tasks t = some T' →
    ∃ T, s.tasks t = some T ∧ ∀ fd, T.filp fd = none → T'.filp fd = none

theorem Closes.refl (t : Fin NR_TASKS) (s : State) : Closes t s s :=
  ⟨fun _ h => h, rfl, fun f => ⟨(s.files f).fCount, rfl⟩, fun T h => ⟨T, h, fun _ h => h⟩⟩

theorem Closes.trans {s'' : State} (h : Closes t s s') (h' : Closes t s' s'') : Closes t s s'' := by
  refine ⟨fun d hd => h.has d (h'.has d hd), h'.inodes.trans h.inodes, fun f => ?_, fun T'' hT => ?_⟩
  · obtain ⟨n, hn⟩ := h.files f
    obtain ⟨m, hm⟩ := h'.files f
    exact ⟨m, by rw [hm, hn]⟩
  · obtain ⟨T', hT', hf'⟩ := h'.filp T'' hT
    obtain ⟨T, hT, hf⟩ := h.filp T' hT'
    exact ⟨T, hT, fun fd hd => hf' fd (hf fd hd)⟩

theorem closes_sysClose (hT : s.tasks t = some T) {r : State × Ret}
    (hr : sysClose s t T fd = some r) :
    Closes t s r.1 ∧ (fd < NR_OPEN → ∀ T', r.1.tasks t = some T' → T'.filp fd = none) := by
  unfold sysClose at hr
  split_ifs at hr with hfd
  · obtain rfl := Option.some.inj hr
    exact ⟨.refl t s, fun h => absurd h (by omega)⟩
  · split at hr
    · rename_i hd
      obtain rfl := Option.some.inj hr
      exact ⟨.refl t s, fun _ T' hT' => by rw [hT] at hT'; exact Option.some.inj hT' ▸ hd⟩
    · rename_i d hd
      split_ifs at hr with hc
      obtain rfl := Option.some.inj hr
      have hself : ∀ T', (s.setTask t (T.setFilp fd none)).tasks t = some T' →
          T' = T.setFilp fd none := fun T' hT' => by
        rw [State.tasks_setTask, update_self] at hT'
        exact (Option.some.inj hT').symm
      refine ⟨⟨fun d' hd' => ?_, rfl, fun f => ?_, fun T' hT' => ⟨T, hT, fun fd' hd' => ?_⟩⟩,
        fun _ T' hT' => ?_⟩
      · exact (hd'.of_setFilp hT rfl).resolve_right (by simp)
      · rw [State.files_setFile]
        split_ifs with hf
        · subst hf; exact ⟨_, rfl⟩
        · exact ⟨(s.files f).fCount, rfl⟩
      · rw [hself T' hT', filp_setFilp]
        split_ifs
        · rfl
        · exact hd'
      · rw [hself T' hT', filp_setFilp, if_pos rfl]

/-- Closing all descriptors of a list keeps counts and opens nothing. -/
theorem Counted.closeAll (h : Counted s) {fds : List ℕ} (hc : closeAll t fds s = some s') :
    Counted s' ∧ Closes t s s' ∧
      ∀ T', s'.tasks t = some T' → ∀ fd ∈ fds, fd < NR_OPEN → T'.filp fd = none := by
  induction fds generalizing s with
  | nil =>
    obtain rfl := Option.some.inj hc
    exact ⟨h, .refl t s, by simp⟩
  | cons fd fds ih =>
    unfold Files.closeAll at hc
    cases hT : s.tasks t with
    | none => simp [hT] at hc
    | some T =>
      simp only [hT] at hc
      -- the descriptor is closed before the rest of the list, and stays so
      obtain ⟨s₁, h₁, hcl, hfd, hc⟩ : ∃ s₁, Counted s₁ ∧ Closes t s s₁ ∧
          (fd < NR_OPEN → ∀ T', s₁.tasks t = some T' → T'.filp fd = none) ∧
          Files.closeAll t fds s₁ = some s' := by
        cases hd : T.filp fd with
        | none =>
          refine ⟨s, h, .refl t s, fun _ T' hT' => ?_, by simpa [hd] using hc⟩
          rw [hT] at hT'
          exact Option.some.inj hT' ▸ hd
        | some d =>
          simp only [hd] at hc
          obtain ⟨r, hr, hc⟩ := Option.bind_eq_some_iff.mp hc
          obtain ⟨hcl, hfd⟩ := closes_sysClose hT hr
          exact ⟨r.1, h.sysClose hT hr, hcl, hfd, hc⟩
      obtain ⟨h', hcl', hall⟩ := ih h₁ hc
      refine ⟨h', hcl.trans hcl', fun T' hT' fd' hfd' hlt => ?_⟩
      rcases List.mem_cons.mp hfd' with rfl | hmem
      · obtain ⟨T₁, hT₁, hf⟩ := hcl'.filp T' hT'
        exact hf _ (hfd hlt T₁ hT₁)
      · exact hall T' hT' fd' hmem hlt

/-- A task that has closed everything can go. -/
theorem Counted.exit (h : Counted s) {r : State × Ret} (hr : doExit s t = some r) :
    Counted r.1 ∧ Closes t s r.1 := by
  obtain ⟨s₁, hc, rfl⟩ := Option.map_eq_some_iff.mp hr
  obtain ⟨h₁, hcl, hnone⟩ := h.closeAll hc
  have hhas : ∀ d, State.Has { s₁ with tasks := update s₁.tasks t none } d → s₁.Has d :=
    fun d hd => (hd.of_update (s := s₁) rfl).resolve_right (by simp)
  refine ⟨⟨fun f => ?_, fun d hd => h₁.bound d (hhas d hd)⟩,
    ⟨fun d hd => hcl.has d (hhas d hd), hcl.inodes, hcl.files, fun T' hT' => ?_⟩⟩
  · have hu := refs_update s₁.tasks t none f
    have hzero : slotRefs f (s₁.tasks t) = 0 := by
      cases hT : s₁.tasks t with
      | none => rfl
      | some T =>
        unfold slotRefs taskRefs
        refine Finset.sum_eq_zero fun fd hfd => ?_
        have hlt := Finset.mem_range.mp hfd
        rw [hnone T hT fd (List.mem_range.mpr hlt) hlt]; rfl
    have hn : slotRefs f none = 0 := rfl
    change (s₁.files f).fCount = refs (update s₁.tasks t none) f
    rw [h₁.count]
    omega
  · simp at hT'

end Linux012.Files
