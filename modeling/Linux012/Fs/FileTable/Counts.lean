import Linux012.Fs.FileTable.Basic
import Linux012.Lib.Sums

/-! # Counts of open files

Every file count is the number of descriptors that point to the entry, and every reference to an
inode belongs to an entry in use, to a task or to somebody else.
-/

namespace Linux012.FileTable

open Function Finset

variable {s s' : State} {t nr : Fin NR_TASKS} {fd : Fin NR_OPEN} {f : Fin NR_FILE} {i : ℕ}
  {T : Task} {o o' : ℕ → ℕ} {p : Option ℕ}

/-! ## Pointers -/

def own (f : Fin NR_FILE) (o : Option (Fin NR_FILE)) : ℕ := if o = some f then 1 else 0

/-- The descriptors of a task for an entry of the file table. -/
def Task.refs (f : Fin NR_FILE) (T : Task) : ℕ :=
  if T.life = .live then ∑ fd, own f (T.filp fd) else 0

/-- The descriptors of all tasks for an entry of the file table. -/
def refs (s : State) (f : Fin NR_FILE) : ℕ := ∑ t, (s.task t).refs f

def pointer (i : ℕ) (p : Option ℕ) : ℕ := if p = some i then 1 else 0

/-- The pointers of a task to an inode. -/
def Task.pointers (i : ℕ) (T : Task) : ℕ :=
  if T.life = .live then
    pointer i T.pwd + pointer i T.root + pointer i T.executable + pointer i T.library
  else 0

def pointers (s : State) (i : ℕ) : ℕ := ∑ t, (s.task t).pointers i

def File.holds (i : ℕ) (x : File) : ℕ := if x.fCount ≠ 0 ∧ x.fInode = i then 1 else 0

/-- The open files of an inode. -/
def openFiles (s : State) (i : ℕ) : ℕ := ∑ f, (s.file f).holds i

/-- Every count is exact; `o` are the references to inodes that neither a task nor an open file
has. -/
structure Law (o : ℕ → ℕ) (s : State) : Prop where
  count : ∀ f, (s.file f).fCount = refs s f
  inode : ∀ i, s.iCount i = openFiles s i + pointers s i + o i

theorem own_le_one (f : Fin NR_FILE) (o : Option (Fin NR_FILE)) : own f o ≤ 1 := by
  unfold own
  split <;> omega

theorem Task.refs_le (f : Fin NR_FILE) (T : Task) : T.refs f ≤ NR_OPEN := by
  unfold refs
  split
  · have h := sum_le_card_nsmul univ (fun fd => own f (T.filp fd)) 1 fun fd _ => own_le_one f _
    simpa using h
  · exact Nat.zero_le _

theorem refs_le (s : State) (f : Fin NR_FILE) : refs s f ≤ NR_TASKS * NR_OPEN := by
  have h := sum_le_card_nsmul univ (fun t => (s.task t).refs f) NR_OPEN fun t _ =>
    (s.task t).refs_le f
  simpa [refs] using h

/-- No count overflows an `unsigned short`. -/
theorem refs_lt (s : State) (f : Fin NR_FILE) : refs s f + 1 < 65536 :=
  Nat.lt_of_le_of_lt (Nat.add_le_add_right (refs_le s f) 1) (by decide)

theorem own_le_refs (hl : (s.task t).life = .live) (hd : (s.task t).filp fd = some f) :
    1 ≤ refs s f := by
  have h₁ := Sums.single_le (mem_univ fd) fun fd => own f ((s.task t).filp fd)
  have h₂ := Sums.single_le (mem_univ t) fun t => (s.task t).refs f
  simp only [hd, own, if_true] at h₁
  simp only [Task.refs, if_pos hl] at h₂
  exact h₁.trans h₂

/-! ## Stores -/

namespace State

@[simp] theorem setTask_file (g : Task → Task) : (s.setTask t g).file = s.file := rfl
@[simp] theorem setTask_iCount (g : Task → Task) : (s.setTask t g).iCount = s.iCount := rfl
@[simp] theorem setFile_task (g : File → File) : (s.setFile f g).task = s.task := rfl
@[simp] theorem setFile_iCount (g : File → File) : (s.setFile f g).iCount = s.iCount := rfl
@[simp] theorem setCount_task (c : ℕ) : (s.setCount f c).task = s.task := rfl
@[simp] theorem incCount_task : (s.incCount f).task = s.task := rfl

@[simp] theorem setTask_task_self (g : Task → Task) : (s.setTask t g).task t = g (s.task t) :=
  update_self ..

@[simp] theorem setFile_file_self (g : File → File) : (s.setFile f g).file f = g (s.file f) :=
  update_self ..

@[simp] theorem grab_task : (s.grab p).task = s.task := by cases p <;> rfl
@[simp] theorem grab_file : (s.grab p).file = s.file := by cases p <;> rfl

theorem grab_iCount (i : ℕ) : (s.grab p).iCount i = s.iCount i + pointer i p := by
  cases p with
  | none => rfl
  | some j =>
    simp only [grab, pointer, Option.some.injEq]
    rcases eq_or_ne i j with rfl | hij
    · simp
    · simp [hij, hij.symm]

theorem iput_setTask (g : Task → Task) :
    (s.setTask t g).iput p = (s.iput p).map fun s => s.setTask t g := by
  cases p with
  | none => rfl
  | some j =>
    by_cases hz : s.iCount j = 0
    · simp [iput, hz]
    · have hz' : ¬ (s.setTask t g).iCount j = 0 := hz
      rw [iput, if_neg hz', iput, if_neg hz]
      rfl

theorem task_of_iput (h : s.iput p = some s') : s'.task = s.task := by
  cases p with
  | none => exact congrArg task (Option.some.inj h).symm
  | some j =>
    simp only [iput] at h
    split at h
    · cases h
    · obtain rfl := Option.some.inj h
      rfl

end State

theorem sum_setTask (w : Task → ℕ) (g : Task → Task) :
    ∑ u, w ((s.setTask t g).task u) + w (s.task t) = ∑ u, w (s.task u) + w (g (s.task t)) :=
  Sums.sum_update_add (mem_univ t) s.task (g (s.task t)) w

theorem refs_setFilp (hl : (s.task t).life = .live) (x : Option (Fin NR_FILE)) (f : Fin NR_FILE) :
    refs (s.setFilp t fd x) f + own f ((s.task t).filp fd) = refs s f + own f x := by
  let g : Task → Task := fun T => { T with filp := update T.filp fd x }
  have h₁ : refs (s.setFilp t fd x) f + (s.task t).refs f = refs s f + (g (s.task t)).refs f :=
    sum_setTask (Task.refs f) g
  have h₂ := Sums.sum_update_add (mem_univ fd) (s.task t).filp x (own f)
  have hold : (s.task t).refs f = ∑ fd, own f ((s.task t).filp fd) := if_pos hl
  have hnew : (g (s.task t)).refs f = ∑ k, own f (update (s.task t).filp fd x k) := if_pos hl
  omega

theorem pointers_setFilp (x : Option (Fin NR_FILE)) (i : ℕ) :
    pointers (s.setFilp t fd x) i = pointers s i := by
  have h := sum_setTask (s := s) (t := t) (Task.pointers i)
    fun T => { T with filp := update T.filp fd x }
  simp only [pointers, State.setFilp]
  exact Nat.add_right_cancel h

theorem openFiles_setFile (g : File → File) (i : ℕ) :
    openFiles (s.setFile f g) i + (s.file f).holds i =
      openFiles s i + (g (s.file f)).holds i :=
  Sums.sum_update_add (mem_univ f) s.file (g (s.file f)) (File.holds i)

namespace Law

/-- A store into a task that moves pointers between the task and others. -/
theorem setTask (h : Law o s) (g : Task → Task)
    (hr : ∀ f, (g (s.task t)).refs f = (s.task t).refs f)
    (hp : ∀ i, (g (s.task t)).pointers i + o' i = (s.task t).pointers i + o i) :
    Law o' (s.setTask t g) := by
  constructor
  · intro f
    have h₁ := sum_setTask (s := s) (t := t) (Task.refs f) g
    rw [hr f] at h₁
    rw [State.setTask_file, h.count f]
    exact (Nat.add_right_cancel h₁).symm
  · intro i
    have h₁ := sum_setTask (s := s) (t := t) (Task.pointers i) g
    have h₂ := hp i
    have h₃ := h.inode i
    simp only [pointers, openFiles, State.setTask_iCount, State.setTask_file] at h₃ ⊢
    omega

/-- A task changes in nothing that counts. -/
theorem setTask_same (h : Law o s) (g : Task → Task)
    (hr : ∀ f, (g (s.task t)).refs f = (s.task t).refs f)
    (hp : ∀ i, (g (s.task t)).pointers i = (s.task t).pointers i) : Law o (s.setTask t g) :=
  h.setTask g hr fun i => by rw [hp]

theorem keepOnExec (h : Law o s) : Law o (s.keepOnExec t fd) :=
  h.setTask_same _ (fun _ => rfl) fun _ => rfl

theorem setFile_same (h : Law o s) (g : File → File)
    (hc : (g (s.file f)).fCount = (s.file f).fCount)
    (hi : (g (s.file f)).fInode = (s.file f).fInode) : Law o (s.setFile f g) := by
  constructor
  · intro f'
    change (update s.file f _ f').fCount = refs s f'
    rcases eq_or_ne f' f with rfl | hne
    · rw [update_self, hc, h.count]
    · rw [update_of_ne hne, h.count]
  · intro i
    have h₁ := openFiles_setFile (s := s) (f := f) g i
    have hsame : (g (s.file f)).holds i = (s.file f).holds i := by simp [File.holds, hc, hi]
    rw [hsame] at h₁
    change s.iCount i = openFiles (s.setFile f g) i + pointers s i + o i
    rw [h.inode i, Nat.add_right_cancel h₁]

theorem grab (h : Law o s) (p : Option ℕ) : Law (fun i => o i + pointer i p) (s.grab p) := by
  constructor
  · intro f
    simpa [refs] using h.count f
  · intro i
    have := h.inode i
    rw [State.grab_iCount]
    simp only [openFiles, pointers, State.grab_file, State.grab_task] at this ⊢
    omega

/-- A reference that somebody has can be given back. -/
theorem iput (h : Law (fun i => o i + pointer i p) s) :
    ∃ s', s.iput p = some s' ∧ s'.task = s.task ∧ s'.file = s.file ∧ Law o s' := by
  cases p with
  | none => exact ⟨s, rfl, rfl, rfl, h⟩
  | some j =>
    have hj := h.inode j
    simp only [pointer, if_true] at hj
    refine ⟨_, if_neg (by omega), rfl, rfl, h.count, fun i => ?_⟩
    have hi := h.inode i
    change update s.iCount j (s.iCount j - 1) i = openFiles s i + pointers s i + o i
    rcases eq_or_ne i j with rfl | hij
    · rw [update_self]
      omega
    · rw [update_of_ne hij]
      simpa [pointer, hij.symm] using hi

/-- A reference of a task is given back, and the task changed so that it does not have it. -/
theorem swap (h : Law o s) (t : Fin NR_TASKS) (p : Option ℕ) (o' : ℕ → ℕ) (g : Task → Task)
    (hr : ∀ f, (g (s.task t)).refs f = (s.task t).refs f)
    (hp : ∀ i, (g (s.task t)).pointers i + (o' i + pointer i p) = (s.task t).pointers i + o i) :
    ∃ s', s.iput p = some s' ∧ s'.task = s.task ∧ Law o' (s'.setTask t g) := by
  obtain ⟨s', hput, -, -, hs'⟩ := (h.setTask g hr hp).iput
  rw [State.iput_setTask] at hput
  obtain ⟨s₁, hput₁, rfl⟩ := Option.map_eq_some_iff.mp hput
  exact ⟨s₁, hput₁, State.task_of_iput hput₁, hs'⟩

/-- An entry that is not in use becomes the file of a descriptor, and takes over a reference. -/
theorem attach {x : File} (h : Law (fun i => o i + pointer i (some x.fInode)) s)
    (hl : (s.task t).life = .live) (hfd : (s.task t).filp fd = none) (hf : (s.file f).fCount = 0)
    (hx : x.fCount = 1) : Law o ((s.setFilp t fd (some f)).setFile f fun _ => x) := by
  constructor
  · intro f'
    have h₁ : refs (s.setFilp t fd (some f)) f' + own f' ((s.task t).filp fd) = refs s f' + own f' (some f) :=
      refs_setFilp hl (some f) f'
    have h₂ := h.count f'
    rw [hfd] at h₁
    change (update s.file f x f').fCount = refs (s.setFilp t fd (some f)) f'
    rcases eq_or_ne f' f with rfl | hne
    · rw [update_self, hx]
      simp only [own, if_true, reduceCtorEq, if_false] at h₁
      omega
    · rw [update_of_ne hne]
      simp only [own, Option.some.injEq, hne.symm, if_false, reduceCtorEq] at h₁
      omega
  · intro i
    have h₁ := openFiles_setFile (s := s.setFilp t fd (some f)) (f := f) (fun _ => x) i
    have h₂ := h.inode i
    have h₃ : pointers (s.setFilp t fd (some f)) i = pointers s i := pointers_setFilp (some f) i
    have hold : ((s.setFilp t fd (some f)).file f).holds i = 0 := by simp [File.holds, State.setFilp, hf]
    have hnew : x.holds i = pointer i (some x.fInode) := by simp [File.holds, pointer, hx]
    rw [hold, hnew] at h₁
    change s.iCount i = openFiles ((s.setFilp t fd (some f)).setFile f fun _ => x) i +
      pointers (s.setFilp t fd (some f)) i + o i
    have h₄ : openFiles (s.setFilp t fd (some f)) i = openFiles s i := rfl
    omega

/-- One more descriptor for an entry in use. -/
theorem share (h : Law o s) (hl : (s.task t).life = .live) (hfd : (s.task t).filp fd = none)
    (hf : (s.file f).fCount ≠ 0) : Law o ((s.setFilp t fd (some f)).incCount f) := by
  have hlt := refs_lt s f
  have hc := h.count f
  constructor
  · intro f'
    have h₁ : refs (s.setFilp t fd (some f)) f' + own f' ((s.task t).filp fd) = refs s f' + own f' (some f) :=
      refs_setFilp hl (some f) f'
    have h₂ := h.count f'
    rw [hfd] at h₁
    change (update s.file f _ f').fCount = refs (s.setFilp t fd (some f)) f'
    rcases eq_or_ne f' f with rfl | hne
    · simp only [update_self]
      simp only [own, if_true, reduceCtorEq, if_false] at h₁
      change ((s.file f').fCount + 1) % 65536 = _
      rw [Nat.mod_eq_of_lt (by omega)]
      omega
    · rw [update_of_ne hne]
      simp only [own, Option.some.injEq, hne.symm, if_false, reduceCtorEq] at h₁
      omega
  · intro i
    have h₁ := openFiles_setFile (s := s.setFilp t fd (some f)) (f := f)
      (fun x => { x with fCount := ((s.file f).fCount + 1) % 65536 }) i
    have h₂ := h.inode i
    have h₃ : pointers (s.setFilp t fd (some f)) i = pointers s i := pointers_setFilp (some f) i
    have hsame : File.holds i { s.file f with fCount := ((s.file f).fCount + 1) % 65536 } =
        (s.file f).holds i := by
      rw [Nat.mod_eq_of_lt (by omega)]
      simp [File.holds, hf]
    have h₄ : openFiles ((s.setFilp t fd (some f)).incCount f) i = openFiles s i :=
      Nat.add_right_cancel (h₁.trans (congrArg _ hsame))
    change s.iCount i = openFiles ((s.setFilp t fd (some f)).incCount f) i +
      pointers (s.setFilp t fd (some f)) i + o i
    omega

/-- A descriptor goes; with the last one for its entry, a reference is left to be given back. -/
theorem drop (h : Law o s) (hl : (s.task t).life = .live) (hfd : (s.task t).filp fd = some f) :
    (s.file f).fCount ≠ 0 ∧
    Law (fun i => o i +
        pointer i (if (s.file f).fCount = 1 then some (s.file f).fInode else none))
      ((s.setFilp t fd none).setCount f ((s.file f).fCount - 1)) := by
  have hpos : (s.file f).fCount ≠ 0 := by
    have := own_le_refs hl hfd
    rw [h.count f]
    omega
  refine ⟨hpos, fun f' => ?_, fun i => ?_⟩
  · have h₁ : refs (s.setFilp t fd none) f' + own f' ((s.task t).filp fd) = refs s f' + own f' none :=
      refs_setFilp hl none f'
    have h₂ := h.count f'
    rw [hfd] at h₁
    change (update s.file f _ f').fCount = refs (s.setFilp t fd none) f'
    rcases eq_or_ne f' f with rfl | hne
    · simp only [update_self]
      simp only [own, if_true, reduceCtorEq, if_false] at h₁
      omega
    · rw [update_of_ne hne]
      simp only [own, Option.some.injEq, hne.symm, if_false, reduceCtorEq] at h₁
      omega
  · have h₁ := openFiles_setFile (s := s.setFilp t fd none) (f := f)
      (fun x => { x with fCount := (s.file f).fCount - 1 }) i
    have h₂ := h.inode i
    have h₃ : pointers (s.setFilp t fd none) i = pointers s i := pointers_setFilp none i
    have hold : (s.file f).holds i =
        File.holds i { s.file f with fCount := (s.file f).fCount - 1 } +
          pointer i (if (s.file f).fCount = 1 then some (s.file f).fInode else none) := by
      simp only [File.holds, pointer]
      split_ifs <;> simp_all
      omega
    have h₄ : openFiles (s.setFilp t fd none) i = openFiles s i := rfl
    change s.iCount i =
      openFiles ((s.setFilp t fd none).setFile f fun x =>
        { x with fCount := (s.file f).fCount - 1 }) i + pointers (s.setFilp t fd none) i + _
    change _ + (s.file f).holds i = _ + File.holds i { s.file f with fCount := _ } at h₁
    omega

end Law

end Linux012.FileTable
