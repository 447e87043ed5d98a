import Linux012.Fs.Files.Access

/-! # Writing needs permission

The record of every open descriptor is kept by each call. What a `write` may change and a
`read` may return is then decided by the access mode in `f_flags`, as long as these calls
respect it.
-/

namespace Linux012.Files

open Function Runs

variable {s s' s₀ : State} {t : Fin NR_TASKS} {T : Task} {fd : ℕ} {d : Desc}

theorem freeFile_spec {f : ℕ} (hf : freeFile s = some f) :
    f < NR_FILE ∧ (s.files f).fCount = 0 :=
  ⟨List.mem_range.mp (List.mem_of_find?_eq_some hf), by simpa using List.find?_some hf⟩

theorem freeFd_spec (hfd : freeFd T = some fd) : fd < NR_OPEN ∧ T.filp fd = none :=
  ⟨List.mem_range.mp (List.mem_of_find?_eq_some hfd), by simpa using List.find?_some hfd⟩

namespace Recorded

/-- A free descriptor gets a free file, which is on record. -/
theorem install (h : Recorded s) (hT : s.tasks t = some T) (hfd : fd < NR_OPEN)
    (hnone : T.filp fd = none) (hlt : d.file < NR_FILE) (hfree : (s.files d.file).fCount = 0)
    (ht : s'.tasks = update s.tasks t (some (T.setFilp fd (some d))))
    (hnew : (s'.files d.file).fCount = 1) (hf : ∀ f, f ≠ d.file → s'.files f = s.files f)
    (hp : ∀ i, s.Unused i ∨ (s'.inodes i).iPipe = (s.inodes i).iPipe) (hg : Granted s' d) :
    Recorded s' := by
  constructor
  · apply h.counted.setFilp hT hfd _ ht
    · intro f
      by_cases hfd' : f = d.file
      · subst hfd'
        simp [own, hnone, hnew, hfree]
      · simp [own, hnone, hf f hfd', Ne.symm hfd']
    · intro d' hd'
      obtain rfl := Option.some.inj hd'
      exact hlt
  · intro d' hd'
    rcases hd'.of_setFilp hT ht with hd' | hd'
    · have hne : d'.file ≠ d.file := fun he => h.counted.pos hd' (he ▸ hfree)
      apply (h.granted d' hd').congr
      · rw [hf _ hne]
      · rcases hp (s.files d'.file).fInode with hi | hi
        · exact absurd rfl (h.ne_of_unused hi hd')
        · exact hi
    · exact Option.some.inj hd' ▸ hg

/-- An inode that no file is about may change altogether. -/
theorem inodes (h : Recorded s) (ht : s'.tasks = s.tasks) (hf : s'.files = s.files)
    (hp : ∀ i, s.Unused i ∨ (s'.inodes i).iPipe = (s.inodes i).iPipe) : Recorded s' := by
  constructor
  · exact h.counted.congr (fun f => by rw [hf]) ht
  · rintro d ⟨t, T, hT, hd⟩
    rw [ht] at hT
    have hd : s.Has d := ⟨t, T, hT, hd⟩
    apply (h.granted d hd).congr
    · rw [hf]
    · exact (hp _).resolve_left fun hi => h.ne_of_unused hi hd rfl

theorem sysOpen (h : Recorded s) (hT : s.tasks t = some T) {flag mode : BitVec 32} {path : Lookup}
    {busy : Bool} (hv : path.Valid s) (hc : CreateOk T flag mode path) :
    Recorded (sysOpen s t T flag mode path busy).1 := by
  have ho := opened_openNamei (T := T) flag mode hv
  unfold Files.sysOpen
  split
  · exact h
  · exact h
  rename_i fd f hfd hf
  obtain ⟨hfd, hnone⟩ := freeFd_spec hfd
  obtain ⟨hlt, hfree⟩ := freeFile_spec hf
  dsimp only
  generalize openNamei s T flag (mode &&& (0o777 &&& ~~~T.umask)) path = r at ho
  obtain ⟨s₁, r⟩ := r
  have h₁ : Recorded s₁ := h.inodes ho.tasks ho.files ho.pipe
  cases r with
  | error e => exact h₁
  | ok i =>
    dsimp only
    split_ifs
    · exact h₁
    obtain ⟨hpipe, hwrite⟩ := ho.result i rfl
    set d : Desc := ⟨f, ⟨i, flag &&& O_ACCMODE, permission T.cred (s₁.inodes i) MAY_WRITE⟩⟩
      with hd
    apply h₁.install (T := T) (d := d) _ hfd hnone hlt _ rfl
    · simp [hd, State.files_setFile]
    · intro f' hf'
      simp only [State.files_setTask, State.files_setFile]
      exact if_neg hf'
    · exact fun _ => .inr rfl
    · constructor
      · simp [hd, State.files_setFile]
      · intro hp
        exact absurd (hpipe.symm.trans hp) (by decide)
      · intro _
        simp only [hd, State.files_setTask, State.files_setFile, if_true]
        exact accmode_setWidth flag
      · exact fun _ => hwrite hc
    · rw [ho.tasks]; exact hT
    · rw [ho.files]; exact hfree

theorem sysPipe (h : Recorded s) (hT : s.tasks t = some T) {inode : Option ℕ}
    (hi : ∀ i ∈ inode, s.Unused i) : Recorded (sysPipe s t T inode).1 := by
  unfold Files.sysPipe
  split
  swap
  · exact h
  rename_i f₀ f₁ fs fd₀ fd₁ fds i hf hfd
  have hfree : ∀ f ∈ f₀ :: f₁ :: fs, f < NR_FILE ∧ (s.files f).fCount = 0 := by
    intro f hmem
    rw [← hf] at hmem
    simpa using hmem
  have hnone : ∀ fd ∈ fd₀ :: fd₁ :: fds, fd < NR_OPEN ∧ T.filp fd = none := by
    intro fd hmem
    rw [← hfd] at hmem
    simpa using hmem
  have hnef : f₀ ≠ f₁ := by
    have : (f₀ :: f₁ :: fs).Nodup := hf ▸ List.nodup_range.filter _
    simp only [List.nodup_cons, List.mem_cons] at this
    tauto
  have hnefd : fd₀ ≠ fd₁ := by
    have : (fd₀ :: fd₁ :: fds).Nodup := hfd ▸ List.nodup_range.filter _
    simp only [List.nodup_cons, List.mem_cons] at this
    tauto
  obtain ⟨hf₀, hc₀⟩ := hfree f₀ (by simp)
  obtain ⟨hf₁, hc₁⟩ := hfree f₁ (by simp)
  obtain ⟨hfd₀, hn₀⟩ := hnone fd₀ (by simp)
  obtain ⟨hfd₁, hn₁⟩ := hnone fd₁ (by simp)
  set s₁ := s.setInode i fun x =>
    { x with iMode := 0, iUid := 0, iGid := 0, iNlinks := 0, iDev := 0, iPipe := true } with hs₁
  set d₀ : Desc := ⟨f₀, { inode := i, accmode := O_RDONLY, mayWrite := false }⟩ with hd₀
  set d₁ : Desc := ⟨f₁, { inode := i, accmode := O_WRONLY, mayWrite := true }⟩ with hd₁
  set s₂ := s₁.setFile f₀ fun x => { x with fMode := 1, fCount := 1, fInode := i, fPos := 0 }
    with hs₂
  have hpipe : (s₁.inodes i).iPipe = true := by
    rw [hs₁, State.inodes_setInode, if_pos rfl]
  have h₁ : Recorded s₁ := by
    refine h.inodes rfl rfl fun j => ?_
    by_cases hj : j = i
    · exact .inl (hj ▸ hi i rfl)
    · exact .inr (by rw [hs₁, State.inodes_setInode, if_neg hj])
  have h₂ : Recorded (s₂.setTask t (T.setFilp fd₀ (some d₀))) := by
    apply h₁.install (T := T) (d := d₀) hT hfd₀ hn₀ hf₀ hc₀ rfl
    · simp [hs₂, hd₀, State.files_setFile]
    · intro f hne
      simp only [hs₂, State.files_setTask, State.files_setFile]
      exact if_neg hne
    · exact fun _ => .inr rfl
    · constructor
      · simp [hs₂, hd₀, State.files_setFile]
      · exact fun _ _ => rfl
      · intro hp
        exact absurd (hpipe.symm.trans hp) (by decide)
      · intro hp
        exact absurd (hpipe.symm.trans hp) (by decide)
  have hT₂ : (s₂.setTask t (T.setFilp fd₀ (some d₀))).tasks t = some (T.setFilp fd₀ (some d₀)) :=
    update_self ..
  have hn₂ : (T.setFilp fd₀ (some d₀)).filp fd₁ = none := by
    rw [filp_setFilp, if_neg hnefd.symm, hn₁]
  apply h₂.install (d := d₁) hT₂ hfd₁ hn₂ hf₁
  · simp [hs₂, hd₁, State.files_setFile, hnef.symm, hs₁, hc₁]
  · exact (update_idem ..).symm
  · simp [hd₁, State.files_setFile]
  · intro f (hne : f ≠ f₁)
    rw [State.files_setTask, State.files_setFile, if_neg hne]
    rfl
  · exact fun _ => .inr rfl
  · constructor
    · simp [hd₁, State.files_setFile]
    · intro _ hm
      simp only [hd₁, State.files_setTask, State.files_setFile, if_true] at hm
      exact absurd hm (by decide)
    · intro hp
      exact absurd (hpipe.symm.trans hp) (by decide)
    · intro hp
      exact absurd (hpipe.symm.trans hp) (by decide)

theorem setPos (h : Recorded s) (f : ℕ) (pos : File → ℕ) :
    Recorded (s.setFile f fun x => { x with fPos := pos x }) :=
  h.setFile f _ fun _ => rfl

theorem sysRead (h : Recorded s) (T : Task) (fd count : ℕ) (ok : ℕ → Bool) (io : Io) :
    Recorded (sysRead s T fd count ok io).1 := by
  unfold Files.sysRead
  split
  · exact h
  dsimp only
  split_ifs
  · exact h
  · exact h
  · exact h
  · exact h.setPos _ fun _ => io.pos
  · exact h
  · exact h.setPos _ fun x => x.fPos + List.length _
  · exact h

theorem fileWriteLoop_iPipe (ok : ℕ → Bool) (n : ℕ) (inode : Inode) (pos : ℕ) (buf : List UInt8) :
    (fileWriteLoop ok n inode pos buf).1.iPipe = inode.iPipe := by
  induction n generalizing inode pos buf with
  | zero => rfl
  | succ n ih =>
    unfold fileWriteLoop
    by_cases hb : buf = []
    · rw [if_pos hb]
    rw [if_neg hb]
    by_cases hok : ¬ ok (pos / BLOCK_SIZE) = true
    · rw [if_pos hok]
    rw [if_neg hok]
    exact ih _ _ _

theorem sysWrite (h : Recorded s) (T : Task) (fd : ℕ) (buf : List UInt8) (ok : ℕ → Bool)
    (io : Io) : Recorded (sysWrite s T fd buf ok io).1 := by
  unfold Files.sysWrite
  split
  · exact h
  rename_i d _
  dsimp only
  split_ifs
  · exact h
  · exact h
  · exact h
  · exact h.setPos _ fun _ => io.pos
  · have h₁ : ∀ pos, Recorded (s.setInode (s.files d.file).fInode fun _ =>
        (fileWriteLoop ok buf.length (s.inodes (s.files d.file).fInode) pos buf).1) := by
      intro pos
      refine h.keep (h.counted.setInode _ _) (fun _ hd => hd) (fun _ => rfl) fun j => ?_
      rw [State.inodes_setInode]
      split_ifs with hj
      · rw [fileWriteLoop_iPipe, hj]
      · rfl
    unfold fileWrite
    dsimp only
    split_ifs
    · exact h₁ _
    · exact (h₁ _).setPos _ fun _ => _
  · exact h

theorem setFl (h : Recorded s) (T : Task) (fd : ℕ) (arg : BitVec 16) :
    Recorded (setFl s T fd arg).1 := by
  unfold Files.setFl
  split
  · exact h
  rename_i d _
  have hg : ∀ x : File, ((x.fFlags &&& ~~~((O_APPEND ||| O_NONBLOCK).setWidth 16)) |||
      (arg &&& (O_APPEND ||| O_NONBLOCK).setWidth 16)).setWidth 32 &&& O_ACCMODE =
      x.fFlags.setWidth 32 &&& O_ACCMODE := fun x => accmode_setFl x.fFlags arg
  exact h.setFile d.file (fun x => { x with
    fFlags := (x.fFlags &&& ~~~((O_APPEND ||| O_NONBLOCK).setWidth 16)) |||
      (arg &&& (O_APPEND ||| O_NONBLOCK).setWidth 16) }) fun x => by rw [hg]

theorem sysLseek (h : Recorded s) (T : Task) (fd pos : ℕ) : Recorded (sysLseek s T fd pos).1 := by
  unfold Files.sysLseek
  split
  · exact h
  · exact h.setPos _ fun _ => pos

theorem setCred (h : Recorded s) (hT : s.tasks t = some T) (cred : Cred) (umask : BitVec 32) :
    Recorded (s.setTask t { T with cred := cred, umask := umask }) := by
  have hhas : ∀ d, State.Has (s.setTask t { T with cred := cred, umask := umask }) d → s.Has d := by
    intro d hd
    rcases hd.of_update (s := s) rfl with hd | ⟨T', hT', hd⟩
    · exact hd
    · obtain rfl := Option.some.inj hT'
      exact ⟨t, T, hT, hd⟩
  refine h.keep ⟨fun f => ?_, fun d hd => h.counted.bound d (hhas d hd)⟩ hhas (fun _ => rfl)
    fun _ => rfl
  have := refs_update s.tasks t (some { T with cred := cred, umask := umask }) f
  rw [hT] at this
  have hsame : slotRefs f (some { T with cred := cred, umask := umask }) = slotRefs f (some T) :=
    rfl
  rw [hsame] at this
  rw [State.files_setTask, State.tasks_setTask, h.counted.count]
  omega

end Recorded

/-! ## Runs -/

/-- The calls that respect the access mode in `f_flags`: a `write` that goes to a regular file has
it, a `read` that goes to no pipe has it, and a file created for writing gives its owner that
right. -/
def Allowed (s : State) (a : Fin NR_TASKS × Call) : Prop :=
  ∀ T, s.tasks a.1 = some T → match a.2 with
    | .open flag mode path _ => CreateOk T flag mode path
    | .read fd count _ _ => ∀ d, T.filp fd = some d → fd < NR_OPEN → count ≠ 0 →
        (s.inodes (s.files d.file).fInode).iPipe = false →
        (s.files d.file).fFlags.setWidth 32 &&& O_ACCMODE = O_RDONLY ∨
          (s.files d.file).fFlags.setWidth 32 &&& O_ACCMODE = O_RDWR
    | .write fd buf _ _ => ∀ d, T.filp fd = some d → fd < NR_OPEN → buf ≠ [] →
        (s.inodes (s.files d.file).fInode).iPipe = false →
        (s.inodes (s.files d.file).fInode).isReg →
        (s.files d.file).fFlags.setWidth 32 &&& O_ACCMODE = O_WRONLY ∨
          (s.files d.file).fFlags.setWidth 32 &&& O_ACCMODE = O_RDWR
    | _ => True

theorem Recorded.step (h : Recorded s) {a : Fin NR_TASKS × Call} (ha : Allowed s a)
    (hs : step a s = some s') : Recorded s' := by
  obtain ⟨r, hr, rfl⟩ := Option.map_eq_some_iff.mp hs
  obtain ⟨T, hT, hr⟩ := Option.bind_eq_some_iff.mp hr
  have ha := ha T hT
  obtain ⟨t, c⟩ := a
  cases c with
  | «open» flag mode path busy =>
    simp only [run] at hr
    split_ifs at hr with hv
    exact Option.some.inj hr ▸ h.sysOpen hT hv ha
  | close fd => exact h.close (h.counted.sysClose hT hr) (closes_sysClose hT hr).1
  | dup fd => exact Option.some.inj hr ▸ h.dupfd hT fd 0
  | dup2 oldfd newfd => exact h.sysDup2 hT hr
  | setFl fd arg => exact Option.some.inj hr ▸ h.setFl T fd arg
  | fork nr => exact h.fork hT hr
  | exit => exact h.close (h.counted.exit hr).1 (h.counted.exit hr).2
  | pipe inode =>
    simp only [run] at hr
    split_ifs at hr with hv
    exact Option.some.inj hr ▸ h.sysPipe hT hv
  | read fd count ok io => exact Option.some.inj hr ▸ h.sysRead T fd count ok io
  | write fd buf ok io => exact Option.some.inj hr ▸ h.sysWrite T fd buf ok io
  | lseek fd pos => exact Option.some.inj hr ▸ h.sysLseek T fd pos
  | setCred cred umask => exact Option.some.inj hr ▸ h.setCred hT cred umask
  | setAttr i mode uid gid nlinks =>
    exact Option.some.inj hr ▸ h.setInode i
      (fun x => { x with iMode := mode, iUid := uid, iGid := gid, iNlinks := nlinks }) fun _ => rfl

/-- No file is open. -/
structure Closed (s : State) : Prop where
  files : ∀ f, (s.files f).fCount = 0
  filp : ∀ t T, s.tasks t = some T → ∀ fd, T.filp fd = none

theorem Closed.recorded (h : Closed s) : Recorded s := by
  have hhas : ∀ d, ¬ s.Has d := by
    rintro d ⟨t, T, hT, fd, -, hd⟩
    rw [h.filp t T hT] at hd
    cases hd
  refine ⟨⟨fun f => ?_, fun d hd => absurd hd (hhas d)⟩, fun d hd => absurd hd (hhas d)⟩
  have : ∀ t, slotRefs f (s.tasks t) = 0 := by
    intro t
    cases hT : s.tasks t with
    | none => rfl
    | some T => simp [slotRefs, taskRefs, h.filp t T hT, own]
  simp [refs, this, h.files]

theorem Recorded.of_run (h₀ : Closed s₀) (h : Run Files.step Allowed s₀ s) : Recorded s :=
  h.invariant h₀.recorded fun _ _ _ hs ha hstep => hs.step ha hstep

/-! ## Access -/

/-- The descriptor was opened for writing to the inode `i`, and `permission` granted it. -/
def WritesTo (s : State) (t : Fin NR_TASKS) (fd i : ℕ) : Prop :=
  ∃ T d, s.tasks t = some T ∧ fd < NR_OPEN ∧ T.filp fd = some d ∧ d.opening.inode = i ∧
    (d.opening.accmode = O_WRONLY ∨ d.opening.accmode = O_RDWR) ∧ d.opening.mayWrite = true

/-- The descriptor was opened for reading. -/
def Reads (s : State) (t : Fin NR_TASKS) (fd : ℕ) : Prop :=
  ∃ T d, s.tasks t = some T ∧ fd < NR_OPEN ∧ T.filp fd = some d ∧
    (d.opening.accmode = O_RDONLY ∨ d.opening.accmode = O_RDWR)

theorem sysWrite_inodes {fd : ℕ} {buf : List UInt8} {ok : ℕ → Bool} {io : Io} {i : ℕ}
    (h : (sysWrite s T fd buf ok io).1.inodes i ≠ s.inodes i) :
    ∃ d, fd < NR_OPEN ∧ T.filp fd = some d ∧ (s.files d.file).fInode = i ∧ buf ≠ [] ∧
      (s.inodes i).iPipe = false ∧ (s.inodes i).isReg := by
  unfold sysWrite at h
  split at h
  · exact absurd rfl h
  rename_i d hd
  split_ifs at hd with hfd
  dsimp only at h
  split_ifs at h with hbuf hpipe hmode hdev hreg
  all_goals try exact absurd rfl h
  have hi : (s.files d.file).fInode = i := by
    by_contra hne
    apply h
    unfold fileWrite
    dsimp only
    split_ifs <;> simp [State.inodes_setInode, Ne.symm hne]
  rw [← hi]
  exact ⟨d, hfd, hd, rfl, hbuf, by simpa using hpipe, hreg⟩

theorem sysRead_data {count : ℕ} {ok : ℕ → Bool} {io : Io} {l : List UInt8}
    (h : (sysRead s T fd count ok io).2 = .data l) :
    ∃ d, fd < NR_OPEN ∧ T.filp fd = some d ∧ count ≠ 0 ∧
      ((s.inodes (s.files d.file).fInode).iPipe = true → (s.files d.file).fMode &&& 1 ≠ 0) := by
  unfold sysRead at h
  split at h
  · cases h
  rename_i d hd
  split_ifs at hd with hfd
  dsimp only at h
  split_ifs at h with hcount hpipe hmode
  · exact ⟨d, hfd, hd, hcount, fun _ => hmode⟩
  all_goals exact ⟨d, hfd, hd, hcount, fun hp => absurd hp hpipe⟩

/-- In every run that respects the access modes, `write` changes a regular file only through a
descriptor that was opened for it with permission, and `read` returns data only through one that
was opened for reading. -/
theorem write_needs_permission (h₀ : Closed s₀) (h : Run step Allowed s₀ s) :
    (∀ t fd buf ok io s' r, Allowed s (t, .write fd buf ok io) →
      call s (t, .write fd buf ok io) = some (s', r) → ∀ i, (s.inodes i).isReg →
      ((s'.inodes i).data, (s'.inodes i).iSize) ≠ ((s.inodes i).data, (s.inodes i).iSize) →
      WritesTo s t fd i) ∧
    ∀ t fd count ok io s' l, Allowed s (t, .read fd count ok io) →
      call s (t, .read fd count ok io) = some (s', .data l) → Reads s t fd := by
  have hrec := Recorded.of_run h₀ h
  constructor
  · intro t fd buf ok io s' r ha hcall i hreg hne
    obtain ⟨T, hT, hr⟩ := Option.bind_eq_some_iff.mp hcall
    have hs' : (sysWrite s T fd buf ok io).1 = s' := congrArg Prod.fst (Option.some.inj hr)
    obtain ⟨d, hfd, hd, hi, hbuf, hpipe, -⟩ := sysWrite_inodes (s := s) (T := T)
      fun he : (Files.sysWrite s T fd buf ok io).1.inodes i = s.inodes i =>
        hne (by rw [← hs', he])
    have hg := hrec.granted d ⟨t, T, hT, fd, hfd, hd⟩
    have hmode := ha T hT d hd hfd hbuf (hi ▸ hpipe) (hi ▸ hreg)
    have hino : d.opening.inode = i := hg.inode.symm.trans hi
    rw [← hino] at hpipe
    rw [hg.mode hpipe] at hmode
    exact ⟨T, d, hT, hfd, hd, hino, hmode, hg.write hpipe hmode⟩
  · intro t fd count ok io s' l ha hcall
    obtain ⟨T, hT, hr⟩ := Option.bind_eq_some_iff.mp hcall
    have hl : (sysRead s T fd count ok io).2 = .data l := congrArg Prod.snd (Option.some.inj hr)
    obtain ⟨d, hfd, hd, hcount, hpipe⟩ := sysRead_data hl
    have hg := hrec.granted d ⟨t, T, hT, fd, hfd, hd⟩
    refine ⟨T, d, hT, hfd, hd, ?_⟩
    cases hp : (s.inodes d.opening.inode).iPipe with
    | true => exact .inl (hg.pipe hp (hpipe (hg.inode ▸ hp)))
    | false =>
      have hmode := ha T hT d hd hfd hcount (hg.inode ▸ hp)
      rwa [hg.mode hp] at hmode

/-! ## A file of another user -/

section Examples

def init : Fin NR_TASKS := ⟨0, by decide⟩

def user : Cred := { euid := 1000, egid := 1000, groups := [] }

/-- A task of an ordinary user, and root's file with the given rights. -/
def oneFile (mode : BitVec 16) : State where
  tasks := fun t => if t = init then
    some { cred := user, umask := 0o022, filp := fun _ => none } else none
  files := fun _ => { fMode := 0, fFlags := 0, fCount := 0, fInode := 0, fPos := 0 }
  inodes := fun _ =>
    { iMode := S_IFREG ||| mode, iUid := 0, iGid := 0, iNlinks := 1, iDev := 0x301, iPipe := false,
      iSize := 0, data := fun _ => 0 }

theorem closed_oneFile (mode : BitVec 16) : Closed (oneFile mode) := by
  constructor
  · intro f
    rfl
  · intro t T hT fd
    simp only [oneFile] at hT
    split_ifs at hT
    obtain rfl := Option.some.inj hT
    rfl

def openCall (flag : BitVec 32) : Fin NR_TASKS × Call :=
  (init, .open flag 0 (.found (some 0)) false)

def writeCall (buf : List UInt8) : Fin NR_TASKS × Call :=
  (init, .write 0 buf (fun _ => true) { ret := .num 0, pos := 0 })

/-- Root's file, readable by everyone, after the user opened it for reading. -/
def readOnly : State := (runList step [openCall O_RDONLY] (oneFile 0o444)).get (by decide)

/-- The user writes to the file, though `permission` does not grant it. -/
theorem write_through_rdonly :
    Closed (oneFile 0o444) ∧ Run step Always (oneFile 0o444) readOnly ∧
      permission user (readOnly.inodes 0) MAY_WRITE = false ∧ (readOnly.inodes 0).isReg ∧
      (call readOnly (writeCall [7])).map (fun r => (r.1.inodes 0).iSize) = some 1 ∧
      (readOnly.inodes 0).iSize = 0 ∧ ¬ WritesTo readOnly init 0 0 := by
  refine ⟨closed_oneFile _, .of_runList_get _, by decide, by decide, by decide +kernel,
    by decide, ?_⟩
  rintro ⟨T, d, hT, -, hd, -, hacc, -⟩
  have h : (readOnly.tasks init).bind (fun T => (T.filp 0).map fun d => d.opening.accmode) =
      some O_RDONLY := by decide +kernel
  rw [hT, Option.bind_some, hd, Option.map_some] at h
  rw [Option.some.inj h] at hacc
  exact absurd hacc (by decide)

/-- A file that everyone may write, opened for both. -/
def readWrite : State := (step (openCall O_RDWR) (oneFile 0o666)).get (by decide)

theorem run_readWrite : Run step Allowed (oneFile 0o666) readWrite :=
  .tail .refl (fun _ _ => trivial) (Option.some_get _).symm

def written : State × Ret := (call readWrite (writeCall [7])).get (by decide +kernel)

theorem write_needs_permission_readWrite : WritesTo readWrite init 0 0 := by
  have hw : call readWrite (writeCall [7]) = some written := (Option.some_get _).symm
  refine (write_needs_permission (closed_oneFile 0o666) run_readWrite).1 init 0 [7] _ _
    written.1 written.2 ?_ hw 0 (by decide) ?_
  · intro T hT d hd _ _ _ _
    have h : (readWrite.tasks init).bind (fun T => (T.filp 0).map fun d =>
        (readWrite.files d.file).fFlags.setWidth 32 &&& O_ACCMODE) = some O_RDWR := by
      decide +kernel
    rw [hT, Option.bind_some, hd, Option.map_some] at h
    exact .inr (Option.some.inj h)
  · have h : (written.1.inodes 0).iSize ≠ (readWrite.inodes 0).iSize := by decide +kernel
    exact fun he => h (Prod.ext_iff.mp he).2

end Examples

end Linux012.Files
