import Linux012.Lib.Runs
import Linux012.Fs.Files.Refs

/-! # Access modes and permissions

What `open` was asked for and allowed to do stays on record in the file entry as long as
a descriptor refers to it. `sys_write` and `sys_read` do not consult this record for
anything but pipes.
-/

namespace Linux012.Files

open Function Runs

variable {s s' : State} {t : Fin NR_TASKS} {T T' : Task} {fd f : ℕ} {d : Desc}

/-! ## Bits -/

theorem and_accmode_congr {x y : BitVec 32} (h₀ : x.getLsbD 0 = y.getLsbD 0)
    (h₁ : x.getLsbD 1 = y.getLsbD 1) : x &&& O_ACCMODE = y &&& O_ACCMODE := by
  refine BitVec.eq_of_getLsbD_eq fun i hi => ?_
  rw [BitVec.getLsbD_and, BitVec.getLsbD_and]
  rcases i with _ | _ | i
  · rw [h₀]
  · rw [h₁]
  · have : O_ACCMODE.getLsbD (i + 1 + 1) = false := by
      simp [O_ACCMODE, BitVec.getLsbD_ofNat, Nat.testBit_succ]
    simp [this]

/-- Cutting the flags down to an `unsigned short` keeps the access mode. -/
theorem accmode_setWidth (flag : BitVec 32) :
    (flag.setWidth 16).setWidth 32 &&& O_ACCMODE = flag &&& O_ACCMODE :=
  and_accmode_congr (by simp) (by simp)

/-- `F_SETFL` keeps the access mode. -/
theorem accmode_setFl (x arg : BitVec 16) :
    ((x &&& ~~~((O_APPEND ||| O_NONBLOCK).setWidth 16)) |||
      (arg &&& (O_APPEND ||| O_NONBLOCK).setWidth 16)).setWidth 32 &&& O_ACCMODE =
      x.setWidth 32 &&& O_ACCMODE := by
  have h₀ : ((O_APPEND ||| O_NONBLOCK).setWidth 16).getLsbD 0 = false := by decide
  have h₁ : ((O_APPEND ||| O_NONBLOCK).setWidth 16).getLsbD 1 = false := by decide
  refine and_accmode_congr ?_ ?_
  · simp only [BitVec.getLsbD_setWidth, BitVec.getLsbD_or, BitVec.getLsbD_and,
      BitVec.getLsbD_not, h₀]
    simp
  · simp only [BitVec.getLsbD_setWidth, BitVec.getLsbD_or, BitVec.getLsbD_and,
      BitVec.getLsbD_not, h₁]
    simp

theorem and_may_write (x : BitVec 32) : x &&& MAY_WRITE &&& 0o7 = MAY_WRITE ↔ x.getLsbD 1 = true := by
  have h : MAY_WRITE &&& 0o7 = BitVec.twoPow 32 1 := by decide
  have h' : MAY_WRITE = BitVec.twoPow 32 1 := by decide
  have hne : (0#32) ≠ BitVec.twoPow 32 1 := by decide
  rw [BitVec.and_assoc, h, h', BitVec.and_twoPow]
  split_ifs with hx
  · simp [hx]
  · simpa [hne] using hx

/-! ## What permission grants -/

theorem permission_of_and {c : Cred} {i : Inode} {m m' : BitVec 32}
    (hm : ∀ x : BitVec 32, x &&& m &&& 0o7 = m → x &&& m' &&& 0o7 = m')
    (h : permission c i m = true) : permission c i m' = true := by
  unfold permission at h ⊢
  split_ifs at h ⊢ with hd hu hg
  all_goals
    simp only [Bool.or_eq_true, decide_eq_true_eq] at h ⊢
    exact h.imp_left (hm _)

/-- Who may open for writing may write. -/
theorem may_write_of_accMode {c : Cred} {i : Inode} {flag : BitVec 32}
    (hf : flag &&& O_ACCMODE = O_WRONLY ∨ flag &&& O_ACCMODE = O_RDWR)
    (h : permission c i (accMode flag) = true) : permission c i MAY_WRITE = true := by
  rcases hf with hf | hf
  · have : accMode flag = MAY_WRITE := by rw [accMode, hf]; rfl
    rwa [this] at h
  · have : accMode flag = 0o6 := by rw [accMode, hf]; rfl
    rw [this] at h
    refine permission_of_and (fun x hx => ?_) h
    have h₆ : (0o6 : BitVec 32) &&& 0o7 = 0o6 := by decide
    have h₂ : (0o6 : BitVec 32) &&& MAY_WRITE = MAY_WRITE := by decide
    have h₇ : MAY_WRITE &&& (0o7 : BitVec 32) = MAY_WRITE := by decide
    rw [BitVec.and_assoc, h₆] at hx
    rw [BitVec.and_assoc, h₇]
    calc x &&& MAY_WRITE = x &&& (0o6 &&& MAY_WRITE) := by rw [h₂]
      _ = (x &&& 0o6) &&& MAY_WRITE := (BitVec.and_assoc ..).symm
      _ = MAY_WRITE := by rw [hx, h₂]

theorem permission_truncate (c : Cred) (i : Inode) (m : BitVec 32) :
    permission c (truncate i) m = permission c i m := by
  unfold truncate
  split_ifs <;> rfl

theorem iPipe_truncate (i : Inode) : (truncate i).iPipe = i.iPipe := by
  unfold truncate
  split_ifs <;> rfl

/-- The creator of a file may write to it when the mode leaves the owner that right. -/
theorem may_write_created {c : Cred} {dir : Inode} {umask mode : BitVec 32}
    (h : mode &&& ~~~umask &&& 0o200 ≠ 0 ∨ c.euid = 0) :
    permission c { newInode c dir with
      iUid := c.euid, iMode :=
        (((mode &&& (0o777 &&& ~~~umask) &&& (0o777 &&& ~~~umask)) ||| I_REGULAR).setWidth 16) }
      MAY_WRITE = true := by
  unfold permission
  simp only [newInode, Nat.one_ne_zero, and_false, if_false, if_true, Bool.or_eq_true,
    decide_eq_true_eq, and_may_write]
  rcases h with h | h
  · left
    have h200 : (0o200 : BitVec 32) = BitVec.twoPow 32 7 := by decide
    have h777 : (0o777 : BitVec 32).getLsbD 7 = true := by decide
    rw [h200, BitVec.and_twoPow] at h
    split_ifs at h with hbit
    · simp only [BitVec.getLsbD_and, BitVec.getLsbD_not] at hbit
      simp only [BitVec.getLsbD_ushiftRight, BitVec.getLsbD_setWidth, BitVec.getLsbD_or,
        BitVec.getLsbD_and, BitVec.getLsbD_not]
      have hm : mode[7] = true ∧ umask[7] = false := by simpa using hbit
      simp [hm]
    · exact absurd rfl h
  · right; simpa [Cred.suser] using h

/-! ## What stays on record -/

/-- The file entry of a descriptor still says how it was opened. -/
structure Granted (s : State) (d : Desc) : Prop where
  inode : (s.files d.file).fInode = d.opening.inode
  pipe : (s.inodes d.opening.inode).iPipe = true →
    (s.files d.file).fMode &&& 1 ≠ 0 → d.opening.accmode = O_RDONLY
  mode : (s.inodes d.opening.inode).iPipe = false →
    (s.files d.file).fFlags.setWidth 32 &&& O_ACCMODE = d.opening.accmode
  write : (s.inodes d.opening.inode).iPipe = false →
    d.opening.accmode = O_WRONLY ∨ d.opening.accmode = O_RDWR → d.opening.mayWrite = true

theorem Granted.congr (h : Granted s d)
    (hf : ((s'.files d.file).fInode, (s'.files d.file).fMode,
        (s'.files d.file).fFlags.setWidth 32 &&& O_ACCMODE) =
      ((s.files d.file).fInode, (s.files d.file).fMode,
        (s.files d.file).fFlags.setWidth 32 &&& O_ACCMODE))
    (hp : (s'.inodes (s.files d.file).fInode).iPipe = (s.inodes (s.files d.file).fInode).iPipe) :
    Granted s' d := by
  simp only [Prod.mk.injEq] at hf
  obtain ⟨h₁, h₂, h₃⟩ := hf
  rw [h.inode] at hp
  exact ⟨h₁.trans h.inode, by rw [hp, h₂]; exact h.pipe, by rw [hp, h₃]; exact h.mode,
    by rw [hp]; exact h.write⟩

/-- Counts are right and every descriptor is on record. -/
structure Recorded (s : State) : Prop where
  counted : Counted s
  granted : ∀ d, s.Has d → Granted s d

namespace Recorded

/-- Descriptors stay the same or go, and entries keep what is on record. -/
theorem keep (h : Recorded s) (hc : Counted s') (hhas : ∀ d, s'.Has d → s.Has d)
    (hf : ∀ f, ((s'.files f).fInode, (s'.files f).fMode,
        (s'.files f).fFlags.setWidth 32 &&& O_ACCMODE) =
      ((s.files f).fInode, (s.files f).fMode, (s.files f).fFlags.setWidth 32 &&& O_ACCMODE))
    (hp : ∀ i, (s'.inodes i).iPipe = (s.inodes i).iPipe) : Recorded s' :=
  ⟨hc, fun d hd => (h.granted d (hhas d hd)).congr (hf _) (hp _)⟩

theorem setFile (h : Recorded s) (f : ℕ) (g : File → File)
    (hg : ∀ x, ((g x).fInode, (g x).fMode, (g x).fFlags.setWidth 32 &&& O_ACCMODE, (g x).fCount) =
      (x.fInode, x.fMode, x.fFlags.setWidth 32 &&& O_ACCMODE, x.fCount)) :
    Recorded (s.setFile f g) := by
  refine h.keep (h.counted.setFile f g fun x => ?_) (fun _ hd => hd) (fun f' => ?_) fun _ => rfl
  · have := hg x
    simp only [Prod.mk.injEq] at this
    exact this.2.2.2
  · rw [State.files_setFile]
    split_ifs with hf
    · subst hf
      have := hg (s.files f')
      simp only [Prod.mk.injEq] at this ⊢
      exact ⟨this.1, this.2.1, this.2.2.1⟩
    · rfl

theorem setInode (h : Recorded s) (i : ℕ) (g : Inode → Inode)
    (hg : ∀ x, (g x).iPipe = x.iPipe) : Recorded (s.setInode i g) := by
  refine h.keep (h.counted.setInode i g) (fun _ hd => hd) (fun _ => rfl) fun j => ?_
  rw [State.inodes_setInode]
  split_ifs with hj
  · rw [hg, hj]
  · rfl

theorem close (h : Recorded s) (hc : Counted s') (hcl : Closes t s s') : Recorded s' := by
  refine h.keep hc hcl.has (fun f => ?_) fun i => by rw [hcl.inodes]
  obtain ⟨n, hn⟩ := hcl.files f
  rw [hn]

theorem fork (h : Recorded s) (hT : s.tasks t = some T) {nr : Fin NR_TASKS} {r : State × Ret}
    (hr : fork s T nr = some r) : Recorded r.1 := by
  obtain ⟨hc, hhas, hi, hf⟩ := h.counted.fork hT hr
  exact h.keep hc hhas (fun f => by rw [hf]) fun i => by rw [hi]

/-- A descriptor in use does not refer to an unused inode. -/
theorem ne_of_unused (h : Recorded s) {i : ℕ} (hi : s.Unused i) (hd : s.Has d) :
    (s.files d.file).fInode ≠ i :=
  hi _ (h.counted.bound d hd) (h.counted.pos hd)

theorem dupfd (h : Recorded s) (hT : s.tasks t = some T) (fd arg : ℕ) :
    Recorded (dupfd s t T fd arg).1 := by
  unfold Files.dupfd
  split
  · exact h
  rename_i d hd
  split_ifs at hd with hfd
  split_ifs with harg
  · exact h
  split
  · exact h
  rename_i a ha
  have hfree : T.filp a = none := by simpa using List.find?_some ha
  have hlt : a < NR_OPEN := by
    have := List.mem_of_find?_eq_some ha
    rw [List.mem_range'_1] at this
    omega
  have hhas : s.Has d := ⟨t, T, hT, fd, hfd, hd⟩
  set s' := incCount (s.setTask t (T.setFilp a (some d))) d.file with hs'
  have hfile : ∀ f, s'.files f =
      { s.files f with fCount := (s.files f).fCount + own f (some d) } := by
    intro f
    have := h.counted.lt f
    rw [hs', incCount, State.files_setFile]
    by_cases hf : f = d.file
    · rw [if_pos hf, ← hf]
      simp only [own, hf, if_true, File.mk.injEq, true_and, and_true, State.files_setTask]
      rw [hf] at this
      omega
    · simp [own, hf, Ne.symm hf]
  apply h.keep
  · apply h.counted.setFilp hT hlt _ rfl
    · intro f
      rw [hfile, hfree]
      simp [own]
    · intro d' hd'
      obtain rfl := Option.some.inj hd'
      exact h.counted.bound d hhas
  · intro d' hd'
    rcases hd'.of_setFilp hT rfl with hd' | hd'
    · exact hd'
    · exact Option.some.inj hd' ▸ hhas
  · intro f
    rw [hfile]
  · exact fun _ => rfl

theorem sysDup2 (h : Recorded s) (hT : s.tasks t = some T) {oldfd newfd : ℕ} {r : State × Ret}
    (hr : sysDup2 s t T oldfd newfd = some r) : Recorded r.1 := by
  obtain ⟨r₁, hr₁, hr⟩ := Option.bind_eq_some_iff.mp hr
  obtain ⟨T₁, hT₁, rfl⟩ := Option.map_eq_some_iff.mp hr
  exact (h.close (h.counted.sysClose hT hr₁) (closes_sysClose hT hr₁).1).dupfd hT₁ oldfd newfd

end Recorded

/-- What `open_namei` leaves: the files are as before, only an unused inode becomes another file,
and an inode that it returns is not a pipe and may be written if it was opened for that. -/
structure Opened (s s' : State) (T : Task) (flag : BitVec 32) (create : Prop)
    (r : Except Errno ℕ) : Prop where
  tasks : s'.tasks = s.tasks
  files : s'.files = s.files
  pipe : ∀ i, s.Unused i ∨ (s'.inodes i).iPipe = (s.inodes i).iPipe
  result : ∀ i, r = .ok i → (s'.inodes i).iPipe = false ∧
    (create → flag &&& O_ACCMODE = O_WRONLY ∨ flag &&& O_ACCMODE = O_RDWR →
      permission T.cred (s'.inodes i) MAY_WRITE = true)

/-- A file that is created for writing gives its owner that right. -/
def CreateOk (T : Task) (flag mode : BitVec 32) : Lookup → Prop
  | .missing _ _ _ => flag &&& O_ACCMODE = O_WRONLY ∨ flag &&& O_ACCMODE = O_RDWR →
      mode &&& ~~~T.umask &&& 0o200 ≠ 0 ∨ T.cred.euid = 0
  | _ => True

theorem Opened.error {flag : BitVec 32} {create : Prop} {e : Errno} :
    Opened s s T flag create (.error e) :=
  ⟨rfl, rfl, fun _ => .inr rfl, fun _ h => by cases h⟩

theorem Opened.keep {flag : BitVec 32} {create : Prop} {i : ℕ} (hp : (s.inodes i).iPipe = false)
    (hw : flag &&& O_ACCMODE = O_WRONLY ∨ flag &&& O_ACCMODE = O_RDWR →
      permission T.cred (s.inodes i) MAY_WRITE = true) :
    Opened s s T flag create (.ok i) := by
  constructor
  · rfl
  · rfl
  · exact fun _ => .inr rfl
  · rintro j hj
    obtain rfl := Except.ok.inj hj
    exact ⟨hp, fun _ => hw⟩

theorem opened_openNamei (flag mode : BitVec 32) {path : Lookup} (hv : path.Valid s) :
    Opened s (openNamei s T flag (mode &&& (0o777 &&& ~~~T.umask)) path).1 T flag
      (CreateOk T flag mode path)
      (openNamei s T flag (mode &&& (0o777 &&& ~~~T.umask)) path).2 := by
  set flag' := if flag &&& O_TRUNC ≠ 0 ∧ flag &&& O_ACCMODE = 0 then flag ||| O_WRONLY else flag
    with hf'
  -- the flag is changed only where no access was asked for
  have hflag : flag &&& O_ACCMODE = O_WRONLY ∨ flag &&& O_ACCMODE = O_RDWR → flag' = flag := by
    intro h
    refine if_neg fun h' => ?_
    rw [h'.2] at h
    exact absurd h (by decide)
  cases path with
  | noDir => exact .error
  | isDir dir =>
    simp only [openNamei, ← hf']
    split_ifs with h₁
    · refine .keep hv fun hw => ?_
      rw [hflag hw] at h₁
      have h₃ : (O_ACCMODE ||| O_CREAT ||| O_TRUNC) &&& O_ACCMODE = O_ACCMODE := by decide
      have : flag &&& O_ACCMODE = 0 := by
        rw [← h₃, ← BitVec.and_assoc, h₁]; rfl
      rw [this] at hw
      exact absurd hw (by decide)
    · exact .error
  | missing dir new entry =>
    have hpipe : ∀ i g, new = some i → ∀ j,
        s.Unused j ∨ ((s.setInode i g).inodes j).iPipe = (s.inodes j).iPipe := by
      rintro i g hnew j
      by_cases hj : j = i
      · exact .inl (hj ▸ hv i hnew)
      · rw [State.inodes_setInode, if_neg hj]
        exact .inr rfl
    simp only [openNamei, ← hf']
    by_cases hc : flag' &&& O_CREAT = 0
    · rw [if_pos hc]
      exact .error
    rw [if_neg hc]
    by_cases hp : permission T.cred (s.inodes dir) MAY_WRITE = true
    swap
    · rw [if_pos hp]
      exact .error
    rw [if_neg (not_not.mpr hp)]
    cases new with
    | none => exact .error
    | some i =>
      cases entry with
      | true =>
        simp only [if_true]
        constructor
        · rfl
        · rfl
        · exact hpipe i _ rfl
        · rintro j hj
          obtain rfl := Except.ok.inj hj
          simp only [State.inodes_setInode, if_true]
          exact ⟨rfl, fun hc hw => may_write_created (hc hw)⟩
      | false =>
        constructor
        · rfl
        · rfl
        · intro j
          by_cases hj : j = i
          · exact .inl (hj ▸ hv i rfl)
          · simp [State.inodes_setInode, hj]
        · rintro j ⟨⟩
  | found inode =>
    simp only [openNamei, ← hf']
    by_cases hexcl : flag' &&& O_EXCL ≠ 0
    · rw [if_pos hexcl]
      exact .error
    rw [if_neg hexcl]
    cases inode with
    | none => exact .error
    | some i =>
      dsimp only
      split_ifs with hperm htrunc
      · exact .error
      · push Not at hperm
        have hw : flag &&& O_ACCMODE = O_WRONLY ∨ flag &&& O_ACCMODE = O_RDWR →
            permission T.cred (s.inodes i) MAY_WRITE = true := by
          intro hw
          have h := hperm.2
          rw [hflag hw] at h
          exact may_write_of_accMode hw h
        constructor
        · rfl
        · rfl
        · intro j
          right
          rw [State.inodes_setInode]
          split_ifs with hj
          · rw [hj]
            exact iPipe_truncate _
          · rfl
        · rintro j hj
          obtain rfl := Except.ok.inj hj
          rw [State.inodes_setInode, if_pos rfl, iPipe_truncate, permission_truncate]
          exact ⟨hv i rfl, fun _ => hw⟩
      · push Not at hperm
        apply Opened.keep (hv i rfl)
        intro hw
        have h := hperm.2
        rw [hflag hw] at h
        exact may_write_of_accMode hw h

end Linux012.Files
