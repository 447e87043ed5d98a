import Linux012.Fs.Exec.Calls

/-! # When `do_execve` keeps its word

Strings that are too long lead it astray, unless it stops before: `bounded_iff`, `undone_iff`. The new
program finds its arguments unless it is a script that was given not even its name: `roundTrip_iff`.
-/

namespace Linux012.Exec

open Function Files Terminated

variable {w : World} {call : Call} {s s₀ s' : State} {memMap : ℕ → ℕ} {inode : ℕ} {ids : Ids} {ex : Header}
  {p : UInt32} {k : Kind}

/-! ## The new stack -/

/-- The walk over the strings ends, and takes the first as arguments and the next as environment. -/
theorem commit_arranged {strs : List Str} {argc : ℤ} {envc : ℕ} (filled : Filled w memMap (enc strs) s)
    (hp : p.toNat + (enc strs).length = argTop) (hn : argc.toNat + envc ≤ strs.length) :
    ∃ s', commit inode ids ex argc envc p s = .ok (.ok (), s') ∧
      Arranged s'.task.mem s'.task.esp (strs.take argc.toNat) ((strs.drop argc.toNat).take envc) := by
  have hbase : argTop + areaBase ≤ TASK_SIZE := by decide
  have hlow : 4 * (argTop + 6) ≤ areaBase := by decide
  have hcount := length_le_length_enc strs
  obtain ⟨args, hargs⟩ : ∃ args, args = strs.take argc.toNat := ⟨_, rfl⟩
  obtain ⟨env, henv⟩ : ∃ env, env = (strs.drop argc.toNat).take envc := ⟨_, rfl⟩
  have hsplit : strs = args ++ env ++ (strs.drop argc.toNat).drop envc := by
    rw [hargs, henv, List.append_assoc, List.take_append_drop, List.take_append_drop]
  have hlenArgs : args.length = argc.toNat := by
    rw [hargs, List.length_take]
    omega
  have hlenEnv : env.length = envc := by
    rw [henv, List.length_take, List.length_drop]
    omega
  have hmem : Holds (changeLdt s) (p.toNat + areaBase) (enc strs) := by
    have := filled.holds_changeLdt
    rwa [show argTop - (enc strs).length + areaBase = p.toNat + areaBase by omega] at this
  have hle : (enc (args ++ env)).length ≤ (enc strs).length := by
    rw [hsplit, enc_append (args ++ env), List.length_append]
    exact Nat.le_add_right _ _
  rw [hsplit, enc_append, holds_append] at hmem
  obtain ⟨sp, mem', hok, harr⟩ := createTables_spec hmem.1 (by omega) (by omega)
  rw [hlenArgs, hlenEnv] at hok
  unfold commit
  dsimp only
  have hsame : changeLdt s.putExecutable = changeLdt s := by
    unfold State.putExecutable
    cases s.task.executable with
    | none => rfl
    | some i => rfl
  rw [hsame, hok]
  refine ⟨_, rfl, ?_⟩
  rw [← hargs, ← henv]
  exact harr

/-- A script is started without even a name for it in `argv`. -/
def Kind.Bare (call : Call) : Kind → Prop
  | .program => False
  | .script _ => call.argv = []

theorem Kind.argc_of_not_bare (h : ¬ k.Bare call) : (k.argc call).toNat = (k.args call).length := by
  cases k with
  | program => rfl
  | script sc =>
    obtain ⟨_, iName, iArg⟩ := sc
    have hpos : 0 < call.argv.length := List.length_pos_iff.mpr h
    cases iArg with
    | none =>
      simp only [Kind.argc, Kind.args, Option.toList_none, List.nil_append, List.length_cons, List.length_tail]
      omega
    | some arg =>
      simp only [Kind.argc, Kind.args, Option.toList_some, List.cons_append, List.nil_append,
        List.length_cons, List.length_tail]
      omega

theorem Kind.argc_of_bare (h : k.Bare call) : (k.argc call).toNat + 1 = (k.args call).length := by
  cases k with
  | program => exact h.elim
  | script sc =>
    obtain ⟨_, iName, iArg⟩ := sc
    have h0 : call.argv = [] := h
    cases iArg with
    | none => simp [Kind.argc, Kind.args, h0]
    | some arg => simp [Kind.argc, Kind.args, h0]

theorem Kind.argc_le (k : Kind) (call : Call) : (k.argc call).toNat ≤ (k.args call).length := by
  by_cases h : k.Bare call
  · have := k.argc_of_bare h
    omega
  · exact (Kind.argc_of_not_bare h).le

/-- A call that gets to the point of no return makes the stack with the count it has. -/
theorem commit_ok (filled : Filled w memMap (content (k.batches call)) s)
    (hp : p.toNat + size (k.batches call) = argTop) :
    ∃ s', commit inode ids ex (k.argc call) call.envp.length p s = .ok (.ok (), s') ∧
      (getLong s'.task.mem s'.task.esp).toNat = (k.argc call).toNat ∧
      (¬ k.Bare call → Arranged s'.task.mem s'.task.esp (k.args call) call.envp) := by
  unfold size at hp
  rw [Kind.content_batches] at filled hp
  have hle := k.argc_le call
  obtain ⟨s', hok, harr⟩ := @commit_arranged w _ _ inode ids ex _ _ (k.argc call)
    call.envp.length filled hp (by rw [List.length_append]; omega)
  refine ⟨s', hok, ?_, fun hb => ?_⟩
  · rw [harr.argc, List.length_take, List.length_append]
    omega
  · have hargc := Kind.argc_of_not_bare hb
    rw [hargc, List.take_left, List.drop_left, List.take_length] at harr
    exact harr

/-! ## Strings that are too long -/

theorem checkInode_ne_nomem {cred : Cred} {i : Inode} : checkInode cred i ≠ .error .ENOMEM := by
  unfold checkInode
  by_cases hreg : i.mode &&& S_IFMT ≠ S_IFREG
  · rw [if_pos hreg]
    exact nofun
  · rw [if_neg hreg]
    generalize (if cred.euid = i.uid then i.mode >>> 6
      else if cred.inGroupP i.gid then i.mode >>> 3 else i.mode) = mode
    dsimp only
    by_cases hmay : mode &&& 1 = 0 ∧ ¬ (i.mode &&& 0o111 ≠ 0 ∧ cred.suser)
    · rw [if_pos hmay]
      exact nofun
    · rw [if_neg hmay]
      exact nofun

theorem image_ne_nomem {cred : Cred} : image w cred inode ≠ .error .ENOMEM := by
  unfold image
  cases h : checkInode cred (w.inode inode) with
  | error e =>
    rintro ⟨⟩
    exact checkInode_ne_nomem h
  | ok ids =>
    cases (w.inode inode).block with
    | none => exact nofun
    | some b =>
      dsimp only
      split_ifs <;> exact nofun

theorem target_ne_nomem {cred : Cred} : call.target w cred ≠ .error .ENOMEM := by
  unfold Call.target
  cases w.lookup call.filename with
  | none => exact nofun
  | some inode =>
    dsimp only
    cases h : checkInode cred (w.inode inode) with
    | error e =>
      rintro ⟨⟩
      exact checkInode_ne_nomem h
    | ok ids =>
      cases (w.inode inode).block with
      | none => exact nofun
      | some b =>
        obtain ⟨b, bytes⟩ := b
        dsimp only
        split_ifs
        · cases parseScript bytes with
          | none => exact nofun
          | some sc =>
            dsimp only
            cases w.lookup sc.interp with
            | none => exact nofun
            | some interp =>
              dsimp only
              cases hi : image w cred interp with
              | error e =>
                rintro ⟨⟩
                exact image_ne_nomem hi
              | ok r => exact nofun
        · exact nofun
        · exact nofun

/-- The strings go past the bottom of the area, and nothing stops the copying before. -/
def Overruns (w : World) (bs : List (List Str)) : Prop :=
  argTop < size bs ∧ ¬ Refuses w (size bs) ∧ ¬ Hits bs

instance (bs : List (List Str)) : Decidable (Overruns w bs) := inferInstanceAs (Decidable (_ ∧ _ ∧ _))

theorem not_refuses_of_all (h : ∀ i, w.grant i ≠ none) (n : ℕ) : ¬ Refuses w n :=
  fun ⟨i, _, hi⟩ => h i hi

/-- A call goes astray exactly if it copies strings that run past the bottom. -/
theorem astray_iff (hcs : 0xffff &&& s.task.cs = 0xf) : doExecve w call s = .error .astray ↔
    ∃ k, call.kind w s.task.cred = some k ∧ Overruns w (k.batches call) := by
  have h := @doExecve_ends w call s hcs
  generalize doExecve w call s = r at h
  cases h with
  | failed bad fits clean =>
    refine iff_of_false nofun ?_
    rintro ⟨k, hk, hlong, -⟩
    exact absurd (fits k hk).1 (by omega)
  | nomem hk why clean =>
    refine iff_of_false nofun ?_
    rintro ⟨k', hk', -, hno, hoff⟩
    cases hk.symm.trans hk'
    exact why.elim hno hoff
  | astray hk all long off => exact iff_of_true rfl ⟨_, hk, long, not_refuses_of_all all _, off⟩
  | done hk good filled hp pos =>
    obtain ⟨s', hok, -⟩ := commit_ok filled hp
    rw [hok]
    refine iff_of_false nofun ?_
    rintro ⟨k', hk', hlong, -⟩
    cases hk.symm.trans hk'
    omega

/-- There is room for the strings, and a page for each part of it. -/
def Fits (w : World) (bs : List (List Str)) : Prop := size bs ≤ argTop ∧ ¬ Refuses w (size bs)

/-- No string is copied past the area, and a call that gets as far as copying the strings fails for
want of memory exactly if they do not fit. -/
structure Bounded (w : World) (call : Call) (s : State) : Prop where
  safe : doExecve w call s ≠ .error .astray
  nomem : (∃ s', doExecve w call s = .ok (.error .ENOMEM, s')) ↔
    ∃ k, call.kind w s.task.cred = some k ∧ ¬ Fits w (k.batches call)

/-- The bound is kept exactly if the strings leave a byte, a page is refused, or a batch of strings
before the last one that is copied ends just at the bottom. -/
theorem bounded_iff (hcs : 0xffff &&& s.task.cs = 0xf) : Bounded w call s ↔
    ∀ k, call.kind w s.task.cred = some k → size (k.batches call) < argTop ∨
      Refuses w (size (k.batches call)) ∨ argTop < size (k.batches call) ∧ Hits (k.batches call) := by
  have hastray := @astray_iff w call s hcs
  have h := @doExecve_ends w call s hcs
  constructor
  · rintro ⟨hsafe, hnomem⟩ k hk
    generalize doExecve w call s = r at h hsafe hnomem hastray
    cases h with
    | failed bad fits clean => exact .inl (fits k hk).1
    | nomem hk' why clean =>
      cases hk.symm.trans hk'
      obtain ⟨k', hk', hno⟩ := hnomem.mp ⟨_, rfl⟩
      cases hk.symm.trans hk'
      unfold Fits at hno
      by_cases hr : Refuses w (size (k.batches call))
      · exact .inr (.inl hr)
      · have hlong : argTop < size (k.batches call) := by
          by_contra hle
          exact hno ⟨by omega, hr⟩
        exact .inr (.inr ⟨hlong, why.resolve_left hr⟩)
    | astray hk' all long off => exact absurd rfl hsafe
    | done hk' good filled hp pos =>
      cases hk.symm.trans hk'
      exact .inl (filled.lt_argTop hp pos).1
  · intro hall
    have hsafe : doExecve w call s ≠ .error .astray := by
      intro ha
      obtain ⟨k, hk, hlong, hno, hoff⟩ := hastray.mp ha
      rcases hall k hk with h1 | h1 | ⟨-, h1⟩
      · omega
      · exact hno h1
      · exact hoff h1
    refine ⟨hsafe, ?_⟩
    generalize doExecve w call s = r at h hsafe hastray
    cases h with
    | failed bad fits clean =>
      refine iff_of_false ?_ ?_
      · rintro ⟨s', hs'⟩
        cases hs'
        exact target_ne_nomem bad
      · rintro ⟨k, hk, hno⟩
        exact hno ⟨(fits k hk).1.le, (fits k hk).2⟩
    | nomem hk why clean =>
      refine iff_of_true ⟨_, rfl⟩ ⟨_, hk, ?_⟩
      rintro ⟨hle, hno⟩
      rcases hall _ hk with h1 | h1 | ⟨h1, -⟩
      · exact not_hits_of_lt h1 (why.resolve_left hno)
      · exact hno h1
      · omega
    | astray hk all long off => exact absurd rfl hsafe
    | done hk good filled hp pos =>
      obtain ⟨s', hok, -⟩ := commit_ok filled hp
      rw [hok]
      refine iff_of_false ?_ ?_
      · rintro ⟨s', hs'⟩
        cases hs'
      · rintro ⟨k, hk', hno⟩
        cases hk.symm.trans hk'
        obtain ⟨hlt, hno'⟩ := filled.lt_argTop hp pos
        exact hno ⟨hlt.le, hno'⟩

/-! ## The arguments -/

theorem scanName_of_notMem {cp : List UInt8} (h : slash ∉ cp) (iName : List UInt8) :
    scanName cp iName = iName := by
  induction cp generalizing iName with
  | nil => rfl
  | cons c cp ih =>
    rw [List.mem_cons, not_or] at h
    rw [scanName, if_neg (Ne.symm h.1), ih h.2]

theorem scanName_append {cp : List UInt8} (pre iName : List UInt8) (h : slash ∉ cp) :
    scanName (pre ++ slash :: cp) iName = cp := by
  induction pre generalizing iName with
  | nil => rw [List.nil_append, scanName, if_pos rfl, scanName_of_notMem h]
  | cons c pre ih => exact ih _

/-- The line gives the path of the interpreter and, behind the first blank, its argument; the name of
the interpreter is the last component of the path. -/
theorem parseScript_spec {bytes : ℕ → UInt8} {sc : Script} (h : parseScript bytes = some sc) :
    (∃ text, scriptText bytes = some text ∧ (∀ c ∈ sc.interp.body, isBlank c = false) ∧
      (sc.iArg = none ∧ text.body = sc.interp.body ∨
        ∃ arg b, sc.iArg = some arg ∧ isBlank b = true ∧ text.body = sc.interp.body ++ b :: arg.body)) ∧
    ∀ pre name, slash ∉ name → (sc.interp.body = pre ++ slash :: name ∨ pre = [] ∧ sc.interp.body = name) →
      sc.iName.body = name := by
  obtain ⟨text, htext, rfl⟩ := Option.map_eq_some_iff.mp h
  constructor
  · refine ⟨text, htext, fun c hc => ?_, ?_⟩
    · simpa using List.all_eq_true.mp List.all_takeWhile c hc
    · have hsplit := List.takeWhile_append_dropWhile (p := (! isBlank ·)) (l := text.body)
      by_cases hd : text.body.dropWhile (! isBlank ·) = []
      · left
        rw [hd, List.append_nil] at hsplit
        exact ⟨if_pos hd, hsplit.symm⟩
      · right
        have hb := List.head_dropWhile_not (! isBlank ·) hd
        refine ⟨_, _, if_neg hd, (Bool.not_eq_false' _).mp hb, ?_⟩
        rw [← List.cons_head_tail hd] at hsplit
        exact hsplit.symm
  · rintro pre name hname (hpath | ⟨-, hpath⟩)
    · dsimp only at hpath ⊢
      unfold Str.sub at hpath ⊢
      dsimp only at hpath ⊢
      rw [hpath]
      exact scanName_append pre _ hname
    · dsimp only at hpath ⊢
      unfold Str.sub at hpath ⊢
      dsimp only at hpath ⊢
      rw [hpath]
      exact scanName_of_notMem hname name

/-- The call succeeds, and the new program finds its arguments and the environment. -/
def RoundTrip (w : World) (call : Call) (s : State) (k : Kind) : Prop :=
  ∃ s', doExecve w call s = .ok (.ok (), s') ∧ Arranged s'.task.mem s'.task.esp (k.args call) call.envp

/-- With strings that leave a byte and a good file the call succeeds, with the count it has. -/
theorem doExecve_ok (hcs : 0xffff &&& s.task.cs = 0xf) (hk : call.kind w s.task.cred = some k)
    {t : ℕ × Ids × Header} (good : call.target w s.task.cred = .ok t) (fits : Fits w (k.batches call))
    (hne : size (k.batches call) ≠ argTop) :
    ∃ s', doExecve w call s = .ok (.ok (), s') ∧
      (getLong s'.task.mem s'.task.esp).toNat = (k.argc call).toNat ∧
      (¬ k.Bare call → Arranged s'.task.mem s'.task.esp (k.args call) call.envp) := by
  have h := @doExecve_ends w call s hcs
  have hlt : size (k.batches call) < argTop := lt_of_le_of_ne fits.1 hne
  generalize doExecve w call s = r at h
  cases h with
  | failed bad _ clean => cases bad.symm.trans good
  | nomem hk' why clean =>
    cases hk.symm.trans hk'
    exact absurd why (not_or.mpr ⟨fits.2, not_hits_of_lt hlt⟩)
  | astray hk' all long off =>
    cases hk.symm.trans hk'
    omega
  | done hk' good' filled hp pos =>
    cases hk.symm.trans hk'
    exact commit_ok filled hp

/-- Strings that fit come through exactly if they leave a byte and a script has been given a name. -/
theorem roundTrip_iff (hcs : 0xffff &&& s.task.cs = 0xf) (hk : call.kind w s.task.cred = some k)
    {t : ℕ × Ids × Header} (good : call.target w s.task.cred = .ok t) (fits : Fits w (k.batches call)) :
    RoundTrip w call s k ↔ size (k.batches call) ≠ argTop ∧ ¬ k.Bare call := by
  constructor
  · rintro ⟨s', hok, harr⟩
    have hne : size (k.batches call) ≠ argTop := by
      intro heq
      have h := @doExecve_ends w call s hcs
      rw [hok] at h
      generalize hr : (.ok (.ok (), s') : Except Stop Result) = r at h
      cases h with
      | failed _ _ _ => cases hr
      | nomem _ _ _ => cases hr
      | astray _ _ _ _ => cases hr
      | done hk' _ filled hp pos =>
        cases hk.symm.trans hk'
        exact absurd (filled.lt_argTop hp pos).1 (by omega)
    refine ⟨hne, fun hb => ?_⟩
    obtain ⟨s'', hok', hargc, -⟩ := doExecve_ok hcs hk good fits hne
    cases hok.symm.trans hok'
    have hlen := Kind.argc_of_bare hb
    have := harr.argc
    omega
  · rintro ⟨hne, hb⟩
    obtain ⟨s', hok, -, harr⟩ := doExecve_ok hcs hk good fits hne
    exact ⟨s', hok, harr hb⟩

/-! ## Failures -/

/-- The call comes back from every failure, with an error and nothing left behind. -/
structure Undone (w : World) (call : Call) (s : State) : Prop where
  safe : doExecve w call s ≠ .error .astray
  clean : ∀ e s', doExecve w call s = .ok (.error e, s') → Clean s s'

theorem undone_iff (hcs : 0xffff &&& s.task.cs = 0xf) : Undone w call s ↔
    ∀ k, call.kind w s.task.cred = some k → size (k.batches call) ≤ argTop ∨
      Refuses w (size (k.batches call)) ∨ Hits (k.batches call) := by
  have hastray := @astray_iff w call s hcs
  constructor
  · rintro ⟨hsafe, -⟩ k hk
    by_contra hno
    push Not at hno
    exact hsafe (hastray.mpr ⟨k, hk, hno⟩)
  · intro hall
    constructor
    · intro ha
      obtain ⟨k, hk, hlong, hno, hoff⟩ := hastray.mp ha
      rcases hall k hk with h1 | h1 | h1
      · omega
      · exact hno h1
      · exact hoff h1
    · intro e s' hs'
      have h := @doExecve_ends w call s hcs
      rw [hs'] at h
      generalize hr : (.ok (.error e, s') : Except Stop Result) = r at h
      cases h with
      | failed bad fits clean =>
        cases hr
        exact clean
      | nomem hk why clean =>
        cases hr
        exact clean
      | astray _ _ _ _ => cases hr
      | done hk good filled hp pos =>
        obtain ⟨s₂, hok, -⟩ := commit_ok filled hp
        cases hr.trans hok

/-! ## A shell and a script -/

/-- A program of no text, with the rights for everyone to execute it -/
def shell : Inode := ⟨0o100755, 0, 0, 1024, some (1, fun i => if i = 0 then 0x0b else if i = 1 then 0x01 else 0)⟩

/-- `#!/sh` and a newline -/
def shellScript : Inode := ⟨0o100755, 0, 0, 6, some (2, fun i => [35, 33, 47, 115, 104, 10].getD i 0)⟩

/-- `/sh` is the shell and every other path the script; every page can be had. -/
def root : World where
  inode i := if i = 1 then shell else shellScript
  lookup path := if path.body = [47, 115, 104] then some 1 else some 2
  grant i := some i
  grant_inj _ _ _ hi hj := Fin.ext ((Option.some.inj hi).trans (Option.some.inj hj).symm)

theorem root_grant (i : Fin MAX_ARG_PAGES) : root.grant i ≠ none := Option.some_ne_none _

def user : State where
  fs := .user
  iCount _ := 0
  bCount _ := 0
  memMap _ := 0
  data _ _ := 0
  page _ := none
  task :=
    { cred := ⟨0, 0, []⟩, suid := 0, sgid := 0, executable := none, signal := 0
      sigaction := fun _ => ⟨0, 0, 0⟩, closeOnExec := 0, filp := fun _ => none, endCode := 0, endData := 0
      brk := 0, startStack := 0, cs := 0xf, eip := 0, esp := 0, mem := fun _ => 0 }

def sh : Str := ⟨[47, 115, 104], by decide⟩

/-- `execve("/sh", {"/sh", NULL}, {NULL})` -/
def callShell : Call := ⟨sh, [sh], []⟩

/-- `execve("script", {NULL}, {NULL})` -/
def callBare : Call := ⟨⟨[115, 99, 114, 105, 112, 116], by decide⟩, [], []⟩

/-- An argument of as many bytes as the area has -/
def callLong : Call := ⟨sh, [⟨List.replicate argTop 97, fun h => absurd (List.eq_of_mem_replicate h) (by decide)⟩], []⟩

theorem bounded_callShell : Bounded root callShell user := by
  refine (bounded_iff rfl).mpr fun k hk => ?_
  have hk' : callShell.kind root user.task.cred = some .program := rfl
  cases hk'.symm.trans hk
  exact .inl (by decide)

theorem roundTrip_callShell : RoundTrip root callShell user .program :=
  (roundTrip_iff rfl rfl (t := ⟨1, ⟨0, 0⟩, ⟨0o413, 0, 0, 0, 0, 0, 0, 0⟩⟩) rfl
    ⟨by decide, not_refuses_of_all root_grant _⟩).mpr ⟨by decide, id⟩

theorem undone_callShell : Undone root callShell user := by
  refine (undone_iff rfl).mpr fun k hk => ?_
  have hk' : callShell.kind root user.task.cred = some .program := rfl
  cases hk'.symm.trans hk
  exact .inl (by decide)

theorem size_callLong (n : ℕ) (hn : n ≤ 2) :
    size ((Kind.program.batches callLong).take n) = if n = 2 then argTop + 1 else 0 := by
  unfold size content Kind.batches callLong
  interval_cases n <;> simp

/-- The argument goes past the bottom of the area. -/
theorem astray_callLong : doExecve root callLong user = .error .astray := by
  refine (astray_iff rfl).mpr ⟨.program, rfl, ?_, not_refuses_of_all root_grant _, ?_⟩
  · have := size_callLong 2 le_rfl
    exact lt_of_lt_of_eq (Nat.lt_succ_self _) this.symm
  · rintro ⟨n, hn, hs⟩
    rw [size_callLong n hn] at hs
    split_ifs at hs
    · exact Nat.succ_ne_self _ hs
    · exact absurd hs (by decide)

theorem not_bounded_callLong : ¬ Bounded root callLong user := fun h => h.safe astray_callLong

theorem not_undone_callLong : ¬ Undone root callLong user := fun h => h.safe astray_callLong

/-- Two strings have been copied for a script without arguments, and one is counted. -/
theorem not_roundTrip_callBare : ∃ sc, callBare.kind root user.task.cred = some (.script sc) ∧
    ((Kind.script sc).args callBare).length = 2 ∧ ¬ RoundTrip root callBare user (.script sc) := by
  refine ⟨_, rfl, rfl, ?_⟩
  rintro ⟨s', hok, harr⟩
  obtain ⟨s'', hok', hargc, -⟩ := @doExecve_ok root callBare user _ rfl rfl
    (t := ⟨1, ⟨0, 0⟩, ⟨0o413, 0, 0, 0, 0, 0, 0, 0⟩⟩) rfl ⟨by decide, not_refuses_of_all root_grant _⟩ (by decide)
  cases hok.symm.trans hok'
  have hlen := harr.argc
  rw [hargc] at hlen
  exact absurd hlen (by decide)

end Linux012.Exec
