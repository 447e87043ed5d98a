import Linux012.Fs.Exec.Copy
import Linux012.Fs.Exec.Tables

/-! # The ways a call ends

What is copied and what is executed can be read off the files. `doExecve_ends` tells how a call ends
by them: with an error and everything given back, astray, or at the point of no return with the
strings in the area.
-/

namespace Linux012.Exec

open Function Files Terminated

variable {w : World} {call : Call} {s s₀ s' : State} {l : List UInt8} {memMap : ℕ → ℕ} {inode : ℕ}
  {ids : Ids} {ex : Header} {e : Errno} {p : UInt32}

/-! ## Reading the files -/

/-- The program in an inode, if it can be executed -/
def image (w : World) (cred : Cred) (inode : ℕ) : Except Errno (Ids × Header) :=
  match checkInode cred (w.inode inode), (w.inode inode).block with
  | .error e, _ => .error e
  | .ok _, none => .error .EACCES
  | .ok ids, some (_, bytes) =>
    if (Header.read bytes).ok (w.inode inode).size then .ok (ids, .read bytes) else .error .ENOEXEC

/-- How the strings are copied: for a program, or for a script. -/
inductive Kind
  | program
  | script (sc : Script)

/-- What kind of file it is, if a call gets as far as copying the strings. -/
def kind (w : World) (cred : Cred) (inode : ℕ) : Option Kind :=
  match checkInode cred (w.inode inode), (w.inode inode).block with
  | .ok _, some (_, bytes) =>
    if isScript bytes then (parseScript bytes).map .script
    else if (Header.read bytes).ok (w.inode inode).size then some .program else none
  | _, _ => none

/-- The batches of strings, in the order in which they are copied -/
def Kind.batches (call : Call) : Kind → List (List Str)
  | .program => [call.envp, call.argv]
  | .script sc => [call.envp, call.argv.tail, [call.filename]] ++ sc.iArg.toList.map ([·]) ++ [[sc.iName]]

/-- The arguments that the program is to have -/
def Kind.args (call : Call) : Kind → List Str
  | .program => call.argv
  | .script sc => sc.iName :: (sc.iArg.toList ++ call.filename :: call.argv.tail)

/-- The number that `create_tables` is given -/
def Kind.argc (call : Call) : Kind → ℤ
  | .program => call.argv.length
  | .script sc =>
    let argc : ℤ := call.argv.length - 1 + 1
    match sc.iArg with
    | some _ => argc + 1 + 1
    | none => argc + 1

theorem Kind.content_batches (k : Kind) : content (k.batches call) = enc (k.args call ++ call.envp) := by
  cases k with
  | program => simp [content, Kind.batches, Kind.args]
  | script sc =>
    unfold content Kind.batches Kind.args
    congr 1
    obtain ⟨_, iName, iArg⟩ := sc
    cases iArg <;> simp

/-! ## What has been taken is given back -/

@[simp] theorem State.brelse_bget (s : State) (b : ℕ) : (s.bget b).brelse b = s := by
  simp [State.brelse, State.bget]

@[simp] theorem State.iput_iget (s : State) (i : ℕ) : (s.iget i).iput i = s := by
  simp [State.iput, State.iget]

/-- The call has left nothing behind, and fs is as it was. -/
structure Clean (s₀ s : State) : Prop where
  fs : s.fs = .user
  iCount : s.iCount = s₀.iCount
  bCount : s.bCount = s₀.bCount
  memMap : s.memMap = s₀.memMap
  task : s.task = s₀.task

theorem freePages_memMap (hinj : ∀ i j a, s.page i = some a → s.page j = some a → i = j)
    {l : List (Fin MAX_ARG_PAGES)} (hl : l.Nodup) (a : ℕ) :
    (freePages s l).memMap a = s.memMap a - if ∃ i ∈ l, s.page i = some a then 1 else 0 := by
  induction l generalizing s with
  | nil => simp [freePages]
  | cons i l ih =>
    obtain ⟨hi, hl⟩ := List.nodup_cons.mp hl
    unfold freePages
    cases hp : s.page i with
    | none =>
      dsimp only
      rw [ih hinj hl]
      simp [hp]
    | some b =>
      dsimp only
      rw [ih (s := s.freePage b) hinj hl]
      have hpage : (s.freePage b).page = s.page := rfl
      rw [hpage]
      unfold State.freePage
      dsimp only
      by_cases hab : a = b
      · subst hab
        have hno : ¬ ∃ j ∈ l, s.page j = some a := by
          rintro ⟨j, hj, hpj⟩
          exact hi (hinj i j a hp hpj ▸ hj)
        rw [update_self, if_neg hno, if_pos ⟨i, List.mem_cons_self, hp⟩]
        rfl
      · rw [update_of_ne hab]
        have hne : ¬ s.page i = some a := fun h => hab (Option.some.inj (h.symm.trans hp))
        simp only [List.exists_mem_cons_iff, hne, false_or]

theorem freePages_same (s : State) (l : List (Fin MAX_ARG_PAGES)) :
    (freePages s l).iCount = s.iCount ∧ (freePages s l).bCount = s.bCount ∧
      (freePages s l).task = s.task ∧ (freePages s l).fs = s.fs := by
  induction l generalizing s with
  | nil => exact ⟨rfl, rfl, rfl, rfl⟩
  | cons i l ih =>
    unfold freePages
    cases s.page i with
    | none => exact ih s
    | some a => exact ih (s.freePage a)

/-- With the argument pages freed all is as before. -/
theorem Filled.clean (h : Filled w s₀.memMap l s) (hF : Frame s₀ s) (hfs : s.fs = .user) :
    ∃ s', execError1 e s = .ok (.error e, s') ∧ Clean s₀ s' := by
  obtain ⟨hi, hb, ht, hf⟩ := freePages_same s (List.finRange MAX_ARG_PAGES)
  refine ⟨_, rfl, hf.trans hfs, hi.trans hF.iCount, hb.trans hF.bCount, funext fun a => ?_,
    ht.trans hF.task⟩
  have hinj : ∀ i j a, s.page i = some a → s.page j = some a → i = j := by
    intro i j a hpi hpj
    rw [h.page] at hpi hpj
    split_ifs at hpi hpj
    exact w.grant_inj i j a hpi hpj
  have hfree := freePages_memMap hinj (List.nodup_finRange MAX_ARG_PAGES) a
  by_cases hex : ∃ i, s.page i = some a
  · obtain ⟨i, hi⟩ := hex
    rw [hfree, h.memMap, if_pos ⟨i, hi⟩, if_pos ⟨i, List.mem_finRange i, hi⟩, Nat.add_sub_cancel]
  · have hno : ¬ ∃ i ∈ List.finRange MAX_ARG_PAGES, s.page i = some a :=
      fun ⟨i, _, hi⟩ => hex ⟨i, hi⟩
    rw [if_neg hno, Nat.sub_zero] at hfree
    have hmem := h.memMap a
    rw [if_neg hex, Nat.add_zero] at hmem
    exact hfree.trans hmem

/-! ## The point of no return -/

theorem Filled.holds_changeLdt (h : Filled w memMap l s) :
    Holds (changeLdt s) (argTop - l.length + areaBase) l := by
  intro i hi
  have hlen := h.len
  unfold changeLdt
  have hb : areaBase + argTop ≤ TASK_SIZE - LIBRARY_SIZE := by decide
  have heq : argTop - l.length + areaBase + i - areaBase = argTop - l.length + i := by omega
  rw [if_pos (by omega), heq]
  exact h.bytes i hi

/-- The state has taken a reference to the inode and has the content in the area. -/
structure Holding (w : World) (s₀ : State) (l : List UInt8) (inode : ℕ) (s : State) : Prop where
  filled : Filled w s₀.memMap l s
  frame : Frame (s₀.iget inode) s
  fs : s.fs = .user

theorem Holding.iput (h : Holding w s₀ l inode s) : Filled w s₀.memMap l (s.iput inode) ∧
    Frame s₀ (s.iput inode) ∧ (s.iput inode).fs = .user := by
  refine ⟨⟨h.filled.len, h.filled.page, h.filled.got, h.filled.memMap, h.filled.bytes⟩, ?_, h.fs⟩
  refine ⟨?_, h.frame.bCount, h.frame.task⟩
  have := congrArg State.iCount (s₀.iput_iget inode)
  unfold State.iput at this ⊢
  dsimp only at this ⊢
  rw [h.frame.iCount]
  exact this

theorem Holding.error2 (h : Holding w s₀ l inode s) :
    ∃ s', execError2 inode e s = .ok (.error e, s') ∧ Clean s₀ s' := by
  obtain ⟨hfill, hF, hfs⟩ := h.iput
  exact hfill.clean hF hfs

/-- The second time at `restart_interp` -/
theorem restart_ends (h : Holding w s₀ l inode s) {argc : ℤ} {next} :
    (∃ ids ex, image w s₀.task.cred inode = .ok (ids, ex) ∧
      restartInterp w call true next inode argc p s =
        commit inode ids ex argc call.envp.length p s) ∨
    ∃ e s', image w s₀.task.cred inode = .error e ∧
      restartInterp w call true next inode argc p s = .ok (.error e, s') ∧ Clean s₀ s' := by
  have hcred : s.task.cred = s₀.task.cred := congrArg Task.cred h.frame.task
  unfold restartInterp image
  rw [hcred]
  cases hchk : checkInode s₀.task.cred (w.inode inode) with
  | error e =>
    obtain ⟨s', hok, hclean⟩ := h.error2 (e := e)
    exact .inr ⟨e, s', rfl, hok, hclean⟩
  | ok ids =>
    cases hb : (w.inode inode).block with
    | none =>
      obtain ⟨s', hok, hclean⟩ := h.error2 (e := .EACCES)
      exact .inr ⟨_, s', rfl, hok, hclean⟩
    | some b =>
      obtain ⟨b, bytes⟩ := b
      dsimp only
      rw [Bool.not_true, Bool.and_false, if_neg Bool.false_ne_true, State.brelse_bget]
      unfold execImage
      dsimp only
      cases hx : (Header.read bytes).ok (w.inode inode).size with
      | false =>
        obtain ⟨s', hok, hclean⟩ := h.error2 (e := .ENOEXEC)
        exact .inr ⟨_, s', rfl, hok, hclean⟩
      | true =>
        refine .inl ⟨ids, _, rfl, ?_⟩
        rw [Bool.not_true, if_neg Bool.false_ne_true, if_pos rfl]
        unfold count Vec.of
        rw [List.length_map]

/-! ## The whole call -/

/-- What kind of file a call names -/
def Call.kind (w : World) (cred : Cred) (call : Call) : Option Kind :=
  (w.lookup call.filename).bind (Exec.kind w cred)

/-- The inode, the ids and the header that a call is to go on with, if nothing is wrong with the files -/
def Call.target (w : World) (cred : Cred) (call : Call) : Except Errno (ℕ × Ids × Header) :=
  match w.lookup call.filename with
  | none => .error .ENOENT
  | some inode =>
    match checkInode cred (w.inode inode), (w.inode inode).block with
    | .error e, _ => .error e
    | .ok _, none => .error .EACCES
    | .ok ids, some (_, bytes) =>
      if isScript bytes then
        match parseScript bytes with
        | none => .error .ENOEXEC
        | some sc =>
          match w.lookup sc.interp with
          | none => .error .ENOENT
          | some interp => (image w cred interp).map fun (ids, ex) => (interp, ids, ex)
      else if (Header.read bytes).ok (w.inode inode).size then .ok (inode, ids, .read bytes)
      else .error .ENOEXEC

/-- The ways in which a call ends -/
inductive Ends (w : World) (call : Call) (s₀ : State) : Except Stop Result → Prop
  | failed {e : Errno} {s : State} (bad : call.target w s₀.task.cred = .error e)
      (fits : ∀ k, call.kind w s₀.task.cred = some k →
        size (k.batches call) < argTop ∧ ¬ Refuses w (size (k.batches call)))
      (clean : Clean s₀ s) : Ends w call s₀ (.ok (.error e, s))
  | nomem {k : Kind} {s : State} (hk : call.kind w s₀.task.cred = some k)
      (why : Refuses w (size (k.batches call)) ∨ Hits (k.batches call)) (clean : Clean s₀ s) :
      Ends w call s₀ (.ok (.error .ENOMEM, s))
  | astray {k : Kind} (hk : call.kind w s₀.task.cred = some k) (all : ∀ i, w.grant i ≠ none)
      (long : argTop < size (k.batches call)) (off : ¬ Hits (k.batches call)) :
      Ends w call s₀ (.error .astray)
  | done {k : Kind} {inode : ℕ} {ids : Ids} {ex : Header} {p : UInt32} {s : State}
      (hk : call.kind w s₀.task.cred = some k) (good : call.target w s₀.task.cred = .ok (inode, ids, ex))
      (filled : Filled w s₀.memMap (content (k.batches call)) s)
      (hp : p.toNat + size (k.batches call) = argTop) (pos : p ≠ 0) :
      Ends w call s₀ (commit inode ids ex (k.argc call) call.envp.length p s)

/-- The state in which `do_execve` begins to look at the files -/
def State.start (s : State) : State := { s with fs := .user, page := fun _ => none }

theorem Filled.start (w : World) (s : State) : Filled w s.memMap [] s.start := by
  have hno : ∀ i, ¬ Needs 0 i := fun i h => absurd h.1 (lt_irrefl 0)
  refine ⟨Nat.zero_le _, fun i => (if_neg (hno i)).symm, fun i hi => absurd hi (hno i), fun a => ?_,
    holds_nil⟩
  rw [if_neg]
  · rfl
  · exact fun ⟨_, h⟩ => nomatch h

theorem argTop_toNat : (UInt32.ofNat argTop).toNat = argTop :=
  UInt32.toNat_ofNat_of_lt' (by unfold argTop PAGE_SIZE MAX_ARG_PAGES UInt32.size; omega)

/-- Nothing has been copied yet. -/
theorem Copied.init (h : Filled w memMap [] s) : Copied w memMap s [] (.ok (UInt32.ofNat argTop, s)) :=
  .done h argTop_toNat (fun h0 => absurd (congrArg UInt32.toNat h0) (by rw [argTop_toNat]; decide))
    (.refl s) rfl

theorem vec_ptrs (seg : Seg) (b : List Str) : (Vec.of seg b).ptrs = b.map (Ptr.mk seg) := rfl

/-- A batch from the user segment -/
theorem Copied.nextUser {bs : List (List Str)} {r : Except Stop (UInt32 × State)}
    (h : Copied w memMap s₀ bs r) (hfs : s₀.fs = .user) {argc : ℤ} {b : List Str}
    (hargc : argc.toNat = b.length) : Copied w memMap s₀ (bs ++ [b])
      (r >>= fun ps => copyStrings w argc (.of .user b) ps.1 0 ps.2) :=
  h.next hfs.symm (by rw [hfs]; rfl) hargc

/-- A batch from the kernel segment -/
theorem Copied.nextKernel {bs : List (List Str)} {r : Except Stop (UInt32 × State)}
    (h : Copied w memMap s₀ bs r) (b : Str) : Copied w memMap s₀ (bs ++ [[b]])
      (r >>= fun ps => copyStrings w 1 (.of .kernel [b]) ps.1 2 ps.2) :=
  h.next (k := 2) rfl rfl rfl

theorem spliceScript_copied (hfs : s.fs = .user) (h : Filled w memMap [] s) (sc : Script) :
    ∃ r, Copied w memMap s ((Kind.script sc).batches call) r ∧
      spliceScript w call sc (count (.of .user call.argv)) (UInt32.ofNat argTop) s =
        r >>= fun ps => .ok ((Kind.script sc).argc call, ps.1, ps.2) := by
  have hcount : ∀ b : List Str, count (.of .user b) = b.length := fun b => List.length_map _
  have henv := @Copied.nextUser w _ _ _ _ (.init h) hfs (count (.of .user call.envp)) call.envp
    (by rw [hcount]; rfl)
  have hargs := @Copied.nextUser w _ _ _ _ henv hfs (count (.of .user call.argv) - 1) call.argv.tail
    (by rw [hcount, List.length_tail]; omega)
  have hfile := @Copied.next w _ _ 1 _ [call.filename] _ hargs 1
    ⟨.kernel, [⟨.user, call.filename⟩]⟩ rfl (by rw [hfs]; rfl) rfl
  unfold spliceScript spliceArg Kind.batches Kind.argc
  obtain ⟨interp, iName, iArg⟩ := sc
  cases iArg with
  | none =>
    refine ⟨_, hfile.nextKernel iName, ?_⟩
    simp only [hcount, bind_assoc]
    rfl
  | some arg =>
    refine ⟨_, (hfile.nextKernel arg).nextKernel iName, ?_⟩
    simp only [hcount, bind_assoc]
    have hmap : ∀ (r : Except Stop (UInt32 × State)) (f : UInt32 × State → ℤ × UInt32 × State),
        r.map f = r >>= fun ps => .ok (f ps) := fun r f => by cases r <;> rfl
    simp only [hmap, bind_assoc]
    rfl

theorem Copied.clean {bs : List (List Str)} {r : Except Stop (UInt32 × State)}
    (h : Copied w s₀.memMap s₀ bs r) (hfs : s₀.fs = .user) {p : UInt32} {s : State} (hr : r = .ok (p, s)) :
    (∃ l, Filled w s₀.memMap l s) ∧ Frame s₀ s ∧ s.fs = .user := by
  cases h with
  | done filled _ _ frame hfs' =>
    cases hr
    exact ⟨⟨_, filled⟩, frame, hfs'.trans hfs⟩
  | failed _ part frame hfs' =>
    cases hr
    exact ⟨part, frame, hfs'.trans hfs⟩
  | overrun _ _ _ => cases hr

theorem Filled.lt_argTop {bs : List (List Str)} (h : Filled w memMap (content bs) s)
    (hp : p.toNat + size bs = argTop) (pos : p ≠ 0) : size bs < argTop ∧ ¬ Refuses w (size bs) := by
  have : p.toNat ≠ 0 := fun h0 => pos (UInt32.toNat_inj.mp h0)
  exact ⟨by omega, h.not_refuses⟩

/-- A program is copied for and executed. -/
theorem execImage_ends (hk : call.kind w s₀.task.cred = some .program)
    (good : call.target w s₀.task.cred = .ok (inode, ids, ex)) (hok : ex.ok (w.inode inode).size = true)
    (h : Filled w s₀.memMap [] s₀) (hfs : s₀.fs = .user) :
    Ends w call s₀ (execImage w call false inode ids ex (count (.of .user call.argv)) (UInt32.ofNat argTop)
      (s₀.iget inode)) := by
  have hcount : ∀ b : List Str, count (.of .user b) = b.length := fun b => List.length_map _
  have h₁ : Filled w (s₀.iget inode).memMap [] (s₀.iget inode) := ⟨h.len, h.page, h.got, h.memMap, h.bytes⟩
  have henv := @Copied.nextUser w _ _ _ _ (.init h₁) hfs (count (.of .user call.envp)) call.envp
    (by rw [hcount]; rfl)
  have hargs := @Copied.nextUser w _ _ _ _ henv hfs (count (.of .user call.argv)) call.argv
    (by rw [hcount]; rfl)
  unfold execImage
  rw [hok, Bool.not_true, if_neg Bool.false_ne_true, if_neg Bool.false_ne_true]
  have hassoc : ∀ f : UInt32 × State → Except Stop Result,
      (do
        let ps ← copyStrings w (count (.of .user call.envp)) (.of .user call.envp) (UInt32.ofNat argTop) 0
          (s₀.iget inode)
        let ps ← copyStrings w (count (.of .user call.argv)) (.of .user call.argv) ps.1 0 ps.2
        f ps) = ((do
        let ps ← (do
          let ps ← Except.ok (UInt32.ofNat argTop, s₀.iget inode)
          copyStrings w (count (.of .user call.envp)) (.of .user call.envp) ps.1 0 ps.2)
        copyStrings w (count (.of .user call.argv)) (.of .user call.argv) ps.1 0 ps.2) >>= f) := by
    intro f
    simp only [bind_assoc]
    rfl
  refine (hassoc fun ps => if ps.1 = 0 then execError2 inode .ENOMEM ps.2 else
    commit inode ids ex (count (.of .user call.argv)) (count (.of .user call.envp)) ps.1 ps.2).symm ▸ ?_
  generalize (do
    let ps ← (do
      let ps ← Except.ok (UInt32.ofNat argTop, s₀.iget inode)
      copyStrings w (count (.of .user call.envp)) (.of .user call.envp) ps.1 0 ps.2)
    copyStrings w (count (.of .user call.argv)) (.of .user call.argv) ps.1 0 ps.2 :
      Except Stop (UInt32 × State)) = r at hargs ⊢
  cases hargs with
  | done filled hp pos frame hfs' =>
    dsimp only [bind, Except.bind]
    rw [if_neg pos, hcount, hcount]
    exact .done hk good filled hp pos
  | failed why part frame hfs' =>
    obtain ⟨l', hl'⟩ := part
    have hold : Holding w s₀ l' inode _ := ⟨hl', frame, hfs'.trans hfs⟩
    obtain ⟨s', hs', hclean⟩ := hold.error2 (e := .ENOMEM)
    dsimp only [bind, Except.bind]
    rw [if_pos rfl, hs']
    exact .nomem hk why hclean
  | overrun all long off => exact .astray hk all long off

theorem namei_of_seg {path : Ptr} (h : s.fs = path.seg) : namei w path s =
    match w.lookup path.str with
    | none => .ok (none, s)
    | some inode => .ok (some inode, s.iget inode) := if_pos h

/-- A script is copied for, and its interpreter executed. -/
theorem execScript_ends {bytes : ℕ → UInt8} {sc : Script} (hparse : parseScript bytes = some sc)
    (hk : call.kind w s₀.task.cred = some (.script sc))
    (ht : call.target w s₀.task.cred = match w.lookup sc.interp with
      | none => .error .ENOENT
      | some interp => (image w s₀.task.cred interp).map fun (ids, ex) => (interp, ids, ex))
    (h : Filled w s₀.memMap [] s₀) (hfs : s₀.fs = .user) {next} :
    Ends w call s₀ (execScript w call bytes (count (.of .user call.argv)) (UInt32.ofNat argTop) s₀
      (restartInterp w call true next)) := by
  unfold execScript
  rw [hparse]
  dsimp only
  obtain ⟨r, hr, hsplice⟩ := @spliceScript_copied w call _ _ hfs h sc
  rw [hsplice, bind_assoc]
  cases hr with
  | overrun all long off => exact .astray hk all long off
  | failed why part frame hfs' =>
    obtain ⟨l', hl'⟩ := part
    obtain ⟨s', hs', hclean⟩ := hl'.clean (e := .ENOMEM) frame (hfs'.trans hfs)
    dsimp only [bind, Except.bind]
    rw [if_pos rfl, hs']
    exact .nomem hk why hclean
  | done filled hp pos frame hfs' =>
    rename_i p s
    have hsfs : s.fs = .user := hfs'.trans hfs
    have hfits : ∀ k, call.kind w s₀.task.cred = some k →
        size (k.batches call) < argTop ∧ ¬ Refuses w (size (k.batches call)) := by
      intro k hk'
      cases hk.symm.trans hk'
      exact filled.lt_argTop hp pos
    dsimp only [bind, Except.bind]
    rw [if_neg pos]
    rw [namei_of_seg rfl]
    dsimp only
    cases hl : w.lookup sc.interp with
    | none =>
      obtain ⟨s', hs', hclean⟩ := (filled.of_setFs .user).clean (e := .ENOENT)
        (frame.trans ⟨rfl, rfl, rfl⟩) rfl
      rw [hl] at ht
      dsimp only
      rw [hsfs]
      have heq : ((s.setFs .kernel).setFs .user) = s.setFs .user := rfl
      rw [heq, hs']
      exact .failed ht hfits hclean
    | some interp =>
      rw [hl] at ht
      dsimp only at ht ⊢
      rw [hsfs]
      have hold : Holding w s₀ (content ((Kind.script sc).batches call)) interp
          (((s.setFs .kernel).iget interp).setFs .user) := by
        refine ⟨⟨filled.len, filled.page, filled.got, filled.memMap, filled.bytes⟩, ⟨?_, ?_, ?_⟩, rfl⟩
        · unfold State.iget State.setFs
          dsimp only
          rw [frame.iCount]
        · exact frame.bCount
        · exact frame.task
      obtain ⟨ids, ex, himg, hok⟩ | ⟨e, s', himg, hok, hclean⟩ :=
        @restart_ends w call _ _ _ _ p hold ((Kind.script sc).argc call) next
      · rw [hok]
        rw [himg] at ht
        exact .done hk ht hold.filled hp pos
      · rw [hok]
        rw [himg] at ht
        exact .failed ht hfits hclean

theorem kind_of_block {b : ℕ} {bytes : ℕ → UInt8} {cred : Cred}
    (hl : w.lookup call.filename = some inode) (hchk : checkInode cred (w.inode inode) = .ok ids)
    (hb : (w.inode inode).block = some (b, bytes)) :
    call.kind w cred = if isScript bytes then (parseScript bytes).map .script
      else if (Header.read bytes).ok (w.inode inode).size then some .program else none := by
  unfold Call.kind kind
  rw [hl]
  dsimp only [Option.bind]
  rw [hchk, hb]

theorem Ends.of_start (h : Ends w call s.start r) : Ends w call s r := by
  cases h with
  | failed bad fits clean => exact .failed bad fits ⟨clean.fs, clean.iCount, clean.bCount, clean.memMap, clean.task⟩
  | nomem hk why clean => exact .nomem hk why ⟨clean.fs, clean.iCount, clean.bCount, clean.memMap, clean.task⟩
  | astray hk all long off => exact .astray hk all long off
  | done hk good filled hp pos => exact .done hk good filled hp pos

theorem doExecve_ends (hcs : 0xffff &&& s.task.cs = 0xf) : Ends w call s (doExecve w call s) := by
  have hfill := Filled.start w s
  unfold doExecve
  rw [if_neg (not_not.mpr hcs)]
  dsimp only
  refine Ends.of_start (s := s) ?_
  have hstart : { s with fs := .user, page := fun _ => none } = s.start := rfl
  rw [hstart, namei_of_seg rfl]
  dsimp only
  have hcred : s.start.task.cred = s.task.cred := rfl
  cases hl : w.lookup call.filename with
  | none =>
    refine .failed (by unfold Call.target; rw [hl]) (fun k hk => ?_) ⟨rfl, rfl, rfl, rfl, rfl⟩
    unfold Call.kind at hk
    rw [hl] at hk
    cases hk
  | some inode =>
    have hhold : Holding w s.start [] inode (s.start.iget inode) :=
      ⟨⟨hfill.len, hfill.page, hfill.got, hfill.memMap, hfill.bytes⟩, .refl _, rfl⟩
    dsimp only [bind, Except.bind]
    unfold restartInterp
    have htask : (s.start.iget inode).task.cred = s.start.task.cred := rfl
    rw [htask]
    have hnone : call.kind w s.start.task.cred = none → ∀ k, call.kind w s.start.task.cred = some k →
        size (k.batches call) < argTop ∧ ¬ Refuses w (size (k.batches call)) := by
      intro h0 k hk
      cases h0.symm.trans hk
    cases hchk : checkInode s.start.task.cred (w.inode inode) with
    | error e =>
      obtain ⟨s', hs', hclean⟩ := hhold.error2 (e := e)
      dsimp only
      rw [hs']
      refine .failed ?_ (hnone ?_) hclean
      · unfold Call.target
        rw [hl]
        dsimp only
        rw [hchk]
      · unfold Call.kind kind
        rw [hl]
        dsimp only [Option.bind]
        rw [hchk]
    | ok ids =>
      cases hb : (w.inode inode).block with
      | none =>
        obtain ⟨s', hs', hclean⟩ := hhold.error2 (e := .EACCES)
        dsimp only
        rw [hs']
        refine .failed ?_ (hnone ?_) hclean
        · unfold Call.target
          rw [hl]
          dsimp only
          rw [hchk, hb]
        · unfold Call.kind kind
          rw [hl]
          dsimp only [Option.bind]
          rw [hchk, hb]
      | some b =>
        obtain ⟨b, bytes⟩ := b
        have hkind := @kind_of_block w call _ _ _ _ _ hl hchk hb
        have htarget : call.target w s.start.task.cred = if isScript bytes then
            match parseScript bytes with
            | none => .error .ENOEXEC
            | some sc =>
              match w.lookup sc.interp with
              | none => .error .ENOENT
              | some interp => (image w s.start.task.cred interp).map fun (ids, ex) => (interp, ids, ex)
            else if (Header.read bytes).ok (w.inode inode).size then .ok (inode, ids, .read bytes)
            else .error .ENOEXEC := by
          unfold Call.target
          rw [hl]
          dsimp only
          rw [hchk, hb]
        dsimp only
        rw [State.brelse_bget]
        cases hs : isScript bytes with
        | true =>
          rw [hs, if_pos rfl] at hkind htarget
          rw [Bool.not_false, Bool.and_true, if_pos rfl, State.iput_iget]
          cases hp : parseScript bytes with
          | none =>
            rw [hp] at hkind htarget
            obtain ⟨s', hs', hclean⟩ := @Filled.clean w _ s.start _ .ENOEXEC hfill (.refl _) rfl
            unfold execScript
            rw [hp]
            dsimp only
            rw [hs']
            exact .failed htarget (hnone hkind) hclean
          | some sc =>
            rw [hp] at hkind htarget
            exact execScript_ends hp hkind htarget hfill rfl
        | false =>
          rw [hs, if_neg Bool.false_ne_true] at hkind htarget
          rw [Bool.false_and, if_neg Bool.false_ne_true]
          cases hx : (Header.read bytes).ok (w.inode inode).size with
          | true =>
            rw [hx, if_pos rfl] at hkind htarget
            exact execImage_ends hkind htarget hx hfill rfl
          | false =>
            rw [hx, if_neg Bool.false_ne_true] at hkind htarget
            obtain ⟨s', hs', hclean⟩ := hhold.error2 (e := .ENOEXEC)
            unfold execImage
            dsimp only
            rw [hx, Bool.not_false, if_pos rfl, hs']
            exact .failed htarget (hnone hkind) hclean

end Linux012.Exec
