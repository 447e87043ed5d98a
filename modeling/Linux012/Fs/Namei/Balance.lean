import Linux012.Fs.Namei.Calls

/-! # References to inodes

Every function of `fs/namei.c` is described by the references that it takes over from its caller
and those that it hands back. `find_entry` may hand back another directory than it was given, and
`follow_link` takes over both of its arguments.
-/

namespace Linux012.Namei

open Function Triples
open Dirs (Name DirEntry dot dotdot)

variable {cur : Current} {α : Type} {s s' : Sys} {e : ℕ} {h h' : List ℕ}

/-- The references that code takes over and hands back. -/
abbrev Refs (taken : List ℕ) (m : M α) (given : α → List ℕ) : Prop := Moves Sys.count taken m given

namespace Sys

theorem count_upd (g : MInode → MInode) (i : ℕ) :
    (s.upd e g).count i = if i = e then (g (s.inodes e)).iCount else s.count i := by
  rcases eq_or_ne i e with rfl | h
  · simp [upd, count]
  · simp [upd, count, h]

theorem count_upd_of_eq {g : MInode → MInode} (h : ∀ x, (g x).iCount = x.iCount) (i : ℕ) :
    (s.upd e g).count i = s.count i := by
  rw [count_upd]
  split_ifs with hi
  · rw [h, hi, count]
  · rfl

@[simp] theorem count_setFile (g : File → File) (i : ℕ) : (s.setFile e g).count i = s.count i := rfl

@[simp] theorem count_setDirt (d : Bool) (i : ℕ) : (s.setDirt e d).count i = s.count i :=
  count_upd_of_eq (g := fun x => { x with iDirt := d }) (fun _ => rfl) i

@[simp] theorem count_syncInodes (i : ℕ) : s.syncInodes.count i = s.count i := rfl

theorem count_hold (i : ℕ) : (s.hold e).count i = s.count i + [e].count i := by
  rw [hold, count_upd, List.count_singleton]
  rcases eq_or_ne i e with rfl | h
  · simp [count]
  · simp [h, Ne.symm h]

theorem count_drop (he : s.count e ≠ 0) (i : ℕ) : (s.drop e).count i + [e].count i = s.count i := by
  rw [drop, count_upd, List.count_singleton]
  rcases eq_or_ne i e with rfl | h
  · simp only [count] at he ⊢
    simp
    omega
  · simp [h, Ne.symm h]

end Sys

/-! ## `fs/inode.c` -/

theorem freeInode_count (h : freeInode s e = some s') (he : s.count e = 1) (i : ℕ) :
    s'.count i + [e].count i = s.count i := by
  unfold freeInode at h
  dsimp only at h
  split at h
  · cases h
  · split_ifs at h
    obtain rfl := Option.some.inj h
    rw [Sys.count_upd, List.count_singleton]
    rcases eq_or_ne i e with rfl | hi
    · simp [MInode.zero, he]
    · simp [hi, Ne.symm hi, Sys.count, Sys.setFile]

theorem iputs_count (h : iputs s e = some s') (i : ℕ) : s'.count i + [e].count i = s.count i := by
  unfold iputs at h
  dsimp only at h
  generalize ht : (if (s.file e).isBlk = true then s.syncInodes else s) = t at h
  have hcount : ∀ i, t.count i = s.count i := by
    intro i
    rw [← ht]
    split_ifs <;> rfl
  split_ifs at h with h₀ hp hd hc hn
  · obtain rfl := Option.some.inj h
    rw [Sys.count_upd, List.count_singleton]
    rcases eq_or_ne i e with rfl | hi
    · rcases eq_or_ne (s.inodes i).iCount 1 with hone | hone
      · simp [Sys.count, hone]
      · simp only [Sys.count, beq_self_eq_true, if_true, hone, if_false]
        omega
    · simp [hi, Ne.symm hi]
  · obtain rfl := Option.some.inj h
    exact Sys.count_drop h₀ i
  · obtain rfl := Option.some.inj h
    rw [Sys.count_drop (by rwa [hcount]), hcount]
  · rw [freeInode_count h (by rw [hcount, Sys.count]; omega), hcount]
  · obtain rfl := Option.some.inj h
    rw [Sys.count_drop (by rwa [Sys.count_setDirt, hcount]), Sys.count_setDirt, hcount]

theorem iputs_of_iput {a : Unit} (h : iput e s = some (a, s')) : iputs s e = some s' := by
  obtain ⟨s₁, hput, he⟩ := Option.map_eq_some_iff.mp h
  rw [hput, (Prod.mk.inj he).2]

theorem refs_hold (e : ℕ) : Refs h (hold e) fun _ => e :: h := by
  refine .fresh (g := fun _ => [e]) fun b => .modifies fun s hs i => ?_
  rw [Sys.count_hold, hs i, List.count_nil, Nat.add_zero]

theorem refs_iput (hp : h.Perm (e :: h')) : Refs h (iput e) fun _ => h' := by
  have hone : Refs [e] (iput e) fun _ => [] := by
    intro b s a s' hs hx i
    have := iputs_count (iputs_of_iput hx) i
    have := hs i
    rw [List.count_nil]
    omega
  exact hone.first.perm hp fun _ => .refl _

theorem refs_iput_first : Refs (e :: h) (iput e) fun _ => h := refs_iput (.refl _)

theorem refs_none (e : ℕ) : Refs [e] (do iput e; pure (none : Option ℕ)) Option.toList :=
  .bind refs_iput_first fun _ => .pure (.refl _)

theorem refs_iput_second {d : ℕ} : Refs (d :: e :: h) (iput e) fun _ => d :: h :=
  refs_iput (.swap e d h)

/-- What the scan finds is an entry of the table that nobody refers to. -/
theorem scanEmpty_spec {k last last' : ℕ} {found : Option ℕ}
    (hf : ∀ i, found = some i → i < NR_INODE ∧ s.count i = 0)
    (h : scanEmpty s k last found = (last', some e)) : e < NR_INODE ∧ s.count e = 0 := by
  induction k generalizing last found with
  | zero => exact hf e (congrArg Prod.snd h)
  | succ k ih =>
    unfold scanEmpty at h
    dsimp only at h
    have hl : (if last + 1 ≥ NR_INODE then 0 else last + 1) < NR_INODE := by
      unfold NR_INODE
      split_ifs <;> omega
    generalize (if last + 1 ≥ NR_INODE then 0 else last + 1) = l at h hl
    split_ifs at h with h₀ hd
    · refine ih ?_ h
      rintro i ⟨⟩
      exact ⟨hl, h₀⟩
    · obtain rfl := Option.some.inj (congrArg Prod.snd h)
      exact ⟨hl, h₀⟩
    · exact ih hf h

theorem refs_getEmptyInode : Refs h getEmptyInode fun e => e :: h := by
  refine .fresh (g := fun e => [e]) ?_
  intro b s e s' hs h i
  unfold getEmptyInode at h
  split at h
  · cases h
  · rename_i last e' he
    obtain ⟨rfl, rfl⟩ := Prod.mk.inj (Option.some.inj h)
    have h₀ : s.count e' = 0 := (scanEmpty_spec (by simp) he).2
    have hi := hs i
    change (s.upd e' fun _ => { MInode.zero with iCount := 1 }).count i = _
    rw [Sys.count_upd, List.count_singleton]
    rcases eq_or_ne i e' with rfl | hne
    · simp only [List.count_nil] at hi
      simp
      omega
    · simpa [hne, Ne.symm hne] using hi

theorem refs_igetLoop (empty k dev nr : ℕ) : Refs [empty] (igetLoop empty k dev nr) Option.toList := by
  induction k generalizing dev nr with
  | zero => exact .failure
  | succ k ih =>
    unfold igetLoop
    refine .bind .reads fun o => ?_
    cases o with
    | some e =>
      refine .bind (refs_hold e) fun _ => .bind .reads fun mounted => .ite ?_ ?_
      · refine .bind .reads fun o => ?_
        cases o with
        | none => exact .bind refs_iput_second fun _ => .pure (.refl _)
        | some sb => exact .bind refs_iput_first fun _ => ih sb.sDev ROOT_INO
      · exact .bind refs_iput_second fun _ => .pure (.refl _)
    | none =>
      refine .bind (.modifies fun s i => ?_) fun _ => .bind .reads fun o => ?_
      · exact Sys.count_upd_of_eq (g := fun x => { x with iDev := dev, iNum := nr }) (fun _ => rfl) i
      · cases o with
        | none => exact .failure
        | some sb => exact .pure (.refl _)

theorem refs_iget (dev nr : ℕ) : Refs h (iget dev nr) fun o => o.toList ++ h := by
  refine .fresh ?_
  unfold iget
  refine .ite .failure ?_
  exact .bind refs_getEmptyInode fun empty => refs_igetLoop empty _ dev nr

theorem refs_newInode (dev : ℕ) : Refs h (newInode cur dev) fun o => o.toList ++ h := by
  refine .fresh ?_
  unfold newInode
  refine .bind refs_getEmptyInode fun e => .bind .reads fun o => ?_
  cases o with
  | none => exact .failure
  | some sb =>
    refine .bind .reads fun o => ?_
    cases o with
    | none => exact .bind refs_iput_first fun _ => .pure (.refl _)
    | some j =>
      refine .bind (.modifies fun s i => ?_) fun _ => .pure (.refl _)
      exact Sys.count_upd_of_eq (g := fun x => { x with iDev := dev, iNum := j, iDirt := true })
        (fun _ => rfl) i

/-! ## Directories -/

theorem refs_io : Refs h io fun _ => h := by
  refine .keep ?_
  intro s a s' hx i
  unfold io at hx
  split at hx <;> cases hx <;> rfl

theorem refs_searchBlocks (name : Name) (entries : List DirEntry) (k i : ℕ) :
    Refs h (searchBlocks name entries k i) fun _ => h := by
  induction k generalizing i with
  | zero => exact .pure (.refl _)
  | succ k ih =>
    unfold searchBlocks
    refine .ite (.bind refs_io fun ok => .ite ?_ (ih _)) (.pure (.refl _))
    split
    · exact .pure (.refl _)
    · exact ih _

theorem refs_search (dir : ℕ) (name : Name) : Refs h (search dir name) fun _ => h := by
  unfold search
  refine .bind .reads fun f => .ite (.pure (.refl _)) (.bind refs_io fun ok => .ite ?_ (.pure (.refl _)))
  split
  · exact .pure (.refl _)
  · exact refs_searchBlocks name _ _ _

/-- The directory may have become another one. -/
theorem refs_findEntry (dir : ℕ) (name : Name) :
    Refs (dir :: h) (findEntry cur dir name) fun r => r.1 :: h := by
  have hsearch : ∀ d name, Refs (d :: h) (do let r ← search d name; pure (d, r))
      fun r : ℕ × Option ℕ => r.1 :: h :=
    fun d name => .bind (refs_search d name) fun r => .pure (.refl _)
  unfold findEntry
  refine .ite (hsearch dir _) (.ite (hsearch dir _) (.bind .reads fun k => ?_))
  obtain ⟨dev, nr⟩ := k
  refine .ite (.bind .reads fun o => ?_) (hsearch dir _)
  split
  · exact .failure
  · rename_i e
    exact .bind refs_iput_first fun _ => .bind (refs_hold e) fun _ => hsearch e _
  · exact hsearch dir _

theorem refs_enterEntry (dir k : ℕ) (de : DirEntry) : Refs h (enterEntry dir k de) fun _ => h :=
  .bind (.modifies fun s i => by simp) fun _ => .pure (.refl _)

theorem refs_addEntry (dir : ℕ) (name : Name) (inode : ℕ) :
    Refs h (addEntry dir name inode) fun _ => h := by
  unfold addEntry
  refine .bind .reads fun f => .ite (.pure (.refl _)) (.bind refs_io fun ok => .ite ?_ (.pure (.refl _)))
  refine .ite (.bind refs_io fun room => .ite ?_ (.pure (.refl _))) ?_
  · exact refs_enterEntry dir _ _
  · exact refs_enterEntry dir _ _

theorem refs_clearEntry (dir k : ℕ) : Refs h (clearEntry dir k) fun _ => h :=
  .modifies fun s i => by simp

/-! ## Following a path -/

theorem refs_orHold (e : ℕ) (inode : Option ℕ) :
    Refs (inode.toList ++ h) (orHold e inode) fun i => i :: h := by
  cases inode with
  | none => exact .bind (refs_hold e) fun _ => .pure (.refl _)
  | some i => exact .pure (.refl _)

theorem refs_readLink (user : Bool) (f : File) : Refs h (readLink user f) fun _ => h :=
  .ite refs_io (.pure (.refl _))

theorem refs_fromRoot (pathname : Path) (inode : ℕ) :
    Refs [inode] (fromRoot cur pathname inode) fun i => [i] := by
  refine .ite ?_ (.pure (.refl _))
  exact .bind refs_iput_first fun _ => .bind (refs_hold cur.root) fun _ => .pure (.refl _)

section Follow

variable {namei : Path → ℕ → M (Option ℕ)} {user : Bool}

/-- `follow_link` takes over both of its arguments. -/
theorem refs_followLink (hnamei : ∀ path dir, Refs [dir] (namei path dir) Option.toList)
    (dir inode : Option ℕ) :
    Refs (dir.toList ++ inode.toList) (followLink cur namei user dir inode) Option.toList := by
  unfold followLink
  refine .bind (refs_orHold cur.root dir) fun dir => ?_
  cases inode with
  | none => exact .bind refs_iput_first fun _ => .pure (.refl _)
  | some inode =>
    refine .bind .reads fun f => .ite ?_ (.bind (refs_readLink user f) fun read => .ite ?_ ?_)
    · exact .bind refs_iput_first fun _ => .pure (.refl _)
    · exact .bind refs_iput_second fun _ => hnamei _ _
    · exact .bind refs_iput_first fun _ => .bind refs_iput_first fun _ => .pure (.refl _)

variable {follow : Option ℕ → Option ℕ → M (Option ℕ)}
  (hfollow : ∀ dir inode, Refs (dir.toList ++ inode.toList) (follow dir inode) Option.toList)

include hfollow

theorem refs_getDirLoop (names : List Name) (inode : ℕ) :
    Refs [inode] (getDirLoop cur follow names inode) Option.toList := by
  induction names generalizing inode with
  | nil =>
    unfold getDirLoop
    exact .bind .reads fun ok => .ite (.pure (.refl _)) (refs_none inode)
  | cons thisname names ih =>
    unfold getDirLoop
    refine .bind .reads fun ok => .ite (.bind (refs_findEntry inode thisname) fun r => ?_) (refs_none inode)
    obtain ⟨dir, k⟩ := r
    cases k with
    | none => exact refs_none dir
    | some k =>
      refine .bind .reads fun inr => .bind .reads fun dev => .bind (refs_iget dev inr) fun o => ?_
      cases o with
      | none => exact refs_none dir
      | some inode =>
        refine .bind ((hfollow (some dir) (some inode)).perm (.swap _ _ _) fun _ => .refl _) fun o => ?_
        cases o with
        | none => exact .pure (.refl _)
        | some inode => exact ih inode

theorem refs_getDir (pathname : Path) (base : Option ℕ) :
    Refs base.toList (getDir cur follow pathname base) Option.toList := by
  unfold getDir
  refine .bind (k := fun i => [i]) ?_ fun inode => .bind (refs_fromRoot pathname inode) fun inode => ?_
  · simpa using refs_orHold (h := []) cur.pwd base
  · exact refs_getDirLoop hfollow _ inode

theorem refs_dirNamei (pathname : Path) (base : Option ℕ) :
    Refs base.toList (dirNamei cur follow pathname base) fun r => (r.map Prod.fst).toList := by
  unfold dirNamei
  refine .bind (refs_getDir hfollow pathname base) fun o => ?_
  cases o with
  | none => exact .pure (.refl _)
  | some dir => exact .pure (.refl _)

theorem refs_lastLink (followLinks : Bool) (base inode : ℕ) :
    Refs [base, inode] (lastLink follow followLinks base inode) Option.toList := by
  refine .ite (hfollow (some base) (some inode)) ?_
  exact .bind refs_iput_first fun _ => .pure (.refl _)

theorem refs_nameiWith (pathname : Path) (base : Option ℕ) (followLinks : Bool) :
    Refs base.toList (nameiWith cur follow pathname base followLinks) Option.toList := by
  unfold nameiWith
  refine .bind (refs_dirNamei hfollow pathname base) fun o => ?_
  rcases o with - | ⟨base, basename⟩
  · exact .pure (.refl _)
  · refine .ite (.pure (.refl _)) (.bind (refs_findEntry base basename) fun r => ?_)
    obtain ⟨base, k⟩ := r
    cases k with
    | none => exact refs_none base
    | some k =>
      refine .bind .reads fun inr => .bind .reads fun dev => .bind (refs_iget dev inr) fun o => ?_
      cases o with
      | none => exact refs_none base
      | some inode =>
        refine .bind ((refs_lastLink hfollow followLinks base inode).perm (.swap _ _ _)
          fun _ => .refl _) fun o => ?_
        cases o with
        | none => exact .pure (.refl _)
        | some inode => exact .bind (.modifies fun s i => by simp) fun _ => .pure (.refl _)

end Follow

theorem refs_kernelFollow (dir inode : Option ℕ) :
    Refs (dir.toList ++ inode.toList) (kernelFollow cur dir inode) Option.toList :=
  refs_followLink (fun _ _ => .failure) dir inode

theorem refs_follow (dir inode : Option ℕ) :
    Refs (dir.toList ++ inode.toList) (follow cur dir inode) Option.toList :=
  refs_followLink (fun path dir => refs_nameiWith refs_kernelFollow path (some dir) false) dir inode

theorem refs_followFor (user : Bool) (dir inode : Option ℕ) :
    Refs (dir.toList ++ inode.toList) (followFor cur user dir inode) Option.toList := by
  cases user with
  | true => exact refs_follow dir inode
  | false => exact refs_kernelFollow dir inode

/-! ## Calls -/

/-- The inode of a successful call. -/
def opened : Except Errno ℕ → List ℕ
  | .ok e => [e]
  | .error _ => []

theorem refs_permission (e : ℕ) (mask : BitVec 32) : Refs h (permission cur e mask) fun _ => h := .reads

theorem refs_isDir (e : ℕ) : Refs h (isDir e) fun _ => h := .reads

theorem refs_putError {ε : Except Errno ℕ} (hε : opened ε = []) (e : ℕ) :
    Refs [e] (do iput e; pure ε) opened :=
  .bind refs_iput_first fun _ => .pure (by rw [hε])

/-- The inode that has been found is opened, or put away. -/
theorem refs_openNamei (pathname : Path) (flag mode : BitVec 32) :
    Refs [] (openNamei cur pathname flag mode) opened := by
  unfold openNamei
  refine .bind (refs_dirNamei refs_follow pathname none) fun o => ?_
  rcases o with - | ⟨dir, basename⟩
  · exact .pure (.refl _)
  refine .ite (.ite (.pure (.refl _)) (refs_putError rfl dir)) ?_
  refine .bind (refs_findEntry dir basename) fun r => ?_
  obtain ⟨dir, - | k⟩ := r
  · refine .ite (refs_putError rfl dir) (.bind (refs_permission dir _) fun ok => ?_)
    refine .ite (refs_putError rfl dir) (.bind .reads fun dev => .bind (refs_newInode dev) fun o => ?_)
    cases o with
    | none => exact refs_putError rfl dir
    | some inode =>
      refine .bind (.modifies fun s i => by simp) fun _ => .bind .reads fun inr => ?_
      refine .bind (refs_addEntry dir basename inr) fun added => .ite ?_ ?_
      · exact .bind refs_iput_second fun _ => .pure (.refl _)
      · refine .bind (.modifies fun s i => by simp) fun _ => .bind refs_iput_first fun _ => ?_
        exact refs_putError rfl dir
  · refine .bind .reads fun inr => .bind .reads fun dev => .ite (refs_putError rfl dir) ?_
    refine .bind (refs_iget dev inr) fun inode => .bind (k := Option.toList) ?_ fun o => ?_
    · exact (refs_follow (some dir) inode).perm List.perm_append_comm fun _ => .refl _
    cases o with
    | none => exact .pure (.refl _)
    | some inode =>
      refine .bind (refs_isDir inode) fun dir => .bind (refs_permission inode _) fun ok => ?_
      refine .ite (refs_putError rfl inode) (.ite ?_ (.pure (.refl _)))
      exact .bind (.modifies fun s i => by simp) fun _ => .pure (.refl _)

/-- A call that hands nothing back. -/
abbrev Even (m : M (Except Errno Unit)) (h : List ℕ) : Prop := Refs h m fun _ => []

theorem even_error (err : Errno) : Even (pure (.error err)) [] := .pure (.refl _)

theorem even_putOne (e : ℕ) (err : Errno) : Even (putOne e err) [e] :=
  .bind refs_iput_first fun _ => .pure (.refl _)

theorem even_putBoth {a b : ℕ} (hp : h.Perm [a, b]) (err : Errno) : Even (putBoth a b err) h :=
  .bind (refs_iput hp) fun _ => .bind refs_iput_first fun _ => .pure (.refl _)

theorem refs_setMode (e : ℕ) (mode : BitVec 16) : Refs h (setMode e mode) fun _ => h :=
  .modifies fun s i => by simp

theorem refs_setNlinks (e n : ℕ) : Refs h (setNlinks e n) fun _ => h := .modifies fun s i => by simp

theorem refs_incNlinks (e : ℕ) : Refs h (incNlinks e) fun _ => h := .modifies fun s i => by simp

theorem refs_decNlinks (e : ℕ) : Refs h (decNlinks e) fun _ => h := .modifies fun s i => by simp

theorem refs_setDevice (e : ℕ) (mode : BitVec 16) (dev : ℕ) : Refs h (setDevice e mode dev) fun _ => h := by
  refine .modifies fun s i => ?_
  split_ifs <;> rfl

/-- The beginning of every call that changes a directory. -/
theorem even_withDir {f : ℕ → Name → M (Except Errno Unit)} {m : M (Except Errno Unit)}
    (pathname : Path) (hf : ∀ dir basename, Even (f dir basename) (dir :: h)) (hm : Even m h) :
    Even (do
      match ← dirNamei cur (follow cur) pathname none with
      | none => m
      | some (dir, basename) => f dir basename) h := by
  refine .bind (.fresh (refs_dirNamei refs_follow pathname none)) fun o => ?_
  rcases o with - | ⟨dir, basename⟩
  · exact hm
  · exact hf dir basename

theorem even_sysMknod (filename : Path) (mode : BitVec 16) (dev : ℕ) :
    Even (sysMknod cur filename mode dev) [] := by
  unfold sysMknod
  refine .ite (even_error _) (even_withDir filename (fun dir basename => ?_) (even_error _))
  refine .ite (even_putOne dir _) (.bind (refs_permission dir _) fun ok => .ite (even_putOne dir _) ?_)
  refine .bind (refs_findEntry dir basename) fun r => ?_
  obtain ⟨dir, - | k⟩ := r
  · refine .bind .reads fun iDev => .bind (refs_newInode iDev) fun o => ?_
    cases o with
    | none => exact even_putOne dir _
    | some inode =>
      refine .bind (refs_setMode inode mode) fun _ => .bind (refs_setDevice inode mode dev) fun _ => ?_
      refine .bind .reads fun inr => .bind (refs_addEntry dir basename inr) fun added => .ite ?_ ?_
      · exact .bind refs_iput_second fun _ => .bind refs_iput_first fun _ => .pure (.refl _)
      · exact .bind refs_iput_second fun _ => .bind (refs_setNlinks inode 0) fun _ => even_putOne inode _
  · exact even_putOne dir _

theorem refs_makeEntries (dir inode : ℕ) (mode : BitVec 32) :
    Refs h (makeEntries cur dir inode mode) fun _ => h := .modifies fun s i => by simp

/-- A new inode is given up, after its directory. -/
theorem even_giveUp {dir inode : ℕ} {m : M Unit} (hm : ∀ h, Refs h m fun _ => h) (err : Errno) :
    Even (do iput dir; m; putOne inode err) [inode, dir] :=
  .bind refs_iput_second fun _ => .bind (hm _) fun _ => even_putOne inode err

theorem even_sysMkdir (pathname : Path) (mode : BitVec 32) : Even (sysMkdir cur pathname mode) [] := by
  unfold sysMkdir
  refine even_withDir pathname (fun dir basename => ?_) (even_error _)
  refine .ite (even_putOne dir _) (.bind (refs_permission dir _) fun ok => .ite (even_putOne dir _) ?_)
  refine .bind (refs_findEntry dir basename) fun r => ?_
  obtain ⟨dir, - | k⟩ := r
  · refine .bind .reads fun dev => .bind (refs_newInode dev) fun o => ?_
    cases o with
    | none => exact even_putOne dir _
    | some inode =>
      refine .bind refs_io fun room => .ite (.bind (.modifies fun s i => by simp) fun _ => ?_)
        (even_giveUp (fun _ => refs_decNlinks inode) _)
      refine .bind refs_io fun read => .ite (.bind (refs_makeEntries dir inode mode) fun _ => ?_)
        (even_giveUp (fun _ => refs_decNlinks inode) _)
      refine .bind .reads fun inr => .bind (refs_addEntry dir basename inr) fun added => .ite ?_
        (even_giveUp (fun _ => refs_setNlinks inode 0) _)
      refine .bind (refs_incNlinks dir) fun _ => .bind refs_iput_second fun _ => ?_
      exact .bind refs_iput_first fun _ => .pure (.refl _)
  · exact even_putOne dir _

theorem refs_emptyFrom (entries : List DirEntry) (k nr : ℕ) :
    Refs h (emptyFrom entries k nr) fun _ => h := by
  induction k generalizing nr with
  | zero => exact .pure (.refl _)
  | succ k ih =>
    unfold emptyFrom
    exact .ite (.bind refs_io fun ok => .ite (.ite (ih _) (.pure (.refl _))) (.pure (.refl _)))
      (.pure (.refl _))

theorem refs_emptyDir (inode : ℕ) : Refs h (emptyDir inode) fun _ => h := by
  unfold emptyDir
  refine .bind .reads fun f => .bind .reads fun nr => .ite (.pure (.refl _)) ?_
  refine .bind refs_io fun ok => .ite ?_ (.pure (.refl _))
  split
  · exact .ite (.ite (refs_emptyFrom _ _ _) (.pure (.refl _))) (.pure (.refl _))
  · exact .pure (.refl _)

theorem even_removeDir (dir inode k : ℕ) : Even (removeDir dir inode k) [inode, dir] := by
  refine .bind (refs_clearEntry dir k) fun _ => .bind (refs_setNlinks inode 0) fun _ => ?_
  refine .bind (.modifies fun s i => by simp) fun _ => .bind (refs_decNlinks dir) fun _ => ?_
  exact .bind refs_iput_second fun _ => .bind refs_iput_first fun _ => .pure (.refl _)

theorem even_sysRmdir (name : Path) : Even (sysRmdir cur name) [] := by
  unfold sysRmdir
  refine even_withDir name (fun dir basename => ?_) (even_error _)
  refine .ite (even_putOne dir _) (.bind (refs_permission dir _) fun ok => .ite (even_putOne dir _) ?_)
  refine .bind (refs_findEntry dir basename) fun r => ?_
  obtain ⟨dir, - | k⟩ := r
  · exact even_putOne dir _
  refine .bind .reads fun inr => .bind .reads fun dev => .bind (refs_iget dev inr) fun o => ?_
  cases o with
  | none => exact even_putOne dir _
  | some inode =>
    have hboth : ∀ err, Even (putBoth dir inode err) [inode, dir] := even_putBoth (.swap _ _ _)
    have hboth' : ∀ err, Even (putBoth inode dir err) [inode, dir] := even_putBoth (.refl _)
    refine .bind .reads fun d => .bind .reads fun f => .bind .reads fun x => ?_
    refine .ite (hboth _) (.ite (hboth _) (.ite (hboth' _) (.ite (hboth' _) ?_)))
    exact .bind (refs_emptyDir inode) fun isEmpty => .ite (even_removeDir dir inode k) (hboth' _)

theorem even_removeEntry (dir inode k : ℕ) : Even (removeEntry dir inode k) [inode, dir] := by
  refine .bind (.modifies fun s i => by simp) fun _ => .bind (refs_clearEntry dir k) fun _ => ?_
  refine .bind (refs_decNlinks inode) fun _ => .bind refs_iput_first fun _ => ?_
  exact .bind refs_iput_first fun _ => .pure (.refl _)

theorem even_sysUnlink (name : Path) : Even (sysUnlink cur name) [] := by
  unfold sysUnlink
  refine even_withDir name (fun dir basename => ?_) (even_error _)
  refine .ite (even_putOne dir _) (.bind (refs_permission dir _) fun ok => .ite (even_putOne dir _) ?_)
  refine .bind (refs_findEntry dir basename) fun r => ?_
  obtain ⟨dir, - | k⟩ := r
  · exact even_putOne dir _
  refine .bind .reads fun inr => .bind .reads fun dev => .bind (refs_iget dev inr) fun o => ?_
  cases o with
  | none => exact even_putOne dir _
  | some inode =>
    refine .bind .reads fun d => .bind .reads fun f => .ite (even_putBoth (.swap _ _ _) _) ?_
    exact .ite (even_putBoth (.refl _) _) (even_removeEntry dir inode k)

theorem even_sysSymlink (oldname newname : Path) : Even (sysSymlink cur oldname newname) [] := by
  unfold sysSymlink
  refine even_withDir newname (fun dir basename => ?_) (even_error _)
  refine .ite (even_putOne dir _) (.bind (refs_permission dir _) fun ok => .ite (even_putOne dir _) ?_)
  refine .bind .reads fun dev => .bind (refs_newInode dev) fun o => ?_
  cases o with
  | none => exact even_putOne dir _
  | some inode =>
    refine .bind (refs_setMode inode _) fun _ => .bind refs_io fun room => .ite ?_
      (even_giveUp (fun _ => refs_decNlinks inode) _)
    refine .bind (.modifies fun s i => by simp) fun _ => .bind refs_io fun read => .ite ?_
      (even_giveUp (fun _ => refs_decNlinks inode) _)
    refine .bind (.modifies fun s i => by simp) fun _ => ?_
    refine .bind ((refs_findEntry dir basename).perm (.swap _ _ _) fun _ => .refl _) fun r => ?_
    obtain ⟨dir, - | k⟩ := r
    · refine .bind .reads fun inr => .bind (refs_addEntry dir basename inr) fun added => .ite ?_ ?_
      · exact .bind refs_iput_first fun _ => .bind refs_iput_first fun _ => .pure (.refl _)
      · exact .bind (refs_decNlinks inode) fun _ => even_putBoth (.swap _ _ _) _
    · exact .bind (refs_decNlinks inode) fun _ => even_putBoth (.swap _ _ _) _

theorem even_sysLink (oldname newname : Path) : Even (sysLink cur oldname newname) [] := by
  unfold sysLink
  refine .bind (refs_nameiWith refs_follow oldname none true) fun o => ?_
  cases o with
  | none => exact even_error _
  | some oldinode =>
    refine .bind (refs_isDir oldinode) fun dir => .ite (even_putOne oldinode _) ?_
    refine even_withDir newname (fun dir basename => ?_) (even_putOne oldinode _)
    refine .ite (even_putBoth (.swap _ _ _) _) (.bind .reads fun dev => .bind .reads fun old => ?_)
    refine .ite (even_putBoth (.refl _) _) (.bind (refs_permission dir _) fun ok => ?_)
    refine .ite (even_putBoth (.refl _) _) (.bind (refs_findEntry dir basename) fun r => ?_)
    obtain ⟨dir, - | k⟩ := r
    · refine .bind (refs_addEntry dir basename _) fun added => .ite ?_ (even_putBoth (.refl _) _)
      refine .bind refs_iput_first fun _ => .bind (refs_incNlinks oldinode) fun _ => ?_
      exact .bind refs_iput_first fun _ => .pure (.refl _)
    · exact even_putBoth (.refl _) _

/-- When the code returns, each inode has lost the references that were taken over and has got those
that are handed back. -/
def Balanced (taken : List ℕ) (m : M α) (given : α → List ℕ) : Prop :=
  ∀ s a s', (∀ e, taken.count e ≤ s.count e) → m s = some (a, s') →
    ∀ e, s'.count e + taken.count e = s.count e + (given a).count e

theorem balanced_of_refs {given : α → List ℕ} {m : M α} (hm : Refs h m given) : Balanced h m given := by
  intro s a s' hle hx e
  have hs : Holding Sys.count (fun i => s.count i - h.count i) h s := by
    intro i
    have := hle i
    dsimp only
    omega
  have := hm _ s a s' hs hx e
  have := hle e
  omega

/-- No call leaves a reference behind or drops one that it does not have: a base directory is taken
over, and the inode that is returned comes with one reference. -/
theorem references_balanced (cur : Current) :
    (∀ user path base,
      Balanced base.toList (getDir cur (followFor cur user) path base) Option.toList) ∧
    (∀ user path base, Balanced base.toList (dirNamei cur (followFor cur user) path base)
      fun r => (r.map Prod.fst).toList) ∧
    (∀ user path base links,
      Balanced base.toList (nameiWith cur (followFor cur user) path base links) Option.toList) ∧
    (∀ path flag mode, Balanced [] (openNamei cur path flag mode) opened) ∧
    (∀ path mode dev, Balanced [] (sysMknod cur path mode dev) fun _ => []) ∧
    (∀ path mode, Balanced [] (sysMkdir cur path mode) fun _ => []) ∧
    (∀ path, Balanced [] (sysRmdir cur path) fun _ => []) ∧
    (∀ path, Balanced [] (sysUnlink cur path) fun _ => []) ∧
    (∀ oldname newname, Balanced [] (sysSymlink cur oldname newname) fun _ => []) ∧
    ∀ oldname newname, Balanced [] (sysLink cur oldname newname) fun _ => [] := by
  refine ⟨?_, ?_, ?_, ?_, ?_, ?_, ?_, ?_, ?_, ?_⟩
  · exact fun user path base => balanced_of_refs (refs_getDir (refs_followFor user) path base)
  · exact fun user path base => balanced_of_refs (refs_dirNamei (refs_followFor user) path base)
  · exact fun user path base links =>
      balanced_of_refs (refs_nameiWith (refs_followFor user) path base links)
  · exact fun path flag mode => balanced_of_refs (refs_openNamei path flag mode)
  · exact fun path mode dev => balanced_of_refs (even_sysMknod path mode dev)
  · exact fun path mode => balanced_of_refs (even_sysMkdir path mode)
  · exact fun path => balanced_of_refs (even_sysRmdir path)
  · exact fun path => balanced_of_refs (even_sysUnlink path)
  · exact fun oldname newname => balanced_of_refs (even_sysSymlink oldname newname)
  · exact fun oldname newname => balanced_of_refs (even_sysLink oldname newname)

/-! ## A small tree -/

/-- `f` and the symbolic link `l` to it. -/
def nameF : Name := [102]
def nameL : Name := [108]

/-- A root directory with a file and a symbolic link. -/
def smallTree : Key → File
  | (0x301, 1) =>
    { File.zero with
      iMode := 0o040755, iNlinks := 2, zone := true
      entries := [⟨1, dot⟩, ⟨1, dotdot⟩, ⟨2, nameF⟩, ⟨3, nameL⟩] }
  | (0x301, 2) => { File.zero with iMode := 0o100644, iNlinks := 1 }
  | (0x301, 3) => { File.zero with iMode := 0o120777, iNlinks := 1, zone := true, link := nameF }
  | _ => .zero

def small : Sys where
  inodes e :=
    if e = 0 then { MInode.zero with iDev := 0x301, iNum := 1, iCount := 2 } else .zero
  lastInode := 0
  superBlock := [⟨0x301, 100, some 0⟩]
  imap _ j := j < 4
  files := smallTree
  io := []

def superUser : Current where
  root := 0
  pwd := 0
  cred := ⟨0, 0, []⟩
  umask := 0

/-- The directory that `dir_namei` returns has one more reference, and the base directory of the
path in a symbolic link has one less. -/
theorem directory_counts :
    (dirNamei superUser (follow superUser) nameF none small).map (fun r => (r.1, r.2.count 0)) =
      some (some (0, nameF), small.count 0 + 1) ∧
    (linkNamei superUser nameF 0 small).map (fun r => r.2.count 0 + 1) = some (small.count 0) := by
  decide +kernel

/-- The link is followed, and the file comes with one reference. -/
theorem references_balanced_link :
    (openNamei superUser nameL Files.O_RDONLY 0 small).map (fun r => opened r.1) = some [2] ∧
    Balanced [] (openNamei superUser nameL Files.O_RDONLY 0) opened :=
  ⟨by decide +kernel, (references_balanced superUser).2.2.2.1 nameL Files.O_RDONLY 0⟩

end Linux012.Namei
