import Linux012.Fs.Namei.Subtree

/-! # No path leads out of the subtree

The functions of `fs/namei.c` hold references to inodes of the subtree only. `open_namei` opens an
inode of the subtree, or makes one in a directory of the subtree.
-/

namespace Linux012.Namei

open Function Triples
open Dirs (Name DirEntry dot dotdot)

variable {cur : Current} {α : Type} {t s s' : Sys} {e : ℕ} {h : List ℕ} {k : Key}

/-! ## Paths -/

theorem stays_reads {f : Sys → α} : Stays t cur h (reads f) fun _ => h :=
  Triple.reads.weaken (fun _ => id) fun _ _ => And.right

theorem stays_readLink (user : Bool) (f : File) : Stays t cur h (readLink user f) fun _ => h := by
  unfold readLink
  split
  · exact triple_io fun _ _ hs => hs.of_io
  · exact stays_pure (.refl _)

theorem stays_orHold {e : ℕ} (he : ∀ s, At t cur h s → Below t cur (s.key e)) (inode : Option ℕ) :
    Stays t cur (inode.toList ++ h) (orHold e inode) fun i => i :: h := by
  cases inode with
  | none => exact .bind (stays_hold he) fun _ => stays_pure (.refl _)
  | some i => exact stays_pure (.refl _)

/-- A directory, of which the code holds a reference. -/
def Directory (t : Sys) (cur : Current) (o : Option ℕ) (s : Sys) : Prop :=
  (∀ i, o = some i → (s.file i).isDir) ∧ At t cur o.toList s

theorem directory_pure_none : Triple (At t cur []) (pure none) (Directory t cur) :=
  .pure fun s hs => ⟨by simp, hs⟩

/-- An entry that has been found is read. -/
theorem triple_lead {dir k : ℕ} {β : Type} {f : ℕ → ℕ → M β} {Q : β → Sys → Prop}
    (hf : ∀ dev inr, Below t cur (dev, inr) → Triple (At t cur (dir :: h)) (f dev inr) Q) :
    Triple (fun s => Leads t cur (dir, some k) s ∧ At t cur (dir :: h) s)
      (do
        let inr ← entryInode dir k
        let dev ← reads fun s => (s.inodes dir).iDev
        f dev inr) Q := by
  rintro s a s' ⟨hlead, hs⟩ hx
  exact hf _ _ (hlead k rfl) s a s' hs hx

section Paths

variable (hc : Consistent t cur)

include hc

theorem below_key_root (hs : At t cur h s) : Below t cur (s.key cur.root) := by
  rw [key_root hc hs.toSame]
  exact below_root

theorem stays_none {e : ℕ} : Stays t cur [e] (do iput e; pure (none : Option ℕ)) Option.toList :=
  .bind (stays_iput_first hc) fun _ => stays_pure (.refl _)

/-- The path of a symbolic link begins where the link lies. -/
theorem stays_followLink {namei : Path → ℕ → M (Option ℕ)} {user : Bool}
    (hnamei : ∀ path dir, Stays t cur [dir] (namei path dir) Option.toList) (dir inode : Option ℕ) :
    Stays t cur (dir.toList ++ inode.toList) (followLink cur namei user dir inode) Option.toList := by
  unfold followLink
  refine .bind (stays_orHold (fun s => below_key_root hc) dir) fun dir => ?_
  cases inode with
  | none => exact stays_none hc
  | some inode =>
    refine .bind stays_reads fun f => ?_
    split
    · exact .bind (stays_iput_first hc) fun _ => stays_pure (.refl _)
    · refine .bind (stays_readLink user f) fun read => ?_
      split
      · exact .bind (stays_iput hc (.swap _ _ _)) fun _ => hnamei _ _
      · exact .bind (stays_iput_first hc) fun _ => stays_none hc

theorem stays_fromRoot (pathname : Path) (inode : ℕ) :
    Stays t cur [inode] (fromRoot cur pathname inode) fun i => [i] := by
  unfold fromRoot
  split
  · refine .bind (stays_iput_first hc) fun _ => .bind (stays_holdRoot hc) fun _ => ?_
    exact stays_pure (.refl _)
  · exact stays_pure (.refl _)

variable {follow : Option ℕ → Option ℕ → M (Option ℕ)}
  (hfollow : ∀ dir inode, Stays t cur (dir.toList ++ inode.toList) (follow dir inode) Option.toList)

include hfollow

theorem stays_getDirLoop (names : List Name) (inode : ℕ) :
    Triple (At t cur [inode]) (getDirLoop cur follow names inode) (Directory t cur) := by
  have hput : ∀ e, Triple (At t cur [e]) (do iput e; pure none) (Directory t cur) :=
    fun e => .bind (stays_iput_first hc) fun _ => directory_pure_none
  induction names generalizing inode with
  | nil =>
    unfold getDirLoop
    refine .bind .reads fun ok => ?_
    split
    · rename_i hok
      refine .pure fun s hs => ⟨?_, hs.2⟩
      rintro i ⟨⟩
      rw [hs.1] at hok
      exact (Bool.and_eq_true_iff.mp hok).1
    · exact (hput inode).weaken (fun s hs => hs.2) fun _ _ => id
  | cons thisname names ih =>
    unfold getDirLoop
    refine .bind .reads fun ok => ?_
    split
    · rename_i hok
      refine .bind ((leads_findEntry hc inode thisname).weaken (fun s hs => ⟨?_, hs.2⟩)
        fun _ _ => id) fun r => ?_
      · rw [hs.1] at hok
        exact (Bool.and_eq_true_iff.mp hok).1
      obtain ⟨dir, - | k⟩ := r
      · exact (hput dir).weaken (fun s hs => hs.2) fun _ _ => id
      · refine triple_lead fun dev inr hb => .bind (stays_iget hc hb) fun o => ?_
        cases o with
        | none => exact hput dir
        | some inode =>
          refine .bind ((hfollow (some dir) (some inode)).weaken (fun s hs => hs.perm (.swap _ _ _))
            fun _ _ => id) fun o => ?_
          cases o with
          | none => exact directory_pure_none
          | some inode => exact ih inode
    · exact (hput inode).weaken (fun s hs => hs.2) fun _ _ => id

/-- A relative path begins at the base, or at the working directory. -/
theorem stays_getDir (hpwd : Below t cur (t.key cur.pwd)) (pathname : Path) (base : Option ℕ) :
    Triple (At t cur base.toList) (getDir cur follow pathname base) (Directory t cur) := by
  have hkey : ∀ s, At t cur [] s → Below t cur (s.key cur.pwd) := by
    intro s hs
    rwa [(hs.keep _ hc.pwd).1]
  unfold getDir
  refine .bind (R := fun i => At t cur [i]) ?_ fun inode => ?_
  · exact (stays_orHold hkey base).weaken (fun s hs => by simpa using hs) fun _ _ => id
  · refine .bind (stays_fromRoot hc pathname inode) fun inode => ?_
    exact stays_getDirLoop hc hfollow _ inode

/-- The directory of a path, with the name within it. -/
def Place (t : Sys) (cur : Current) (r : Option (ℕ × Name)) (s : Sys) : Prop :=
  (∀ d, r = some d → (s.file d.1).isDir) ∧ At t cur (r.map Prod.fst).toList s

theorem place_dirNamei (hpwd : Below t cur (t.key cur.pwd)) (pathname : Path) (base : Option ℕ) :
    Triple (At t cur base.toList) (dirNamei cur follow pathname base) (Place t cur) := by
  unfold dirNamei
  refine .bind (stays_getDir hc hfollow hpwd pathname base) fun o => ?_
  cases o with
  | none => exact .pure fun s hs => ⟨by simp, hs.2⟩
  | some dir =>
    refine .pure fun s hs => ⟨?_, hs.2⟩
    rintro d ⟨⟩
    exact hs.1 dir rfl

theorem stays_lastLink (followLinks : Bool) (base inode : ℕ) :
    Stays t cur [base, inode] (lastLink follow followLinks base inode) Option.toList := by
  unfold lastLink
  split
  · exact hfollow (some base) (some inode)
  · exact .bind (stays_iput_first hc) fun _ => stays_pure (.refl _)

theorem stays_nameiWith (hpwd : Below t cur (t.key cur.pwd)) (pathname : Path) (base : Option ℕ)
    (followLinks : Bool) :
    Stays t cur base.toList (nameiWith cur follow pathname base followLinks) Option.toList := by
  unfold nameiWith
  refine .bind (place_dirNamei hc hfollow hpwd pathname base) fun o => ?_
  rcases o with - | ⟨base, basename⟩
  · exact .pure fun s hs => hs.2
  dsimp only
  split
  · exact .pure fun s hs => hs.2
  · refine .bind ((leads_findEntry hc base basename).weaken (fun s hs => ⟨hs.1 _ rfl, hs.2⟩)
      fun _ _ => id) fun r => ?_
    obtain ⟨base, - | k⟩ := r
    · exact (stays_none hc).weaken (fun s hs => hs.2) fun _ _ => id
    · refine triple_lead fun dev inr hb => .bind (stays_iget hc hb) fun o => ?_
      cases o with
      | none => exact stays_none hc
      | some inode =>
        refine .bind ((stays_lastLink hc hfollow followLinks base inode).weaken
          (fun s hs => hs.perm (.swap _ _ _)) fun _ _ => id) fun o => ?_
        cases o with
        | none => exact stays_pure (.refl _)
        | some inode =>
          refine .bind (R := fun _ => At t cur [inode]) (.modifies fun s hs => ?_) fun _ =>
            stays_pure (.refl _)
          exact hs.touch (touches_setDirt true) (fun i => by simpa using hs.holding i) fun _ => .inl

end Paths

section Follow

variable (hc : Consistent t cur) (hpwd : Below t cur (t.key cur.pwd))

include hc

theorem stays_kernelFollow (dir inode : Option ℕ) :
    Stays t cur (dir.toList ++ inode.toList) (kernelFollow cur dir inode) Option.toList :=
  stays_followLink hc (fun _ _ => .failure) dir inode

include hpwd

theorem stays_follow (dir inode : Option ℕ) :
    Stays t cur (dir.toList ++ inode.toList) (follow cur dir inode) Option.toList :=
  stays_followLink hc
    (fun path dir => stays_nameiWith hc (stays_kernelFollow hc) hpwd path (some dir) false) dir inode

end Follow

/-! ## `open_namei` -/

/-- The inode of a number that was free in `t`, entered in the directory `p`. -/
def Made (t s : Sys) (p c : Key) : Prop :=
  c.1 = p.1 ∧ t.imap c.1 c.2 = false ∧ ∃ de ∈ (s.files p).entries, de.inode = c.2

/-- What has been opened lies in the subtree, or has been made in a directory of the subtree. -/
def Inside (t : Sys) (cur : Current) (r : Except Errno ℕ) (s : Sys) : Prop :=
  ∀ e, r = .ok e → Below t cur (s.key e) ∨ ∃ p, Below t cur p ∧ Made t s p (s.key e)

/-- The entry `inode` is that of the new number `j`. -/
structure New (t : Sys) (dir inode : ℕ) (x : Key) (j : ℕ) (s : Sys) : Prop where
  keyDir : s.key dir = x
  key : s.key inode = (x.1, j)
  fresh : t.imap x.1 j = false
  links : (s.files x).iNlinks ≠ 0

theorem triple_any {β : Type} {m : M β} {f : β → M α} {P : Sys → Prop} {Q : α → Sys → Prop}
    (hf : ∀ b, Triple (fun _ => True) (f b) Q) : Triple P (m >>= f) Q :=
  .bind (R := fun _ _ => True) (fun _ _ _ _ _ => trivial) hf

theorem inside_error {P : Sys → Prop} (err : Errno) : Triple P (pure (.error err)) (Inside t cur) :=
  .pure fun _ _ _ => nofun

theorem inside_putError {P : Sys → Prop} (err : Errno) :
    Triple P (do iput e; pure (.error err)) (Inside t cur) :=
  triple_any fun _ => inside_error err

theorem inside_ok {e : ℕ} :
    Triple (fun s => Below t cur (s.key e)) (pure (.ok e)) (Inside t cur) := by
  refine .pure fun s hs i hi => .inl ?_
  obtain rfl := Except.ok.inj hi
  exact hs

theorem getEmptyInode_key {i : ℕ} (hx : getEmptyInode s = some (e, s')) (hi : s.count i ≠ 0) :
    s'.key i = s.key i := by
  unfold getEmptyInode at hx
  split at hx
  · cases hx
  · rename_i last e' he
    obtain ⟨rfl, rfl⟩ := Prod.mk.inj (Option.some.inj hx)
    have hne : i ≠ e' := by
      rintro rfl
      exact hi (scanEmpty_spec (by simp) he).2
    simp [Sys.key, Sys.upd, hne]

theorem findFirstZero_eq {bits : ℕ → Bool} {fuel i j : ℕ}
    (hj : Dirs.findFirstZero bits fuel i = some j) : bits j = false := by
  induction fuel generalizing i with
  | zero => cases hj
  | succ fuel ih =>
    unfold Dirs.findFirstZero at hj
    split_ifs at hj with hbit
    · exact ih hj
    · obtain rfl := Option.some.inj hj
      simpa using hbit

theorem new_newInode (hc : Consistent t cur) {dir : ℕ} {x : Key} :
    Triple (Within t cur dir x [dir]) (newInode cur x.1) fun o s =>
      ∀ inode, o = some inode → ∃ j, New t dir inode x j s := by
  unfold newInode
  refine .bind (R := fun e s => s.key dir = x ∧ Spare t cur e [dir] s) ?_ fun e => ?_
  · intro s e s' hs hx
    refine ⟨(getEmptyInode_key hx ?_).trans hs.1, spare_getEmptyInode s e s' hs.2 hx⟩
    rw [hs.2.holding dir, List.count_singleton_self]
    exact Nat.succ_ne_zero _
  refine .bind .reads fun o => ?_
  cases o with
  | none => exact .failure
  | some sb =>
    refine .bind .reads fun o => ?_
    cases o with
    | none => exact triple_any fun _ => .pure fun _ _ _ => nofun
    | some j =>
      refine .bind (R := fun _ => New t dir e x j) (.modifies ?_) fun _ => .pure ?_
      · rintro s ⟨hj, -, hdir, hs⟩
        have hbelow : Below t cur x := hdir ▸ hs.below dir (List.mem_singleton_self dir)
        have hne : dir ≠ e := by
          rintro rfl
          exact hc.dev_ne_zero (hs.below dir (List.mem_singleton_self dir)) hs.noDev
        refine ⟨?_, ?_, ?_, ?_⟩
        · rw [← hdir]
          simp [Sys.key, Sys.upd, Sys.setFile, hne]
        · simp [Sys.key, Sys.upd, Sys.setFile]
        · rw [← hs.imap]
          exact findFirstZero_eq hj.symm
        · simp only [Sys.setFile, Sys.upd, Sys.key, hs.files, update_self]
          rcases eq_or_ne x (x.1, j) with heq | hx
          · rw [← heq, update_self]
            exact one_ne_zero
          · rw [update_of_ne hx]
            exact hc.links x hbelow
      · rintro s hs _ ⟨⟩
        exact ⟨j, hs⟩

section New

variable {dir inode j : ℕ} {x : Key}

theorem New.touch (hn : New t dir inode x j s) (ht : Touches s s') : New t dir inode x j s' where
  keyDir := (ht.key dir).trans hn.keyDir
  key := (ht.key inode).trans hn.key
  fresh := hn.fresh
  links := by rw [ht.files]; exact hn.links

theorem New.setFile {g : File → File} (hn : New t dir inode x j s)
    (hg : ∀ f, (g f).iNlinks = f.iNlinks) (e : ℕ) : New t dir inode x j (s.setFile e g) where
  keyDir := hn.keyDir
  key := hn.key
  fresh := hn.fresh
  links := by
    rcases eq_or_ne x (s.key e) with rfl | hx
    · simpa [Sys.setFile, hg, Sys.file] using hn.links
    · simpa [Sys.setFile, hx] using hn.links

theorem mem_putEntry (es : List DirEntry) (k : ℕ) (de : DirEntry) : de ∈ Dirs.putEntry es k de := by
  unfold Dirs.putEntry
  split
  · rename_i hk
    exact List.mem_set hk de
  · simp

theorem new_enterEntry (k : ℕ) (name : Name) :
    Triple (New t dir inode x j) (enterEntry dir k ⟨j, name⟩) fun _ s =>
      New t dir inode x j s ∧ ∃ de ∈ (s.files x).entries, de.inode = j := by
  refine .bind (.modifies fun s hn => ⟨?_, ⟨j, name⟩, ?_, rfl⟩) fun _ => .pure fun _ hs => hs
  · refine (hn.setFile (g := fun f => { f with entries := Dirs.putEntry f.entries k ⟨j, name⟩ })
      (fun _ => rfl) dir).touch (touches_setDirt true)
  · rw [← hn.keyDir]
    simp [Sys.setFile, Sys.setDirt, Sys.upd, mem_putEntry]

theorem new_io : Triple (New t dir inode x j) io fun _ => New t dir inode x j :=
  triple_io fun _ _ hn => ⟨hn.keyDir, hn.key, hn.fresh, hn.links⟩

theorem new_addEntry (name : Name) :
    Triple (New t dir inode x j) (addEntry dir name j) fun ok s =>
      ok = true → New t dir inode x j s ∧ ∃ de ∈ (s.files x).entries, de.inode = j := by
  have hfalse : ∀ P : Sys → Prop, Triple P (pure false) fun ok s =>
      ok = true → New t dir inode x j s ∧ ∃ de ∈ (s.files x).entries, de.inode = j :=
    fun P => .pure fun _ _ => nofun
  have henter : ∀ k, Triple (New t dir inode x j) (enterEntry dir k ⟨j, name.take NAME_LEN⟩)
      fun ok s => ok = true → New t dir inode x j s ∧ ∃ de ∈ (s.files x).entries, de.inode = j :=
    fun k => (new_enterEntry k _).weaken (fun _ hn => hn) fun _ _ hs _ => hs
  unfold addEntry
  refine .bind (Triple.reads.weaken (fun _ hn => hn) fun _ _ => And.right) fun f => ?_
  dsimp only
  split
  · exact hfalse _
  refine .bind new_io fun read => ?_
  split
  · split
    · refine .bind new_io fun room => ?_
      split
      · exact henter _
      · exact hfalse _
    · exact henter _
  · exact hfalse _

end New

section OpenNamei

variable {dir : ℕ} {x : Key} (hc : Consistent t cur)

/-- The end of `open_namei` with a new inode. -/
theorem inside_made {inode j : ℕ} (hx : Below t cur x) (name : Name) {m : M (Except Errno ℕ)}
    (hm : ∀ P : Sys → Prop, Triple P m (Inside t cur)) (g : File → File)
    (hg : ∀ f, (g f).iNlinks = f.iNlinks) :
    Triple (New t dir inode x j)
      (do
        modifies fun s => (s.setFile inode g).setDirt inode true
        let inr ← reads fun s => (s.inodes inode).iNum
        if ← addEntry dir name inr then do
          iput dir
          pure (.ok inode)
        else m)
      (Inside t cur) := by
  refine .bind (R := fun _ => New t dir inode x j) (.modifies fun s hn => ?_) fun _ => ?_
  · exact (hn.setFile hg inode).touch (touches_setDirt true)
  refine .bind (R := fun inr s => inr = j ∧ New t dir inode x j s) ?_ fun inr => .of_imp ?_
  · exact Triple.reads.weaken (fun _ hn => hn) fun inr s hs =>
      ⟨hs.1.trans (congrArg Prod.snd hs.2.key), hs.2⟩
  rintro rfl
  refine .bind (new_addEntry name) fun added => ?_
  split
  · rename_i hadded
    refine .bind (R := fun _ s => New t dir inode x inr s ∧ ∃ de ∈ (s.files x).entries, de.inode = inr)
      ?_ fun _ => .pure ?_
    · rintro s a s' hs hrun
      obtain ⟨hn, hde⟩ := hs hadded
      have ht : Touches s s' := iputs_touches (iputs_of_iput hrun) fun _ => by
        rw [Sys.file, hn.keyDir]
        exact hn.links
      exact ⟨hn.touch ht, by rwa [ht.files]⟩
    · rintro s ⟨hn, hde⟩ i hi
      obtain rfl := Except.ok.inj hi
      refine .inr ⟨x, hx, ?_⟩
      rw [hn.key]
      exact ⟨rfl, hn.fresh, hde⟩
  · exact hm _

/-- The device of a directory is read. -/
theorem triple_dev {β : Type} {f : ℕ → M β} {Q : β → Sys → Prop}
    (hf : ∀ x, Below t cur x → Triple (Within t cur dir x [dir]) (f x.1) Q) :
    Triple (At t cur [dir]) (do let dev ← reads fun s => (s.inodes dir).iDev; f dev) Q := by
  intro s a s' hs hx
  exact hf (s.key dir) (hs.below dir (List.mem_singleton_self dir)) s a s' ⟨rfl, hs⟩ hx

include hc

theorem inside_openNamei (hpwd : Below t cur (t.key cur.pwd)) (pathname : Path)
    (flag mode : BitVec 32) :
    Triple (At t cur []) (openNamei cur pathname flag mode) (Inside t cur) := by
  unfold openNamei
  dsimp only
  generalize (if flag &&& Files.O_TRUNC ≠ 0 ∧ flag &&& Files.O_ACCMODE = 0
    then flag ||| Files.O_WRONLY else flag) = flag
  refine .bind (place_dirNamei hc (stays_follow hc hpwd) hpwd pathname none) fun o => ?_
  rcases o with - | ⟨dir, basename⟩
  · exact inside_error _
  dsimp only
  split
  · split
    · exact inside_ok.weaken (fun s hs => hs.2.below dir (List.mem_singleton_self dir)) fun _ _ => id
    · exact inside_putError _
  refine .bind ((leads_findEntry hc dir basename).weaken (fun s hs => ⟨hs.1 _ rfl, hs.2⟩)
    fun _ _ => id) fun r => ?_
  obtain ⟨dir, - | k⟩ := r
  · dsimp only
    split
    · exact inside_putError _
    refine .bind (R := fun _ => At t cur [dir]) ?_ fun ok => ?_
    · exact stays_reads.weaken (fun s hs => hs.2) fun _ _ => id
    split
    · exact inside_putError _
    refine triple_dev fun x hb => .bind (new_newInode hc) fun o => ?_
    cases o with
    | none => exact inside_putError _
    | some inode =>
      intro s a s' hs hx
      obtain ⟨j, hn⟩ := hs inode rfl
      refine inside_made hb basename (fun P => ?_) _ ?_ s a s' hn hx
      · exact triple_any fun _ => triple_any fun _ => inside_putError _
      · exact fun f => rfl
  · refine triple_lead fun dev inr hb => ?_
    split
    · exact inside_putError _
    refine .bind (stays_iget hc hb) fun inode => .bind (R := fun o => At t cur o.toList) ?_ fun o => ?_
    · exact (stays_follow hc hpwd (some dir) inode).weaken (fun s hs => hs.perm List.perm_append_comm)
        fun _ _ => id
    cases o with
    | none => exact inside_error _
    | some inode =>
      refine .bind stays_reads fun isDir => .bind stays_reads fun allowed => ?_
      split
      · exact inside_putError _
      split
      · refine .bind (R := fun _ s => Below t cur (s.key inode)) (.modifies fun s hs => ?_) fun _ => ?_
        · exact hs.below inode (List.mem_singleton_self inode)
        · exact inside_ok
      · exact inside_ok.weaken (fun s hs => hs.below inode (List.mem_singleton_self inode)) fun _ _ => id

end OpenNamei

theorem Consistent.at (hc : Consistent t cur) : At t cur [] t where
  files := rfl
  superBlock := rfl
  imap := rfl
  keep _ _ := ⟨rfl, rfl⟩
  inTable := hc.inTable
  unique := hc.unique
  holding e := by rw [List.count_nil, Nat.add_zero]
  below := nofun

/-- No path leads out of the subtree of the root directory, when the working directory lies in it:
not through `..`, through symbolic links or across mount points. -/
theorem contained (hc : Consistent s cur) (hpwd : Below s cur (s.key cur.pwd)) :
    (∀ path e s', namei cur path s = some (some e, s') → Below s cur (s'.key e)) ∧
    (∀ path e s', lnamei cur path s = some (some e, s') → Below s cur (s'.key e)) ∧
    ∀ path flag mode e s', openNamei cur path flag mode s = some (.ok e, s') →
      Below s cur (s'.key e) ∨ ∃ p, Below s cur p ∧ Made s s' p (s'.key e) := by
  have hnamei : ∀ path links e s', nameiWith cur (follow cur) path none links s = some (some e, s') →
      Below s cur (s'.key e) := by
    intro path links e s' hx
    have hat := stays_nameiWith hc (stays_follow hc hpwd) hpwd path none links s _ s' hc.at hx
    exact hat.below e (List.mem_singleton_self e)
  refine ⟨fun path => hnamei path true, fun path => hnamei path false, ?_⟩
  intro path flag mode e s' hx
  exact inside_openNamei hc hpwd path flag mode s _ s' hc.at hx e rfl

/-! ## `sys_chroot` -/

/-- The tree of `t` is still there. -/
theorem Same.below {cur' : Current} (hc : Consistent t cur) (hs : Same t s)
    (hroot : Below t cur (s.key cur'.root)) (hk : Below s cur' k) : Below t cur k := by
  induction hk with
  | refl => exact hroot
  | tail _ hstep ih =>
    rcases hstep with hn | ⟨e, sb, rfl, hmount, hsb, rfl⟩
    · rw [Names, hs.files] at hn
      exact ih.tail (.inl hn)
    · exact below_mounted hc hs ih hmount hsb

/-- The subtree of the new root directory is part of the old one. -/
theorem below_sysChroot (hc : Consistent s cur) (hpwd : Below s cur (s.key cur.pwd)) {filename : Path}
    {cur' : Current} (hx : sysChroot cur filename s = some (.ok cur', s')) (hk : Below s' cur' k) :
    Below s cur k := by
  have hspec : Triple (At s cur []) (sysChroot cur filename) fun r s' =>
      ∀ cur', r = .ok cur' → Same s s' ∧ Below s cur (s'.key cur'.root) := by
    refine .bind (stays_nameiWith hc (stays_follow hc hpwd) hpwd filename none true) fun o => ?_
    cases o with
    | none => exact .pure fun _ _ _ => nofun
    | some inode =>
      refine .bind stays_reads fun dir => ?_
      split
      · exact triple_any fun _ => .pure fun _ _ _ => nofun
      · refine .bind (R := fun _ s' => Same s s' ∧ Below s cur (s'.key inode)) ?_ fun _ => .pure ?_
        · intro s₁ a s₂ hs hrun
          have ht := iputs_touches (iputs_of_iput hrun) fun _ => by
            rw [Sys.file, hs.files, key_root hc hs.toSame]
            exact hc.links _ below_root
          refine ⟨hs.toSame.touch ht, ?_⟩
          rw [ht.key]
          exact hs.below inode (List.mem_singleton_self inode)
        · rintro s₁ hs _ ⟨⟩
          exact hs
  obtain ⟨hsame, hroot⟩ := hspec s _ s' hc.at hx cur' rfl
  exact hsame.below hc hroot hk

/-! ## A tree with a mounted file system -/

def nameMnt : Name := [109]

/-- The directory `(0x301, 2)` has a directory, a symbolic link and a file; a file system with one
file is mounted on the former. -/
def jailTree : List (Key × File) :=
  [((0x301, 2),
    { File.zero with
      iMode := 0o040755, iNlinks := 3, zone := true
      entries := [⟨2, dot⟩, ⟨1, dotdot⟩, ⟨3, nameMnt⟩, ⟨4, nameL⟩] }),
   ((0x301, 3),
    { File.zero with
      iMode := 0o040755, iNlinks := 2, zone := true, entries := [⟨3, dot⟩, ⟨2, dotdot⟩] }),
   ((0x301, 4),
    { File.zero with
      iMode := 0o120777, iNlinks := 1, zone := true
      link := [slash] ++ dotdot ++ [slash] ++ nameMnt ++ [slash] ++ dotdot }),
   ((0x302, 1),
    { File.zero with
      iMode := 0o040755, iNlinks := 2, zone := true
      entries := [⟨1, dot⟩, ⟨1, dotdot⟩, ⟨2, nameF⟩] }),
   ((0x302, 2), { File.zero with iMode := 0o100644, iNlinks := 1 })]

def jailTable : List MInode :=
  [{ MInode.zero with iDev := 0x301, iNum := 1, iCount := 1 },
   { MInode.zero with iDev := 0x301, iNum := 2, iCount := 1 },
   { MInode.zero with iDev := 0x301, iNum := 3, iCount := 1, iMount := true },
   { MInode.zero with iDev := 0x302, iNum := 1, iCount := 1 }]

def jail : Sys where
  inodes e := (jailTable[e]?).getD .zero
  lastInode := 0
  superBlock := [⟨0x301, 100, some 0⟩, ⟨0x302, 100, some 2⟩]
  imap _ j := j < 5
  files k := (jailTree.lookup k).getD .zero
  io := []

/-- The process works in the mounted file system. -/
def jailed : Current := { superUser with root := 1, pwd := 3 }

/-- `../l/../m/f` -/
def jailPath : Path :=
  dotdot ++ [slash] ++ nameL ++ [slash] ++ dotdot ++ [slash] ++ nameMnt ++ [slash] ++ nameF

theorem jail_lt (hdev : (jail.key e).1 ≠ 0) : e < 4 := by
  by_contra hge
  refine hdev ?_
  have hnone : jailTable[e]? = none := List.getElem?_eq_none (by simpa [jailTable] using hge)
  simp [Sys.key, jail, hnone, MInode.zero]

theorem jail_mounted {p c : Key} (hm : Mounted jail p c) : p = (0x301, 3) ∧ c = (0x302, 1) := by
  obtain ⟨e, sb, rfl, hmount, hsb, rfl⟩ := hm
  obtain ⟨hmem, he⟩ := mem_of_mountedOn hsb
  simp only [jail, List.mem_cons, List.not_mem_nil, or_false] at hmem
  rcases hmem with rfl | rfl
  · obtain rfl := Option.some.inj he
    cases hmount
  · obtain rfl := Option.some.inj he
    exact ⟨rfl, rfl⟩

theorem jail_entries : ∀ p ∈ jailTree.map Prod.fst, ∀ de ∈ (jail.files p).entries,
    (de.name ≠ dot → de.name ≠ dotdot → (p.1, de.inode) ∈ jailTree.map Prod.fst ∧
      de.inode ≠ ROOT_INO ∧ ∀ de' ∈ (jail.files (p.1, de.inode)).entries,
        de'.name = dotdot → de'.inode = p.2) ∧
    (de.name = dot → de.inode = p.2) := by
  decide +kernel

theorem jail_below (hk : Below jail jailed k) : k ∈ jailTree.map Prod.fst := by
  induction hk with
  | refl => decide
  | @tail p c _ hstep ih =>
    rcases hstep with ⟨-, hdev, de, hde, hinode, -, hdot, hdotdot⟩ | hm
    · have := ((jail_entries p ih de hde).1 hdot hdotdot).1
      rwa [hinode, ← hdev] at this
    · rw [(jail_mounted hm).2]
      decide

theorem jail_consistent : Consistent jail jailed where
  inTable e he := (jail_lt he).trans (by decide)
  unique e e' he heq := by
    have hall : ∀ i < 4, ∀ j < 4, jail.key i = jail.key j → i = j := by decide +kernel
    exact hall e (jail_lt he) e' (jail_lt (by rwa [← heq])) heq
  root := by decide
  pwd := by decide
  supers := by simp [jail]
  mounts := by
    intro sb hsb e he
    simp only [jail, List.mem_cons, List.not_mem_nil, or_false] at hsb
    rcases hsb with rfl | rfl
    · obtain rfl := Option.some.inj he
      decide
    · obtain rfl := Option.some.inj he
      decide
  named := by
    rintro p c hp ⟨-, hdev, de, hde, hinode, -, hdot, hdotdot⟩
    obtain ⟨-, hroot, hup⟩ := (jail_entries p (jail_below hp) de hde).1 hdot hdotdot
    rw [hinode] at hroot
    rw [hinode, ← hdev] at hup
    exact ⟨hroot, fun _ de' hde' _ => hup de' hde'⟩
  dots p hp _ de hde _ hname := (jail_entries p (jail_below hp) de hde).2 hname
  links p hp := by
    have hall : ∀ p ∈ jailTree.map Prod.fst, (jail.files p).iNlinks ≠ 0 := by decide +kernel
    exact hall p (jail_below hp)

theorem jail_pwd : Below jail jailed (jail.key jailed.pwd) := by
  refine .tail (.single (b := (0x301, 3)) (.inl ?_)) (.inr ?_)
  · exact ⟨by decide, rfl, ⟨3, nameMnt⟩, by decide, rfl, by decide, by decide, by decide⟩
  · exact ⟨2, ⟨0x302, 100, some 2⟩, rfl, rfl, rfl, rfl⟩

def jailFile : Option ℕ × Sys := (namei jailed jailPath jail).get (by decide +kernel)

theorem jailFile_eq : namei jailed jailPath jail = some jailFile := by
  unfold jailFile
  rw [Option.some_get]

theorem contained_jail : jailFile.1.map jailFile.2.key = some (0x302, 2) ∧
    ∀ e, jailFile.1 = some e → Below jail jailed (jailFile.2.key e) := by
  refine ⟨by decide +kernel, fun e he => ?_⟩
  refine (contained jail_consistent jail_pwd).1 jailPath e jailFile.2 ?_
  rw [jailFile_eq, ← he]

end Linux012.Namei
