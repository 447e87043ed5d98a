import Linux012.Fs.Dir.Links

/-! # The law of link counts

`i_nlinks` is the number of live entries that name an inode, up to links that a call has
entered or announced and not counted yet. The directories form a tree, which is why the
removal of an empty one takes away exactly its last two links.
-/

namespace Linux012.Dirs

open Function

variable {fs fs' : Fs} {d i j k n : ℕ} {de a b : DirEntry} {es rest : List DirEntry}
  {pend debt : ℕ → ℕ}

/-- `pend` counts entries made for links that are not counted yet, `debt` links that are counted
and have no entry yet. -/
structure Law (fs : Fs) (pend debt : ℕ → ℕ) : Prop where
  links : ∀ i, i ≠ 0 → i ≤ fs.sNinodes → fs.imap i = true →
    (fs.inodes i).iNlinks + pend i = fs.links i + debt i
  free : ∀ i, i ≠ 0 → fs.sNinodes < i ∨ fs.imap i = false → fs.links i = 0
  zero : fs.imap 0 = true ∧ ¬ fs.Live 0
  small : ∀ i, (fs.inodes i).iNlinks < 256

/-- A live directory is empty and has no block, as `mknod` makes it, or it begins with `.` and
`..`. It has one entry outside these, in the directory that `..` names. -/
structure Tree (fs : Fs) : Prop where
  root : fs.Live ROOT_INO
  kind : ∀ d, fs.Live d → ((fs.inodes d).zone = false ∧ (fs.inodes d).entries = []) ∨
    ((fs.inodes d).zone = true ∧ ∃ a b rest, (fs.inodes d).entries = a :: b :: rest ∧
      a.inode = d ∧ b.inode ≠ 0)
  up : ∀ d, fs.Live d → d ≠ ROOT_INO → fs.tails d = 1
  parent : ∀ d c a b rest, fs.Live d → fs.Live c → (fs.inodes c).entries = a :: b :: rest →
    0 < countNames c ((fs.inodes d).entries.drop 2) → b.inode = d
  parent_root : ∀ a b rest, (fs.inodes ROOT_INO).entries = a :: b :: rest → b.inode = ROOT_INO

namespace Tree

theorem congr (h : Tree fs) (hN : fs'.sNinodes = fs.sNinodes)
    (hlive : ∀ d, fs'.Live d ↔ fs.Live d)
    (he : ∀ d, fs.Live d → (fs'.inodes d).zone = (fs.inodes d).zone ∧
      (fs'.inodes d).entries = (fs.inodes d).entries) : Tree fs' := by
  have htails : ∀ i, fs'.tails i = fs.tails i := by
    intro i
    refine Fs.linksIn_congr hN fun e => ?_
    simp only [Fs.namesIn, hlive]
    split_ifs with hl
    · rw [(he e hl).2]
    · rfl
  constructor
  · exact (hlive _).mpr h.root
  · intro d hd
    rw [hlive] at hd
    rw [(he d hd).1, (he d hd).2]
    exact h.kind d hd
  · intro d hd hne
    rw [htails]
    exact h.up d ((hlive d).mp hd) hne
  · intro d c a b rest hd hc hce hpos
    rw [hlive] at hd hc
    rw [(he c hc).2] at hce
    rw [(he d hd).2] at hpos
    exact h.parent d c a b rest hd hc hce hpos
  · intro a b rest hr
    rw [(he _ h.root).2] at hr
    exact h.parent_root a b rest hr

/-- A directory other than the root is in the directory that its `..` names. -/
theorem in_parent (h : Tree fs) (hd : fs.Live d) (hne : d ≠ ROOT_INO)
    (he : (fs.inodes d).entries = a :: b :: rest) :
    fs.Live b.inode ∧ 0 < countNames d ((fs.inodes b.inode).entries.drop 2) := by
  have hpos : 0 < fs.tails d := by rw [h.up d hd hne]; exact Nat.one_pos
  obtain ⟨p, hp, hc⟩ := (Fs.linksIn_pos _).mp hpos
  rw [h.parent p d a b rest hp hd he hc]
  exact ⟨hp, hc⟩

theorem live_dotdot (h : Tree fs) (hd : fs.Live d) (he : (fs.inodes d).entries = a :: b :: rest) :
    fs.Live b.inode := by
  by_cases hr : d = ROOT_INO
  · subst hr
    rw [h.parent_root a b rest he]
    exact h.root
  · exact (h.in_parent hd hr he).1

theorem dot_eq (h : Tree fs) (hd : fs.Live d) (he : (fs.inodes d).entries = a :: b :: rest) :
    a.inode = d := by
  rcases h.kind d hd with ⟨-, hnil⟩ | ⟨-, a', b', rest', he', ha, -⟩
  · rw [he] at hnil
    cases hnil
  · rw [he] at he'
    obtain ⟨rfl, -⟩ := List.cons.inj he'
    exact ha

/-- A directory with an entry begins with `.` and `..`. -/
theorem entries_eq (h : Tree fs) (hd : fs.Live d) (hk : (fs.inodes d).entries[k]? = some de) :
    ∃ a b rest, (fs.inodes d).entries = a :: b :: rest ∧ a.inode = d ∧ b.inode ≠ 0 := by
  rcases h.kind d hd with ⟨-, hnil⟩ | ⟨-, a, b, rest, he, ha, hb⟩
  · rw [hnil] at hk
    simp at hk
  · exact ⟨a, b, rest, he, ha, hb⟩

end Tree

theorem entryInode_eq (h : entryInode fs d k = i) (hi : i ≠ 0) :
    ∃ de, (fs.inodes d).entries[k]? = some de ∧ de.inode = i := by
  unfold entryInode at h
  cases hk : (fs.inodes d).entries[k]? with
  | none =>
    rw [hk] at h
    exact absurd h.symm hi
  | some de =>
    rw [hk] at h
    exact ⟨de, rfl, h⟩

/-! ## Removing an entry -/

theorem live_clearEntry (e : ℕ) : (clearEntry fs d k).Live e ↔ fs.Live e := by
  by_cases he : e = d
  · subst he
    simp only [Fs.Live, clearEntry, Fs.inodes_upd_self]
    rfl
  · exact Fs.live_upd_of_ne he

theorem inodes_clearEntry_self : (clearEntry fs d k).inodes d = { fs.inodes d with
    entries := (fs.inodes d).entries.modify k fun de => { de with inode := 0 } } :=
  Fs.inodes_upd_self _

section Clear

variable (hd : fs.Live d) (he : (fs.inodes d).entries = a :: b :: rest) (hk : rest[k]? = some de)

include hd he

theorem heads_clearEntry : (clearEntry fs d (k + 2)).heads j = fs.heads j := by
  refine Fs.linksIn_congr rfl fun e => ?_
  by_cases hed : e = d
  · subst hed
    simp only [Fs.namesIn, live_clearEntry, inodes_clearEntry_self, he, List.modify_succ_cons,
      List.take_succ_cons, List.take_zero]
  · exact Fs.namesIn_upd_of_ne hed

include hk

theorem tails_clearEntry (hj : j ≠ 0) :
    (clearEntry fs d (k + 2)).tails j + de.one j = fs.tails j := by
  have h : (clearEntry fs d (k + 2)).tails j + fs.namesIn (List.drop 2) d j =
      fs.tails j + (clearEntry fs d (k + 2)).namesIn (List.drop 2) d j := Fs.linksIn_upd _ _ _
  have hm := countNames_modify (i := j) (f := fun de => { de with inode := 0 }) hk
  have hzero : DirEntry.one j { de with inode := 0 } = 0 := if_neg hj.symm
  simp only [Fs.namesIn, live_clearEntry, if_pos hd, inodes_clearEntry_self, he,
    List.modify_succ_cons, List.drop_succ_cons, List.drop_zero] at h
  omega

theorem links_clearEntry (hj : j ≠ 0) :
    (clearEntry fs d (k + 2)).links j + de.one j = fs.links j := by
  rw [Fs.links_eq, Fs.links_eq, heads_clearEntry hd he, ← tails_clearEntry hd he hk hj]
  omega

end Clear

/-- Only links are counted differently, of an inode that is no directory. -/
theorem Tree.countLinks (h : Tree fs) (hdir : (fs.inodes i).isDir = false) (g : ℕ → ℕ) :
    Tree (fs.upd i fun x => { x with iNlinks := g x.iNlinks }) := by
  refine h.congr rfl (fun d => ?_) fun d hd => ?_
  · by_cases hi : d = i
    · subst hi
      simp only [Fs.Live, Fs.inodes_upd_self]
      simp [Inode.isDir] at hdir ⊢
      simp [hdir]
    · exact Fs.live_upd_of_ne hi
  · have hne : d ≠ i := by
      rintro rfl
      rw [hd.2.2.1] at hdir
      cases hdir
    rw [Fs.inodes_upd_of_ne _ hne]
    exact ⟨rfl, rfl⟩

theorem links_setLinks (hdir : (fs.inodes i).isDir = false) (g : ℕ → ℕ) :
    (fs.upd i fun x => { x with iNlinks := g x.iNlinks }).links j = fs.links j := by
  refine Fs.linksIn_upd_same id ?_ rfl
  simp only [Fs.Live, Fs.inodes_upd_self]
  simp [Inode.isDir] at hdir ⊢
  simp [hdir]

/-- An entry that names no directory stands behind `.` and `..`. -/
theorem Tree.tail_of_not_live (h : Tree fs) (hd : fs.Live d)
    (hk : (fs.inodes d).entries[k]? = some de) (hde : ¬ fs.Live de.inode) :
    ∃ a b rest l, (fs.inodes d).entries = a :: b :: rest ∧ k = l + 2 ∧ rest[l]? = some de := by
  obtain ⟨a, b, rest, he, ha, hb⟩ := h.entries_eq hd hk
  rw [he] at hk
  rcases k with _ | _ | l
  · obtain rfl : a = de := by simpa using hk
    exact absurd (ha ▸ hd) hde
  · obtain rfl : b = de := by simpa using hk
    exact absurd (h.live_dotdot hd he) hde
  · exact ⟨a, b, rest, l, he, rfl, by simpa using hk⟩

theorem Tree.clearEntry (h : Tree fs) (hd : fs.Live d)
    (he : (fs.inodes d).entries = a :: b :: rest) (hk : rest[k]? = some de)
    (hde : ¬ fs.Live de.inode) (hzero : ¬ fs.Live 0) : Tree (clearEntry fs d (k + 2)) := by
  have hentries : ∀ e, ∀ a' b' rest', ((Dirs.clearEntry fs d (k + 2)).inodes e).entries =
      a' :: b' :: rest' → ∃ rest'', (fs.inodes e).entries = a' :: b' :: rest'' := by
    intro e a' b' rest' h'
    by_cases hed : e = d
    · subst hed
      rw [inodes_clearEntry_self] at h'
      simp only [he, List.modify_succ_cons, List.cons.injEq] at h'
      obtain ⟨rfl, rfl, -⟩ := h'
      exact ⟨rest, he⟩
    · rw [Dirs.clearEntry, Fs.inodes_upd_of_ne _ hed] at h'
      exact ⟨rest', h'⟩
  constructor
  · exact (live_clearEntry _).mpr h.root
  · intro e hl
    rw [live_clearEntry] at hl
    by_cases hed : e = d
    · subst hed
      rw [inodes_clearEntry_self]
      rcases h.kind e hl with ⟨-, hnil⟩ | ⟨hz, a', b', rest', he', ha, hb⟩
      · rw [he] at hnil
        cases hnil
      · exact .inr ⟨hz, a', b', _, by rw [he']; rfl, ha, hb⟩
    · rw [Dirs.clearEntry, Fs.inodes_upd_of_ne _ hed]
      exact h.kind e hl
  · intro e hl hne
    rw [live_clearEntry] at hl
    have hone : de.one e = 0 := if_neg fun (heq : de.inode = e) => hde (heq ▸ hl)
    have := tails_clearEntry (j := e) hd he hk fun h => hzero (h ▸ hl)
    rw [← h.up e hl hne]
    omega
  · intro e c a' b' rest' hle hlc hec hpos
    rw [live_clearEntry] at hle hlc
    obtain ⟨rest'', hc⟩ := hentries c a' b' rest' hec
    refine h.parent e c a' b' rest'' hle hlc hc ?_
    by_cases hed : e = d
    · subst hed
      rw [inodes_clearEntry_self] at hpos
      simp only [he, List.modify_succ_cons, List.drop_succ_cons, List.drop_zero] at hpos ⊢
      have hm := countNames_modify (i := c) (f := fun de => { de with inode := 0 }) hk
      have hz : DirEntry.one c { de with inode := 0 } = 0 :=
        if_neg fun (heq : 0 = c) => hzero (heq ▸ hlc)
      omega
    · rwa [Dirs.clearEntry, Fs.inodes_upd_of_ne _ hed] at hpos
  · intro a' b' rest' hr
    obtain ⟨rest'', hr⟩ := hentries _ a' b' rest' hr
    exact h.parent_root a' b' rest'' hr

/-- `sys_unlink` removes one entry and counts one link less. -/
theorem unlinkEntry_keeps (h : Law fs pend debt) (ht : Tree fs) (hd : fs.Live d)
    (hk : entryInode fs d k = i) (hi : i ≠ 0) (hdir : (fs.inodes i).isDir = false)
    (hn : (fs.inodes i).iNlinks ≠ 0) :
    Law (unlinkEntry fs d k i) pend debt ∧ Tree (unlinkEntry fs d k i) := by
  obtain ⟨de, hget, rfl⟩ := entryInode_eq hk hi
  have hde : ¬ fs.Live de.inode := by
    rintro ⟨-, -, h, -⟩
    rw [hdir] at h
    cases h
  obtain ⟨a, b, rest, l, he, rfl, hl⟩ := ht.tail_of_not_live hd hget hde
  have hne : de.inode ≠ d := by
    rintro rfl
    exact hde hd
  have htree := ht.clearEntry hd he hl hde h.zero.2
  have hdir' : ((clearEntry fs d (l + 2)).inodes de.inode).isDir = false := by
    rw [clearEntry, Fs.inodes_upd_of_ne _ hne]
    exact hdir
  have heq : unlinkEntry fs d (l + 2) de.inode =
      (clearEntry fs d (l + 2)).upd de.inode fun x =>
        { x with iNlinks := (x.iNlinks + 255) % 256 } := by
    rw [unlinkEntry]
    simp only [if_neg hn]
    rfl
  rw [heq]
  refine ⟨?_, htree.countLinks hdir' fun n => (n + 255) % 256⟩
  have hlinks : ∀ j, j ≠ 0 → ((clearEntry fs d (l + 2)).upd de.inode fun x =>
      { x with iNlinks := (x.iNlinks + 255) % 256 }).links j + de.one j = fs.links j := by
    intro j hj
    rw [links_setLinks hdir' fun n => (n + 255) % 256]
    exact links_clearEntry hd he hl hj
  have hsame : ∀ j, ((clearEntry fs d (l + 2)).inodes j).iNlinks = (fs.inodes j).iNlinks := by
    intro j
    by_cases hj : j = d
    · rw [hj, inodes_clearEntry_self]
    · rw [clearEntry, Fs.inodes_upd_of_ne _ hj]
  constructor
  · intro j hj hN him
    have h₁ := h.links j hj hN him
    have h₂ := hlinks j hj
    have h₃ := h.small de.inode
    by_cases hji : j = de.inode
    · subst hji
      rw [Fs.inodes_upd_self]
      dsimp only
      rw [hsame]
      have hone : de.one de.inode = 1 := if_pos rfl
      omega
    · rw [Fs.inodes_upd_of_ne _ hji, hsame]
      have hone : de.one j = 0 := if_neg (Ne.symm hji)
      omega
  · intro j hj hfree
    have h₁ := h.free j hj hfree
    have h₂ := hlinks j hj
    omega
  · refine ⟨h.zero.1, fun h0 => h.zero.2 ?_⟩
    rw [Fs.live_upd_of_ne hi.symm, live_clearEntry] at h0
    exact h0
  · intro j
    rw [Fs.inodes_upd]
    split_ifs
    · exact Nat.mod_lt _ (by decide)
    · rw [hsame]
      exact h.small j

/-! ## Removing a directory -/

/-- An empty directory names itself and its parent and nothing else. -/
theorem emptyDir_spec (h : emptyDir fs i = true) :
    ∃ a b rest, (fs.inodes i).entries = a :: b :: rest ∧ a.inode = i ∧ b.inode ≠ 0 ∧
      ∀ c, c ≠ 0 → countNames c rest = 0 := by
  unfold emptyDir at h
  dsimp only at h
  split at h
  · rename_i a b rest hz he
    simp only [Bool.and_eq_true, decide_eq_true_eq, List.all_eq_true] at h
    refine ⟨a, b, rest, he, h.1.1.1.1, by simpa using h.1.1.1.2, fun c hc => ?_⟩
    refine Nat.eq_zero_of_not_pos fun hpos => ?_
    obtain ⟨de, hde, rfl⟩ := countNames_pos.mp hpos
    exact hc (h.2 de hde)
  · cases h

theorem links_die (fs : Fs) (part : List DirEntry → List DirEntry) :
    (setLinks fs i 0).linksIn part j + fs.namesIn part i j = fs.linksIn part j := by
  have h : (setLinks fs i 0).linksIn part j + fs.namesIn part i j =
      fs.linksIn part j + (setLinks fs i 0).namesIn part i j := Fs.linksIn_upd _ _ _
  have hdead : (setLinks fs i 0).namesIn part i j = 0 := by
    refine if_neg fun hl => hl.2.2.2 ?_
    rw [setLinks, Fs.inodes_upd_self]
  omega

section Rmdir

variable (ht : Tree fs) (hzero : ¬ fs.Live 0) (hd : fs.Live d) (hid : i ≠ d)
  (he : (fs.inodes i).entries = a :: b :: rest) (hrest : ∀ c, c ≠ 0 → countNames c rest = 0)

include ht hzero hrest

/-- Nothing has an empty directory for its parent. -/
theorem Tree.not_parent_of_empty {e : ℕ} (he : (fs.inodes i).entries = a :: b :: rest)
    {a' b' : DirEntry} {rest' : List DirEntry} (hl : fs.Live e) (hne : e ≠ ROOT_INO)
    (hes : (fs.inodes e).entries = a' :: b' :: rest') : b'.inode ≠ i := by
  rintro rfl
  have := (ht.in_parent hl hne hes).2
  rw [he] at this
  have h0 := hrest e fun h => hzero (h ▸ hl)
  simp only [List.drop_succ_cons, List.drop_zero] at this
  omega

include he in
/-- An empty directory can die. -/
theorem Tree.die (hi : i ≠ ROOT_INO) : Tree (setLinks fs i 0) := by
  have hlive : ∀ e, (setLinks fs i 0).Live e ↔ fs.Live e ∧ e ≠ i := by
    intro e
    by_cases hei : e = i
    · subst hei
      simp [Fs.Live, setLinks, Fs.inodes_upd_self]
    · rw [setLinks, Fs.live_upd_of_ne hei]
      exact ⟨fun h => ⟨h, hei⟩, And.left⟩
  have hsame : ∀ e, e ≠ i → (setLinks fs i 0).inodes e = fs.inodes e :=
    fun e hei => Fs.inodes_upd_of_ne _ hei
  constructor
  · exact (hlive _).mpr ⟨ht.root, hi.symm⟩
  · intro e hl
    obtain ⟨hl, hei⟩ := (hlive e).mp hl
    rw [hsame e hei]
    exact ht.kind e hl
  · intro e hl hne
    obtain ⟨hl, hei⟩ := (hlive e).mp hl
    have h := links_die fs (List.drop 2) (i := i) (j := e)
    have h0 : fs.namesIn (List.drop 2) i e = 0 := by
      rw [Fs.namesIn, he]
      split_ifs
      · exact hrest e fun h => hzero (h ▸ hl)
      · rfl
    rw [← ht.up e hl hne, Fs.tails, Fs.tails]
    omega
  · intro e c a' b' rest' hle hlc hc hpos
    obtain ⟨hle, hei⟩ := (hlive e).mp hle
    obtain ⟨hlc, hci⟩ := (hlive c).mp hlc
    rw [hsame e hei] at hpos
    rw [hsame c hci] at hc
    exact ht.parent e c a' b' rest' hle hlc hc hpos
  · intro a' b' rest' hr
    rw [hsame _ hi.symm] at hr
    exact ht.parent_root a' b' rest' hr

include hid he

include hd in
/-- The entry of an empty directory stands in the directory that its `..` names. -/
theorem Tree.rmdir_slot (hli : fs.Live i) (hk : (fs.inodes d).entries[k]? = some de)
    (hde : de.inode = i) : b.inode = d ∧ ∃ a' b' rest' l,
      (fs.inodes d).entries = a' :: b' :: rest' ∧ k = l + 2 ∧ rest'[l]? = some de := by
  obtain ⟨a', b', rest', hes, ha', -⟩ := ht.entries_eq hd hk
  rw [hes] at hk
  rcases k with _ | _ | l
  · obtain rfl : a' = de := by simpa using hk
    exact absurd (hde.symm.trans ha') hid
  · obtain rfl : b' = de := by simpa using hk
    by_cases hr : d = ROOT_INO
    · subst hr
      exact absurd (hde.symm.trans (ht.parent_root _ _ _ hes)) hid
    · exact absurd hde (ht.not_parent_of_empty hzero hrest he hd hr hes)
  · have hl : rest'[l]? = some de := by simpa using hk
    refine ⟨ht.parent d i a b rest hd hli he ?_, a', b', rest', l, hes, rfl, hl⟩
    rw [countNames_pos, hes]
    exact ⟨de, List.mem_of_getElem? hl, hde⟩

/-- An empty directory has two links. -/
theorem Tree.links_of_empty (hli : fs.Live i) (hi : i ≠ ROOT_INO) (hb : b.inode = d) :
    fs.links i = 2 := by
  have ha := ht.dot_eq hli he
  have hheads : fs.heads i = fs.namesIn (List.take 2) i i := by
    unfold Fs.heads Fs.linksIn
    refine Finset.sum_eq_single i (fun e _ hei => ?_) fun h => ?_
    · rw [Fs.namesIn]
      split_ifs with hl
      swap
      · rfl
      rcases ht.kind e hl with ⟨-, hnil⟩ | ⟨-, a', b', rest', hes, ha', -⟩
      · rw [hnil]; rfl
      · have h₁ : a'.one i = 0 := if_neg fun h => hei (ha'.symm.trans h)
        have h₂ : b'.one i = 0 := by
          refine if_neg fun (h : b'.inode = i) => ?_
          by_cases hr : e = ROOT_INO
          · subst hr
            exact hi (h.symm.trans (ht.parent_root _ _ _ hes))
          · exact ht.not_parent_of_empty hzero hrest he hl hr hes h
        rw [hes]
        simp [h₁, h₂]
    · exact absurd (Finset.mem_range.mpr (Nat.lt_succ_of_le hli.1)) h
  have h₁ : a.one i = 1 := if_pos ha
  have h₂ : b.one i = 0 := if_neg fun h => hid (h.symm.trans hb)
  rw [Fs.links_eq, ht.up i hli hi, hheads, Fs.namesIn, if_pos hli, he]
  simp [h₁, h₂]

end Rmdir

theorem Fs.upd_comm (g g' : Inode → Inode) (h : i ≠ d) :
    (fs.upd d g).upd i g' = (fs.upd i g').upd d g := by
  simp only [Fs.upd, update_of_ne h, update_of_ne h.symm, Fs.mk.injEq, and_true]
  exact update_comm h.symm ..

/-- `sys_rmdir` removes the entry of an empty directory, and with the directory its own two. -/
theorem rmdirEntry_keeps (h : Law fs pend debt) (ht : Tree fs)
    (hp : ∀ c, (fs.inodes c).isDir = true → pend c = 0 ∧ debt c = 0) (hd : fs.Live d)
    (hk : entryInode fs d k = i) (hi : i ≠ 0) (hdir : (fs.inodes i).isDir = true) (hid : i ≠ d)
    (hempty : emptyDir fs i = true) :
    Law (rmdirEntry fs d k i) pend debt ∧ Tree (rmdirEntry fs d k i) := by
  obtain ⟨de, hget, hde⟩ := entryInode_eq hk hi
  obtain ⟨a, b, rest, he, ha, -, hrest⟩ := emptyDir_spec hempty
  have hd0 : d ≠ 0 := fun h0 => h.zero.2 (h0 ▸ hd)
  -- the directory is live, because an entry names it
  have hpos : 0 < fs.links i := by
    refine (Fs.linksIn_pos id).mpr ⟨d, hd, countNames_pos.mpr ⟨de, ?_, hde⟩⟩
    exact List.mem_of_getElem? hget
  have hli : fs.Live i := by
    have hin : i ≤ fs.sNinodes ∧ fs.imap i = true := by
      by_contra hno
      have hfree : fs.sNinodes < i ∨ fs.imap i = false := by
        rcases not_and_or.mp hno with h | h
        · exact .inl (not_le.mp h)
        · exact .inr (by simpa using h)
      have := h.free i hi hfree
      omega
    have := h.links i hi hin.1 hin.2
    have := hp i hdir
    exact ⟨hin.1, hin.2, hdir, by omega⟩
  obtain ⟨hb, a', b', rest', l, hes, rfl, hl⟩ :=
    ht.rmdir_slot h.zero.2 hd hid he hrest hli hget hde
  have hroot : i ≠ ROOT_INO := by
    rintro rfl
    exact hid ((ht.parent_root a b rest he).symm.trans hb)
  have htwo := ht.links_of_empty h.zero.2 hid he hrest hli hroot hb
  -- it does not matter which of the two inodes changes first
  set fs₁ := setLinks fs i 0 with hfs₁
  set fs₂ := clearEntry fs₁ d (l + 2) with hfs₂
  have heq : rmdirEntry fs d (l + 2) i = decLinks fs₂ d := by
    rw [hfs₂, hfs₁, rmdirEntry, setLinks, setLinks, clearEntry, clearEntry,
      Fs.upd_comm _ _ hid]
  have hin₁ : fs₁.inodes d = fs.inodes d := Fs.inodes_upd_of_ne _ hid.symm
  have hd₁ : fs₁.Live d := (Fs.live_upd_of_ne hid.symm).mpr hd
  have hdead : ¬ fs₁.Live de.inode := by
    rw [hde]
    intro hl
    refine hl.2.2.2 ?_
    rw [hfs₁, setLinks, Fs.inodes_upd_self]
  have hzero₁ : ¬ fs₁.Live 0 := by
    rw [hfs₁, setLinks, Fs.live_upd_of_ne hi.symm]
    exact h.zero.2
  have htree₁ : Tree fs₁ := ht.die h.zero.2 he hrest hroot
  have htree₂ : Tree fs₂ := htree₁.clearEntry hd₁ (hin₁ ▸ hes) hl hdead hzero₁
  have hlinks₂ : ∀ j, j ≠ 0 → fs₂.links j + de.one j + (a.one j + b.one j) = fs.links j := by
    intro j hj
    have h₁ : fs₂.links j + de.one j = fs₁.links j := links_clearEntry hd₁ (hin₁ ▸ hes) hl hj
    have h₂ : fs₁.links j + fs.namesIn id i j = fs.links j := links_die _ id
    rw [Fs.namesIn, if_pos hli, he, id_eq, countNames_cons, countNames_cons, hrest j hj] at h₂
    omega
  have hone : ∀ {x : DirEntry} {m : ℕ}, x.inode = m → ∀ j, x.one j = if j = m then 1 else 0 := by
    intro x m hx j
    simp only [DirEntry.one, hx, eq_comm]
  -- the parent still has its own entry, so it stays
  have hd₂ : fs₂.Live d := (live_clearEntry d).mpr hd₁
  have hdot : 1 ≤ fs₂.links d := by
    have hle := Fs.namesIn_le id (i := d) hd₂
    have hent : (fs₂.inodes d).entries =
        a' :: b' :: rest'.modify l fun de => { de with inode := 0 } := by
      rw [hfs₂, inodes_clearEntry_self, hin₁, hes]
      rfl
    rw [hent, id_eq, countNames_cons, countNames_cons, hone (ht.dot_eq hd hes), if_pos rfl] at hle
    exact le_trans (by omega) hle
  have hn₂ : ∀ j, (fs₂.inodes j).iNlinks = if j = i then 0 else (fs.inodes j).iNlinks := by
    intro j
    by_cases hjd : j = d
    · subst hjd
      rw [hfs₂, inodes_clearEntry_self, hin₁, if_neg hid.symm]
    · rw [hfs₂, clearEntry, Fs.inodes_upd_of_ne _ hjd, hfs₁, setLinks, Fs.inodes_upd]
      split_ifs <;> rfl
  have hdn := h.links d hd0 hd.1 hd.2.1
  have hpd := hp d hd.2.2.1
  have hld := hlinks₂ d hd0
  rw [hone hde, hone ha, hone hb, if_neg hid.symm, if_pos rfl] at hld
  have hsmall := h.small d
  have hn : ((fs₂.inodes d).iNlinks + 255) % 256 = (fs.inodes d).iNlinks - 1 := by
    rw [hn₂, if_neg hid.symm]
    omega
  have hlive₃ : ∀ e, (decLinks fs₂ d).Live e ↔ fs₂.Live e := by
    intro e
    by_cases hed : e = d
    · subst hed
      refine ⟨fun _ => hd₂, fun _ => ⟨hd₂.1, hd₂.2.1, ?_, ?_⟩⟩
      · rw [decLinks, Fs.inodes_upd_self]
        exact hd₂.2.2.1
      · rw [decLinks, Fs.inodes_upd_self]
        dsimp only
        omega
    · exact Fs.live_upd_of_ne hed
  have hlinks₃ : ∀ j, (decLinks fs₂ d).links j = fs₂.links j := fun j =>
    Fs.linksIn_upd_same id (hlive₃ d) rfl
  rw [heq]
  constructor
  · constructor
    · intro j hj hN him
      have h₁ := h.links j hj hN him
      have h₂ := hlinks₂ j hj
      have h₃ := hp i hdir
      rw [hone hde, hone ha, hone hb] at h₂
      rw [hlinks₃]
      by_cases hjd : j = d
      · subst hjd
        rw [decLinks, Fs.inodes_upd_self]
        dsimp only
        rw [if_neg hid.symm, if_pos rfl] at h₂
        omega
      · rw [decLinks, Fs.inodes_upd_of_ne _ hjd, hn₂]
        by_cases hji : j = i
        · subst hji
          rw [if_pos rfl, if_neg hid] at h₂
          rw [if_pos rfl]
          omega
        · rw [if_neg hji, if_neg hjd] at h₂
          rw [if_neg hji]
          omega
    · intro j hj hfree
      have h₁ := h.free j hj hfree
      have h₂ := hlinks₂ j hj
      rw [hlinks₃]
      omega
    · refine ⟨h.zero.1, fun h0 => hzero₁ ?_⟩
      rw [hlive₃, hfs₂, live_clearEntry] at h0
      exact h0
    · intro j
      rw [decLinks, Fs.inodes_upd]
      split_ifs
      · exact Nat.mod_lt _ (by decide)
      · rw [hn₂]
        split_ifs
        · decide
        · exact h.small j
  · refine htree₂.congr rfl hlive₃ fun e _ => ?_
    by_cases hed : e = d
    · subst hed
      rw [decLinks, Fs.inodes_upd_self]
      exact ⟨rfl, rfl⟩
    · rw [decLinks, Fs.inodes_upd_of_ne _ hed]
      exact ⟨rfl, rfl⟩

end Linux012.Dirs
