import Linux012.Fs.Dir.Law

/-! # New entries and inodes

What a new entry, a new link, a new inode and the end of an inode do to the law and to the
tree.
-/

namespace Linux012.Dirs

open Function

variable {fs fs' : Fs} {d i j k n : ℕ} {de a b : DirEntry} {es rest : List DirEntry}
  {pend debt pend' debt' : ℕ → ℕ}

/-! ## Entries -/

/-- The entry `k` is free, or the next one. -/
def FreeAt (es : List DirEntry) (k : ℕ) : Prop := ∀ h : k < es.length, (es.get ⟨k, h⟩).inode = 0

/-- A free entry stands behind `.` and `..`. -/
theorem putEntry_tail (de : DirEntry) (ha : a.inode ≠ 0) (hb : b.inode ≠ 0) (hk : FreeAt (a :: b :: rest) k) :
    ∃ l, FreeAt rest l ∧ putEntry (a :: b :: rest) k de = a :: b :: putEntry rest l de := by
  rcases k with _ | _ | l
  · exact absurd (hk (by simp)) ha
  · exact absurd (hk (by simp)) hb
  · refine ⟨l, fun h => ?_, ?_⟩
    · simpa using hk (by simpa using h)
    · unfold putEntry
      by_cases h : l < rest.length
      · rw [if_pos h, if_pos (by simpa using h)]
        rfl
      · rw [if_neg h, if_neg (by simpa using h)]
        rfl

theorem live_enterEntry (e : ℕ) : (enterEntry fs d k de).Live e ↔ fs.Live e := by
  by_cases he : e = d
  · subst he
    simp only [Fs.Live, enterEntry, Fs.inodes_upd_self]
    rfl
  · exact Fs.live_upd_of_ne he

theorem inodes_enterEntry_self : (enterEntry fs d k de).inodes d = { fs.inodes d with
    entries := putEntry (fs.inodes d).entries k de } :=
  Fs.inodes_upd_self _

/-- The directory gets one more entry behind `.` and `..`. -/
theorem enterEntry_tail (de : DirEntry) (ht : Tree fs) (hzero : ¬ fs.Live 0) (hd : fs.Live d)
    (hz : (fs.inodes d).zone = true) (hk : FreeAt (fs.inodes d).entries k) :
    ∃ a b rest l, (fs.inodes d).entries = a :: b :: rest ∧ FreeAt rest l ∧
      ((enterEntry fs d k de).inodes d).entries = a :: b :: putEntry rest l de := by
  rcases ht.kind d hd with ⟨hz', -⟩ | ⟨-, a, b, rest, he, ha, hb⟩
  · rw [hz] at hz'
    cases hz'
  · have ha0 : a.inode ≠ 0 := fun h => hzero (h ▸ ha ▸ hd)
    rw [he] at hk
    obtain ⟨l, hl, hput⟩ := putEntry_tail de ha0 hb hk
    refine ⟨a, b, rest, l, he, hl, ?_⟩
    rw [inodes_enterEntry_self, he]
    exact hput

section Enter

variable (ht : Tree fs) (hzero : ¬ fs.Live 0) (hd : fs.Live d) (hz : (fs.inodes d).zone = true)
  (hk : FreeAt (fs.inodes d).entries k)

include ht hzero hd hz hk

theorem heads_enterEntry : (enterEntry fs d k de).heads j = fs.heads j := by
  obtain ⟨a, b, rest, l, he, -, he'⟩ := enterEntry_tail de ht hzero hd hz hk
  refine Fs.linksIn_congr rfl fun e => ?_
  by_cases hed : e = d
  · subst hed
    simp only [Fs.namesIn, live_enterEntry, he', he, List.take_succ_cons, List.take_zero]
  · exact Fs.namesIn_upd_of_ne hed

theorem tails_enterEntry (hj : j ≠ 0) : (enterEntry fs d k de).tails j = fs.tails j + de.one j := by
  obtain ⟨a, b, rest, l, he, hl, he'⟩ := enterEntry_tail de ht hzero hd hz hk
  have h : (enterEntry fs d k de).tails j + fs.namesIn (List.drop 2) d j =
      fs.tails j + (enterEntry fs d k de).namesIn (List.drop 2) d j := Fs.linksIn_upd _ _ _
  have hput := countNames_putEntry de hl hj
  simp only [Fs.namesIn, live_enterEntry, if_pos hd, he', he, List.drop_succ_cons,
    List.drop_zero] at h
  omega

theorem links_enterEntry (hj : j ≠ 0) : (enterEntry fs d k de).links j = fs.links j + de.one j := by
  rw [Fs.links_eq, Fs.links_eq, heads_enterEntry ht hzero hd hz hk,
    tails_enterEntry ht hzero hd hz hk hj, Nat.add_assoc]

/-- A new entry for an inode that is no directory yet. -/
theorem Tree.enterEntry (hde : ¬ fs.Live de.inode) : Tree (enterEntry fs d k de) := by
  obtain ⟨a, b, rest, l, he, hl, he'⟩ := enterEntry_tail de ht hzero hd hz hk
  have hentries : ∀ e, ∀ a' b' rest', ((Dirs.enterEntry fs d k de).inodes e).entries =
      a' :: b' :: rest' → ∃ rest'', (fs.inodes e).entries = a' :: b' :: rest'' := by
    intro e a' b' rest' h'
    by_cases hed : e = d
    · subst hed
      rw [he'] at h'
      obtain ⟨rfl, rfl, -⟩ := by simpa using h'
      exact ⟨rest, he⟩
    · rw [Dirs.enterEntry, Fs.inodes_upd_of_ne _ hed] at h'
      exact ⟨rest', h'⟩
  constructor
  · exact (live_enterEntry _).mpr ht.root
  · intro e hle
    rw [live_enterEntry] at hle
    by_cases hed : e = d
    · subst hed
      obtain ⟨hz', a', b', rest', hes, ha, hb⟩ := (ht.kind e hle).resolve_left (by simp [hz])
      rw [he] at hes
      obtain ⟨rfl, rfl, -⟩ := by simpa using hes
      refine .inr ⟨?_, a, b, _, he', ha, hb⟩
      rw [inodes_enterEntry_self]
      exact hz
    · rw [Dirs.enterEntry, Fs.inodes_upd_of_ne _ hed]
      exact ht.kind e hle
  · intro e hle hne
    rw [live_enterEntry] at hle
    have hone : de.one e = 0 := if_neg fun (heq : de.inode = e) => hde (heq ▸ hle)
    rw [tails_enterEntry ht hzero hd hz hk fun h => hzero (h ▸ hle), ht.up e hle hne, hone]
  · intro e c a' b' rest' hle hlc hc hpos
    rw [live_enterEntry] at hle hlc
    obtain ⟨rest'', hc⟩ := hentries c a' b' rest' hc
    refine ht.parent e c a' b' rest'' hle hlc hc ?_
    by_cases hed : e = d
    · subst hed
      rw [he', List.drop_succ_cons, List.drop_succ_cons, List.drop_zero,
        countNames_putEntry _ hl fun h => hzero (h ▸ hlc)] at hpos
      have hone : de.one c = 0 := if_neg fun (heq : de.inode = c) => hde (heq ▸ hlc)
      rw [he]
      simpa [hone] using hpos
    · rwa [Dirs.enterEntry, Fs.inodes_upd_of_ne _ hed] at hpos
  · intro a' b' rest' hr
    obtain ⟨rest'', hr⟩ := hentries _ a' b' rest' hr
    exact ht.parent_root a' b' rest'' hr

/-- A new entry settles a debt or makes a link that is still to be counted. -/
theorem Law.enterEntry (h : Law fs pend debt) (hi : fs.imap de.inode = true)
    (hN : de.inode ≤ fs.sNinodes)
    (hpd : ∀ x, x ≠ 0 → pend' x + debt x = pend x + debt' x + de.one x) :
    Law (enterEntry fs d k de) pend' debt' := by
  have hlinks : ∀ x, x ≠ 0 → (Dirs.enterEntry fs d k de).links x = fs.links x + de.one x :=
    fun x hx => links_enterEntry ht hzero hd hz hk hx
  have hsame : ∀ x, ((Dirs.enterEntry fs d k de).inodes x).iNlinks = (fs.inodes x).iNlinks := by
    intro x
    rw [Dirs.enterEntry, Fs.inodes_upd]
    split_ifs with hx
    · rw [hx]
    · rfl
  constructor
  · intro x hx hxN him
    have h₁ := h.links x hx hxN him
    have h₂ := hpd x hx
    rw [hsame, hlinks x hx]
    omega
  · intro x hx hfree
    have hone : de.one x = 0 := by
      refine if_neg fun (heq : de.inode = x) => ?_
      subst heq
      rcases hfree with hf | hf
      · exact absurd hN (not_le.mpr hf)
      · exact absurd (hi.symm.trans hf) (by decide)
    rw [hlinks x hx, h.free x hx hfree, hone]
  · exact ⟨h.zero.1, fun h0 => h.zero.2 ((live_enterEntry 0).mp h0)⟩
  · intro x
    rw [hsame]
    exact h.small x

end Enter

/-! ## Links -/

/-- An inode that is as live as before and has the same entries. -/
theorem Law.upd (h : Law fs pend debt) {g : Inode → Inode}
    (hlive : (fs.upd i g).Live i ↔ fs.Live i)
    (he : (g (fs.inodes i)).entries = (fs.inodes i).entries)
    (hsmall : (g (fs.inodes i)).iNlinks < 256)
    (hi : (g (fs.inodes i)).iNlinks + pend' i + debt i = (fs.inodes i).iNlinks + pend i + debt' i)
    (hpd : ∀ x, x ≠ i → pend' x + debt x = pend x + debt' x) : Law (fs.upd i g) pend' debt' := by
  have hlinks : ∀ x, (fs.upd i g).links x = fs.links x := fun x =>
    Fs.linksIn_upd_same id hlive he
  constructor
  · intro x hx hN him
    have h₁ := h.links x hx hN him
    rw [hlinks, Fs.inodes_upd]
    split_ifs with hxi
    · subst hxi
      omega
    · have h₂ := hpd x hxi
      omega
  · intro x hx hfree
    rw [hlinks]
    exact h.free x hx hfree
  · refine ⟨h.zero.1, fun h0 => h.zero.2 ?_⟩
    by_cases hz : 0 = i
    · subst hz
      exact hlive.mp h0
    · exact (Fs.live_upd_of_ne hz).mp h0
  · intro x
    rw [Fs.inodes_upd]
    split_ifs
    · exact hsmall
    · exact h.small x

theorem Tree.upd (h : Tree fs) {g : Inode → Inode} (hlive : (fs.upd i g).Live i ↔ fs.Live i)
    (he : fs.Live i → (g (fs.inodes i)).zone = (fs.inodes i).zone ∧
      (g (fs.inodes i)).entries = (fs.inodes i).entries) : Tree (fs.upd i g) := by
  refine h.congr rfl (fun d => ?_) fun d hd => ?_
  · by_cases hdi : d = i
    · subst hdi
      exact hlive
    · exact Fs.live_upd_of_ne hdi
  · by_cases hdi : d = i
    · subst hdi
      rw [Fs.inodes_upd_self]
      exact he hd
    · rw [Fs.inodes_upd_of_ne _ hdi]
      exact ⟨rfl, rfl⟩

theorem live_upd_links {g : ℕ → ℕ}
    (hg : (fs.inodes i).isDir = true → ((fs.inodes i).iNlinks ≠ 0 ↔ g (fs.inodes i).iNlinks ≠ 0)) :
    (fs.upd i fun x => { x with iNlinks := g x.iNlinks }).Live i ↔ fs.Live i := by
  simp only [Fs.Live, Fs.inodes_upd_self]
  constructor
  · rintro ⟨h₁, h₂, h₃, h₄⟩
    exact ⟨h₁, h₂, h₃, (hg h₃).mpr h₄⟩
  · rintro ⟨h₁, h₂, h₃, h₄⟩
    exact ⟨h₁, h₂, h₃, (hg h₃).mp h₄⟩

/-- A link is counted, and the count does not wrap around. -/
theorem incLinks_keeps (h : Law fs pend debt) (ht : Tree fs) (hn : (fs.inodes i).iNlinks ≠ 255)
    (hdir : (fs.inodes i).isDir = true → (fs.inodes i).iNlinks ≠ 0)
    (hpd : ∀ x, pend x = pend' x + if x = i then 1 else 0) :
    Law (incLinks fs i) pend' debt ∧ Tree (incLinks fs i) := by
  have hsmall := h.small i
  have hmod : ((fs.inodes i).iNlinks + 1) % 256 = (fs.inodes i).iNlinks + 1 := by omega
  have hlive : (incLinks fs i).Live i ↔ fs.Live i := by
    refine live_upd_links (g := fun n => (n + 1) % 256) fun hd => ?_
    have := hdir hd
    omega
  constructor
  · refine h.upd hlive rfl ?_ ?_ fun x hx => ?_
    · dsimp only
      omega
    · have := hpd i
      rw [if_pos rfl] at this
      dsimp only
      omega
    · have := hpd x
      rw [if_neg hx] at this
      omega
  · exact ht.upd hlive fun _ => ⟨rfl, rfl⟩

/-- A link that never had an entry is taken back. -/
theorem setLinks_zero_keeps (h : Law fs pend debt) (ht : Tree fs) (hl : ¬ fs.Live i)
    (hi : pend' i + debt i = (fs.inodes i).iNlinks + pend i + debt' i)
    (hpd : ∀ x, x ≠ i → pend' x + debt x = pend x + debt' x) :
    Law (setLinks fs i 0) pend' debt' ∧ Tree (setLinks fs i 0) := by
  have hlive : (setLinks fs i 0).Live i ↔ fs.Live i := by
    refine iff_of_false (fun h => h.2.2.2 ?_) hl
    rw [setLinks, Fs.inodes_upd_self]
  constructor
  · refine h.upd hlive rfl ?_ ?_ hpd
    · dsimp only
      omega
    · dsimp only
      omega
  · exact ht.upd hlive fun h => absurd h hl

/-! ## Counts of references -/

theorem live_count (n : ℕ → ℕ) :
    (fs.upd i fun x => { x with iCount := n x.iCount }).Live i ↔ fs.Live i := by
  simp only [Fs.Live, Fs.inodes_upd_self]
  rfl

theorem count_keeps (h : Law fs pend debt) (ht : Tree fs) (n : ℕ → ℕ) :
    Law (fs.upd i fun x => { x with iCount := n x.iCount }) pend debt ∧
      Tree (fs.upd i fun x => { x with iCount := n x.iCount }) :=
  ⟨h.upd (live_count n) rfl (h.small i) rfl fun _ _ => rfl,
    ht.upd (live_count n) fun _ => ⟨rfl, rfl⟩⟩

/-! ## Inodes -/

/-- Only what is said of `i` changes, and it is not a live directory before or after. -/
theorem linksIn_not_live (part : List DirEntry → List DirEntry) (hN : fs'.sNinodes = fs.sNinodes)
    (hother : ∀ e, e ≠ i → fs'.inodes e = fs.inodes e ∧ fs'.imap e = fs.imap e)
    (h : ¬ fs.Live i) (h' : ¬ fs'.Live i) :
    (∀ e, fs'.Live e ↔ fs.Live e) ∧ ∀ j, fs'.linksIn part j = fs.linksIn part j := by
  have hlive : ∀ e, fs'.Live e ↔ fs.Live e := by
    intro e
    by_cases he : e = i
    · subst he
      exact iff_of_false h' h
    · rw [Fs.Live, Fs.Live, hN, (hother e he).1, (hother e he).2]
  refine ⟨hlive, fun j => Fs.linksIn_congr hN fun e => ?_⟩
  by_cases he : e = i
  · subst he
    rw [Fs.namesIn, Fs.namesIn, if_neg h, if_neg h']
  · simp only [Fs.namesIn, hlive, (hother e he).1]

theorem Tree.not_live (ht : Tree fs) (hN : fs'.sNinodes = fs.sNinodes)
    (hother : ∀ e, e ≠ i → fs'.inodes e = fs.inodes e ∧ fs'.imap e = fs.imap e)
    (h : ¬ fs.Live i) (h' : ¬ fs'.Live i) : Tree fs' := by
  refine ht.congr hN (linksIn_not_live id hN hother h h').1 fun e he => ?_
  have hei : e ≠ i := fun heq => h (heq ▸ he)
  rw [(hother e hei).1]
  exact ⟨rfl, rfl⟩

/-- An inode without links is freed. -/
theorem freeInode_keeps (h : Law fs pend debt) (ht : Tree fs) (hi : i ≠ 0)
    (hn : (fs.inodes i).iNlinks = 0) (hl : fs.links i = 0) :
    Law (freeInode fs i) pend debt ∧ Tree (freeInode fs i) ∧ (freeInode fs i).lost = fs.lost := by
  have hother : ∀ e, e ≠ i → (freeInode fs i).inodes e = fs.inodes e ∧
      (freeInode fs i).imap e = fs.imap e := fun e he =>
    ⟨update_of_ne he .., update_of_ne he ..⟩
  have hdead : ¬ fs.Live i := fun h => h.2.2.2 hn
  have hdead' : ¬ (freeInode fs i).Live i := by
    rintro ⟨-, h, -⟩
    simp [freeInode] at h
  obtain ⟨hlive, hlinks⟩ :=
    linksIn_not_live id (show (freeInode fs i).sNinodes = fs.sNinodes from rfl) hother hdead hdead'
  have hzero : ∀ x, (freeInode fs i).links x = fs.links x := hlinks
  refine ⟨?_, ht.not_live rfl hother hdead hdead', ?_⟩
  · constructor
    · intro x hx hN him
      have hxi : x ≠ i := by
        rintro rfl
        simp [freeInode] at him
      rw [hzero, (hother x hxi).1]
      exact h.links x hx hN ((hother x hxi).2 ▸ him)
    · intro x hx hfree
      rw [hzero]
      by_cases hxi : x = i
      · rw [hxi, hl]
      · exact h.free x hx ((hother x hxi).2 ▸ hfree)
    · rw [(hother 0 hi.symm).2, hlive]
      exact h.zero
    · intro x
      by_cases hxi : x = i
      · rw [hxi, show (freeInode fs i).inodes i = Inode.zero from update_self ..]
        decide
      · rw [(hother x hxi).1]
        exact h.small x
  · simp [freeInode, hl]

theorem findFirstZero_spec {bits : ℕ → Bool} (h : findFirstZero bits k n = some j) :
    bits j = false ∧ j < n + k := by
  induction k generalizing n with
  | zero => cases h
  | succ k ih =>
    rw [findFirstZero] at h
    split_ifs at h with hb
    · obtain ⟨h₁, h₂⟩ := ih h
      exact ⟨h₁, by omega⟩
    · obtain rfl := Option.some.inj h
      exact ⟨by simpa using hb, by omega⟩

/-- A new inode has a link and no entry. -/
structure Created (fs fs' : Fs) (j : ℕ) : Prop where
  inode : fs'.inodes j = { Inode.zero with iCount := 1, iNlinks := 1 }
  imap : fs'.imap j = true
  was : fs.imap j = false
  le : j ≤ fs'.sNinodes
  sNinodes : fs'.sNinodes = fs.sNinodes
  lost : fs'.lost = fs.lost
  other : ∀ e, e ≠ j → fs'.inodes e = fs.inodes e ∧ fs'.imap e = fs.imap e

theorem created_newInode (h : newInode fs = some (fs', j)) : Created fs fs' j := by
  obtain ⟨j', hj, heq⟩ := Option.map_eq_some_iff.mp h
  obtain ⟨rfl, rfl⟩ := Prod.mk.inj heq
  obtain ⟨h₁, h₂⟩ := findFirstZero_spec hj
  exact ⟨update_self .., update_self .., h₁, by change j' ≤ fs.sNinodes; omega, rfl, rfl,
    fun e he => ⟨update_of_ne he .., update_of_ne he ..⟩⟩

theorem Created.keeps (hc : Created fs fs' j) (h : Law fs 0 0) (ht : Tree fs) :
    j ≠ 0 ∧ ¬ fs'.Live j ∧ fs'.links j = 0 ∧
      Law fs' 0 (fun x => if x = j then 1 else 0) ∧ Tree fs' := by
  have hj : j ≠ 0 := by
    rintro rfl
    exact absurd (hc.was.symm.trans h.zero.1) (by decide)
  have hdead : ¬ fs.Live j := fun hl => absurd (hc.was.symm.trans hl.2.1) (by decide)
  have hdead' : ¬ fs'.Live j := by
    rintro ⟨-, -, hd, -⟩
    rw [hc.inode] at hd
    exact absurd hd (by decide)
  obtain ⟨hlive, hlinks⟩ := linksIn_not_live id hc.sNinodes hc.other hdead hdead'
  have hlinks : ∀ x, fs'.links x = fs.links x := hlinks
  have hzero : fs.links j = 0 := h.free j hj (.inr hc.was)
  refine ⟨hj, hdead', (hlinks j).trans hzero, ?_, ht.not_live hc.sNinodes hc.other hdead hdead'⟩
  constructor
  · intro x hx hN him
    rw [hlinks]
    by_cases hxj : x = j
    · subst hxj
      simp [hc.inode, hzero]
    · rw [(hc.other x hxj).1, if_neg hxj]
      exact h.links x hx (hc.sNinodes ▸ hN) ((hc.other x hxj).2 ▸ him)
  · intro x hx hfree
    rw [hlinks]
    by_cases hxj : x = j
    · rw [hxj, hzero]
    · exact h.free x hx (hc.sNinodes ▸ (hc.other x hxj).2 ▸ hfree)
  · rw [(hc.other 0 hj.symm).2, hlive]
    exact h.zero
  · intro x
    by_cases hxj : x = j
    · rw [hxj, hc.inode]
      decide
    · rw [(hc.other x hxj).1]
      exact h.small x

/-! ## Directories -/

/-- An inode that has its entry becomes a directory, either an empty one without a block or one
that names itself and the directory of its entry. -/
theorem birth_keeps (h : Law fs pend debt) (ht : Tree fs) (hj : ¬ fs.Live j) (hj0 : j ≠ 0)
    (hN : j ≤ fs.sNinodes) (him : fs.imap j = true) (htails : fs.tails j = 1) (hd : fs.Live d)
    (hent : 0 < countNames j ((fs.inodes d).entries.drop 2)) {g : Inode → Inode}
    (hdir : (g (fs.inodes j)).isDir = true) (hn : (g (fs.inodes j)).iNlinks ≠ 0)
    (hsmall : (g (fs.inodes j)).iNlinks < 256)
    (hkind : ((g (fs.inodes j)).zone = false ∧ (g (fs.inodes j)).entries = []) ∨
      ((g (fs.inodes j)).zone = true ∧ (g (fs.inodes j)).entries = [⟨j, dot⟩, ⟨d, dotdot⟩]))
    (hpd : ∀ x, x ≠ 0 → ((fs.upd j g).inodes x).iNlinks + pend' x =
      (fs.inodes x).iNlinks + pend x + countNames x (g (fs.inodes j)).entries) :
    Law (fs.upd j g) pend' debt ∧ Tree (fs.upd j g) := by
  have hlive : ∀ e, (fs.upd j g).Live e ↔ fs.Live e ∨ e = j := by
    intro e
    by_cases he : e = j
    · subst he
      refine iff_of_true ⟨hN, him, ?_, ?_⟩ (.inr rfl)
      · rwa [Fs.inodes_upd_self]
      · rwa [Fs.inodes_upd_self]
    · rw [Fs.live_upd_of_ne he]
      exact ⟨.inl, fun h => h.resolve_right he⟩
  have hnew : (fs.upd j g).Live j := (hlive j).mpr (.inr rfl)
  have hlinks : ∀ x, (fs.upd j g).links x = fs.links x + countNames x (g (fs.inodes j)).entries := by
    intro x
    have h := Fs.linksIn_upd fs id (d := j) (i := x) g
    rw [Fs.namesIn, Fs.namesIn, if_neg hj, if_pos hnew, Fs.inodes_upd_self] at h
    exact h
  have hdrop : (g (fs.inodes j)).entries.drop 2 = [] := by
    rcases hkind with ⟨-, he⟩ | ⟨-, he⟩ <;> rw [he] <;> rfl
  have htail : ∀ x, (fs.upd j g).tails x = fs.tails x := by
    intro x
    have h := Fs.linksIn_upd fs (List.drop 2) (d := j) (i := x) g
    rw [Fs.namesIn, Fs.namesIn, if_neg hj, if_pos hnew, Fs.inodes_upd_self, hdrop] at h
    exact h
  have hroot : j ≠ ROOT_INO := fun heq => hj (heq ▸ ht.root)
  have hd0 : d ≠ 0 := fun h0 => h.zero.2 (h0 ▸ hd)
  constructor
  · constructor
    · intro x hx hxN hxm
      have h₁ := h.links x hx hxN hxm
      have h₂ := hpd x hx
      rw [hlinks]
      omega
    · intro x hx hfree
      have hxj : x ≠ j := by
        rintro rfl
        rcases hfree with hf | hf
        · exact absurd hN (not_le.mpr hf)
        · exact absurd (him.symm.trans hf) (by decide)
      have hxd : x ≠ d := by
        rintro rfl
        rcases hfree with hf | hf
        · exact absurd hd.1 (not_le.mpr hf)
        · exact absurd (hd.2.1.symm.trans hf) (by decide)
      have hc : countNames x (g (fs.inodes j)).entries = 0 := by
        rcases hkind with ⟨-, he⟩ | ⟨-, he⟩ <;> rw [he]
        · rfl
        · simp [DirEntry.one, Ne.symm hxj, Ne.symm hxd]
      rw [hlinks, h.free x hx hfree, hc]
    · refine ⟨h.zero.1, fun h0 => ?_⟩
      rcases (hlive 0).mp h0 with h0 | h0
      · exact h.zero.2 h0
      · exact hj0 h0.symm
    · intro x
      rw [Fs.inodes_upd]
      split_ifs
      · exact hsmall
      · exact h.small x
  · constructor
    · exact (hlive _).mpr (.inl ht.root)
    · intro e hl
      by_cases he : e = j
      · subst he
        rw [Fs.inodes_upd_self]
        exact hkind.imp_right fun h => ⟨h.1, _, _, _, h.2, rfl, hd0⟩
      · rw [Fs.inodes_upd_of_ne _ he]
        exact ht.kind e (((hlive e).mp hl).resolve_right he)
    · intro e hl hne
      rw [htail]
      by_cases he : e = j
      · rw [he, htails]
      · exact ht.up e (((hlive e).mp hl).resolve_right he) hne
    · intro e c a b rest hle hlc hc hpos
      have hej : e ≠ j := by
        rintro rfl
        rw [Fs.inodes_upd_self, hdrop] at hpos
        exact absurd hpos (lt_irrefl 0)
      have hlo := ((hlive e).mp hle).resolve_right hej
      rw [Fs.inodes_upd_of_ne _ hej] at hpos
      by_cases hcj : c = j
      · subst hcj
        rw [Fs.inodes_upd_self] at hc
        -- there is only one entry for the new directory
        have hed : e = d := by
          by_contra hne
          have htwo := Sums.add_le (Finset.mem_range.mpr (Nat.lt_succ_of_le hlo.1))
            (Finset.mem_range.mpr (Nat.lt_succ_of_le hd.1)) hne
            fun e => fs.namesIn (List.drop 2) e c
          change _ ≤ fs.tails c at htwo
          rw [Fs.namesIn, if_pos hlo, Fs.namesIn, if_pos hd] at htwo
          rw [htails] at htwo
          omega
        rcases hkind with ⟨-, he⟩ | ⟨-, he⟩ <;> rw [he] at hc
        · cases hc
        · simp only [List.cons.injEq] at hc
          rw [← hc.2.1, hed]
      · rw [Fs.inodes_upd_of_ne _ hcj] at hc
        exact ht.parent e c a b rest hlo (((hlive c).mp hlc).resolve_right hcj) hc hpos
    · intro a b rest hr
      rw [Fs.inodes_upd_of_ne _ hroot.symm] at hr
      exact ht.parent_root a b rest hr

end Linux012.Dirs
