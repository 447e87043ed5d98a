import Linux012.Fs.Namei.Symlinks

/-! # What paths lead to

The inode of a path as a relation on the tree, with the links in the path followed and those in the paths of links
refused. The code of `fs/namei.c` computes it, and in doing so uses a null pointer for a last link that leads nowhere.
-/

namespace Linux012.Symlinks

open Namei (Key Path Errno ROOT_INO components)
open Dirs (Name)

variable {t : Tree} {cur : Current} {F : Key → Key → Key → Prop} {R : Key → Prop} {d i k : Key} {names : List Name}
  {pathname : Path} {base : Option Key} {s s' : State} {n : ℕ} {follow : Option Key → Option Key → Code}

/-! ## The relation -/

/-- The directory `d` has an entry with the name for the inode `i`; the last directory is the one that `..` may
have led to. -/
def Entry (t : Tree) (cur : Current) (d : Key) (name : Name) (d' i : Key) : Prop :=
  ∃ inr, findEntry t cur d name = (d', some inr) ∧ t.iget d'.1 inr = some i

/-- The names lead from a directory to another. `F d i k` says that the inode `i`, found in the directory `d`,
stands for `k`. -/
inductive Walks (t : Tree) (cur : Current) (F : Key → Key → Key → Prop) : Key → List Name → Key → Prop
  | nil {d : Key} (hd : searchable t cur d = true) : Walks t cur F d [] d
  | cons {d d' i k e : Key} {name : Name} {names : List Name} (hd : searchable t cur d = true)
      (he : Entry t cur d name d' i) (hf : F d' i k) (h : Walks t cur F k names e) : Walks t cur F d (name :: names) e

/-- The last name of the path is found in the directory `d`, for the inode `i`. -/
def Finds (t : Tree) (cur : Current) (F : Key → Key → Key → Prop) (pathname : Path) (base : Option Key)
    (d i : Key) : Prop :=
  ∃ d₀, Walks t cur F (startOf cur pathname base) (components pathname).dropLast d₀ ∧ baseName pathname ≠ [] ∧
    Entry t cur d₀ (baseName pathname) d i

/-- The path leads to the inode `k`, when its last inode `i` stands for `k` if `L d i k`. -/
def Leads (t : Tree) (cur : Current) (F L : Key → Key → Key → Prop) (pathname : Path) (base : Option Key)
    (k : Key) : Prop :=
  (Walks t cur F (startOf cur pathname base) (components pathname).dropLast k ∧ baseName pathname = []) ∨
    ∃ d i, Finds t cur F pathname base d i ∧ L d i k

/-- An inode for itself. -/
def Itself (_ i k : Key) : Prop := k = i

/-- In the kernel's segment links are refused. -/
def Refused (t : Tree) (_ i k : Key) : Prop := (t.files i).isLnk = false ∧ k = i

/-- In the user's segment they are followed, from the directory that they are found in. -/
def Followed (t : Tree) (cur : Current) (d i k : Key) : Prop :=
  Refused t d i k ∨ (t.files i).isLnk = true ∧ (t.files i).zone = true ∧ t.bad i 0 = false ∧
    Leads t cur (Refused t) Itself (t.files i).link (some d) k

/-- What the segment register allows. -/
def Stands (t : Tree) (cur : Current) (fs : BitVec 16) : Key → Key → Key → Prop :=
  if fs = USER_SEG then Followed t cur else Refused t

/-! ## The code computes it -/

/-- The code returns the inode with the property, or a null pointer if there is none, and changes no state. -/
def Computes (c : Option (Option Key × State)) (s : State) (R : Key → Prop) : Prop :=
  ∃ r, c = some (r, s) ∧ ∀ k, r = some k ↔ R k

theorem Computes.of_forall_not (h : ∀ k, ¬ R k) : Computes (some (none, s)) s R :=
  ⟨none, rfl, fun k => iff_of_false nofun (h k)⟩

theorem Computes.of_forall_iff (h : ∀ j, R j ↔ j = k) : Computes (some (some k, s)) s R :=
  ⟨some k, rfl, fun j => by rw [h, Option.some.injEq, eq_comm]⟩

theorem igetLoop_root {dev : ℕ} (n : ℕ) : t.igetLoop (n + 1) (dev, ROOT_INO) = some (dev, ROOT_INO) := by
  have hnone : (t.mounts.find? fun m => m.dir = (dev, ROOT_INO)) = none := by
    rw [List.find?_eq_none]
    intro m hm he
    have hdir := t.mount_dir m hm
    rw [of_decide_eq_true he] at hdir
    exact hdir rfl
  rw [Tree.igetLoop, hnone]

/-- `iget` goes round at most once more. -/
theorem iget_isSome (t : Tree) (dev nr : ℕ) : ∃ k, t.iget dev nr = some k := by
  unfold Tree.iget
  rw [Tree.igetLoop]
  split
  · exact ⟨_, rfl⟩
  · exact ⟨_, igetLoop_root 0⟩

theorem entry_iff {name : Name} {d' : Key} {inr : ℕ} (hfind : findEntry t cur d name = (d', some inr))
    (hi : t.iget d'.1 inr = some i) {e j : Key} : Entry t cur d name e j ↔ e = d' ∧ j = i := by
  unfold Entry
  constructor
  · rintro ⟨inr', hfind', hj⟩
    obtain ⟨rfl, he⟩ := Prod.mk.inj (hfind.symm.trans hfind')
    obtain rfl := Option.some.inj he
    exact ⟨rfl, Option.some.inj (hj.symm.trans hi)⟩
  · rintro ⟨rfl, rfl⟩
    exact ⟨inr, hfind, hi⟩

theorem not_entry {name : Name} {d' : Key} (hfind : findEntry t cur d name = (d', none)) {e j : Key} :
    ¬ Entry t cur d name e j := by
  rintro ⟨inr, hfind', -⟩
  rw [hfind] at hfind'
  cases hfind'

/-- `follow` does what `F` says. -/
def FollowsAs (s : State) (follow : Option Key → Option Key → Code) (F : Key → Key → Key → Prop) : Prop :=
  ∀ d i, Computes (follow (some d) (some i) s) s (F d i)

theorem getDirLoop_computes (hf : FollowsAs s follow F) (names : List Name) (d : Key) :
    Computes (getDirLoop t cur follow names d s) s (Walks t cur F d names) := by
  induction names generalizing d with
  | nil =>
    rw [getDirLoop]
    by_cases hd : searchable t cur d = true
    · rw [if_pos hd]
      refine .of_forall_iff fun j => ⟨fun h => ?_, ?_⟩
      · cases h
        rfl
      · rintro rfl
        exact .nil hd
    · rw [if_neg hd]
      refine .of_forall_not fun j h => ?_
      cases h with
      | nil hd' => exact hd hd'
  | cons name names ih =>
    rw [getDirLoop]
    by_cases hd : searchable t cur d = true
    · rw [if_pos hd]
      obtain ⟨⟨d', r⟩, hfind⟩ : ∃ p, findEntry t cur d name = p := ⟨_, rfl⟩
      rw [hfind]
      cases r with
      | none =>
        refine .of_forall_not fun j h => ?_
        cases h with
        | cons _ he => exact not_entry hfind he
      | some inr =>
        obtain ⟨i, hi⟩ := iget_isSome t d'.1 inr
        obtain ⟨r, hr, hF⟩ := hf d' i
        have hcons (e : Key) : Walks t cur F d (name :: names) e ↔ ∃ k, F d' i k ∧ Walks t cur F k names e := by
          constructor
          · intro h
            cases h with
            | cons _ he hf h =>
              obtain ⟨rfl, rfl⟩ := (entry_iff hfind hi).mp he
              exact ⟨_, hf, h⟩
          · rintro ⟨k, hk, h⟩
            exact .cons hd ((entry_iff hfind hi).mpr ⟨rfl, rfl⟩) hk h
        dsimp only
        rw [hi, Option.bind_some, hr, Option.bind_some]
        cases r with
        | none =>
          refine .of_forall_not fun e h => ?_
          obtain ⟨k, hk, -⟩ := (hcons e).mp h
          cases (hF k).mpr hk
        | some k =>
          obtain ⟨r, hr, hR⟩ := ih k
          refine ⟨r, hr, fun e => (hR e).trans ((hcons e).trans ⟨?_, ?_⟩).symm⟩
          · rintro ⟨k', hk', h⟩
            obtain rfl := Option.some.inj ((hF k').mpr hk')
            exact h
          · intro h
            exact ⟨k, (hF k).mp rfl, h⟩
    · rw [if_neg hd]
      refine .of_forall_not fun j h => ?_
      cases h with
      | cons hd' => exact hd hd'

/-- A path whose last link leads nowhere. -/
def Dangles (t : Tree) (cur : Current) (F : Key → Key → Key → Prop) (pathname : Path) (base : Option Key) : Prop :=
  ∃ d i, Finds t cur F pathname base d i ∧ ∀ k, ¬ F d i k

/-- The code returns the inode of the path, and stores through a null pointer only at the last link. -/
structure Resolves (t : Tree) (cur : Current) (F : Key → Key → Key → Prop) (pathname : Path) (base : Option Key)
    (followLinks : Bool) (s : State) (r : Option Key) (s' : State) : Prop where
  fs : s'.fs = s.fs
  inode : ∀ k, r = some k ↔ Leads t cur F (if followLinks then F else Itself) pathname base k
  null : s'.null = true ↔ s.null = true ∨ followLinks = true ∧ Dangles t cur F pathname base

theorem nameiWith_resolves (hf : FollowsAs s follow F) (pathname : Path) (base : Option Key) (followLinks : Bool) :
    ∃ r s', nameiWith t cur follow pathname base followLinks s = some (r, s') ∧
      Resolves t cur F pathname base followLinks s r s' := by
  unfold nameiWith getDir
  obtain ⟨r, hr, hR⟩ := getDirLoop_computes hf (components pathname).dropLast (startOf cur pathname base)
  rw [hr, Option.bind_some]
  -- nothing is found when the directory has no entry with the name
  have hmiss (hno : ∀ d i, ¬ Finds t cur F pathname base d i) (hdir : baseName pathname ≠ [] ∨ r = none) :
      Resolves t cur F pathname base followLinks s none s := by
    refine ⟨rfl, fun k => iff_of_false nofun ?_, (or_iff_left ?_).symm⟩
    · rintro (⟨hw, hb⟩ | ⟨d, i, h, -⟩)
      · rcases hdir with hne | hnone
        · exact hne hb
        · rw [← hR, hnone] at hw
          cases hw
      · exact hno d i h
    · rintro ⟨-, d, i, h, -⟩
      exact hno d i h
  cases r with
  | none =>
    refine ⟨none, s, rfl, hmiss ?_ (.inr rfl)⟩
    rintro d i ⟨d₀, hw, -⟩
    cases (hR d₀).mpr hw
  | some d₀ =>
    have hwalk := (hR d₀).mp rfl
    dsimp only
    by_cases hb : baseName pathname = []
    · rw [if_pos hb]
      refine ⟨some d₀, s, rfl, rfl, fun k => ?_, (or_iff_left ?_).symm⟩
      · rw [hR]
        constructor
        · intro h
          exact .inl ⟨h, hb⟩
        · rintro (⟨h, -⟩ | ⟨d, i, ⟨-, -, hne, -⟩, -⟩)
          · exact h
          · exact absurd hb hne
      · rintro ⟨-, d, i, ⟨-, -, hne, -⟩, -⟩
        exact hne hb
    · rw [if_neg hb]
      obtain ⟨⟨d, r⟩, hfind⟩ : ∃ p, findEntry t cur d₀ (baseName pathname) = p := ⟨_, rfl⟩
      have hfinds (e j : Key) : Finds t cur F pathname base e j ↔ Entry t cur d₀ (baseName pathname) e j := by
        constructor
        · rintro ⟨d₁, hw, -, he⟩
          obtain rfl := Option.some.inj ((hR d₁).mpr hw)
          exact he
        · intro he
          exact ⟨d₀, hwalk, hb, he⟩
      rw [hfind]
      cases r with
      | none => exact ⟨none, s, rfl, hmiss (fun e j h => not_entry hfind ((hfinds e j).mp h)) (.inl hb)⟩
      | some inr =>
        obtain ⟨i, hi⟩ := iget_isSome t d.1 inr
        have hat (e j : Key) : Finds t cur F pathname base e j ↔ e = d ∧ j = i :=
          (hfinds e j).trans (entry_iff hfind hi)
        have hleads (L : Key → Key → Key → Prop) (k : Key) : Leads t cur F L pathname base k ↔ L d i k := by
          constructor
          · rintro (⟨-, hb'⟩ | ⟨e, j, h, hL⟩)
            · exact absurd hb' hb
            · obtain ⟨rfl, rfl⟩ := (hat e j).mp h
              exact hL
          · intro hL
            exact .inr ⟨d, i, (hat d i).mpr ⟨rfl, rfl⟩, hL⟩
        dsimp only
        rw [hi, Option.bind_some]
        cases followLinks with
        | false =>
          refine ⟨some i, s, ?_, rfl, fun k => ?_, (or_iff_left ?_).symm⟩
          · rw [if_neg Bool.false_ne_true, Option.map_some, touch, Option.isNone_some, Bool.or_false]
          · rw [if_neg Bool.false_ne_true, hleads, Option.some.injEq, eq_comm]
            rfl
          · rintro ⟨h, -⟩
            cases h
        | true =>
          obtain ⟨r, hr, hF⟩ := hf d i
          refine ⟨r, touch r s, ?_, rfl, fun k => ?_, ?_⟩
          · rw [if_pos rfl, hr, Option.map_some]
          · rw [if_pos rfl, hleads]
            exact hF k
          · have hdangles : Dangles t cur F pathname base ↔ r.isNone = true := by
              rw [Option.isNone_iff_eq_none, Option.eq_none_iff_forall_ne_some]
              simp only [ne_eq, hF]
              constructor
              · rintro ⟨e, j, h, hno⟩
                obtain ⟨rfl, rfl⟩ := (hat e j).mp h
                exact hno
              · intro hno
                exact ⟨d, i, (hat d i).mpr ⟨rfl, rfl⟩, hno⟩
            unfold touch
            rw [Bool.or_eq_true, hdangles, and_iff_right rfl]

/-- What is resolved is determined. -/
theorem Resolves.unique {followLinks : Bool} {r r' : Option Key} {s'' : State}
    (h : Resolves t cur F pathname base followLinks s r s') (h' : Resolves t cur F pathname base followLinks s r' s'') :
    r = r' ∧ s' = s'' := by
  constructor
  · apply Option.ext
    intro k
    exact (h.inode k).trans (h'.inode k).symm
  · have hnull : s'.null = s''.null := Bool.eq_iff_iff.mpr (h.null.trans h'.null.symm)
    have hfs : s'.fs = s''.fs := h.fs.trans h'.fs.symm
    cases s'
    cases s''
    cases hnull
    cases hfs
    rfl

/-! ## Two levels are enough -/

/-- The calls of `_namei` that `follow_link` makes inside each other. -/
def levels (fs : BitVec 16) : ℕ := if fs = USER_SEG then 1 else 0

theorem refused_computes {namei : Path → Option Key → Bool → Code} (hfs : s.fs ≠ USER_SEG) :
    FollowsAs s (followLink t cur namei) (Refused t) := by
  intro d i
  unfold followLink
  cases hl : (t.files i).isLnk with
  | false =>
    dsimp only
    rw [hl, if_pos Bool.false_ne_true]
    apply Computes.of_forall_iff
    intro k
    exact and_iff_right hl
  | true =>
    dsimp only
    rw [hl, if_neg (not_not.mpr rfl), if_pos (.inl hfs)]
    apply Computes.of_forall_not
    rintro k ⟨hno, -⟩
    rw [hl] at hno
    cases hno

/-- In the user's segment the path of the link is left to the call of `_namei` in the kernel's. -/
theorem followed_computes {namei : Path → Option Key → Bool → Code} (hfs : s.fs = USER_SEG)
    (hnamei : ∀ path d, ∃ r s', namei path (some d) false { s with fs := KERNEL_SEG } = some (r, s') ∧
      Resolves t cur (Refused t) path (some d) false { s with fs := KERNEL_SEG } r s') :
    FollowsAs s (followLink t cur namei) (Followed t cur) := by
  intro d i
  unfold followLink
  cases hl : (t.files i).isLnk with
  | false =>
    dsimp only
    rw [hl, if_pos Bool.false_ne_true]
    apply Computes.of_forall_iff
    intro k
    constructor
    · rintro (⟨-, h⟩ | ⟨h, -⟩)
      · exact h
      · rw [hl] at h
        cases h
    · intro h
      exact .inl ⟨hl, h⟩
  | true =>
    have hsplit (k : Key) : Followed t cur d i k ↔ (t.files i).zone = true ∧ t.bad i 0 = false ∧
        Leads t cur (Refused t) Itself (t.files i).link (some d) k := by
      constructor
      · rintro (⟨h, -⟩ | ⟨-, h⟩)
        · rw [hl] at h
          cases h
        · exact h
      · intro h
        exact .inr ⟨hl, h⟩
    dsimp only
    rw [hl, if_neg (not_not.mpr rfl)]
    by_cases hread : (t.files i).zone = true ∧ t.bad i 0 = false
    · rw [if_neg (by simp [hfs, hread])]
      obtain ⟨r, s', hr, h⟩ := hnamei (t.files i).link d
      have hs : { s' with fs := s.fs } = s := by
        have hnull : s'.null = s.null := Bool.eq_iff_iff.mpr (by simpa using h.null)
        rw [hnull]
      rw [Option.getD_some, hr, Option.map_some, hs]
      refine ⟨r, rfl, fun k => (h.inode k).trans ?_⟩
      rw [if_neg Bool.false_ne_true, hsplit]
      constructor
      · intro hk
        exact ⟨hread.1, hread.2, hk⟩
      · rintro ⟨-, -, hk⟩
        exact hk
    · have hno : s.fs ≠ USER_SEG ∨ ¬ (t.files i).zone = true ∨ t.bad i 0 = true := by
        rw [not_and_or, Bool.not_eq_false] at hread
        exact .inr hread
      rw [if_pos hno]
      apply Computes.of_forall_not
      intro k hk
      obtain ⟨hz, hb, -⟩ := (hsplit k).mp hk
      exact hread ⟨hz, hb⟩

/-- The measure is the segment: a nested call is made in the kernel's, where no link is followed. -/
theorem followLink_computes (hn : levels s.fs ≤ n) :
    FollowsAs s (followLink t cur (_namei t cur n)) (Stands t cur s.fs) := by
  unfold Stands
  unfold levels at hn
  by_cases hfs : s.fs = USER_SEG
  · rw [if_pos hfs] at hn ⊢
    obtain ⟨n, rfl⟩ := Nat.exists_eq_add_of_le' hn
    apply followed_computes hfs
    intro path d
    have hkernel : KERNEL_SEG ≠ USER_SEG := by decide
    exact nameiWith_resolves (refused_computes hkernel) path (some d) false
  · rw [if_neg hfs]
    exact refused_computes hfs

theorem getDir_computes (hn : levels s.fs ≤ n) (pathname : Path) (base : Option Key) :
    Computes (getDir t cur (followLink t cur (_namei t cur n)) pathname base s) s
      (Walks t cur (Stands t cur s.fs) (startOf cur pathname base) (components pathname).dropLast) :=
  getDirLoop_computes (followLink_computes hn) _ _

theorem _namei_resolves (hn : levels s.fs < n) (pathname : Path) (base : Option Key) (followLinks : Bool) :
    ∃ r s', _namei t cur n pathname base followLinks s = some (r, s') ∧
      Resolves t cur (Stands t cur s.fs) pathname base followLinks s r s' := by
  obtain ⟨n, rfl⟩ := Nat.exists_eq_add_one_of_ne_zero (Nat.ne_zero_of_lt hn)
  exact nameiWith_resolves (followLink_computes (Nat.le_of_lt_succ hn)) pathname base followLinks

/-- Code with enough levels computes the same inode. -/
theorem Computes.unique {c c' : Option (Option Key × State)} (h : Computes c s R) (h' : Computes c' s R) : c = c' := by
  obtain ⟨r, rfl, hr⟩ := h
  obtain ⟨r', rfl, hr'⟩ := h'
  have hrr : r = r' := by
    apply Option.ext
    intro k
    exact (hr k).trans (hr' k).symm
  rw [hrr]

/-- What code returns when at most `m` calls of `_namei` are made inside each other; the segment is then as before. -/
def Returns (code : ℕ → Code) (m : ℕ) (s : State) : Prop :=
  ∃ r s', s'.fs = s.fs ∧ ∀ n, m ≤ n → code n s = some (r, s')

theorem Returns.of_computes {code : ℕ → Code} {m : ℕ} (h : ∀ n, m ≤ n → Computes (code n s) s R) :
    Returns code m s := by
  obtain ⟨r, hr, hR⟩ := h m le_rfl
  refine ⟨r, s, rfl, fun n hn => ?_⟩
  rw [← hr]
  exact (h n hn).unique (h m le_rfl)

/-- Every path is resolved with one `_namei` inside another, and with none in the kernel's segment. -/
theorem resolution_terminates (t : Tree) (cur : Current) (s : State) :
    (∀ pathname base followLinks,
      Returns (fun n => _namei t cur n pathname base followLinks) (levels s.fs + 1) s) ∧
    (∀ pathname base,
      Returns (fun n => getDir t cur (followLink t cur (_namei t cur n)) pathname base) (levels s.fs) s) ∧
    ∀ dir inode, Returns (fun n => followLink t cur (_namei t cur n) dir inode) (levels s.fs) s := by
  refine ⟨fun pathname base followLinks => ?_, fun pathname base => ?_, fun dir inode => ?_⟩
  · obtain ⟨r, s', hr, h⟩ :=
      @_namei_resolves t cur s (levels s.fs + 1) (Nat.lt_succ_self (levels s.fs)) pathname base followLinks
    refine ⟨r, s', h.fs, fun n hn => ?_⟩
    obtain ⟨r', s'', hr', h'⟩ := _namei_resolves hn pathname base followLinks
    obtain ⟨rfl, rfl⟩ := h.unique h'
    exact hr'
  · exact .of_computes fun n hn => getDir_computes hn pathname base
  · cases inode with
    | none => exact ⟨none, s, rfl, fun n _ => rfl⟩
    | some i =>
      have hdir (n : ℕ) : followLink t cur (_namei t cur n) dir (some i) =
          followLink t cur (_namei t cur n) (some (dir.getD cur.root)) (some i) := by
        cases dir <;> rfl
      apply Returns.of_computes
      intro n hn
      rw [hdir]
      exact followLink_computes hn _ i

/-! ## Null pointers -/

/-- The calls that resolve a path. -/
inductive Call
  | _namei (base : Option Key) (followLinks : Bool)
  | lnamei
  | namei
  | openNamei (flag : BitVec 32) (newInode : Option Key) (added : Bool)

/-- The state after the call; `none` if it has not returned. -/
def Call.run (t : Tree) (cur : Current) (pathname : Path) (n : ℕ) (s : State) : Call → Option State
  | _namei base followLinks => (Symlinks._namei t cur n pathname base followLinks s).map Prod.snd
  | lnamei => (Symlinks.lnamei t cur n pathname s).map Prod.snd
  | namei => (Symlinks.namei t cur n pathname s).map Prod.snd
  | openNamei flag newInode added => (Symlinks.openNamei t cur n pathname flag newInode added s).map Prod.snd

/-- The calls of `_namei` that follow a last link, with the directory where the path starts. -/
def Call.follows : Call → Option (Option Key)
  | _namei base followLinks => if followLinks then some base else none
  | lnamei => none
  | namei => some none
  | openNamei _ _ _ => none

/-- The call returns, and has used no null pointer. -/
def Call.Safe (t : Tree) (cur : Current) (pathname : Path) (fs : BitVec 16) (c : Call) : Prop :=
  ∃ s', s'.null = false ∧ ∀ n, 2 ≤ n → c.run t cur pathname n { fs := fs, null := false } = some s'

theorem levels_le (fs : BitVec 16) : levels fs ≤ 1 := by
  unfold levels
  split <;> omega

/-- `open_namei` tests what `follow_link` returns. -/
theorem openNamei_state (hn : levels s.fs ≤ n) (pathname : Path) (flag : BitVec 32) (newInode : Option Key)
    (added : Bool) : (openNamei t cur n pathname flag newInode added s).map Prod.snd = some s := by
  unfold openNamei
  obtain ⟨r, hr, -⟩ := getDir_computes hn pathname none
  dsimp only
  generalize (if flag &&& Files.O_TRUNC ≠ 0 ∧ flag &&& Files.O_ACCMODE = 0 then flag ||| Files.O_WRONLY else flag) =
    flag
  rw [hr, Option.bind_some]
  cases r with
  | none => rfl
  | some d₀ =>
    dsimp only
    split
    · split <;> rfl
    · obtain ⟨⟨d, r⟩, hfind⟩ : ∃ p, findEntry t cur d₀ (baseName pathname) = p := ⟨_, rfl⟩
      rw [hfind]
      cases r with
      | none =>
        dsimp only
        split
        · rfl
        · split
          · rfl
          · cases newInode with
            | none => rfl
            | some j => cases added <;> rfl
      | some inr =>
        dsimp only
        split
        · rfl
        · obtain ⟨i, hi⟩ := iget_isSome t d.1 inr
          obtain ⟨r, hr, -⟩ := followLink_computes hn d i
          rw [hi, Option.bind_some, hr, Option.map_some]
          cases r with
          | none => rfl
          | some k =>
            dsimp only
            split <;> rfl

theorem Call.safe_iff {c : Call} {fs : BitVec 16}
    (h : ∀ n, 2 ≤ n → c.run t cur pathname n { fs := fs, null := false } = some s') :
    c.Safe t cur pathname fs ↔ s'.null = false := by
  constructor
  · rintro ⟨s'', hnull, hrun⟩
    obtain rfl := Option.some.inj ((h 2 le_rfl).symm.trans (hrun 2 le_rfl))
    exact hnull
  · intro hnull
    exact ⟨s', hnull, h⟩

theorem _namei_safe_iff (t : Tree) (cur : Current) (pathname : Path) (fs : BitVec 16) (base : Option Key)
    (followLinks : Bool) :
    (Call._namei base followLinks).Safe t cur pathname fs ↔
      ¬ (followLinks = true ∧ Dangles t cur (Stands t cur fs) pathname base) := by
  have hlevels (n : ℕ) (hn : 2 ≤ n) : levels fs < n := (Nat.lt_succ_of_le (levels_le fs)).trans_le hn
  have hres (n : ℕ) (hn : 2 ≤ n) :=
    @_namei_resolves t cur { fs := fs, null := false } n (hlevels n hn) pathname base followLinks
  obtain ⟨r, s', -, h⟩ := hres 2 le_rfl
  rw [@Call.safe_iff t cur pathname s', Bool.eq_false_iff, ne_eq, h.null]
  · simp only [Bool.false_eq_true, false_or]
  · intro n hn
    obtain ⟨r', s'', hr', h'⟩ := hres n hn
    obtain ⟨rfl, rfl⟩ := h.unique h'
    rw [Call.run, hr', Option.map_some]

/-- No null pointer is used, unless the last name of the path is a link that cannot be followed and the call is one
of `_namei` that follows it. -/
theorem resolution_safe_iff (t : Tree) (cur : Current) (pathname : Path) (fs : BitVec 16) (c : Call) :
    c.Safe t cur pathname fs ↔
      ∀ base, c.follows = some base → ¬ Dangles t cur (Stands t cur fs) pathname base := by
  cases c with
  | _namei base followLinks =>
    rw [_namei_safe_iff]
    cases followLinks with
    | false => exact iff_of_true (fun h => absurd h.1 Bool.false_ne_true) nofun
    | true =>
      constructor
      · rintro h base' hbase
        obtain rfl := Option.some.inj hbase
        exact fun hd => h ⟨rfl, hd⟩
      · rintro h ⟨-, hd⟩
        exact h base rfl hd
  | lnamei => exact iff_of_true ((_namei_safe_iff t cur pathname fs none false).mpr (by simp)) nofun
  | namei =>
    refine (_namei_safe_iff t cur pathname fs none true).trans ⟨?_, ?_⟩
    · rintro h base hbase
      obtain rfl := Option.some.inj hbase
      exact fun hd => h ⟨rfl, hd⟩
    · rintro h ⟨-, hd⟩
      exact h none rfl hd
  | openNamei flag newInode added =>
    refine iff_of_true ⟨{ fs := fs, null := false }, rfl, fun n hn => ?_⟩ nofun
    exact openNamei_state ((levels_le fs).trans (Nat.le_of_lt hn)) pathname flag newInode added

namespace Dangling

def root : Key := (1, ROOT_INO)

/-- A root directory with the one entry `l`, a link to `x`. -/
def tree : Tree where
  files k :=
    if k = root then
      { iMode := 0x41ED, iUid := 0, iGid := 0, iNlinks := 1, zone := true, entries := [⟨2, [0x6C]⟩], link := [] }
    else { iMode := 0xA1FF, iUid := 0, iGid := 0, iNlinks := 1, zone := true, entries := [], link := [0x78] }
  bad _ _ := false
  mounts := []
  mount_dir := nofun

def current : Current := { root := root, pwd := root, cred := { euid := 0, egid := 0, groups := [] }, umask := 0 }

end Dangling

/-- `chmod("l", mode)` asks for the inode of `l`, and `namei` writes `i_atime` of the inode at address 0. -/
theorem namei_null : ¬ Call.namei.Safe Dangling.tree Dangling.current [0x6C] USER_SEG := by
  rintro ⟨s', hnull, hrun⟩
  have h : Call.run Dangling.tree Dangling.current [0x6C] 2 { fs := USER_SEG, null := false } .namei =
      some { fs := USER_SEG, null := true } := by decide +kernel
  rw [hrun 2 le_rfl] at h
  obtain rfl := Option.some.inj h
  cases hnull

end Linux012.Symlinks
