import Mathlib.Logic.Relation
import Linux012.Fs.Namei.Balance

/-! # The subtree of a process's root directory

An inode lies below the root directory when names and mounts lead down to it. In a consistent tree
`..` leads up to the directory that names an inode, and from the root of a mounted file system to
the one above the directory that it is mounted on. So no path leads out of the subtree.
-/

namespace Linux012.Namei

open Function Triples Relation
open Dirs (Name DirEntry matchEntry dot dotdot)

/-- A directory names an inode of its device. -/
def Names (s : Sys) (p c : Key) : Prop :=
  (s.files p).isDir ∧ c.1 = p.1 ∧ ∃ de ∈ (s.files p).entries,
    de.inode = c.2 ∧ c.2 ≠ 0 ∧ de.name ≠ dot ∧ de.name ≠ dotdot

/-- A file system with the root `c` is mounted on `p`. -/
def Mounted (s : Sys) (p c : Key) : Prop :=
  ∃ e sb, s.key e = p ∧ (s.inodes e).iMount ∧ s.mountedOn e = some sb ∧ c = (sb.sDev, ROOT_INO)

/-- The subtree of the root directory of a process. -/
def Below (s : Sys) (cur : Current) : Key → Prop :=
  ReflTransGen (fun p c => Names s p c ∨ Mounted s p c) (s.key cur.root)

/-- What holds of mounted file systems and of a process that has a root directory and a working
directory. Nothing is mounted on the root of a file system, nor on a directory that a process
holds. -/
structure Consistent (s : Sys) (cur : Current) : Prop where
  inTable : ∀ e, (s.key e).1 ≠ 0 → e < NR_INODE
  unique : ∀ e e', (s.key e).1 ≠ 0 → s.key e = s.key e' → e = e'
  root : s.count cur.root ≠ 0 ∧ (s.key cur.root).1 ≠ 0
  pwd : s.count cur.pwd ≠ 0
  supers : ∀ a ∈ s.superBlock, ∀ b ∈ s.superBlock, a.sDev ≠ 0 → a.sDev = b.sDev → a = b
  mounts : ∀ sb ∈ s.superBlock, ∀ e, sb.sImount = some e → sb.sDev ≠ 0 ∧ s.count e ≠ 0 ∧
    ((s.inodes e).iMount → e ≠ cur.root ∧ (s.inodes e).iNum ≠ ROOT_INO ∧ (s.file e).isDir)
  named : ∀ p c, Below s cur p → Names s p c → c.2 ≠ ROOT_INO ∧ ((s.files c).isDir →
    ∀ de ∈ (s.files c).entries, de.inode ≠ 0 → de.name = dotdot → de.inode = p.2)
  dots : ∀ p, Below s cur p → (s.files p).isDir →
    ∀ de ∈ (s.files p).entries, de.inode ≠ 0 → de.name = dot → de.inode = p.2
  links : ∀ p, Below s cur p → (s.files p).iNlinks ≠ 0

variable {cur : Current} {α : Type} {t s s' : Sys} {e : ℕ} {h h' : List ℕ} {k : Key}

/-! ## The tree -/

theorem below_root : Below t cur (t.key cur.root) := .refl

theorem mem_of_mountedOn {sb : Super} (h : t.mountedOn e = some sb) :
    sb ∈ t.superBlock ∧ sb.sImount = some e :=
  ⟨List.mem_of_find?_eq_some h, by simpa using List.find?_some h⟩

/-- An inode that is no root of a file system is named by a directory. -/
theorem Below.exists_names (hk : Below t cur k) (hroot : k ≠ t.key cur.root) (hnum : k.2 ≠ ROOT_INO) :
    ∃ p, Below t cur p ∧ Names t p k := by
  rcases ReflTransGen.cases_tail hk with heq | ⟨p, hp, hstep⟩
  · exact absurd heq hroot
  · rcases hstep with hn | ⟨e, sb, -, -, -, rfl⟩
    · exact ⟨p, hp, hn⟩
    · exact absurd rfl hnum

namespace Consistent

variable (hc : Consistent t cur)

include hc

theorem dev_ne_zero (hk : Below t cur k) : k.1 ≠ 0 := by
  induction hk with
  | refl => exact hc.root.2
  | tail _ hstep ih =>
    rcases hstep with ⟨-, hdev, -⟩ | ⟨e, sb, -, -, hsb, rfl⟩
    · rwa [hdev]
    · obtain ⟨hmem, he⟩ := mem_of_mountedOn hsb
      exact (hc.mounts sb hmem e he).1

/-- The root of a file system lies below the directory that it is mounted on. -/
theorem exists_mounted (hk : Below t cur k) (hroot : k ≠ t.key cur.root) (hnum : k.2 = ROOT_INO) :
    ∃ p, Below t cur p ∧ Mounted t p k := by
  rcases ReflTransGen.cases_tail hk with heq | ⟨p, hp, hstep⟩
  · exact absurd heq hroot
  · rcases hstep with hn | hm
    · exact absurd hnum (hc.named p k hp hn).1
    · exact ⟨p, hp, hm⟩

/-- `..` leads to the directory that names an inode. -/
theorem below_dotdot (hk : Below t cur k) (hroot : k ≠ t.key cur.root) (hnum : k.2 ≠ ROOT_INO)
    (hdir : (t.files k).isDir) {de : DirEntry} (hde : de ∈ (t.files k).entries)
    (hinode : de.inode ≠ 0) (hname : de.name = dotdot) : Below t cur (k.1, de.inode) := by
  obtain ⟨p, hp, hn⟩ := hk.exists_names hroot hnum
  rw [(hc.named p k hp hn).2 hdir de hde hinode hname, hn.2.1]
  exact hp

theorem below_dot (hk : Below t cur k) (hdir : (t.files k).isDir) {de : DirEntry}
    (hde : de ∈ (t.files k).entries) (hinode : de.inode ≠ 0) (hname : de.name = dot) :
    Below t cur (k.1, de.inode) := by
  rw [hc.dots k hk hdir de hde hinode hname]
  exact hk

/-- Every other name leads down. -/
theorem below_name (hk : Below t cur k) (hdir : (t.files k).isDir) {de : DirEntry}
    (hde : de ∈ (t.files k).entries) (hinode : de.inode ≠ 0) (hname : de.name ≠ dotdot) :
    Below t cur (k.1, de.inode) := by
  rcases eq_or_ne de.name dot with hdot | hdot
  · exact hc.below_dot hk hdir hde hinode hdot
  · exact hk.tail (.inl ⟨hdir, rfl, de, hde, rfl, hinode, hdot, hname⟩)

/-- The super block of a device says where it is mounted. -/
theorem getSuper_mounted {sb sb' : Super} (hsb : t.mountedOn e = some sb)
    (hget : t.getSuper sb.sDev = some sb') : sb' = sb := by
  unfold Sys.getSuper at hget
  split_ifs at hget with hzero
  have hdev : sb'.sDev = sb.sDev := by simpa using List.find?_some hget
  refine hc.supers sb' (List.mem_of_find?_eq_some hget) sb (mem_of_mountedOn hsb).1 ?_ hdev
  rwa [hdev]

/-- The directory that a file system is mounted on is no root. -/
theorem mounted_ne_root (hmount : (t.inodes e).iMount) {sb : Super} (hsb : t.mountedOn e = some sb) :
    t.key e ≠ t.key cur.root := by
  obtain ⟨hmem, he⟩ := mem_of_mountedOn hsb
  intro heq
  exact ((hc.mounts sb hmem e he).2.2 hmount).1 (hc.unique _ _ hc.root.2 heq.symm).symm

end Consistent

/-! ## Following a path -/

/-- The tree is that of `t`, and entries of the inode table that were held in `t` stay. -/
structure Same (t s : Sys) : Prop where
  files : s.files = t.files
  superBlock : s.superBlock = t.superBlock
  imap : s.imap = t.imap
  keep : ∀ e, t.count e ≠ 0 → s.key e = t.key e ∧ (s.inodes e).iMount = (t.inodes e).iMount
  inTable : ∀ e, (s.key e).1 ≠ 0 → e < NR_INODE
  unique : ∀ e e', (s.key e).1 ≠ 0 → s.key e = s.key e' → e = e'

/-- The code holds references to inodes of the subtree, besides those that were there in `t`. -/
structure At (t : Sys) (cur : Current) (h : List ℕ) (s : Sys) : Prop extends Same t s where
  holding : Holding Sys.count t.count h s
  below : ∀ e ∈ h, Below t cur (s.key e)

/-- The code has got an empty entry of the table, too. -/
structure Spare (t : Sys) (cur : Current) (empty : ℕ) (h : List ℕ) (s : Sys) : Prop
    extends Same t s where
  holding : Holding Sys.count t.count (empty :: h) s
  below : ∀ e ∈ h, Below t cur (s.key e)
  free : t.count empty = 0
  noDev : (s.key empty).1 = 0
  bound : empty < NR_INODE

/-- The state differs only in entries' counts and dirty bits, and in `io`. -/
structure Touches (s s' : Sys) : Prop where
  files : s'.files = s.files
  superBlock : s'.superBlock = s.superBlock
  imap : s'.imap = s.imap
  key : ∀ e, s'.key e = s.key e
  iMount : ∀ e, (s'.inodes e).iMount = (s.inodes e).iMount

theorem Same.touch (hs : Same t s) (ht : Touches s s') : Same t s' where
  files := ht.files.trans hs.files
  superBlock := ht.superBlock.trans hs.superBlock
  imap := ht.imap.trans hs.imap
  keep e he := by rw [ht.key, ht.iMount]; exact hs.keep e he
  inTable e := by rw [ht.key]; exact hs.inTable e
  unique e e' := by rw [ht.key, ht.key]; exact hs.unique e e'

theorem touches_upd {g : MInode → MInode} (hdev : ∀ x, (g x).iDev = x.iDev)
    (hnum : ∀ x, (g x).iNum = x.iNum) (hmount : ∀ x, (g x).iMount = x.iMount) :
    Touches s (s.upd e g) := by
  refine ⟨rfl, rfl, rfl, fun i => ?_, fun i => ?_⟩
  · rcases eq_or_ne i e with rfl | hi
    · simp [Sys.key, Sys.upd, hdev, hnum]
    · simp [Sys.key, Sys.upd, hi]
  · rcases eq_or_ne i e with rfl | hi
    · simp [Sys.upd, hmount]
    · simp [Sys.upd, hi]

theorem touches_hold : Touches s (s.hold e) := touches_upd (fun _ => rfl) (fun _ => rfl) fun _ => rfl

theorem touches_drop : Touches s (s.drop e) := touches_upd (fun _ => rfl) (fun _ => rfl) fun _ => rfl

theorem touches_setDirt (d : Bool) : Touches s (s.setDirt e d) :=
  touches_upd (fun _ => rfl) (fun _ => rfl) fun _ => rfl

theorem Touches.trans {s'' : Sys} (h₁ : Touches s s') (h₂ : Touches s' s'') : Touches s s'' where
  files := h₂.files.trans h₁.files
  superBlock := h₂.superBlock.trans h₁.superBlock
  imap := h₂.imap.trans h₁.imap
  key e := (h₂.key e).trans (h₁.key e)
  iMount e := (h₂.iMount e).trans (h₁.iMount e)

/-- `iput` leaves the tree alone when the inode has links or is on no device. -/
theorem iputs_touches (hi : iputs s e = some s')
    (hfree : (s.inodes e).iDev ≠ 0 → (s.file e).iNlinks ≠ 0) : Touches s s' := by
  unfold iputs at hi
  dsimp only at hi
  generalize ht : (if (s.file e).isBlk = true then s.syncInodes else s) = t at hi
  have htouch : Touches s t := by
    rw [← ht]
    split_ifs
    · exact ⟨rfl, rfl, rfl, fun _ => rfl, fun _ => rfl⟩
    · exact ⟨rfl, rfl, rfl, fun _ => rfl, fun _ => rfl⟩
  have hfile : t.file e = s.file e := by rw [Sys.file, Sys.file, htouch.key, htouch.files]
  split_ifs at hi with h₀ hp hd hone hn
  · obtain rfl := Option.some.inj hi
    refine touches_upd (fun x => ?_) (fun x => ?_) fun x => ?_ <;> split_ifs <;> rfl
  · obtain rfl := Option.some.inj hi
    exact touches_drop
  · obtain rfl := Option.some.inj hi
    exact htouch.trans touches_drop
  · rw [hfile] at hn
    exact absurd hn (hfree hd)
  · obtain rfl := Option.some.inj hi
    exact htouch.trans ((touches_setDirt false).trans touches_drop)

namespace At

theorem perm (hs : At t cur h s) (hp : h.Perm h') : At t cur h' s :=
  { hs with
    holding := hs.holding.perm hp
    below := fun e he => hs.below e (hp.mem_iff.mpr he) }

/-- What the code has taken lies below the root directory, and what it has given up is gone. -/
theorem touch (hs : At t cur h s) (ht : Touches s s') (hhold : Holding Sys.count t.count h' s')
    (hbelow : ∀ e ∈ h', e ∈ h ∨ Below t cur (s.key e)) : At t cur h' s' := by
  refine { hs.toSame.touch ht with holding := hhold, below := fun e he => ?_ }
  rw [ht.key]
  exact (hbelow e he).elim (hs.below e) id

theorem of_io {l : List Bool} (hs : At t cur h s) : At t cur h { s with io := l } :=
  hs.touch ⟨rfl, rfl, rfl, fun _ => rfl, fun _ => rfl⟩ hs.holding fun _ => .inl

end At

/-- The code takes over references to inodes of the subtree, and hands such references back. -/
abbrev Stays (t : Sys) (cur : Current) (taken : List ℕ) (m : M α) (given : α → List ℕ) : Prop :=
  Triple (At t cur taken) m fun a => At t cur (given a)

theorem stays_pure {a : α} {g : α → List ℕ} (hp : h.Perm (g a)) : Stays t cur h (pure a) g :=
  .pure fun _ hs => hs.perm hp

theorem stays_hold (hb : ∀ s, At t cur h s → Below t cur (s.key e)) :
    Stays t cur h (hold e) fun _ => e :: h := by
  intro s a s' hs hx
  have hhold := refs_hold e t.count s a s' hs.holding hx
  obtain ⟨-, rfl⟩ := Prod.mk.inj (Option.some.inj hx)
  refine hs.touch touches_hold hhold fun i hi => ?_
  rcases List.mem_cons.mp hi with rfl | hi
  · exact .inr (hb s hs)
  · exact .inl hi

section Consistent

variable (hc : Consistent t cur)

include hc

theorem stays_iput (hp : h.Perm (e :: h')) : Stays t cur h (iput e) fun _ => h' := by
  intro s a s' hs hx
  have hhold := refs_iput hp t.count s a s' hs.holding hx
  have hbelow := hs.below e (hp.mem_iff.mpr (List.mem_cons_self ..))
  refine hs.touch (iputs_touches (iputs_of_iput hx) fun _ => ?_) hhold fun i hi => ?_
  · rw [Sys.file, hs.files]
    exact hc.links _ hbelow
  · exact .inl (hp.mem_iff.mpr (List.mem_cons_of_mem _ hi))

theorem stays_iput_first : Stays t cur (e :: h) (iput e) fun _ => h := stays_iput hc (.refl _)

theorem key_root (hs : Same t s) : s.key cur.root = t.key cur.root := (hs.keep _ hc.root.1).1

theorem stays_holdRoot : Stays t cur h (hold cur.root) fun _ => cur.root :: h :=
  stays_hold fun s hs => by rw [key_root hc hs.toSame]; exact below_root

/-- An entry with the key of the root directory is that of the root directory. -/
theorem key_ne_root (hs : Same t s) (hne : e ≠ cur.root) : s.key e ≠ t.key cur.root := by
  rw [← key_root hc hs]
  intro heq
  refine hne (hs.unique _ _ ?_ heq)
  rw [heq, key_root hc hs]
  exact hc.root.2

end Consistent

/-! ## The inode table -/

/-- An entry that is not held may become another inode's. -/
theorem Same.upd {g : MInode → MInode} (hs : Same t s) (hfree : t.count e = 0)
    (hkey : ∀ d, (s.upd e g).key e = d → d.1 ≠ 0 → e < NR_INODE ∧ ∀ i, s.key i = d → i = e) :
    Same t (s.upd e g) := by
  have hother : ∀ i, i ≠ e → (s.upd e g).key i = s.key i := by
    intro i hi
    simp [Sys.key, Sys.upd, hi]
  refine ⟨hs.files, hs.superBlock, hs.imap, fun i hi => ?_, fun i hi => ?_, fun i j hi hij => ?_⟩
  · have hne : i ≠ e := by
      rintro rfl
      exact hi hfree
    rw [hother i hne]
    simpa [Sys.upd, hne] using hs.keep i hi
  · rcases eq_or_ne i e with rfl | hne
    · exact (hkey _ rfl hi).1
    · rw [hother i hne] at hi
      exact hs.inTable i hi
  · rcases eq_or_ne i e with rfl | hie <;> rcases eq_or_ne j i with rfl | hji
    · rfl
    · rw [hother j hji] at hij
      exact ((hkey _ rfl hi).2 j hij.symm).symm
    · rfl
    · rcases eq_or_ne j e with rfl | hje
      · rw [hother i hie] at hij hi
        exact (hkey _ rfl (by rwa [← hij])).2 i hij
      · rw [hother i hie] at hij hi
        rw [hother j hje] at hij
        exact hs.unique i j hi hij

theorem At.not_mem_of_free (hs : At t cur h s) (hfree : s.count e = 0) : t.count e = 0 ∧ e ∉ h := by
  have hcount := hs.holding e
  refine ⟨by omega, fun hmem => ?_⟩
  have := List.count_pos_iff.mpr hmem
  omega

theorem spare_getEmptyInode : Triple (At t cur h) getEmptyInode fun e => Spare t cur e h := by
  intro s e s' hs hx
  have hhold := refs_getEmptyInode t.count s e s' hs.holding hx
  unfold getEmptyInode at hx
  split at hx
  · cases hx
  · rename_i last e' he
    obtain ⟨rfl, rfl⟩ := Prod.mk.inj (Option.some.inj hx)
    obtain ⟨hlt, hcount⟩ := scanEmpty_spec (by simp) he
    obtain ⟨hfree, hmem⟩ := hs.not_mem_of_free hcount
    have hzero : (s.upd e' fun _ => { MInode.zero with iCount := 1 }).key e' = (0, 0) := by
      simp [Sys.key, Sys.upd, MInode.zero]
    have hsame : Same t (s.upd e' fun _ => { MInode.zero with iCount := 1 }) := by
      refine hs.toSame.upd hfree ?_
      rintro d hd hd₀
      rw [← hd, hzero] at hd₀
      exact absurd rfl hd₀
    refine ⟨⟨hsame.files, hsame.superBlock, hsame.imap, hsame.keep, hsame.inTable, hsame.unique⟩,
      hhold, fun i hi => ?_, hfree, congrArg Prod.fst hzero, hlt⟩
    have hne : i ≠ e' := by
      rintro rfl
      exact hmem hi
    have hkey : (s.upd e' fun _ => { MInode.zero with iCount := 1 }).key i = s.key i := by
      simp [Sys.key, Sys.upd, hne]
    change Below t cur ((s.upd e' fun _ => { MInode.zero with iCount := 1 }).key i)
    rw [hkey]
    exact hs.below i hi

theorem Spare.touch {empty : ℕ} (hs : Spare t cur empty h s) (ht : Touches s s')
    (hhold : Holding Sys.count t.count (empty :: h') s')
    (hbelow : ∀ e ∈ h', e ∈ h ∨ Below t cur (s.key e)) : Spare t cur empty h' s' := by
  refine { hs.toSame.touch ht with
    holding := hhold, below := fun e he => ?_, free := hs.free, noDev := ?_, bound := hs.bound }
  · rw [ht.key]
    exact (hbelow e he).elim (hs.below e) id
  · rw [ht.key]
    exact hs.noDev

theorem of_find {x : Key} (hfind : s.find x = some e) : s.key e = x := by
  simpa using List.find?_some hfind

theorem of_find_none (hfind : s.find k = none) (hs : Same t s) (hk : k.1 ≠ 0) : s.key e ≠ k := by
  intro heq
  have hlt : e < NR_INODE := hs.inTable e (by rwa [heq])
  exact absurd heq (by simpa using List.find?_eq_none.mp hfind e (List.mem_range.mpr hlt))

/-- The spare entry becomes that of an inode which was not in the table. -/
theorem Spare.assign {empty dev nr : ℕ} (hs : Spare t cur empty h s) (hfind : s.find (dev, nr) = none)
    (hdev : dev ≠ 0) (hb : Below t cur (dev, nr)) :
    At t cur (empty :: h) (s.upd empty fun x => { x with iDev := dev, iNum := nr }) := by
  have hkey : (s.upd empty fun x => { x with iDev := dev, iNum := nr }).key empty = (dev, nr) := by
    simp [Sys.key, Sys.upd]
  have hsame : Same t (s.upd empty fun x => { x with iDev := dev, iNum := nr }) := by
    refine hs.toSame.upd hs.free fun d hd _ => ⟨hs.bound, fun i hi => ?_⟩
    rw [hkey] at hd
    subst hd
    exact absurd hi (of_find_none hfind hs.toSame hdev)
  refine { hsame with holding := fun i => ?_, below := fun i hi => ?_ }
  · rw [Sys.count_upd_of_eq (g := fun x => { x with iDev := dev, iNum := nr }) fun _ => rfl]
    exact hs.holding i
  · rcases List.mem_cons.mp hi with rfl | hi
    · rwa [hkey]
    · rcases eq_or_ne i empty with rfl | hne
      · rwa [hkey]
      · have := hs.below i hi
        simpa [Sys.key, Sys.upd, hne] using this

section Iget

variable {empty dev nr : ℕ} (hc : Consistent t cur)

theorem spare_hold (he : Below t cur (dev, nr)) : Triple
    (fun s => s.key e = (dev, nr) ∧ Spare t cur empty h s) (hold e) fun _ => Spare t cur empty (e :: h) := by
  rintro s a s' ⟨hkey, hs⟩ hx
  have hhold := (refs_hold e).perm (.refl _) (fun _ => .swap _ _ _) t.count s a s' hs.holding hx
  obtain ⟨-, rfl⟩ := Prod.mk.inj (Option.some.inj hx)
  refine hs.touch touches_hold hhold fun i hi => ?_
  rcases List.mem_cons.mp hi with rfl | hi
  · exact .inr (by rwa [hkey])
  · exact .inl hi

theorem spare_iputEmpty : Triple (Spare t cur empty h) (iput empty) fun _ => At t cur h := by
  intro s a s' hs hx
  have hhold := refs_iput_first t.count s a s' hs.holding hx
  have htouch := iputs_touches (iputs_of_iput hx) fun hdev => absurd hs.noDev hdev
  refine { hs.toSame.touch htouch with holding := hhold, below := fun i hi => ?_ }
  rw [htouch.key]
  exact hs.below i hi

include hc

theorem spare_iput : Triple (Spare t cur empty (e :: h)) (iput e) fun _ => Spare t cur empty h := by
  intro s a s' hs hx
  have hhold := refs_iput_second t.count s a s' hs.holding hx
  refine hs.touch (iputs_touches (iputs_of_iput hx) fun _ => ?_) hhold fun i hi => ?_
  · rw [Sys.file, hs.files]
    exact hc.links _ (hs.below e (List.mem_cons_self ..))
  · exact .inl (List.mem_cons_of_mem _ hi)

/-- Where a file system is mounted on an inode of the subtree, its root is in the subtree. -/
theorem below_mounted {sb : Super} (hs : Same t s) (hb : Below t cur (s.key e))
    (hmount : (s.inodes e).iMount) (hsb : s.mountedOn e = some sb) :
    Below t cur (sb.sDev, ROOT_INO) := by
  have hsb' : t.mountedOn e = some sb := by rwa [Sys.mountedOn, hs.superBlock] at hsb
  obtain ⟨hmem, he⟩ := mem_of_mountedOn hsb'
  obtain ⟨hkey, hflag⟩ := hs.keep e (hc.mounts sb hmem e he).2.1
  exact hb.tail (.inr ⟨e, sb, hkey.symm, by rwa [← hflag], hsb', rfl⟩)

theorem spare_igetLoop (k : ℕ) (hb : Below t cur (dev, nr)) :
    Triple (Spare t cur empty h) (igetLoop empty k dev nr) fun o => At t cur (o.toList ++ h) := by
  induction k generalizing dev nr with
  | zero => exact .failure
  | succ k ih =>
    unfold igetLoop
    refine .bind .reads fun o => ?_
    cases o with
    | some e =>
      refine .bind (R := fun _ => Spare t cur empty (e :: h)) ?_ fun _ => .bind .reads fun mounted => ?_
      · exact (spare_hold hb).weaken (fun s hs => ⟨of_find hs.1.symm, hs.2⟩) fun _ _ => id
      · have hput : Triple (Spare t cur empty (e :: h)) (do iput empty; pure (some e))
            fun o => At t cur (o.toList ++ h) :=
          .bind spare_iputEmpty fun _ => .pure fun _ hs => hs
        split
        · rename_i hm
          refine .bind .reads fun o => ?_
          cases o with
          | none => exact hput.weaken (fun s hs => hs.2.2) fun _ _ => id
          | some sb =>
            intro s a s' hs hx
            have hbelow := below_mounted hc hs.2.2.toSame (hs.2.2.below e (List.mem_cons_self ..))
              (by rw [← hs.2.1]; exact hm) hs.1.symm
            exact Triple.bind (spare_iput hc) (fun _ => ih hbelow) s a s' hs.2.2 hx
        · exact hput.weaken (fun s hs => hs.2) fun _ _ => id
    | none =>
      refine .bind (R := fun _ => At t cur (empty :: h)) (.modifies fun s hs => ?_) fun _ => ?_
      · exact hs.2.assign hs.1.symm (hc.dev_ne_zero hb) hb
      · refine .bind .reads fun o => ?_
        cases o with
        | none => exact .failure
        | some sb => exact .pure fun s hs => hs.2

theorem stays_iget (hb : Below t cur (dev, nr)) : Stays t cur h (iget dev nr) fun o => o.toList ++ h := by
  unfold iget
  rw [if_neg (hc.dev_ne_zero hb)]
  exact .bind spare_getEmptyInode fun empty => spare_igetLoop hc _ hb

end Iget

/-! ## Directories -/

/-- The entry `j` of a directory has the name. -/
def Found (t : Sys) (x : Key) (name : Name) (j : ℕ) : Prop :=
  ∃ de, (t.files x).entries[j]? = some de ∧ matchEntry name de

/-- The directory `dir` is the inode `x` of the subtree. -/
def Within (t : Sys) (cur : Current) (dir : ℕ) (x : Key) (h : List ℕ) (s : Sys) : Prop :=
  s.key dir = x ∧ At t cur h s

theorem triple_io {P : Sys → Prop} (hP : ∀ s l, P s → P { s with io := l }) :
    Triple P io fun _ => P := by
  intro s a s' hs hx
  unfold io at hx
  split at hx
  · cases hx
    exact hs
  · cases hx
    exact hP s _ hs

theorem within_io {dir : ℕ} {x : Key} :
    Triple (Within t cur dir x h) io fun _ => Within t cur dir x h :=
  triple_io fun _ _ hs => ⟨hs.1, hs.2.of_io⟩

theorem exists_of_findIdx {name : Name} {l : List DirEntry} {i n j : ℕ}
    (hfind : ((l.drop i).take n).findIdx? (matchEntry name) = some j) :
    ∃ de, l[i + j]? = some de ∧ matchEntry name de := by
  obtain ⟨hlt, hmatch, -⟩ := List.findIdx?_eq_some_iff_getElem.mp hfind
  refine ⟨((l.drop i).take n)[j], ?_, hmatch⟩
  rw [List.getElem_take, List.getElem_drop]
  exact List.getElem?_eq_getElem _

section Search

variable (dir : ℕ) (name : Name) (x : Key)

theorem within_none : Triple (Within t cur dir x h) (pure none) fun r s =>
    (∀ j, r = some j → Found t x name j) ∧ Within t cur dir x h s :=
  .pure fun s hs => ⟨by simp, hs⟩

theorem within_searchBlocks (k i : ℕ) :
    Triple (Within t cur dir x h) (searchBlocks name (t.files x).entries k i) fun r s =>
      (∀ j, r = some j → Found t x name j) ∧ Within t cur dir x h s := by
  induction k generalizing i with
  | zero => exact within_none dir name x
  | succ k ih =>
    unfold searchBlocks
    split
    · refine .bind within_io fun ok => ?_
      split
      · split
        · rename_i j hfind
          refine .pure fun s hs => ⟨?_, hs⟩
          rintro _ ⟨⟩
          exact exists_of_findIdx hfind
        · exact ih _
      · exact ih _
    · exact within_none dir name x

theorem within_search :
    Triple (Within t cur dir x h) (search dir name) fun r s =>
      (∀ j, r = some j → Found t x name j) ∧ Within t cur dir x h s := by
  unfold search
  refine .bind (R := fun f s => f = t.files x ∧ Within t cur dir x h s) ?_ fun f => .of_imp ?_
  · refine Triple.reads.weaken (fun _ hs => hs) fun f s hs => ⟨?_, hs.2⟩
    rw [hs.1, Sys.file, hs.2.2.files, hs.2.1]
  rintro rfl
  split
  · exact within_none dir name x
  · refine .bind within_io fun ok => ?_
    split
    · split
      · rename_i j hfind
        refine .pure fun s hs => ⟨?_, hs⟩
        rintro _ ⟨⟩
        obtain ⟨de, hde, hm⟩ := exists_of_findIdx (i := 0) hfind
        exact ⟨de, by simpa using hde, hm⟩
      · exact within_searchBlocks dir name x _ _
    · exact within_none dir name x

/-- The entry that has been found names an inode of the subtree. -/
def Leads (t : Sys) (cur : Current) (r : ℕ × Option ℕ) (s : Sys) : Prop :=
  ∀ k, r.2 = some k → Below t cur ((s.inodes r.1).iDev,
    ((((s.file r.1).entries)[k]?).map DirEntry.inode).getD 0)

/-- The search of a directory whose entries with the name all lead into the subtree. -/
theorem leads_search
    (hx : ∀ de ∈ (t.files x).entries, matchEntry name de → Below t cur (x.1, de.inode)) :
    Triple (Within t cur dir x (dir :: h)) (do let r ← search dir name; pure (dir, r))
      fun r s => Leads t cur r s ∧ At t cur (r.1 :: h) s := by
  refine .bind (within_search dir name x) fun r => .pure fun s hs => ⟨?_, hs.2.2⟩
  rintro k hk
  obtain ⟨de, hde, hm⟩ := hs.1 k hk
  have hbelow := hx de (List.mem_of_getElem? hde) hm
  rw [← hs.2.1] at hde hbelow
  dsimp only
  rwa [Sys.file, hs.2.2.files, hde]

end Search

theorem matchEntry_name {name : Name} {de : DirEntry} (hm : matchEntry name de) :
    de.inode ≠ 0 ∧ (name = [] ∧ de.name = dot ∨ name.take Dirs.NAME_LEN = de.name) := by
  simpa [matchEntry] using hm

/-- Only the empty name is also that of another entry. -/
theorem matchEntry_ne_nil {name : Name} {de : DirEntry} (hm : matchEntry name de) (hne : name ≠ []) :
    de.inode ≠ 0 ∧ de.name = name.take Dirs.NAME_LEN := by
  obtain ⟨hinode, ⟨hnil, -⟩ | heq⟩ := matchEntry_name hm
  · exact absurd hnil hne
  · exact ⟨hinode, heq.symm⟩

/-- `..` is looked for in the directory that a file system is mounted on. -/
theorem leads_mounted (hc : Consistent t cur) {dir : ℕ} {x : Key} {sb : Super}
    (he : Below t cur (t.key e)) (hmount : (t.inodes e).iMount) (hsb : t.mountedOn e = some sb) :
    Triple (Within t cur dir x (dir :: h))
      (do
        iput dir
        hold e
        let r ← search e dotdot
        pure (e, r))
      fun r s => Leads t cur r s ∧ At t cur (r.1 :: h) s := by
  obtain ⟨hmem, hsome⟩ := mem_of_mountedOn hsb
  obtain ⟨-, hcount, hdir⟩ := hc.mounts sb hmem e hsome
  obtain ⟨-, hino, hisDir⟩ := hdir hmount
  have hkey : ∀ s, At t cur h s → s.key e = t.key e := fun s hs => (hs.keep e hcount).1
  refine .bind (R := fun _ => At t cur h) ?_ fun _ => ?_
  · exact (stays_iput_first hc).weaken (fun s hs => hs.2) fun _ _ => id
  refine .bind (R := fun _ => Within t cur e (t.key e) (e :: h)) ?_ fun _ => ?_
  · intro s a s' hs hx
    have hs' := stays_hold (fun s hs => by rwa [hkey s hs]) s a s' hs hx
    exact ⟨(hs'.keep e hcount).1, hs'⟩
  · refine leads_search e dotdot (t.key e) fun de hde hm => ?_
    obtain ⟨hinode, heq⟩ := matchEntry_ne_nil hm (by decide)
    exact hc.below_dotdot he (hc.mounted_ne_root hmount hsb) hino hisDir hde hinode heq

section FindEntry

variable {x : Key} (hc : Consistent t cur) (hb : Below t cur x) (hdir : (t.files x).isDir)

include hc hb hdir

theorem within_findEntry {dir : ℕ} (name : Name) (hroot : dir ≠ cur.root → x ≠ t.key cur.root) :
    Triple (Within t cur dir x (dir :: h)) (findEntry cur dir name)
      fun r s => Leads t cur r s ∧ At t cur (r.1 :: h) s := by
  unfold findEntry
  dsimp only
  split
  · rename_i hname
    refine leads_search dir _ x fun de hde hm => ?_
    obtain ⟨hinode, ⟨-, hdot⟩ | heq⟩ := matchEntry_name hm
    · exact hc.below_dot hb hdir hde hinode hdot
    · refine hc.below_name hb hdir hde hinode ?_
      rw [← heq]
      intro h
      exact hname (by simpa [List.take_take, NAME_LEN, Dirs.NAME_LEN] using h)
  · split
    · refine leads_search dir dot x fun de hde hm => ?_
      obtain ⟨hinode, heq⟩ := matchEntry_ne_nil hm (by decide)
      exact hc.below_dot hb hdir hde hinode heq
    · rename_i hne
      obtain ⟨dev, nr⟩ := x
      refine .bind (R := fun k s => k = (dev, nr) ∧ Within t cur dir (dev, nr) (dir :: h) s) ?_
        fun k => .of_imp ?_
      · exact Triple.reads.weaken (fun _ hs => hs) fun k s hs => ⟨hs.1.trans hs.2.1, hs.2⟩
      rintro rfl
      dsimp only
      split
      · rename_i hnum
        refine .bind (R := fun o s => o = t.getSuper dev ∧ Within t cur dir (dev, nr) (dir :: h) s) ?_
          fun o => .of_imp ?_
        · refine Triple.reads.weaken (fun _ hs => hs) fun o s hs => ⟨?_, hs.2⟩
          rw [hs.1, Sys.getSuper, Sys.getSuper, hs.2.2.superBlock]
        intro hsb
        obtain ⟨p, hp, e, sb, rfl, hmount, hsb', heq⟩ := hc.exists_mounted hb (hroot hne) hnum
        obtain ⟨rfl, -⟩ := Prod.mk.inj heq
        have hsome := (mem_of_mountedOn hsb').2
        split
        · exact .failure
        · obtain rfl := hc.getSuper_mounted hsb' hsb.symm
          obtain rfl := Option.some.inj hsome
          exact leads_mounted hc hp hmount hsb'
        · obtain rfl := hc.getSuper_mounted hsb' hsb.symm
          cases hsome
      · rename_i hnum
        refine leads_search dir dotdot _ fun de hde hm => ?_
        obtain ⟨hinode, heq⟩ := matchEntry_ne_nil hm (by decide)
        exact hc.below_dotdot hb (hroot hne) hnum hdir hde hinode heq

end FindEntry

theorem leads_findEntry (hc : Consistent t cur) (dir : ℕ) (name : Name) :
    Triple (fun s => (s.file dir).isDir ∧ At t cur (dir :: h) s) (findEntry cur dir name)
      fun r s => Leads t cur r s ∧ At t cur (r.1 :: h) s := by
  rintro s a s' ⟨hdir, hs⟩ hx
  rw [Sys.file, hs.files] at hdir
  exact within_findEntry hc (hs.below dir (List.mem_cons_self ..)) hdir name
    (key_ne_root hc hs.toSame) s a s' ⟨rfl, hs⟩ hx

end Linux012.Namei
