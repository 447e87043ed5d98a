import Linux012.Lib.Sums
import Linux012.Fs.Dir.Basic

/-! # Counting entries

How many live entries name an inode, and how the count moves when one entry or one inode
changes. The first two entries of a directory are counted apart from the others.
-/

namespace Linux012.Dirs

open Function

variable {fs fs' : Fs} {d i j k n : ℕ} {de : DirEntry} {es : List DirEntry}

/-! ## Lists of entries -/

/-- `1` for an entry that names `i`. -/
def DirEntry.one (i : ℕ) (de : DirEntry) : ℕ := if de.inode = i then 1 else 0

def countNames (i : ℕ) (es : List DirEntry) : ℕ := es.countP fun de => de.inode = i

@[simp] theorem countNames_nil : countNames i [] = 0 := rfl

@[simp] theorem countNames_cons : countNames i (de :: es) = countNames i es + de.one i := by
  simp [countNames, DirEntry.one, List.countP_cons]

theorem countNames_append (es es' : List DirEntry) :
    countNames i (es ++ es') = countNames i es + countNames i es' := List.countP_append

theorem countNames_take_drop (es : List DirEntry) :
    countNames i es = countNames i (es.take 2) + countNames i (es.drop 2) := by
  rw [← countNames_append, List.take_append_drop]

theorem countNames_pos : 0 < countNames i es ↔ ∃ de ∈ es, de.inode = i := by
  simp [countNames, List.countP_pos_iff]

theorem countNames_modify {f : DirEntry → DirEntry} (h : es[k]? = some de) :
    countNames i (es.modify k f) + de.one i = countNames i es + (f de).one i := by
  induction es generalizing k with
  | nil => simp at h
  | cons a es ih =>
    cases k with
    | zero =>
      obtain rfl : a = de := by simpa using h
      simp only [List.modify_zero_cons, countNames_cons]
      omega
    | succ k =>
      have := ih (k := k) (by simpa using h)
      simp only [List.modify_succ_cons, countNames_cons]
      omega

/-- An entry put where none was named. -/
theorem countNames_putEntry (de : DirEntry)
    (hk : ∀ h : k < es.length, (es.get ⟨k, h⟩).inode = 0) (hi : i ≠ 0) :
    countNames i (putEntry es k de) = countNames i es + de.one i := by
  unfold putEntry
  split_ifs with h
  · have hset : es.set k de = es.modify k fun _ => de := by
      rw [List.modify_eq_set_getElem?, List.getElem?_eq_getElem h]
      rfl
    have hold : es[k].one i = 0 := by
      rw [DirEntry.one, show es[k].inode = 0 from hk h, if_neg hi.symm]
    have := countNames_modify (i := i) (f := fun _ => de) (List.getElem?_eq_getElem h)
    rw [hold] at this
    rw [hset]
    exact this
  · rw [countNames_append]
    simp

/-! ## Directories -/

namespace Fs

@[simp] theorem sNinodes_upd (g : Inode → Inode) : (fs.upd i g).sNinodes = fs.sNinodes := rfl
@[simp] theorem imap_upd (g : Inode → Inode) : (fs.upd i g).imap = fs.imap := rfl
@[simp] theorem lost_upd (g : Inode → Inode) : (fs.upd i g).lost = fs.lost := rfl

theorem inodes_upd (g : Inode → Inode) (j : ℕ) :
    (fs.upd i g).inodes j = if j = i then g (fs.inodes i) else fs.inodes j := update_apply ..

@[simp] theorem inodes_upd_self (g : Inode → Inode) : (fs.upd i g).inodes i = g (fs.inodes i) :=
  update_self ..

theorem inodes_upd_of_ne (g : Inode → Inode) (h : j ≠ i) : (fs.upd i g).inodes j = fs.inodes j :=
  update_of_ne h ..

/-- What is counted of the entries of a directory. -/
def namesIn (part : List DirEntry → List DirEntry) (fs : Fs) (d i : ℕ) : ℕ :=
  if fs.Live d then countNames i (part (fs.inodes d).entries) else 0

def linksIn (part : List DirEntry → List DirEntry) (fs : Fs) (i : ℕ) : ℕ :=
  ∑ d ∈ Finset.range (fs.sNinodes + 1), fs.namesIn part d i

/-- The number of `.` and `..` entries that name an inode. -/
def heads (fs : Fs) (i : ℕ) : ℕ := fs.linksIn (List.take 2) i

/-- The number of other entries that name an inode. -/
def tails (fs : Fs) (i : ℕ) : ℕ := fs.linksIn (List.drop 2) i

theorem links_eq_linksIn : fs.links i = fs.linksIn id i := rfl

theorem links_eq : fs.links i = fs.heads i + fs.tails i := by
  rw [links, heads, tails, linksIn, linksIn, ← Finset.sum_add_distrib]
  refine Finset.sum_congr rfl fun d _ => ?_
  simp only [names, namesIn]
  split_ifs
  · exact countNames_take_drop _
  · rfl

variable {part : List DirEntry → List DirEntry}

theorem namesIn_le (part : List DirEntry → List DirEntry) (hd : fs.Live d) :
    countNames i (part (fs.inodes d).entries) ≤ fs.linksIn part i := by
  have := Sums.single_le (Finset.mem_range.mpr (Nat.lt_succ_of_le hd.1))
    fun d => fs.namesIn part d i
  rwa [namesIn, if_pos hd] at this

theorem linksIn_pos (part : List DirEntry → List DirEntry) :
    0 < fs.linksIn part i ↔
    ∃ d, fs.Live d ∧ 0 < countNames i (part (fs.inodes d).entries) := by
  constructor
  · intro h
    obtain ⟨d, -, hd⟩ := Finset.exists_ne_zero_of_sum_ne_zero (Nat.pos_iff_ne_zero.mp h)
    rw [namesIn] at hd
    split_ifs at hd with hl
    · exact ⟨d, hl, Nat.pos_of_ne_zero hd⟩
    · exact absurd rfl hd
  · rintro ⟨d, hd, hpos⟩
    exact hpos.trans_le (namesIn_le part hd)

/-- Only what is counted at `d` changes. -/
theorem linksIn_off (hN : fs'.sNinodes = fs.sNinodes)
    (h : ∀ e, e ≠ d → fs'.namesIn part e i = fs.namesIn part e i) :
    fs'.linksIn part i + fs.namesIn part d i = fs.linksIn part i + fs'.namesIn part d i := by
  by_cases hd : d ≤ fs.sNinodes
  · have hmem : d ∈ Finset.range (fs.sNinodes + 1) := Finset.mem_range.mpr (Nat.lt_succ_of_le hd)
    simp only [linksIn, hN]
    rw [← Finset.add_sum_erase _ _ hmem, ← Finset.add_sum_erase _ (fun e => fs.namesIn part e i) hmem]
    have hrest : ∑ e ∈ (Finset.range (fs.sNinodes + 1)).erase d, fs'.namesIn part e i =
        ∑ e ∈ (Finset.range (fs.sNinodes + 1)).erase d, fs.namesIn part e i :=
      Finset.sum_congr rfl fun e he => h e (Finset.ne_of_mem_erase he)
    omega
  · have h₁ : fs.namesIn part d i = 0 := if_neg fun h => hd h.1
    have h₂ : fs'.namesIn part d i = 0 := if_neg fun h => hd (hN ▸ h.1)
    have hsum : fs'.linksIn part i = fs.linksIn part i := by
      rw [linksIn, linksIn, hN]
      refine Finset.sum_congr rfl fun e he => h e fun hed => ?_
      rw [Finset.mem_range, hed] at he
      exact hd (Nat.le_of_lt_succ he)
    omega

theorem linksIn_congr (hN : fs'.sNinodes = fs.sNinodes)
    (h : ∀ e, fs'.namesIn part e i = fs.namesIn part e i) :
    fs'.linksIn part i = fs.linksIn part i := by
  rw [linksIn, linksIn, hN]
  exact Finset.sum_congr rfl fun e _ => h e

theorem live_upd_of_ne {g : Inode → Inode} (h : d ≠ i) : (fs.upd i g).Live d ↔ fs.Live d := by
  rw [Live, Live, inodes_upd_of_ne g h]
  rfl

theorem namesIn_upd_of_ne {g : Inode → Inode} (h : d ≠ i) :
    (fs.upd i g).namesIn part d j = fs.namesIn part d j := by
  simp only [namesIn, live_upd_of_ne h, inodes_upd_of_ne g h]

/-- One inode changes. -/
theorem linksIn_upd (fs : Fs) (part : List DirEntry → List DirEntry) (g : Inode → Inode) :
    (fs.upd d g).linksIn part i + fs.namesIn part d i =
      fs.linksIn part i + (fs.upd d g).namesIn part d i :=
  linksIn_off rfl fun _ he => namesIn_upd_of_ne he

/-- An inode that stays a directory with the same entries, or stays no directory. -/
theorem linksIn_upd_same (part : List DirEntry → List DirEntry) {g : Inode → Inode}
    (h : (fs.upd d g).Live d ↔ fs.Live d) (he : (g (fs.inodes d)).entries = (fs.inodes d).entries) :
    (fs.upd d g).linksIn part i = fs.linksIn part i := by
  refine linksIn_congr rfl fun e => ?_
  by_cases hed : e = d
  · subst hed
    simp only [namesIn, h, inodes_upd_self, he]
  · exact namesIn_upd_of_ne hed

end Fs

end Linux012.Dirs
