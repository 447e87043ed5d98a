import Linux012.Lib.Paths

/-! # Loops over singly linked lists

A search along the pointers remembers the node before, a free list is threaded through equal cells,
and nodes are put in front or taken out behind the remembered node.
-/

namespace Links

open Function

variable {α : Type*} {next : α → Option α} {p prev last : Option α} {l l₁ l₂ : List α} {x y : α}

/-- The first node from `p` on that passes the test, and the node before it, `prev` at first; with
a bound on the steps. -/
def scan (next : α → Option α) (test : α → Bool) :
    ℕ → Option α → Option α → Option (Option α × Option α)
  | 0, _, _ => none
  | _ + 1, prev, none => some (prev, none)
  | k + 1, prev, some x => if test x then some (prev, some x) else scan next test k (some x) (next x)

/-- Along a list that is shorter than the bound the search ends. -/
theorem Path.scan_of_forall (prev : Option α) (test : α → Bool) {k : ℕ} (h : Path next p l) (hk : l.length < k)
    (hl : ∀ y ∈ l, test y = false) : ∃ q, scan next test k prev p = some (q, none) := by
  induction l generalizing p prev k with
  | nil =>
    obtain ⟨k, rfl⟩ := Nat.exists_eq_succ_of_ne_zero (by omega : k ≠ 0)
    rw [path_nil.mp h]
    exact ⟨prev, rfl⟩
  | cons y l ih =>
    obtain ⟨k, rfl⟩ := Nat.exists_eq_succ_of_ne_zero (by omega : k ≠ 0)
    rw [h.1, scan, if_neg (by rw [hl y List.mem_cons_self]; nofun)]
    exact ih _ h.2 (by simpa using hk) fun z hz => hl z (List.mem_cons_of_mem _ hz)

/-- The search stops at the first node that passes, with the node before it. -/
theorem Path.scan_eq {test : α → Bool} {k : ℕ} (h : Path next p (l₁ ++ x :: l₂)) (hk : l₁.length < k)
    (hl : ∀ y ∈ l₁, test y = false) (hx : test x = true) :
    scan next test k prev p = some (l₁.getLast?.or prev, some x) := by
  induction l₁ generalizing p prev k with
  | nil =>
    obtain ⟨k, rfl⟩ := Nat.exists_eq_succ_of_ne_zero (by omega : k ≠ 0)
    rw [h.1, scan, if_pos hx]
    rfl
  | cons y l ih =>
    obtain ⟨k, rfl⟩ := Nat.exists_eq_succ_of_ne_zero (by omega : k ≠ 0)
    rw [h.1, scan, if_neg (by rw [hl y List.mem_cons_self]; nofun),
      ih h.2 (by simpa using hk) fun z hz => hl z (List.mem_cons_of_mem _ hz)]
    cases l with
    | nil => rfl
    | cons z l => rw [List.getLast?_cons_cons]; simp [List.getLast?_cons]

/-- A list splits at its first node that passes. -/
theorem exists_first (test : α → Bool) (l : List α) :
    (∀ y ∈ l, test y = false) ∨
      ∃ l₁ x l₂, l = l₁ ++ x :: l₂ ∧ (∀ y ∈ l₁, test y = false) ∧ test x = true := by
  induction l with
  | nil => exact .inl nofun
  | cons y l ih =>
    rcases Bool.eq_false_or_eq_true (test y) with hy | hy
    · exact .inr ⟨[], y, l, rfl, nofun, hy⟩
    · rcases ih with h | ⟨l₁, x, l₂, rfl, h, hx⟩
      · left
        rintro z (_ | ⟨_, hz⟩)
        · exact hy
        · exact h z hz
      · refine .inr ⟨y :: l₁, x, l₂, rfl, ?_, hx⟩
        rintro z (_ | ⟨_, hz⟩)
        · exact hy
        · exact h z hz

section Edit

variable [DecidableEq α]

/-- Nodes off the list do not matter. -/
theorem Path.update_of_notMem (h : Path next p l) (hx : x ∉ l) (q : Option α) :
    Path (update next x q) p l :=
  h.congr fun _ hy => update_of_ne (ne_of_mem_of_not_mem hy hx) _ _

theorem Path.push (h : Path next p l) (hx : x ∉ l) : Path (update next x p) (some x) (x :: l) := by
  refine ⟨rfl, ?_⟩
  rw [update_self]
  exact h.update_of_notMem hx p

/-- Take out the node behind `y`. -/
theorem Path.unlink (h : Path next p (l₁ ++ y :: x :: l₂)) (hl : (l₁ ++ y :: x :: l₂).Nodup) :
    Path (update next y (next x)) p (l₁ ++ y :: l₂) := by
  induction l₁ generalizing p with
  | nil =>
    refine ⟨h.1, ?_⟩
    rw [update_self]
    have hy : y ∉ l₂ := fun hm => (List.nodup_cons.mp hl).1 (List.mem_cons_of_mem _ hm)
    exact h.2.2.update_of_notMem hy _
  | cons z l₁ ih =>
    obtain ⟨hz, hl⟩ := List.nodup_cons.mp hl
    have hzy : z ≠ y := fun e => hz (by simp [e])
    refine ⟨h.1, ?_⟩
    rw [update_of_ne hzy]
    exact ih h.2 hl

end Edit

/-! ## Cells of one size -/

/-- `n` cells from `a` on. -/
def cells (size a n : ℕ) : List ℕ := (List.range n).map fun i => a + size * i

variable {size a b n : ℕ}

theorem mem_cells : b ∈ cells size a n ↔ ∃ i < n, a + size * i = b := by
  simp [cells]

@[simp] theorem length_cells : (cells size a n).length = n := by simp [cells]

theorem cells_succ : cells size a (n + 1) = a :: cells size (a + size) n := by
  simp only [cells, List.range_succ_eq_map, List.map_cons, List.map_map, Nat.mul_zero, Nat.add_zero,
    List.cons.injEq, true_and]
  refine List.map_congr_left fun i _ => ?_
  simp only [comp_apply, Nat.succ_eq_add_one, Nat.mul_add, Nat.mul_one]
  omega

theorem nodup_cells (hs : 0 < size) : (cells size a n).Nodup := by
  refine List.Nodup.map (fun i j hij => ?_) List.nodup_range
  exact Nat.eq_of_mul_eq_mul_left hs (Nat.add_left_cancel hij)

/-- Each cell points to the next and the last to `last`. -/
def thread (size : ℕ) (last : Option ℕ) : ℕ → ℕ → (ℕ → Option ℕ) → ℕ → Option ℕ
  | i + 2, a, f => thread size last (i + 1) (a + size) (update f a (some (a + size)))
  | _, a, f => update f a last

theorem thread_of_notMem {last : Option ℕ} {f : ℕ → Option ℕ} (hn : 0 < n) (hb : b ∉ cells size a n) :
    thread size last n a f b = f b := by
  obtain ⟨n, rfl⟩ := Nat.exists_eq_succ_of_ne_zero hn.ne'
  induction n generalizing a f with
  | zero =>
    rw [cells_succ] at hb
    exact update_of_ne (List.ne_of_not_mem_cons hb) _ _
  | succ n ih =>
    rw [cells_succ] at hb
    rw [Nat.succ_eq_add_one, thread, ih (Nat.succ_pos n) (List.not_mem_of_not_mem_cons hb)]
    exact update_of_ne (List.ne_of_not_mem_cons hb) _ _

/-- The cells are put in front of a list. -/
theorem thread_path (size : ℕ) (last : Option ℕ) {f : ℕ → Option ℕ} {l : List ℕ} (hs : 0 < size) (hn : 0 < n)
    (hl : Path f last l) (hd : ∀ x ∈ l, x ∉ cells size a n) :
    Path (thread size last n a f) (some a) (cells size a n ++ l) := by
  obtain ⟨n, rfl⟩ := Nat.exists_eq_succ_of_ne_zero hn.ne'
  induction n generalizing a f with
  | zero =>
    have ha : a ∉ l := fun hm => hd a hm (by simp [cells_succ])
    exact hl.push ha
  | succ n ih =>
    have ha : a ∉ l := fun hm => hd a hm (by simp [cells_succ])
    have hmem : a ∉ cells size (a + size) (n + 1) := fun hm => by
      obtain ⟨i, -, hi⟩ := mem_cells.mp hm
      omega
    rw [cells_succ]
    refine ⟨rfl, ?_⟩
    rw [Nat.succ_eq_add_one, thread, thread_of_notMem (Nat.succ_pos n) hmem, update_self]
    refine ih (hl.update_of_notMem ha _) (Nat.succ_pos n) fun x hx hm => ?_
    exact hd x hx (by rw [Nat.succ_eq_add_one, cells_succ]; exact List.mem_cons_of_mem _ hm)

end Links
