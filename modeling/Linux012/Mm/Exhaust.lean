import Linux012.Mm.Evict

/-! # Which entries swap_out looks at

`swap_out` starts where it stopped the last time and has a counter for one turn around the page tables.
The page directory may have changed since then: where the entry that it stopped at is empty now, the
tables passed over in the first loop are counted once more at the end of the turn, and what lies before
`page_entry` in the table that it starts with is not looked at.
-/

namespace Linux012.Paging

open Function Mm

variable {m m' : Mm} {d e c k t i : ℕ} {l : ℕ × ℕ}

/-- `try_to_swap_out` returns 0 for the entry. -/
def Refused (m : Mm) (l : ℕ × ℕ) : Prop :=
  ∀ t, m.pgDir l.1 = some t → ∃ m', m.tryToSwapOut t l.2 = some (m', false)

/-- `try_to_swap_out` returns 1 for the entry. -/
def Swappable (m : Mm) (l : ℕ × ℕ) : Prop :=
  ∃ t m', m.pgDir l.1 = some t ∧ m.tryToSwapOut t l.2 = some (m', true)

/-- `swap_out` returns 0 only where no entry can be swapped out. -/
def Exhaustive (m : Mm) : Prop :=
  ∀ m', m.swapOut = some (m', false) → ∀ l ∈ places, ¬ Swappable m l

/-- The table is the first one from `dir_entry` on. Where that has it, its entry 0 is not looked at if
`page_entry` is 0 and the directory entry before is empty; where tables were passed over, all up to `page_entry` are
not. -/
def Missed (m : Mm) (l : ℕ × ℕ) : Prop :=
  ∃ k, l.1 = nextDir^[k] m.dirEntry ∧ (m.pgDir l.1).isSome ∧
    (∀ i < k, m.pgDir (nextDir^[i] m.dirEntry) = none) ∧
    if k = 0 then m.nextEntry = 1 ∧ l.2 = 0 ∧ ∃ d ∈ dirs, nextDir d = m.dirEntry ∧ m.pgDir d = none
    else l.2 < m.nextEntry

/-! ## The loops without a bound on their turns -/

/-- Runs of the first loop, from `dir_entry` and the counter to those it ends with -/
inductive Seek (m : Mm) : ℕ → ℕ → ℕ × ℕ → Prop
  | done (d : ℕ) : Seek m d 0 (d, 0)
  | found {d c : ℕ} : 0 < c → (m.pgDir d).isSome → Seek m d c (d, c)
  | next {d c : ℕ} {x : ℕ × ℕ} : 0 < c → m.pgDir d = none → Seek m (nextDir d) (c - 1024) x → Seek m d c x

/-- Runs of the loop at `repeat` -/
inductive Repeat (m : Mm) : ℕ → ℕ → ℕ × Option ℕ → Prop
  | found {d : ℕ} (c : ℕ) : (m.pgDir (nextDir d)).isSome → Repeat m d c (nextDir d, some c)
  | used {d c : ℕ} : m.pgDir (nextDir d) = none → c ≤ 1024 → Repeat m d c (nextDir d, none)
  | again {d c : ℕ} {x : ℕ × Option ℕ} : m.pgDir (nextDir d) = none → 1024 < c →
      Repeat m (nextDir d) (c - 1024) x → Repeat m d c x

/-- `page_entry++` and what follows -/
inductive Advance (m : Mm) (c : ℕ) : Mm × Option ℕ → Prop
  | entry : m.nextEntry < 1024 → Advance m c ({ m with nextEntry := m.nextEntry + 1 }, some c)
  | dir {d : ℕ} {c' : Option ℕ} : 1024 ≤ m.nextEntry → Repeat m m.dirEntry c (d, c') →
      Advance m c ({ m with dirEntry := d, nextEntry := 1 }, c')

/-- Runs of the second loop -/
inductive Turns : ℕ → Mm → Option (Mm × Bool) → Prop
  | done (m : Mm) : Turns 0 m (some (m.print .outOfSwapMemory, false))
  | used {c : ℕ} {m m₁ : Mm} : Advance m c (m₁, none) →
      Turns (c + 1) m (some (m₁.print .outOfSwapMemory, false))
  | panic {c c' t : ℕ} {m m₁ : Mm} : Advance m c (m₁, some c') → m₁.pgDir m₁.dirEntry = some t →
      m₁.tryToSwapOut t (m₁.nextEntry - 1) = none → Turns (c + 1) m none
  | hit {c c' t : ℕ} {m m₁ m₂ : Mm} : Advance m c (m₁, some c') → m₁.pgDir m₁.dirEntry = some t →
      m₁.tryToSwapOut t (m₁.nextEntry - 1) = some (m₂, true) → Turns (c + 1) m (some (m₂, true))
  | miss {c c' t : ℕ} {m m₁ m₂ : Mm} {r : Option (Mm × Bool)} : Advance m c (m₁, some c') →
      m₁.pgDir m₁.dirEntry = some t → m₁.tryToSwapOut t (m₁.nextEntry - 1) = some (m₂, false) →
      Turns c' m₂ r → Turns (c + 1) m r

/-- Runs of `swap_out` -/
def Ends (m : Mm) (r : Option (Mm × Bool)) : Prop :=
  ∃ d c, Seek m m.dirEntry VM_PAGES (d, c) ∧ Turns c { m with dirEntry := d } r

/-! ## Going around the directory -/

theorem nextDir_iterate (hd : d ∈ dirs) (i : ℕ) : nextDir^[i] d = 16 + (d - 16 + i) % 1008 := by
  rw [mem_dirs] at hd
  induction i with
  | zero =>
    simp only [iterate_zero, id_eq]
    omega
  | succ i ih =>
    rw [iterate_succ_apply', ih]
    simp only [nextDir, FIRST_VM_DIR]
    split_ifs <;> omega

theorem iterate_mem (hd : d ∈ dirs) (i : ℕ) : nextDir^[i] d ∈ dirs := by
  rw [nextDir_iterate hd, mem_dirs]
  omega

/-- After a whole turn -/
theorem iterate_turn (hd : d ∈ dirs) : nextDir^[1008] d = d := by
  rw [nextDir_iterate hd]
  rw [mem_dirs] at hd
  omega

/-- Each directory entry is met within a turn. -/
theorem exists_iterate (hd : d ∈ dirs) (he : e ∈ dirs) : ∃ i < 1008, nextDir^[i] d = e := by
  have hd' := mem_dirs.mp hd
  have he' := mem_dirs.mp he
  refine ⟨(e + 1008 - d) % 1008, by omega, ?_⟩
  rw [nextDir_iterate hd]
  omega

/-- Only whole turns lead back. -/
theorem dvd_of_iterate (hd : d ∈ dirs) (h : nextDir^[i] d = d) : 1008 ∣ i := by
  rw [nextDir_iterate hd] at h
  rw [mem_dirs] at hd
  omega

/-! ## The first loop -/

/-- The first table from `d` on, or none in `k` entries. -/
theorem seekDir_cases (m : Mm) (k d : ℕ) :
    (∃ i < k, m.seekDir k d = (nextDir^[i] d, k - i) ∧ (m.pgDir (nextDir^[i] d)).isSome ∧
      ∀ j < i, m.pgDir (nextDir^[j] d) = none) ∨
    (m.seekDir k d).2 = 0 ∧ ∀ j < k, m.pgDir (nextDir^[j] d) = none := by
  induction k generalizing d with
  | zero => exact .inr ⟨rfl, fun j hj => absurd hj j.not_lt_zero⟩
  | succ k ih =>
    unfold seekDir
    by_cases hp : (m.pgDir d).isSome
    · rw [if_pos hp]
      exact .inl ⟨0, k.succ_pos, rfl, hp, fun j hj => absurd hj j.not_lt_zero⟩
    · rw [if_neg hp]
      have hfirst : ∀ i, (∀ j < i, m.pgDir (nextDir^[j] (nextDir d)) = none) →
          ∀ j < i + 1, m.pgDir (nextDir^[j] d) = none := by
        intro i hi j hj
        cases j with
        | zero => simpa using hp
        | succ j => exact hi j (Nat.lt_of_succ_lt_succ hj)
      rcases ih (nextDir d) with ⟨i, hi, heq, hsome, hno⟩ | ⟨h0, hno⟩
      · exact .inl ⟨i + 1, Nat.succ_lt_succ hi, by rw [heq, Nat.succ_sub_succ]; rfl, hsome, hfirst i hno⟩
      · exact .inr ⟨h0, hfirst k hno⟩

theorem seek_seekDir (m : Mm) (k d : ℕ) :
    Seek m d (k * 1024) ((m.seekDir k d).1, (m.seekDir k d).2 * 1024) := by
  induction k generalizing d with
  | zero =>
    simp only [seekDir, Nat.zero_mul]
    exact .done d
  | succ k ih =>
    have hpos : 0 < (k + 1) * 1024 := by omega
    unfold seekDir
    by_cases hp : (m.pgDir d).isSome
    · rw [if_pos hp]
      exact .found hpos hp
    · rw [if_neg hp]
      apply Seek.next hpos
      · simpa using hp
      · rw [show (k + 1) * 1024 - 1024 = k * 1024 by omega]
        exact ih (nextDir d)

/-! ## The loop at repeat -/

/-- The next table, if the counter lasts so long, with 1024 less for each empty entry. -/
theorem repeatDir_cases (m : Mm) (k d c : ℕ) (hk : 0 < k) (hc : c ≤ 1024 * k) :
    (∃ i, m.repeatDir k d c = (nextDir^[i + 1] d, some (c - 1024 * i)) ∧
      (m.pgDir (nextDir^[i + 1] d)).isSome ∧ (∀ j < i, m.pgDir (nextDir^[j + 1] d) = none) ∧
      (i = 0 ∨ 1024 * i < c)) ∨
    (m.repeatDir k d c).2 = none ∧ ∀ i, i = 0 ∨ 1024 * i < c → m.pgDir (nextDir^[i + 1] d) = none := by
  induction k generalizing d c with
  | zero => exact absurd hk (lt_irrefl 0)
  | succ k ih =>
    unfold repeatDir
    by_cases hp : (m.pgDir (nextDir d)).isSome
    · rw [if_pos hp]
      exact .inl ⟨0, rfl, hp, fun j hj => absurd hj j.not_lt_zero, .inl rfl⟩
    have hnone : m.pgDir (nextDir d) = none := by simpa using hp
    rw [if_neg hp]
    by_cases hle : c ≤ 1024
    · rw [if_pos hle]
      refine .inr ⟨rfl, fun i hi => ?_⟩
      obtain rfl : i = 0 := by omega
      exact hnone
    rw [if_neg hle]
    rcases ih (nextDir d) (c - 1024) (by omega) (by omega) with ⟨i, heq, hsome, hno, hi⟩ | ⟨h0, hno⟩
    · refine .inl ⟨i + 1, ?_, hsome, fun j hj => ?_, .inr (by omega)⟩
      · rw [heq, show c - 1024 - 1024 * i = c - 1024 * (i + 1) by omega]
        rfl
      · cases j with
        | zero => exact hnone
        | succ j => exact hno j (Nat.lt_of_succ_lt_succ hj)
    · refine .inr ⟨h0, fun i hi => ?_⟩
      cases i with
      | zero => exact hnone
      | succ i => exact hno i (by omega)

theorem repeat_repeatDir (m : Mm) (k d c : ℕ) (hk : 0 < k) (hc : c ≤ 1024 * k) :
    Repeat m d c (m.repeatDir k d c) := by
  induction k generalizing d c with
  | zero => exact absurd hk (lt_irrefl 0)
  | succ k ih =>
    unfold repeatDir
    by_cases hp : (m.pgDir (nextDir d)).isSome
    · rw [if_pos hp]
      exact .found c hp
    have hnone : m.pgDir (nextDir d) = none := by simpa using hp
    rw [if_neg hp]
    by_cases hle : c ≤ 1024
    · rw [if_pos hle]
      exact .used hnone hle
    · rw [if_neg hle]
      exact .again hnone (not_le.mp hle) (ih (nextDir d) (c - 1024) (by omega) (by omega))

theorem advance_advance (m : Mm) (hc : c ≤ VM_PAGES) : Advance m c (m.advance c) := by
  unfold Mm.advance
  by_cases he : m.nextEntry < 1024
  · rw [if_pos he]
    exact .entry he
  · rw [if_neg he]
    exact .dir (not_lt.mp he) (repeat_repeatDir m 1024 m.dirEntry c (by decide) (hc.trans (by decide)))

/-! ## The second loop -/

theorem getSwapPage_eq_none : m.getSwapPage = none ↔
    ∀ b, m.swapBitmap = some b → findSwapPage b (SWAP_BITS - 1) 1 = none := by
  unfold getSwapPage
  rw [Option.bind_eq_none_iff]
  simp only [Option.map_eq_none_iff]

/-- The page is dirty, and shared or without room in the swap space. -/
theorem tryToSwapOut_refused_iff : (∃ m', m.tryToSwapOut t i = some (m', false)) ↔
    ∀ p rw dirty, m.table t i = .page p rw dirty → LOW_MEM ≤ p → p < LOW_MEM + PAGING_PAGES →
      dirty = true ∧ (m.memMap p ≠ 1 ∨ ∀ b, m.swapBitmap = some b → findSwapPage b (SWAP_BITS - 1) 1 = none) := by
  unfold tryToSwapOut
  cases htab : m.table t i with
  | none => exact iff_of_true ⟨m, rfl⟩ fun _ _ _ h => nomatch h
  | swapped nr => exact iff_of_true ⟨m, rfl⟩ fun _ _ _ h => nomatch h
  | page p rw dirty =>
    by_cases hrange : p < LOW_MEM ∨ LOW_MEM + PAGING_PAGES ≤ p
    · simp only [if_pos hrange]
      refine iff_of_true ⟨m, rfl⟩ fun q rw' dirty' h hlo hhi => ?_
      cases h
      omega
    simp only [if_neg hrange]
    have hin : LOW_MEM ≤ p ∧ p < LOW_MEM + PAGING_PAGES := by omega
    have hpage : (∀ q rw' dirty', Pte.page p rw dirty = .page q rw' dirty' → LOW_MEM ≤ q →
        q < LOW_MEM + PAGING_PAGES → dirty' = true ∧ (m.memMap q ≠ 1 ∨
          ∀ b, m.swapBitmap = some b → findSwapPage b (SWAP_BITS - 1) 1 = none)) ↔
        dirty = true ∧ (m.memMap p ≠ 1 ∨ m.getSwapPage = none) := by
      rw [getSwapPage_eq_none]
      constructor
      · exact fun h => h p rw dirty rfl hin.1 hin.2
      · rintro h q rw' dirty' ⟨⟩ - -
        exact h
    rw [hpage]
    cases dirty with
    | false => simp
    | true =>
      by_cases h1 : m.memMap p = 1
      · cases hswap : m.getSwapPage with
        | none => simp
        | some x => simp [h1]
      · simp [h1]

theorem refused_moveTo : Refused (moveTo m d e) l ↔ Refused m l := by
  unfold Refused
  simp only [tryToSwapOut_refused_iff]
  exact Iff.rfl

theorem tryToSwapOut_false (h : m.tryToSwapOut t i = some (m', false)) : m' = m := by
  unfold tryToSwapOut at h
  split at h
  · split at h
    · cases h
      rfl
    · split at h
      · split at h
        · cases h
          rfl
        · split at h
          · cases h
            rfl
          · obtain ⟨x, -, he⟩ := Option.map_eq_some_iff.mp h
            cases he
      · obtain ⟨x, -, he⟩ := Option.map_eq_some_iff.mp h
        cases he
  · cases h
    rfl

/-- What the second loop looks at from entry `e` of table `d` on, with the counter `c`. An entry 0
behind an empty directory entry needs a counter that is not used up. -/
def Ahead (m : Mm) (d e c : ℕ) (l : ℕ × ℕ) : Prop :=
  ∃ j, l.1 = nextDir^[j] d ∧ l.2 < 1024 ∧ (m.pgDir l.1).isSome ∧ e ≤ 1024 * j + l.2 ∧ 1024 * j + l.2 < e + c ∧
    (l.2 = 0 → m.pgDir (nextDir^[j - 1] d) = none → 1024 * j + 1 < e + c)

theorem not_ahead_zero : ¬ Ahead m d e 0 l := by
  rintro ⟨j, -, -, -, hlo, hhi, -⟩
  omega

/-- Within a table -/
theorem ahead_entry (hd : (m.pgDir d).isSome) (he : e < 1024) :
    Ahead m d e (c + 1) l ↔ l = (d, e) ∨ Ahead m d (e + 1) c l := by
  constructor
  · rintro ⟨j, hl, hlt, hsome, hlo, hhi, hgap⟩
    by_cases hfirst : 1024 * j + l.2 = e
    · left
      obtain rfl : j = 0 := by omega
      exact Prod.ext hl (by omega)
    · refine .inr ⟨j, hl, hlt, hsome, by omega, by omega, fun h0 hnone => ?_⟩
      have := hgap h0 hnone
      omega
  · rintro (rfl | ⟨j, hl, hlt, hsome, hlo, hhi, hgap⟩)
    · refine ⟨0, rfl, he, hd, by omega, by omega, fun _ hnone => ?_⟩
      rw [show nextDir^[0 - 1] d = d from rfl] at hnone
      rw [hnone] at hd
      cases hd
    · refine ⟨j, hl, hlt, hsome, by omega, by omega, fun h0 hnone => ?_⟩
      have := hgap h0 hnone
      omega

/-- At the end of a table, with the next one at `i + 1` -/
theorem ahead_next (hd : (m.pgDir d).isSome) (hi : (m.pgDir (nextDir^[i + 1] d)).isSome)
    (hno : ∀ j < i, m.pgDir (nextDir^[j + 1] d) = none) (hc : i = 0 ∨ 1024 * i < c) :
    Ahead m d 1024 (c + 1) l ↔
      l = (nextDir^[i + 1] d, 0) ∨ Ahead m (nextDir^[i + 1] d) 1 (c - 1024 * i) l := by
  have hshift : ∀ j, nextDir^[j] (nextDir^[i + 1] d) = nextDir^[j + (i + 1)] d :=
    fun j => (iterate_add_apply nextDir j (i + 1) d).symm
  constructor
  · rintro ⟨j, hl, hlt, hsome, hlo, hhi, hgap⟩
    have hij : i + 1 ≤ j := by
      by_contra hlt'
      have hnone := hno (j - 1) (by omega)
      rw [show j - 1 + 1 = j by omega, ← hl] at hnone
      rw [hnone] at hsome
      cases hsome
    by_cases hfirst : j = i + 1 ∧ l.2 = 0
    · left
      rw [← hfirst.1]
      exact Prod.ext hl hfirst.2
    · refine .inr ⟨j - (i + 1), ?_, hlt, hsome, by omega, by omega, fun h0 hnone => ?_⟩
      · rw [hshift, Nat.sub_add_cancel hij]
        exact hl
      · rw [hshift, show j - (i + 1) - 1 + (i + 1) = j - 1 by omega] at hnone
        have := hgap h0 hnone
        omega
  · rintro (rfl | ⟨j, hl, hlt, hsome, hlo, hhi, hgap⟩)
    · refine ⟨i + 1, rfl, by omega, hi, by omega, by omega, fun _ hnone => ?_⟩
      rcases hc with rfl | hc
      · rw [show nextDir^[0 + 1 - 1] d = d from rfl] at hnone
        rw [hnone] at hd
        cases hd
      · omega
    · refine ⟨j + (i + 1), hl.trans (hshift j), hlt, hsome, by omega, by omega, fun h0 hnone => ?_⟩
      have hj : 1 ≤ j := by omega
      have := hgap h0 (by rw [hshift, show j - 1 + (i + 1) = j + (i + 1) - 1 by omega]; exact hnone)
      omega

/-- At the end of a table, with no other within the counter -/
theorem not_ahead_last (hno : ∀ i, i = 0 ∨ 1024 * i < c → m.pgDir (nextDir^[i + 1] d) = none) :
    ¬ Ahead m d 1024 (c + 1) l := by
  rintro ⟨j, hl, hlt, hsome, hlo, hhi, hgap⟩
  have hj : 1 ≤ j := by omega
  have habsent : ¬ (j - 1 = 0 ∨ 1024 * (j - 1) < c) := by
    intro h
    have hnone := hno (j - 1) h
    rw [Nat.sub_add_cancel hj, ← hl] at hnone
    rw [hnone] at hsome
    cases hsome
  have h0 : l.2 = 0 := by omega
  have hbefore : m.pgDir (nextDir^[j - 1] d) = none := by
    have := hno (j - 2) (by omega)
    rwa [show j - 2 + 1 = j - 1 by omega] at this
  have := hgap h0 hbefore
  omega

/-- The next entry of all, or the end -/
theorem advance_cases (hd : (m.pgDir m.dirEntry).isSome) (he : m.nextEntry ≤ 1024) (hc : c ≤ VM_PAGES) :
    (∃ d e c', m.advance c = (moveTo m d (e + 1), some c') ∧ (m.pgDir d).isSome ∧ e < 1024 ∧ c' ≤ c ∧
      ∀ l, Ahead m m.dirEntry m.nextEntry (c + 1) l ↔ l = (d, e) ∨ Ahead m d (e + 1) c' l) ∨
    ∃ d e, m.advance c = (moveTo m d e, none) ∧ ∀ l, ¬ Ahead m m.dirEntry m.nextEntry (c + 1) l := by
  unfold Mm.advance
  by_cases hlt : m.nextEntry < 1024
  · rw [if_pos hlt]
    exact .inl ⟨m.dirEntry, m.nextEntry, c, rfl, hd, hlt, le_rfl, fun l => ahead_entry hd hlt⟩
  rw [if_neg hlt, show m.nextEntry = 1024 by omega]
  rcases repeatDir_cases m 1024 m.dirEntry c (by decide) (hc.trans (by decide)) with
    ⟨i, heq, hsome, hno, hi⟩ | ⟨hnone, hno⟩
  · rw [heq]
    exact .inl ⟨_, 0, _, rfl, hsome, by decide, Nat.sub_le .., fun l => ahead_next hd hsome hno hi⟩
  · refine .inr ⟨(m.repeatDir 1024 m.dirEntry c).1, 1, ?_, fun l => not_ahead_last hno⟩
    rw [← hnone]
    rfl

/-- The loop looks at what is ahead, and returns 0 if all that is refused. -/
theorem sweep_false_iff (hk : c ≤ k) (hc : c ≤ VM_PAGES) (hd : c ≠ 0 → (m.pgDir m.dirEntry).isSome)
    (he : m.nextEntry ≤ 1024) :
    (∃ m', sweep k c m = some (m', false)) ↔ ∀ l, Ahead m m.dirEntry m.nextEntry c l → Refused m l := by
  induction k generalizing m c with
  | zero =>
    obtain rfl : c = 0 := by omega
    exact iff_of_true ⟨_, rfl⟩ fun l hl => absurd hl not_ahead_zero
  | succ k ih =>
    cases c with
    | zero => exact iff_of_true ⟨_, rfl⟩ fun l hl => absurd hl not_ahead_zero
    | succ c =>
      unfold sweep
      rcases advance_cases (hd c.succ_ne_zero) he (by omega : c ≤ VM_PAGES) with
        ⟨d, e, c', hadv, hsome, hlt, hle, hahead⟩ | ⟨d, e, hadv, hahead⟩
      · obtain ⟨t, ht⟩ := Option.isSome_iff_exists.mp hsome
        have ht' : (moveTo m d (e + 1)).pgDir (moveTo m d (e + 1)).dirEntry = some t := ht
        have hrefused : Refused m (d, e) ↔
            ∃ m', (moveTo m d (e + 1)).tryToSwapOut t ((moveTo m d (e + 1)).nextEntry - 1) =
              some (m', false) := by
          rw [← refused_moveTo (d := d) (e := e + 1)]
          constructor
          · exact fun h => h t ht
          · rintro h t' ht''
            obtain rfl : t = t' := Option.some.inj (ht.symm.trans ht'')
            exact h
        have hiff : (∀ l, Ahead m m.dirEntry m.nextEntry (c + 1) l → Refused m l) ↔
            Refused m (d, e) ∧ ∀ l, Ahead m d (e + 1) c' l → Refused m l := by
          simp only [hahead]
          constructor
          · exact fun h => ⟨h _ (.inl rfl), fun l hl => h l (.inr hl)⟩
          · rintro ⟨h, h'⟩ l (rfl | hl)
            · exact h
            · exact h' l hl
        rw [hadv, hiff, hrefused]
        simp only [ht']
        cases htry : (moveTo m d (e + 1)).tryToSwapOut t ((moveTo m d (e + 1)).nextEntry - 1) with
        | none => simp
        | some x =>
          obtain ⟨m₁, b⟩ := x
          cases b with
          | true => simp
          | false =>
            obtain rfl := tryToSwapOut_false htry
            simp only [Option.bind_some]
            rw [ih (m := moveTo m d (e + 1)) (c := c') (by omega) (by omega) (fun _ => hsome) hlt,
              and_iff_right ⟨_, rfl⟩]
            constructor
            · exact fun h l hl => refused_moveTo.mp (h l hl)
            · exact fun h l hl => refused_moveTo.mpr (h l hl)
      · rw [hadv]
        exact iff_of_true ⟨_, rfl⟩ fun l hl => absurd hl (hahead l)

/-- The loop ends with this result. -/
theorem sweep_turns (hk : c ≤ k) (hc : c ≤ VM_PAGES) (hd : c ≠ 0 → (m.pgDir m.dirEntry).isSome)
    (he : m.nextEntry ≤ 1024) : Turns c m (sweep k c m) := by
  induction k generalizing m c with
  | zero =>
    obtain rfl : c = 0 := by omega
    exact .done m
  | succ k ih =>
    cases c with
    | zero => exact .done m
    | succ c =>
      unfold sweep
      have hturn := advance_advance m (by omega : c ≤ VM_PAGES)
      rcases advance_cases (hd c.succ_ne_zero) he (by omega : c ≤ VM_PAGES) with
        ⟨d, e, c', hadv, hsome, hlt, hle, -⟩ | ⟨d, e, hadv, -⟩
      · rw [hadv] at hturn ⊢
        obtain ⟨t, ht⟩ := Option.isSome_iff_exists.mp hsome
        have ht' : (moveTo m d (e + 1)).pgDir (moveTo m d (e + 1)).dirEntry = some t := ht
        simp only [ht']
        cases htry : (moveTo m d (e + 1)).tryToSwapOut t ((moveTo m d (e + 1)).nextEntry - 1) with
        | none => exact .panic hturn ht' htry
        | some x =>
          obtain ⟨m₁, b⟩ := x
          cases b with
          | true => exact .hit hturn ht' htry
          | false =>
            obtain rfl := tryToSwapOut_false htry
            exact .miss hturn ht' htry (ih (by omega) (by omega) (fun _ => hsome) hlt)
      · rw [hadv] at hturn ⊢
        exact .used hturn

/-! ## A whole turn -/

section

variable (hd : m.dirEntry ∈ dirs) (he : m.nextEntry ≤ 1024)
include hd he

/-- With the first table `k` entries on, the loop looks at all that is not missed. -/
theorem ahead_iff (hk : k < 1008) (hsome : (m.pgDir (nextDir^[k] m.dirEntry)).isSome)
    (hno : ∀ j < k, m.pgDir (nextDir^[j] m.dirEntry) = none) (hl : l ∈ places) (hdir : (m.pgDir l.1).isSome) :
    Ahead m (nextDir^[k] m.dirEntry) m.nextEntry ((1008 - k) * 1024) l ↔ ¬ Missed m l := by
  obtain ⟨hld, hlt⟩ := mem_places.mp hl
  have hstart := iterate_mem hd k
  have hshift : ∀ j, nextDir^[j] (nextDir^[k] m.dirEntry) = nextDir^[j + k] m.dirEntry :=
    fun j => (iterate_add_apply nextDir j k m.dirEntry).symm
  constructor
  · rintro ⟨j, hlj, -, -, hlo, hhi, hgap⟩ ⟨k', hlk, hsome', hno', hcond⟩
    have hkk : k' = k := by
      rcases lt_trichotomy k' k with hlt' | heq | hgt
      · rw [hlk, hno k' hlt'] at hsome'
        cases hsome'
      · exact heq
      · rw [hno' k hgt] at hsome
        cases hsome
    subst hkk
    obtain ⟨q, rfl⟩ := dvd_of_iterate hstart (hlj.symm.trans hlk)
    split at hcond
    · rename_i h0
      obtain ⟨h1, hl0, d, hdm, hnext, hnone⟩ := hcond
      subst h0
      obtain rfl : q = 1 := by omega
      have hbefore : nextDir^[1007] m.dirEntry = d := by
        rw [← hnext, ← iterate_succ_apply nextDir 1007 d, iterate_turn hdm]
      have := hgap hl0 (by rw [hshift]; exact (congrArg m.pgDir hbefore).trans hnone)
      omega
    · rcases Nat.eq_zero_or_pos q with rfl | hq
      · omega
      · omega
  · intro hmiss
    obtain ⟨i, hi, hli⟩ := exists_iterate hstart hld
    have hik : i < 1008 - k := by
      by_contra hge
      have hturn : nextDir^[i + k] m.dirEntry = nextDir^[i + k - 1008] m.dirEntry := by
        rw [show i + k = i + k - 1008 + 1008 by omega, iterate_add_apply, iterate_turn hd, Nat.add_sub_cancel]
      rw [← hli, hshift, hturn, hno (i + k - 1008) (by omega)] at hdir
      cases hdir
    by_cases hfirst : i = 0 ∧ l.2 < m.nextEntry
    · obtain ⟨rfl, hbefore⟩ := hfirst
      -- what lies before page_entry is met at the end of the turn
      have hk0 : k = 0 := by
        by_contra hk0
        exact hmiss ⟨k, hli.symm, hdir, hno, by rw [if_neg hk0]; exact hbefore⟩
      subst hk0
      refine ⟨1008, ?_, hlt, hdir, by omega, by omega, fun hl0 hnone => ?_⟩
      · rw [iterate_turn hstart]
        exact hli.symm
      · by_contra hlast
        refine hmiss ⟨0, hli.symm, hdir, hno, ?_⟩
        rw [if_pos rfl]
        refine ⟨by omega, hl0, nextDir^[1007] m.dirEntry, iterate_mem hd 1007, ?_, hnone⟩
        rw [← iterate_succ_apply' nextDir 1007 m.dirEntry]
        exact iterate_turn hd
    · exact ⟨i, hli.symm, hlt, hdir, by omega, by omega, fun _ _ => by omega⟩

/-- `swap_out` ends, and it returns 0 exactly where all that it does not miss is refused. -/
theorem swapOut_false_iff :
    (∃ m', m.swapOut = some (m', false)) ↔ ∀ l ∈ places, ¬ Missed m l → Refused m l := by
  have hpages : VM_PAGES / 1024 = 1008 := by decide
  unfold swapOut
  rw [hpages]
  rcases seekDir_cases m 1008 m.dirEntry with ⟨k, hk, heq, hsome, hno⟩ | ⟨h0, hno⟩
  · rw [heq]
    have hturns := sweep_false_iff (m := moveTo m (nextDir^[k] m.dirEntry) m.nextEntry) (k := VM_PAGES)
      (c := (1008 - k) * 1024) (by simp only [VM_PAGES]; omega) (by simp only [VM_PAGES]; omega) (fun _ => hsome) he
    refine hturns.trans ?_
    constructor
    · intro h l hl hmiss t ht
      have hdir : (m.pgDir l.1).isSome := by simp [ht]
      exact refused_moveTo.mp (h l ((ahead_iff hd he hk hsome hno hl hdir).mpr hmiss)) t ht
    · intro h l hl
      obtain ⟨j, hlj, hlt, hdir, -⟩ := id hl
      have hmem : l ∈ places := by
        rw [mem_places, hlj]
        exact ⟨iterate_mem (iterate_mem hd k) j, hlt⟩
      exact refused_moveTo.mpr (h l hmem ((ahead_iff hd he hk hsome hno hmem hdir).mp hl))
  · rw [show m.seekDir 1008 m.dirEntry = ((m.seekDir 1008 m.dirEntry).1, 0) from Prod.ext rfl h0]
    refine iff_of_true ?_ fun l hl _ t ht => ?_
    · exact ⟨_, rfl⟩
    · obtain ⟨i, hi, hli⟩ := exists_iterate hd (mem_places.mp hl).1
      rw [← hli, hno i hi] at ht
      cases ht

omit hd in
theorem ends_swapOut : Ends m m.swapOut := by
  have hpages : VM_PAGES / 1024 = 1008 := by decide
  refine ⟨_, _, seek_seekDir m 1008 m.dirEntry, ?_⟩
  unfold swapOut
  rw [hpages]
  rcases seekDir_cases m 1008 m.dirEntry with ⟨k, hk, heq, hsome, -⟩ | ⟨h0, -⟩
  · rw [heq]
    exact sweep_turns (m := moveTo m (nextDir^[k] m.dirEntry) m.nextEntry) (by simp only [VM_PAGES]; omega)
      (by simp only [VM_PAGES]; omega) (fun _ => hsome) he
  · rw [show m.seekDir 1008 m.dirEntry = ((m.seekDir 1008 m.dirEntry).1, 0) from Prod.ext rfl h0]
    simp only [Nat.zero_mul]
    exact sweep_turns (m := moveTo m _ m.nextEntry) (Nat.zero_le _) (Nat.zero_le _) (absurd rfl) he

/-- `swap_out` ends. It is exhaustive exactly where it has found another entry than those it misses, or
none of these could be swapped out. -/
theorem swap_out_exhaustive : Ends m m.swapOut ∧ (Exhaustive m ↔
    ∀ l ∈ places, Missed m l → Swappable m l → ∃ l' ∈ places, ¬ Missed m l' ∧ ¬ Refused m l') := by
  refine ⟨ends_swapOut he, ?_⟩
  have hfalse := swapOut_false_iff hd he
  constructor
  · intro h l hl _ hswap
    by_contra hno
    have hall : ∀ l' ∈ places, ¬ Missed m l' → Refused m l' := by
      intro l' hl' hmiss
      by_contra hrefused
      exact hno ⟨l', hl', hmiss, hrefused⟩
    obtain ⟨m', hout⟩ := hfalse.mpr hall
    exact h m' hout l hl hswap
  · rintro h m' hout l hl hswap
    have hall := hfalse.mp ⟨m', hout⟩
    by_cases hmiss : Missed m l
    · obtain ⟨l', hl', hmiss', hrefused⟩ := h l hl hmiss hswap
      exact hrefused (hall l' hl' hmiss')
    · obtain ⟨t, m₁, ht, htry⟩ := hswap
      obtain ⟨m₂, htry'⟩ := hall l hl hmiss t ht
      rw [htry] at htry'
      cases htry'

end

/-- One page table, for the first 4 MB of task 1, with a clean page in entry 5. The last scan ended at the last entry of
`dir`. -/
def onePage (dir : ℕ) : Mm where
  highMemory := 4096
  memMap := fun p => if p = 0x200 ∨ p = 0x300 then 1 else 0
  pgDir := fun d => if d = 16 then some 0x200 else none
  table := fun t i => if t = 0x200 ∧ i = 5 then .page 0x300 true false else .none
  bytes := fun _ _ => 0
  swapBitmap := none
  swapDev := fun _ _ => 0
  dirEntry := dir
  nextEntry := 1024
  task := fun _ => none
  limit := fun _ => 0
  printed := []
  handed := []
  fresh := []

/-- From the table itself the page is found. -/
theorem swap_out_exhaustive_onePage : Exhaustive (onePage 16) := by
  refine (swap_out_exhaustive (m := onePage 16) (mem_dirs.mpr (by decide)) (by decide)).2.mpr ?_
  rintro l - ⟨k, hl, hsome, hno, hcond⟩ -
  cases k with
  | zero => exact absurd hcond.1 (by decide)
  | succ k => exact absurd (hno 0 k.succ_pos) (by decide)

/-- From the empty entry of a task that has ended, nothing is looked at. -/
theorem swap_out_misses : ¬ Exhaustive (onePage 1023) := by
  intro h
  have hout : ∃ m', (onePage 1023).swapOut = some (m', false) := by
    apply (swapOut_false_iff (m := onePage 1023) (mem_dirs.mpr (by decide)) (by decide)).mpr
    rintro ⟨d, e⟩ hl hmiss t ht
    obtain rfl : d = 16 := by
      by_contra hd
      rw [show (onePage 1023).pgDir d = none from if_neg hd] at ht
      cases ht
    refine absurd ⟨1, rfl, rfl, fun i hi => ?_, (mem_places.mp hl).2⟩ hmiss
    obtain rfl : i = 0 := by omega
    rfl
  obtain ⟨m', hout⟩ := hout
  exact h m' hout (16, 5) (mem_places.mpr ⟨mem_dirs.mpr (by decide), by decide⟩) ⟨0x200, _, rfl, rfl⟩

end Linux012.Paging
