import Linux012.Kernel.Fork.Basic

/-! # Concurrent forks

`copy_process` enters the child under the number that `last_pid` has after its allocation, and
returns the one it has at the end. Both and the slot are its own as long as no other fork gets
in between.
-/

namespace Linux012.Forks

open Function Runs

variable {s s' : Sys} {t u p q : Ptr} {i j nr : Fin NR_TASKS} {k v w : ℕ} {a : Act}

/-! ## The search for a number -/

namespace Sys

theorem nextPid_lt : nextPid v < 2 ^ 31 := by
  unfold nextPid
  split_ifs <;> omega

theorem nextPid_pos : 0 < nextPid v := by
  unfold nextPid
  split_ifs <;> omega

/-- The numbers go round. -/
theorem iterate_nextPid (hw : 0 < w) (hlt : w < 2 ^ 31) (k : ℕ) :
    nextPid^[k] w = (w - 1 + k) % (2 ^ 31 - 1) + 1 := by
  induction k with
  | zero => simp only [iterate_zero, id_eq]; omega
  | succ k ih =>
    rw [iterate_succ_apply', ih]
    unfold nextPid
    split_ifs <;> omega

theorem usedBy_iff : s.usedBy v i = true ↔ ∃ p, s.task i = some p ∧ (s.pid p = v ∨ s.pgrp p = v) := by
  unfold usedBy
  cases h : s.task i with
  | none => simp
  | some p => simp

theorem findPid_spec (h : s.findPid k v = some w) :
    w < 2 ^ 31 ∧ ∀ i, s.usedBy w i = false := by
  induction k generalizing v with
  | zero => cases h
  | succ k ih =>
    simp only [findPid] at h
    split_ifs at h with hu
    · exact ih h
    · obtain rfl := Option.some.inj h
      refine ⟨nextPid_lt, fun i => ?_⟩
      simpa using fun hi => hu (List.any_eq_true.mpr ⟨i, List.mem_finRange i, hi⟩)

theorem findPid_none (h : s.findPid k v = none) :
    ∀ m < k, ∃ i, s.usedBy (nextPid^[m + 1] v) i = true := by
  induction k generalizing v with
  | zero => exact fun m hm => absurd hm (Nat.not_lt_zero m)
  | succ k ih =>
    simp only [findPid] at h
    split_ifs at h with hu
    intro m hm
    cases m with
    | zero =>
      obtain ⟨i, -, hi⟩ := List.any_eq_true.mp hu
      exact ⟨i, hi⟩
    | succ m => exact ih h m (by omega)

/-- The loop ends: the tasks use at most two numbers each. -/
theorem findPid_isSome (s : Sys) (v : ℕ) : (s.findPid (2 * NR_TASKS + 1) v).isSome := by
  by_contra hn
  have hnone := findPid_none (Option.not_isSome_iff_eq_none.mp hn)
  set val : Fin (2 * NR_TASKS + 1) → ℕ := fun m => nextPid^[m.val + 1] v with hval
  have huse : ∀ m, ∃ x : Fin NR_TASKS × Bool, ∃ p, s.task x.1 = some p ∧
      (if x.2 then s.pid p else s.pgrp p) = val m := by
    intro m
    obtain ⟨i, hi⟩ := hnone m m.isLt
    obtain ⟨p, hp, hv | hv⟩ := usedBy_iff.mp hi
    · exact ⟨(i, true), p, hp, hv⟩
    · exact ⟨(i, false), p, hp, hv⟩
  choose use huse using huse
  obtain ⟨m, n, hmn, heq⟩ := Fintype.exists_ne_map_eq_of_card_lt use
    (by simp [Nat.mul_comm])
  obtain ⟨p, hp, hm⟩ := huse m
  obtain ⟨q, hq, hn⟩ := huse n
  have hpq : p = q := Option.some.inj (hp.symm.trans (heq ▸ hq))
  have hsame : val m = val n := by rw [← hm, ← hn, heq, hpq]
  simp only [hval, iterate_succ_apply, iterate_nextPid nextPid_pos nextPid_lt] at hsame
  have hmlt := m.isLt
  have hnlt := n.isLt
  have : m.val ≠ n.val := fun h => hmn (Fin.ext h)
  unfold NR_TASKS at hmlt hnlt
  omega

theorem findSlot_spec (h : s.findSlot = some nr) : nr ≠ 0 ∧ s.task nr = none := by
  simpa using List.find?_some h

theorem made_iff : s.made q = true ↔
    ∃ i t nr, s.task i = some t ∧ s.frame t = .copying nr q := by
  simp only [made, List.any_eq_true, List.mem_finRange, true_and]
  constructor
  · rintro ⟨i, hi⟩
    cases ht : s.task i with
    | none => simp [ht] at hi
    | some t =>
      simp only [ht] at hi
      cases hf : s.frame t with
      | copying nr p =>
        simp only [hf, decide_eq_true_eq] at hi
        exact ⟨i, t, nr, ht, by rw [hf, hi]⟩
      | _ => simp [hf] at hi
  · rintro ⟨i, t, nr, ht, hf⟩
    exact ⟨i, by simp [ht, hf]⟩

end Sys

/-! ## What forks should have of their own -/

/-- The slot of `task` that a fork uses. -/
def Frame.slot : Frame → Option (Fin NR_TASKS)
  | .user _ => none
  | .alloc nr => some nr
  | .copying nr _ => some nr

/-- Forks under way use different slots, the tasks have different numbers, and a fork has
returned the number of its own child. -/
structure Own (s : Sys) : Prop where
  slots : ∀ t u nr, (s.frame t).slot = some nr → (s.frame u).slot = some nr → t = u
  pids : ∀ i j p q, s.task i = some p → s.task j = some q → s.pid p = s.pid q → i = j
  returned : ∀ t r c, s.frame t = .user (some (r, c)) → r = c

/-- No other fork gets in between: the first empty slot is not that of a fork which waits for a
page, no task entered since the last search for a number is there when a child is entered,
and a fork returns before the next search. -/
def Serial (s : Sys) : Act → Prop
  | .run _ .fork => ∀ nr, s.findSlot = some nr → ∀ u, s.frame u ≠ .alloc nr
  | .run _ (.page _) => ∀ q, s.Live q → s.fresh q = false
  | .run t .done => ∀ nr p, s.frame t = .copying nr p → s.fresh p = true
  | _ => True

/-- What the forks under way rely on. -/
structure Steady (s : Sys) : Prop extends Own s where
  alloc : ∀ t nr, s.frame t = .alloc nr → s.task nr = none
  copying : ∀ t nr p, s.frame t = .copying nr p → s.task nr = some p ∧ s.frame p = .user none
  live : ∀ t, (s.frame t).slot ≠ none → s.Live t
  fresh : ∀ p, s.Live p → (s.fresh p = true ↔ s.pid p = s.lastPid)

/-- What a step does to the tasks. -/
inductive Moves (s : Sys) : Act → Sys → Prop
  | full {t : Ptr} {v : ℕ} {last : Option (ℕ × ℕ)} : s.frame t = .user last →
      s.made t = false → s.findSlot = none → (∀ i, s.usedBy v i = false) →
      Moves s (.run t .fork) { s with
        lastPid := v, fresh := fun _ => false, cpu := some t
        frame := update s.frame t (.user none) }
  | start {t : Ptr} {v : ℕ} {nr : Fin NR_TASKS} {last : Option (ℕ × ℕ)} :
      s.frame t = .user last → s.Live t → s.made t = false → s.findSlot = some nr →
      (∀ i, s.usedBy v i = false) →
      Moves s (.run t .fork) { s with
        lastPid := v, fresh := fun _ => false, cpu := some t
        frame := update s.frame t (.alloc nr) }
  | sleep {t : Ptr} : Moves s (.run t .sleep) { s with cpu := none }
  | enter {t p : Ptr} {nr : Fin NR_TASKS} : s.frame t = .alloc nr → ¬ s.Live p →
      Moves s (.run t (.page p)) (s.enter t nr p)
  | noPage {t : Ptr} {nr : Fin NR_TASKS} : s.frame t = .alloc nr →
      Moves s (.run t .noPage) { s with frame := update s.frame t (.user none), cpu := some t }
  | noMem {t p : Ptr} {nr : Fin NR_TASKS} : s.frame t = .copying nr p →
      Moves s (.run t .noMem) { s with
        task := update s.task nr none
        frame := update s.frame t (.user none)
        cpu := some t }
  | done {t p : Ptr} {nr : Fin NR_TASKS} : s.frame t = .copying nr p →
      Moves s (.run t .done) { s with
        frame := update s.frame t (.user (some (s.lastPid, s.pid p)))
        cpu := some t }
  | tick : Moves s .tick { s with cpu := none }
  | release {i : Fin NR_TASKS} {q : Ptr} : s.task i = some q → (s.frame q).slot = none →
      s.made q = false → Moves s (.release i) { s with task := update s.task i none }
  | setpgrp {q : Ptr} {g : ℕ} : Moves s (.setpgrp q g) { s with pgrp := update s.pgrp q g }

theorem fork_moves (h : s.fork t = some s') {last : Option (ℕ × ℕ)} (ht : s.frame t = .user last)
    (hl : s.Live t) (hm : s.made t = false) : Moves s (.run t .fork) s' := by
  obtain ⟨v, hv, rfl⟩ := Option.map_eq_some_iff.mp h
  have hfree := (Sys.findPid_spec hv).2
  cases hs : s.findSlot with
  | none =>
    have hs' : Sys.findSlot { s with lastPid := v, fresh := fun _ => false, cpu := some t } =
      none := hs
    simp only [hs']
    exact .full ht hm hs hfree
  | some nr =>
    have hs' : Sys.findSlot { s with lastPid := v, fresh := fun _ => false, cpu := some t } =
      some nr := hs
    simp only [hs']
    exact .start ht hl hm hs hfree

theorem runTask_moves {c : Choice} (h : runTask t c s = some s') : Moves s (.run t c) s' := by
  unfold runTask at h
  split at h
  · rename_i last hf
    split_ifs at h with hl
    exact fork_moves h hf hl.1 hl.2
  · exact Option.some.inj h ▸ .sleep
  · rename_i nr p hf
    split_ifs at h with hp
    exact Option.some.inj h ▸ .enter hf hp
  · rename_i nr hf
    exact Option.some.inj h ▸ .noPage hf
  · exact Option.some.inj h ▸ .sleep
  · rename_i nr p hf
    exact Option.some.inj h ▸ .noMem hf
  · rename_i nr p hf
    exact Option.some.inj h ▸ .done hf
  · cases h

theorem step_moves (h : step a s = some s') : Moves s a s' := by
  cases a with
  | run t c =>
    simp only [step, Option.ite_none_right_eq_some] at h
    exact runTask_moves h.2
  | tick =>
    simp only [step, tick] at h
    split at h
    · cases h
    · split at h
      · exact Option.some.inj h ▸ .tick
      · cases h
  | release i =>
    simp only [step, releaseTask] at h
    split at h
    · cases h
    · rename_i q hq
      split at h
      · rename_i last hf
        split_ifs at h with hc
        exact Option.some.inj h ▸ .release hq (by rw [hf]; rfl) hc.2.2
      · cases h
  | setpgrp q g =>
    simp only [step, Option.ite_none_right_eq_some] at h
    exact Option.some.inj h.2 ▸ .setpgrp

theorem not_used (h : ∀ i, s.usedBy v i = false) (hp : s.Live p) : s.pid p ≠ v := by
  obtain ⟨i, hi⟩ := hp
  intro he
  have := Sys.usedBy_iff.mpr ⟨p, hi, .inl he⟩
  rw [h i] at this
  cases this

namespace Steady

/-- The running task goes back to user mode without a new child. -/
theorem leave (h : Steady s) {last : Option (ℕ × ℕ)} (hmade : s.made t = false ∨ last = none)
    (hlast : ∀ r c, last = some (r, c) → r = c) {v : ℕ} {fresh : Ptr → Bool} {cpu : Option Ptr}
    (hfresh : ∀ p, s.Live p → (fresh p = true ↔ s.pid p = v)) :
    Steady { s with lastPid := v, fresh := fresh, cpu := cpu,
                    frame := update s.frame t (.user last) } := by
  have hne : ∀ u, ((update s.frame t (.user last)) u).slot ≠ none → u ≠ t := by
    rintro u hu rfl
    simp [Frame.slot] at hu
  constructor
  · constructor
    · intro u w nr hu hw
      have hut := hne u (by rw [hu]; simp)
      have hwt := hne w (by rw [hw]; simp)
      dsimp only at hu hw
      rw [update_of_ne hut] at hu
      rw [update_of_ne hwt] at hw
      exact h.slots u w nr hu hw
    · exact h.pids
    · intro u r c hu
      by_cases hut : u = t
      · subst hut
        dsimp only at hu
        rw [update_self] at hu
        exact hlast r c (by simpa using hu)
      · dsimp only at hu
        rw [update_of_ne hut] at hu
        exact h.returned u r c hu
  · intro u nr hu
    have hut := hne u (by dsimp only at hu; rw [hu]; simp [Frame.slot])
    dsimp only at hu
    rw [update_of_ne hut] at hu
    exact h.alloc u nr hu
  · intro u nr p hu
    have hut := hne u (by dsimp only at hu; rw [hu]; simp [Frame.slot])
    dsimp only at hu
    rw [update_of_ne hut] at hu
    obtain ⟨h₁, h₂⟩ := h.copying u nr p hu
    refine ⟨h₁, ?_⟩
    by_cases hpt : p = t
    · subst hpt
      dsimp only
      rw [update_self]
      rcases hmade with hm | rfl
      · have hlive : s.Live u := h.live u (by rw [hu]; simp [Frame.slot])
        obtain ⟨i, hi⟩ := hlive
        rw [Sys.made_iff.mpr ⟨i, u, nr, hi, hu⟩] at hm
        cases hm
      · rfl
    · dsimp only
      rw [update_of_ne hpt, h₂]
  · intro u hu
    have hut := hne u hu
    dsimp only at hu
    rw [update_of_ne hut] at hu
    exact h.live u hu
  · exact hfresh

/-- The running task has a number and a slot that no other fork uses. -/
theorem start (h : Steady s) (hlast : ∃ last, s.frame t = .user last) (hlive : s.Live t)
    (hmade : s.made t = false) (hnr : s.task nr = none) (hfree : ∀ u, s.frame u ≠ .alloc nr)
    (hv : ∀ i, s.usedBy v i = false) :
    Steady { s with
      lastPid := v
      fresh := fun _ => false
      cpu := some t
      frame := update s.frame t (.alloc nr) } := by
  have hother : ∀ u, u ≠ t → (s.frame u).slot ≠ some nr := by
    intro u _ hu
    cases hf : s.frame u with
    | user => simp [hf, Frame.slot] at hu
    | alloc m =>
      rw [hf] at hu
      exact hfree u (Option.some.inj hu ▸ hf)
    | copying m p =>
      rw [hf] at hu
      obtain rfl := Option.some.inj hu
      have := (h.copying u m p hf).1
      rw [hnr] at this
      cases this
  constructor
  · constructor
    · intro u w m hu hw
      dsimp only at hu hw
      by_cases hut : u = t <;> by_cases hwt : w = t
      · rw [hut, hwt]
      · subst hut
        rw [update_self] at hu
        rw [update_of_ne hwt] at hw
        obtain rfl := Option.some.inj hu
        exact absurd hw (hother w hwt)
      · subst hwt
        rw [update_self] at hw
        rw [update_of_ne hut] at hu
        obtain rfl := Option.some.inj hw
        exact absurd hu (hother u hut)
      · rw [update_of_ne hut] at hu
        rw [update_of_ne hwt] at hw
        exact h.slots u w m hu hw
    · exact h.pids
    · intro u r c hu
      dsimp only at hu
      by_cases hut : u = t
      · subst hut
        rw [update_self] at hu
        cases hu
      · rw [update_of_ne hut] at hu
        exact h.returned u r c hu
  · intro u m hu
    dsimp only at hu
    by_cases hut : u = t
    · subst hut
      rw [update_self] at hu
      cases hu
      exact hnr
    · rw [update_of_ne hut] at hu
      exact h.alloc u m hu
  · intro u m p hu
    dsimp only at hu
    have hut : u ≠ t := by
      rintro rfl
      rw [update_self] at hu
      cases hu
    rw [update_of_ne hut] at hu
    obtain ⟨h₁, h₂⟩ := h.copying u m p hu
    refine ⟨h₁, ?_⟩
    have hpt : p ≠ t := by
      rintro rfl
      obtain ⟨i, hi⟩ : s.Live u := h.live u (by rw [hu]; simp [Frame.slot])
      rw [Sys.made_iff.mpr ⟨i, u, m, hi, hu⟩] at hmade
      cases hmade
    dsimp only
    rw [update_of_ne hpt, h₂]
  · intro u hu
    by_cases hut : u = t
    · exact hut ▸ hlive
    · dsimp only at hu
      rw [update_of_ne hut] at hu
      exact h.live u hu
  · exact fun p hp => iff_of_false (by simp) (not_used hv hp)

theorem enter (h : Steady s) (ht : s.frame t = .alloc nr) (hp : ¬ s.Live p)
    (hfresh : ∀ q, s.Live q → s.fresh q = false) : Steady (s.enter t nr p) := by
  have hnr := h.alloc t nr ht
  have hlt : s.Live t := h.live t (by rw [ht]; simp [Frame.slot])
  have htp : t ≠ p := fun e => hp (e ▸ hlt)
  have hlive : ∀ q, (s.enter t nr p).Live q ↔ s.Live q ∨ q = p := by
    intro q
    simp only [Sys.Live, Sys.enter]
    constructor
    · rintro ⟨i, hi⟩
      by_cases hin : i = nr
      · subst hin
        rw [update_self] at hi
        exact .inr (Option.some.inj hi).symm
      · rw [update_of_ne hin] at hi
        exact .inl ⟨i, hi⟩
    · rintro (⟨i, hi⟩ | rfl)
      · have hin : i ≠ nr := by
          rintro rfl
          rw [hnr] at hi
          cases hi
        exact ⟨i, by rw [update_of_ne hin, hi]⟩
      · exact ⟨nr, update_self ..⟩
  have hpid : ∀ q, s.Live q → (s.enter t nr p).pid q = s.pid q ∧ s.pid q ≠ s.lastPid := by
    intro q hq
    have hqp : q ≠ p := fun e => hp (e ▸ hq)
    refine ⟨update_of_ne hqp .., fun he => ?_⟩
    have := (h.fresh q hq).mpr he
    rw [hfresh q hq] at this
    cases this
  have hframe : ∀ u, u ≠ t → (s.enter t nr p).frame u = if u = p then .user none else s.frame u := by
    intro u hu
    simp only [Sys.enter, update_of_ne hu, update_apply]
  have hft : (s.enter t nr p).frame t = .copying nr p := update_self ..
  have hslot : ∀ u, ((s.enter t nr p).frame u).slot = (s.frame u).slot ∨
      ((s.enter t nr p).frame u).slot = none := by
    intro u
    by_cases hut : u = t
    · rw [hut, hft, ht]
      exact .inl rfl
    · rw [hframe u hut]
      split_ifs
      · exact .inr rfl
      · exact .inl rfl
  constructor
  · constructor
    · intro u w m hu hw
      refine h.slots u w m ?_ ?_
      · rcases hslot u with hs | hs
        · exact hs ▸ hu
        · rw [hs] at hu
          cases hu
      · rcases hslot w with hs | hs
        · exact hs ▸ hw
        · rw [hs] at hw
          cases hw
    · intro i j q r hi hj he
      by_cases hin : i = nr <;> by_cases hjn : j = nr
      · rw [hin, hjn]
      · subst hin
        simp only [Sys.enter, update_self, Option.some.injEq, update_of_ne hjn] at hi hj
        subst hi
        have hr := hpid r ⟨j, hj⟩
        rw [hr.1] at he
        simp only [Sys.enter, update_self] at he
        exact absurd he.symm hr.2
      · subst hjn
        simp only [Sys.enter, update_self, Option.some.injEq, update_of_ne hin] at hi hj
        subst hj
        have hr := hpid q ⟨i, hi⟩
        rw [hr.1] at he
        simp only [Sys.enter, update_self] at he
        exact absurd he hr.2
      · simp only [Sys.enter, update_of_ne hin, update_of_ne hjn] at hi hj
        rw [(hpid q ⟨i, hi⟩).1, (hpid r ⟨j, hj⟩).1] at he
        exact h.pids i j q r hi hj he
    · intro u r c hu
      have hut : u ≠ t := by
        rintro rfl
        rw [hft] at hu
        cases hu
      rw [hframe u hut] at hu
      split_ifs at hu
      · cases hu
      · exact h.returned u r c hu
  · intro u m hu
    have hut : u ≠ t := by
      rintro rfl
      rw [hft] at hu
      cases hu
    rw [hframe u hut] at hu
    split_ifs at hu
    have hmn : m ≠ nr := fun e => hut (h.slots u t nr (by rw [hu, e]; rfl) (by rw [ht]; rfl))
    simp only [Sys.enter]
    rw [update_of_ne hmn]
    exact h.alloc u m hu
  · intro u m q hu
    by_cases hut : u = t
    · subst hut
      rw [hft] at hu
      cases hu
      exact ⟨update_self .., by rw [hframe p htp.symm, if_pos rfl]⟩
    · rw [hframe u hut] at hu
      split_ifs at hu
      obtain ⟨h₁, h₂⟩ := h.copying u m q hu
      have hmn : m ≠ nr := by
        rintro rfl
        rw [hnr] at h₁
        cases h₁
      have hqt : q ≠ t := by
        rintro rfl
        rw [ht] at h₂
        cases h₂
      have hqp : q ≠ p := fun e => hp (e ▸ ⟨m, h₁⟩)
      refine ⟨?_, by rw [hframe q hqt, if_neg hqp, h₂]⟩
      simp only [Sys.enter]
      rw [update_of_ne hmn, h₁]
  · intro u hu
    refine (hlive u).mpr (.inl (h.live u ?_))
    rcases hslot u with hs | hs
    · exact hs ▸ hu
    · exact absurd hs hu
  · intro q hq
    by_cases hqp : q = p
    · subst hqp
      simp [Sys.enter]
    · have hq := ((hlive q).mp hq).resolve_right hqp
      simp only [Sys.enter, update_of_ne hqp]
      exact h.fresh q hq

/-- A slot is cleared that no child is being made in, and whose task is not forking. -/
theorem clear (h : Steady s) (hi : s.task i = some q) (hq : (s.frame q).slot = none)
    (hmade : ∀ t nr, s.frame t ≠ .copying nr q) : Steady { s with task := update s.task i none } := by
  have hold : ∀ j r, update s.task i none j = some r → s.task j = some r := by
    intro j r hj
    by_cases hji : j = i
    · subst hji
      rw [update_self] at hj
      cases hj
    · rwa [update_of_ne hji] at hj
  constructor
  · exact ⟨h.slots, fun j k r r' hj hk => h.pids j k r r' (hold j r hj) (hold k r' hk), h.returned⟩
  · intro u m hu
    by_cases hmi : m = i
    · exact hmi ▸ update_self ..
    · dsimp only
      rw [update_of_ne hmi]
      exact h.alloc u m hu
  · intro u m r hu
    obtain ⟨h₁, h₂⟩ := h.copying u m r hu
    have hmi : m ≠ i := by
      rintro rfl
      rw [hi] at h₁
      cases h₁
      exact hmade u m hu
    refine ⟨?_, h₂⟩
    dsimp only
    rw [update_of_ne hmi, h₁]
  · intro u hu
    obtain ⟨j, hj⟩ := h.live u hu
    have hji : j ≠ i := by
      rintro rfl
      rw [hi] at hj
      cases hj
      exact hu hq
    exact ⟨j, by dsimp only; rw [update_of_ne hji, hj]⟩
  · rintro r ⟨j, hj⟩
    exact h.fresh r ⟨j, hold j r hj⟩

/-- What a fork relies on does not depend on the processor or the process groups. -/
theorem same (h : Steady s) {pgrp : Ptr → ℕ} {cpu : Option Ptr} :
    Steady { s with pgrp := pgrp, cpu := cpu } :=
  ⟨⟨h.slots, h.pids, h.returned⟩, h.alloc, h.copying, h.live, h.fresh⟩

theorem not_made (h : Steady s) (ht : (s.frame t).slot ≠ none) : s.made t = false := by
  by_contra hm
  rw [Bool.not_eq_false, Sys.made_iff] at hm
  obtain ⟨i, u, nr, -, hu⟩ := hm
  rw [(h.copying u nr t hu).2] at ht
  exact ht rfl

theorem step (h : Steady s) (ha : Serial s a) (hs : Moves s a s') : Steady s' := by
  cases hs with
  | full hf hm _ hv =>
    refine h.leave (.inl hm) (by simp) fun p hp => ?_
    exact iff_of_false (by simp) (not_used hv hp)
  | start hf hl hm hnr hv =>
    exact h.start ⟨_, hf⟩ hl hm (Sys.findSlot_spec hnr).2 (ha _ hnr) hv
  | sleep => exact h.same
  | enter hf hp => exact h.enter hf hp ha
  | noPage hf =>
    exact h.leave (.inl (h.not_made (by rw [hf]; simp [Frame.slot]))) (by simp) h.fresh
  | @noMem t p nr hf =>
    obtain ⟨hp, hfp⟩ := h.copying t nr p hf
    have hpt : p ≠ t := by
      rintro rfl
      rw [hf] at hfp
      cases hfp
    have hm : s.made t = false := h.not_made (by rw [hf]; simp [Frame.slot])
    have hl := @leave _ t h none (.inl hm) (by simp) _ _ (some t) h.fresh
    refine hl.clear hp ?_ fun u m hu => ?_
    · dsimp only
      rw [update_of_ne hpt, hfp]
      rfl
    · dsimp only at hu
      have hut : u ≠ t := by
        rintro rfl
        rw [update_self] at hu
        cases hu
      rw [update_of_ne hut] at hu
      obtain ⟨hq, -⟩ := h.copying u m p hu
      have hmn : m = nr := h.pids m nr p p hq hp rfl
      exact hut (h.slots u t nr (by rw [hu, hmn]; rfl) (by rw [hf]; rfl))
  | @done t p nr hf =>
    have hm : s.made t = false := h.not_made (by rw [hf]; simp [Frame.slot])
    refine h.leave (.inl hm) (fun r c he => ?_) h.fresh
    obtain ⟨rfl, rfl⟩ := Prod.mk.inj (Option.some.inj he)
    exact ((h.fresh p ⟨nr, (h.copying t nr p hf).1⟩).mp (ha nr p hf)).symm
  | tick => exact h.same
  | release hq hf hm =>
    refine h.clear hq hf fun t nr ht => ?_
    obtain ⟨j, hj⟩ := h.live t (by rw [ht]; simp [Frame.slot])
    rw [Sys.made_iff.mpr ⟨j, t, nr, hj, ht⟩] at hm
    cases hm
  | setpgrp => exact h.same

/-- A fork that another one gets into ends up with a slot, a number or a result that is not
its own. -/
theorem not_own (h : Steady s) (ha : ¬ Serial s a) (hs : Moves s a s') : ¬ Own s' := by
  intro ho
  cases hs with
  | full _ _ hnone => exact ha fun nr hnr => by rw [hnone] at hnr; cases hnr
  | @start t v nr last hf _ _ hnr =>
    rw [Serial] at ha
    push Not at ha
    obtain ⟨m, hm, u, hu⟩ := ha
    obtain rfl := Option.some.inj (hnr.symm.trans hm)
    have hut : u ≠ t := by
      rintro rfl
      rw [hf] at hu
      cases hu
    refine hut (ho.slots u t nr ?_ ?_)
    · dsimp only
      rw [update_of_ne hut, hu]
      rfl
    · dsimp only
      rw [update_self]
      rfl
  | @enter t p nr hf hp =>
    rw [Serial] at ha
    push Not at ha
    obtain ⟨q, ⟨j, hj⟩, hfresh⟩ := ha
    have hnr := h.alloc t nr hf
    have hjn : j ≠ nr := by
      rintro rfl
      rw [hnr] at hj
      cases hj
    have hqp : q ≠ p := fun e => hp (e ▸ ⟨j, hj⟩)
    refine hjn (ho.pids j nr q p ?_ (update_self ..) ?_)
    · simp only [Sys.enter]
      rw [update_of_ne hjn, hj]
    · simp only [Sys.enter, update_self, update_of_ne hqp]
      exact (h.fresh q ⟨j, hj⟩).mp (by simpa using hfresh)
  | @done t p nr hf =>
    rw [Serial] at ha
    push Not at ha
    obtain ⟨m, r, hf', hfresh⟩ := ha
    obtain ⟨rfl, rfl⟩ : nr = m ∧ p = r := by simpa [hf] using hf'
    have hr := ho.returned t s.lastPid (s.pid p) (update_self ..)
    exact hfresh ((h.fresh p ⟨nr, (h.copying t nr p hf).1⟩).mpr hr.symm)
  | _ => exact ha trivial

theorem boot (p₀ : Ptr) (pid pgrp : Ptr → ℕ) : Steady (boot p₀ pid pgrp) := by
  have hlive : ∀ i p, (Forks.boot p₀ pid pgrp).task i = some p → i = 0 ∧ p = p₀ := by
    intro i p hi
    simp only [Forks.boot] at hi
    split_ifs at hi with h0
    exact ⟨h0, (Option.some.inj hi).symm⟩
  constructor
  · constructor
    · intro t u nr ht
      cases ht
    · intro i j p q hi hj _
      rw [(hlive i p hi).1, (hlive j q hj).1]
    · intro t r c ht
      cases ht
  · intro t nr ht
    cases ht
  · intro t nr p ht
    cases ht
  · intro t ht
    exact absurd rfl ht
  · rintro p ⟨i, hi⟩
    rw [(hlive i p hi).2]
    simp [Forks.boot]

end Steady

/-- In a run of any forks from the start of the system the forks have slots, numbers and results
of their own exactly when no other fork gets in between. -/
theorem forks_own (p₀ : Ptr) (pid pgrp : Ptr → ℕ) (as : List Act) :
    Throughout step Own as (boot p₀ pid pgrp) ↔ Each step Serial as (boot p₀ pid pgrp) :=
  throughout_iff_each (I := Steady) (fun _ h => h.toOwn) (fun _ _ _ h ha hs =>
    h.step ha (step_moves hs)) (fun _ _ _ h hs ho =>
      by_contra fun ha => h.not_own ha (step_moves hs) ho) (.boot p₀ pid pgrp)

section Examples

/-- Task 100 makes a child; both fork, and the parent waits for a page while the child forks. -/
def overlappingActs : List Act :=
  [.run 100 .fork, .run 100 (.page 101), .run 100 .done,
    .run 100 .fork, .run 100 .sleep, .run 101 .fork]

def overlapping : Sys :=
  (runList step overlappingActs (boot 100 (fun _ => 0) fun _ => 0)).get (by decide +kernel)

/-- Both forks use the slot 2. -/
theorem forks_share_slot :
    Run step Always (boot 100 (fun _ => 0) fun _ => 0) overlapping ∧
      (overlapping.frame 100).slot = some 2 ∧ (overlapping.frame 101).slot = some 2 ∧
      ¬ Own overlapping := by
  have h₁ : (overlapping.frame 100).slot = some 2 := by decide +kernel
  have h₂ : (overlapping.frame 101).slot = some 2 := by decide +kernel
  exact ⟨.of_runList_get _, h₁, h₂, fun h => absurd (h.slots 100 101 2 h₁ h₂) (by decide)⟩

end Examples

end Linux012.Forks
