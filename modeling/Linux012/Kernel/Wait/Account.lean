import Linux012.Kernel.Wait.Facts

/-! # What waitpid accounts for

A child that is dead is returned once, with what it left, as long as no `SIGKILL` or `SIGCONT` reaches
it and clears its code.
-/

namespace Linux012.Waitpid

open Function Runs
open Ptree (Ptr Tasks NR_TASKS Tree)
open Signals (Word SIGKILL SIGCONT SIGCHLD sigmask)
open Exit (Task post)

variable {s s' : Sys} {p₀ p₁ p t : Ptr} {pid options code pgrp : Word} {x : Task} {sig : ℕ}

/-! ## Signals of do_exit -/

/-- Only the fields of tasks have changed, mildly. -/
structure Later (s s' : Sys) : Prop where
  eq : s' = { s with info := s'.info }
  mild : ∀ p, s.links.Live p → Mild (s.info p) (s'.info p)
  pgrp : ∀ p, (s'.info p).pgrp = (s.info p).pgrp

namespace Later

theorem refl (s : Sys) : Later s s := ⟨rfl, fun _ _ => .refl _, fun _ => rfl⟩

theorem links (h : Later s s') : s'.links = s.links := by rw [h.eq]

theorem trans {s'' : Sys} (h : Later s s') (h' : Later s' s'') : Later s s'' where
  eq := by rw [h'.eq, h.eq]
  mild p hp := (h.mild p hp).trans (h'.mild p (by rw [h.links]; exact hp))
  pgrp p := (h'.pgrp p).trans (h.pgrp p)

theorem facts (h : Later s s') (hf : Facts s) : Facts s' := by
  rw [h.eq]
  exact hf.mild h.mild

theorem inGroup (h : Later s s') : s'.InGroup pgrp p ↔ s.InGroup pgrp p := by
  unfold Sys.InGroup
  rw [h.links, h.pgrp]

end Later

theorem later_killPg (hsig : sig = SIGKILL ∨ sig = SIGCONT → ∀ p, s.InGroup pgrp p → ¬ Owes (s.info p)) :
    Later s (s.killPg pgrp sig) where
  eq := rfl
  mild p _ := by
    show Mild _ (if s.InGroup pgrp p then post sig (s.info p) else s.info p)
    split
    · rename_i hg
      exact mild_post fun h => hsig h p hg
    · exact .refl _
  pgrp p := by
    show (if s.InGroup pgrp p then post sig (s.info p) else s.info p).pgrp = _
    split
    · exact Exit.post_pgrp
    · rfl

theorem later_hup (s : Sys) (pgrp : Word) : Later s (s.killPg pgrp SIGHUP) :=
  later_killPg fun h => absurd h (by decide)

theorem later_childDied (s : Sys) (p : Ptr) : Later s (s.childDied p) where
  eq := rfl
  mild q _ := by
    rcases eq_or_ne q p with rfl | hq
    · rw [show (s.childDied q).info q = _ from update_self ..]
      exact mild_of_eq rfl rfl rfl rfl Iff.rfl id fun _ => ⟨rfl, rfl⟩
    · rw [show (s.childDied p).info q = s.info q from update_of_ne hq ..]
      exact .refl _
  pgrp q := by
    rcases eq_or_ne q p with rfl | hq
    · rw [show (s.childDied q).info q = _ from update_self ..]
    · rw [show (s.childDied p).info q = s.info q from update_of_ne hq ..]

/-- A group without a code to lose is hung up. -/
theorem later_hangUp (h : ∀ p, s.InGroup pgrp p → ¬ Owes (s.info p)) : Later s (s.hangUp pgrp) := by
  have hhup := later_hup s pgrp
  refine hhup.trans (later_killPg fun _ p hp => ?_)
  have hp' := hhup.inGroup.mp hp
  obtain ⟨i, -, hi⟩ := hp'.1
  rw [(hhup.mild p ⟨i, hi⟩).owes]
  exact h p hp'

theorem later_hangUps {groups : List Word} (h : ∀ pgrp ∈ groups, ∀ p, s.InGroup pgrp p → ¬ Owes (s.info p)) :
    Later s (groups.foldl Sys.hangUp s) := by
  induction groups generalizing s with
  | nil => exact .refl s
  | cons pgrp groups ih =>
    have hfirst := later_hangUp (h pgrp List.mem_cons_self)
    refine hfirst.trans (ih fun g hg p hp => ?_)
    have hp' := hfirst.inGroup.mp hp
    obtain ⟨i, -, hi⟩ := hp'.1
    rw [(hfirst.mild p ⟨i, hi⟩).owes]
    exact h g (List.mem_cons_of_mem _ hg) p hp'

theorem later_notify {orphaned : List Word} {terminal : Option Word}
    (h : ∀ pgrp ∈ orphaned, ∀ p, s.InGroup pgrp p → ¬ Owes (s.info p)) :
    Later s (s.notify t orphaned terminal) := by
  have hdied : ∀ (o : Option Ptr) (s : Sys), Later s (o.elim s s.childDied) := by
    intro o s
    cases o with
    | none => exact .refl s
    | some p => exact later_childDied s p
  have hinit : ∀ (b : Bool) (o : Option Ptr) (s : Sys), Later s (if b then o.elim s s.childDied else s) := by
    intro b o s
    cases b with
    | false => exact .refl s
    | true => exact hdied o s
  have hterminal : ∀ s : Sys, Later s (terminal.elim s fun pgrp => s.killPg pgrp SIGHUP) := by
    intro s
    cases terminal with
    | none => exact .refl s
    | some pgrp => exact later_hup s pgrp
  exact (later_hangUps h).trans ((hdied _ _).trans ((hinit _ _ _).trans (hterminal _)))

/-- A task that dies owes its own code, too. -/
theorem dying_owes {orphaned : List Word}
    (h : ∀ pgrp ∈ orphaned, (code ≠ 0 → (s.info t).pgrp ≠ pgrp) ∧ ∀ p, s.InGroup pgrp p → ¬ Owes (s.info p)) :
    ∀ pgrp ∈ orphaned, ∀ p, (s.die t code).InGroup pgrp p → ¬ Owes ((s.die t code).info p) := by
  intro pgrp hg p hp
  obtain ⟨hown, hothers⟩ := h pgrp hg
  rcases eq_or_ne p t with rfl | hpt
  · have hself : (s.die p code).info p = { s.info p with state := .zombie, exitCode := code } :=
      update_self ..
    have hpg := hp.2.2
    rw [hself] at hpg ⊢
    exact fun ho => hown ho.2 hpg
  · have hother : (s.die t code).info p = s.info p := update_of_ne hpt ..
    have hp' : s.InGroup pgrp p := ⟨hp.1, hp.2.1, by rw [← hother]; exact hp.2.2⟩
    rw [hother]
    exact hothers p hp'

/-! ## The links -/

section

variable {kids : Ptr → List Ptr} {depth : Ptr → ℕ} {links : Tasks}

/-- An exit leaves the children of others. -/
theorem exit_links (h : Tree links p₀ p₁ kids depth) (ht : links.Live t) (ht₀ : t ≠ p₀) (ht₁ : t ≠ p₁) :
    ∃ links', links.doExit t = some links' ∧ (∃ kids' depth', Tree links' p₀ p₁ kids' depth') ∧
      links'.task = links.task ∧ links'.zombie = update links.zombie t true ∧
      ∀ q u, links.Live q → links.pPptr q = some u → u ≠ t → links'.pPptr q = some u := by
  rcases List.eq_nil_or_concat (kids t) with hnil | ⟨ks, b, hks⟩
  · obtain ⟨links', hexit, htree⟩ := h.exit_leaf ht ht₁ hnil
    have hhead : links.pCptr t = none := by rw [(h.chain t ht).head, hnil]; rfl
    have heq : links.doExit t = some { links with zombie := update links.zombie t true } := by
      simp [Tasks.doExit, hhead]
    obtain rfl := Option.some.inj (heq.symm.trans hexit)
    exact ⟨_, heq, ⟨kids, depth, htree⟩, rfl, rfl, fun q u _ hq _ => hq⟩
  · rw [List.concat_eq_append] at hks
    obtain ⟨y, l, hl, links', hexit, he⟩ := h.doExit_spec ht ht₀ ht₁ hks
    refine ⟨links', hexit, ⟨_, depth, h.exit ht ht₀ ht₁ hks hl he⟩, he.task, he.zombie, ?_⟩
    intro q u hq hu hut
    rw [he.pPptr, if_neg, hu]
    intro hmem
    exact hut (Option.some.inj (hu.symm.trans (h.child t ht q hmem).2.2))

/-- A fork leaves what was there. -/
theorem fork_links {nr : Fin NR_TASKS} (h : Tree links p₀ p₁ kids depth) (ht : links.Live t) (ht₀ : t ≠ p₀)
    (htz : links.zombie t = false) (hnr : links.task nr = none) (hp : ¬ links.Live p) (fail : Bool) :
    (∃ kids' depth', Tree (links.copyProcess t p nr fail) p₀ p₁ kids' depth') ∧
      (∀ q, (links.copyProcess t p nr fail).Live q → q ≠ p → links.Live q) ∧
      (∀ q, links.Live q → (links.copyProcess t p nr fail).Live q) ∧
      (links.copyProcess t p nr fail).zombie = update links.zombie p false ∧
      ∀ q, q ≠ p → (links.copyProcess t p nr fail).pPptr q = links.pPptr q := by
  have hzombie : (links.copyProcess t p nr fail).zombie = update links.zombie p false := by
    cases fail <;> simp [Tasks.copyProcess]
  have hpar : ∀ q, q ≠ p → (links.copyProcess t p nr fail).pPptr q = links.pPptr q := by
    intro q hq
    cases fail <;> simp [Tasks.copyProcess, update_of_ne hq]
  cases fail with
  | true =>
    have htask : (links.copyProcess t p nr true).task = links.task := by
      simp only [Tasks.copyProcess, if_true, update_idem]
      rw [← hnr, update_eq_self]
    have hlive : ∀ q, (links.copyProcess t p nr true).Live q ↔ links.Live q := fun q => by
      rw [Tasks.Live, htask, Tasks.Live]
    exact ⟨⟨kids, depth, h.fork_fails hnr hp⟩, fun q hq _ => (hlive q).mp hq, fun q hq => (hlive q).mpr hq,
      hzombie, hpar⟩
  | false =>
    have htp : t ≠ p := fun e => hp (e ▸ ht)
    have hf : Tree.Forked links (links.copyProcess t p nr false) t p nr := Tree.forked htp
    obtain ⟨depth', htree⟩ := h.fork ht ht₀ htz hnr hp hf
    refine ⟨⟨_, depth', htree⟩, ?_, ?_, hzombie, hpar⟩
    · rintro q ⟨i, hi⟩ hq
      rw [hf.task] at hi
      rcases eq_or_ne i nr with rfl | hin
      · rw [update_self] at hi
        exact absurd (Option.some.inj hi).symm hq
      · rw [update_of_ne hin] at hi
        exact ⟨i, hi⟩
    · rintro q ⟨i, hi⟩
      have hin : i ≠ nr := by
        rintro rfl
        rw [hnr] at hi
        cases hi
      exact ⟨i, by rw [hf.task, update_of_ne hin, hi]⟩

end

/-! ## Runs -/

structure Inv (s : Sys) (p₀ p₁ : Ptr) : Prop where
  tree : ∃ kids depth, Tree s.links p₀ p₁ kids depth
  synced : ∀ p, s.links.Live p → (s.links.zombie p = true ↔ (s.info p).state = .zombie)
  facts : Facts s

namespace Inv

theorem live_calls (h : Inv s p₀ p₁) (ht : s.links.Calls t) :
    s.links.Live t ∧ t ≠ p₀ ∧ (s.info t).state ≠ .zombie := by
  obtain ⟨kids, depth, htree⟩ := h.tree
  obtain ⟨hl, h₀, hz⟩ := htree.calls ht
  refine ⟨hl, h₀, fun hst => ?_⟩
  rw [(h.synced t hl).mpr hst] at hz
  cases hz

/-- Nobody is linked otherwise, dies or comes to life. -/
theorem same (h : Inv s p₀ p₁) (hlinks : s'.links = s.links)
    (hz : ∀ p, (s'.info p).state = .zombie ↔ (s.info p).state = .zombie) (hf : Facts s') : Inv s' p₀ p₁ where
  tree := by
    rw [hlinks]
    exact h.tree
  synced p hp := by
    rw [hlinks] at hp ⊢
    rw [hz]
    exact h.synced p hp
  facts := hf

theorem zombie_update (hx : x.state = .zombie ↔ (s.info p).state = .zombie) (q : Ptr) :
    (update s.info p x q).state = .zombie ↔ (s.info q).state = .zombie := by
  rcases eq_or_ne q p with rfl | hq
  · rw [update_self]
    exact hx
  · rw [update_of_ne hq]

theorem setInfo (h : Inv s p₀ p₁) (hx : Mild (s.info p) x) : Inv (s.setInfo p x) p₀ p₁ :=
  h.same rfl (zombie_update hx.zombie) (h.facts.setInfo hx)

/-- `sys_waitpid` after the loop -/
theorem leads (h : Inv s p₀ p₁) (ht : s.links.Live t) (htz : (s.info t).state ≠ .zombie)
    (hold : ∀ p d, s.wait t ≠ .reaping p d) : Inv (s.leads t pid options (s.look t pid options)) p₀ p₁ := by
  obtain ⟨kids, depth, htree⟩ := h.tree
  have hends := look_ends htree ht pid options
  have hchild : ∀ p, p ∈ kids t → Child s t p := by
    intro p hp
    obtain ⟨hl, -, hpp⟩ := htree.child t ht p hp
    exact ⟨hl, hpp⟩
  cases hlook : s.look t pid options with
  | stopped p =>
    rw [hlook] at hends
    obtain ⟨hp, -, hst, hquiet⟩ := hends
    have hcode : (s.info p).exitCode ≠ 0 := fun h0 => hquiet ⟨hst, .inr h0⟩
    refine h.same rfl (fun _ => Iff.rfl) (h.facts.setWait hold (fun q d => nofun) ?_)
    rintro q nr status ⟨⟩
    exact ⟨hchild p hp, le_rfl, h.facts.unreported p (hchild p hp).1 hst hcode⟩
  | zombie p =>
    rw [hlook] at hends
    obtain ⟨hp, -, hz⟩ := hends
    exact h.same rfl (zombie_update Iff.rfl) (h.facts.reap hold (hchild p hp) hz htz)
  | flag b =>
    cases b with
    | false => exact h.same rfl (fun _ => Iff.rfl) (h.facts.leave hold _)
    | true =>
      unfold Sys.leads
      dsimp only
      split
      · exact h.same rfl (fun _ => Iff.rfl) (h.facts.leave hold _)
      · have hmild : Mild (s.info t) { s.info t with
            state := .interruptible, blocked := (s.info t).blocked &&& ~~~(sigmask SIGCHLD) } :=
          mild_of_eq rfl rfl rfl rfl (iff_of_false (by simp) htz) nofun fun _ => ⟨rfl, rfl⟩
        have hsleep := (h.facts.setInfo hmild).setWait (w := .asleep pid options (s.info t).blocked) hold
          (fun q d => nofun) fun q nr status => nofun
        exact h.same rfl (zombie_update hmild.zombie) hsleep

theorem pass (h : Inv s p₀ p₁) (ht : s.links.Live t) (ht₀ : t ≠ p₀) (htz : (s.info t).state ≠ .zombie)
    (hold : ∀ p d, s.wait t ≠ .reaping p d) (hcounts : Counts s t pid options) :
    Inv (s.pass t pid options) p₀ p₁ := by
  obtain ⟨kids, depth, htree⟩ := h.tree
  have hleads : Inv (s.leads t pid options (s.look t pid options)) p₀ p₁ := h.leads ht htz hold
  have hright := (looked_right htree ht ht₀).mpr hcounts
  exact hleads.same rfl (fun _ => Iff.rfl) (hleads.facts.logLooked hright)

theorem leave (h : Inv s p₀ p₁) (hold : ∀ p d, s.wait t ≠ .reaping p d) (v : Word) :
    Inv (s.leave t v) p₀ p₁ :=
  h.same rfl (fun _ => Iff.rfl) (h.facts.leave hold v)

/-- `sys_waitpid` after `schedule` -/
theorem resume (h : Inv s p₀ p₁) (ht : s.links.Live t) (ht₀ : t ≠ p₀) (htz : (s.info t).state ≠ .zombie)
    (hcounts : ∀ pid options oldblocked, s.wait t = .asleep pid options oldblocked → Counts s t pid options)
    (hs : s.resume t = some s') : Inv s' p₀ p₁ := by
  unfold Sys.resume at hs
  cases hw : s.wait t with
  | none => simp only [hw, reduceCtorEq] at hs
  | reaping p d => simp only [hw, reduceCtorEq] at hs
  | reporting p nr status => simp only [hw, reduceCtorEq] at hs
  | asleep pid options oldblocked =>
    simp only [hw] at hs
    have hmild : Mild (s.info t) { s.info t with blocked := oldblocked } :=
      mild_of_eq rfl rfl rfl rfl Iff.rfl id fun _ => ⟨rfl, rfl⟩
    have h' := h.setInfo hmild
    have hold : ∀ p d, (s.setInfo t { s.info t with blocked := oldblocked }).wait t ≠ .reaping p d := by
      intro p d hr
      rw [show (s.setInfo t _).wait t = _ from hw] at hr
      cases hr
    have htz' : ((s.setInfo t { s.info t with blocked := oldblocked }).info t).state ≠ .zombie :=
      fun hz => htz ((zombie_update hmild.zombie t).mp hz)
    split at hs
    · cases hs
      exact h'.leave hold _
    · cases hs
      refine h'.pass ht ht₀ htz' hold ?_
      -- the mask does not matter
      have hsame : ∀ p, ∃ b, (s.setInfo t { s.info t with blocked := oldblocked }).info p =
          { s.info p with blocked := b } := by
        intro p
        rcases eq_or_ne p t with rfl | hpt
        · exact ⟨oldblocked, update_self ..⟩
        · exact ⟨(s.info p).blocked, update_of_ne hpt ..⟩
      have hwanted : ∀ p, (s.setInfo t { s.info t with blocked := oldblocked }).Wanted t pid p ↔
          s.Wanted t pid p := by
        intro p
        obtain ⟨b, hb⟩ := hsame p
        obtain ⟨c, hc⟩ := hsame t
        unfold Sys.Wanted wanted
        rw [hb, hc]
        rfl
      rintro ⟨p, hp, hpw⟩
      obtain ⟨q, hq, hqw, hquiet⟩ := hcounts pid options oldblocked hw ⟨p, hp, (hwanted p).mp hpw⟩
      refine ⟨q, hq, (hwanted q).mpr hqw, ?_⟩
      obtain ⟨b, hb⟩ := hsame q
      rw [hb]
      exact hquiet

/-- `sys_waitpid` after `put_fs_long` -/
theorem finish (h : Inv s p₀ p₁) (ht : s.links.Live t) (ht₀ : t ≠ p₀) (htz : (s.info t).state ≠ .zombie)
    (hquiet : ∀ p nr status, s.wait t = .reporting p nr status → ¬ Owes (s.info p))
    (hs : s.finish t = some s') : Inv s' p₀ p₁ := by
  unfold Sys.finish at hs
  cases hw : s.wait t with
  | none => simp only [hw, reduceCtorEq] at hs
  | asleep pid options oldblocked => simp only [hw, reduceCtorEq] at hs
  | reporting p nr status =>
    simp only [hw, Option.some_inj] at hs
    subst hs
    have ho := hquiet p nr status hw
    exact h.same rfl (zombie_update (mild_clear ho).zombie) (h.facts.finishReport ht hw ho _)
  | reaping p d =>
    simp only [hw] at hs
    obtain ⟨links', hrel, rfl⟩ := Option.map_eq_some_iff.mp hs
    obtain ⟨kids, depth, htree⟩ := h.tree
    obtain ⟨hc, hz, -⟩ := h.facts.reaping t p d ht hw
    have hmem : p ∈ kids t := (mem_kids htree ht ht₀).mpr hc
    have hpt : p ≠ t := fun heq => htz (heq ▸ hz)
    obtain ⟨i, hi, -, links'', hrel', hr⟩ := htree.release_spec ht hmem hpt
    obtain rfl := Option.some.inj (hrel'.symm.trans hrel)
    have hlive : ∀ q, links''.Live q ↔ s.links.Live q ∧ q ≠ p := htree.released_live hi hr
    refine ⟨⟨_, depth, htree.release ht hmem ((h.synced p hc.1).mpr hz) hi hr⟩, fun q hq => ?_,
      h.facts.finishReap ht hw hlive hr.pPptr⟩
    show links''.zombie q = true ↔ (s.info q).state = .zombie
    rw [hr.zombie]
    exact h.synced q ((hlive q).mp hq).1

theorem exit (h : Inv s p₀ p₁) (hcall : s.Calls t) (h₁ : s.links.task 1 ≠ some t) {orphaned : List Word}
    {terminal : Option Word}
    (hfits : ∀ pgrp ∈ orphaned,
      (code ≠ 0 → (s.info t).pgrp ≠ pgrp) ∧ ∀ p, s.InGroup pgrp p → ¬ Owes (s.info p))
    (hs : s.doExit t code orphaned terminal = some s') : Inv s' p₀ p₁ := by
  obtain ⟨ht, ht₀, htz⟩ := h.live_calls hcall.1
  have hlater : Later (s.die t code) ((s.die t code).notify t orphaned terminal) :=
    later_notify (dying_owes hfits)
  unfold Sys.doExit at hs
  obtain ⟨links', hexit, rfl⟩ := Option.map_eq_some_iff.mp hs
  set s₁ := (s.die t code).notify t orphaned terminal
  obtain ⟨kids, depth, htree⟩ := h.tree
  have ht₁ : t ≠ p₁ := fun e => h₁ (e ▸ htree.one)
  have hlinks : s₁.links = s.links := hlater.links
  obtain ⟨links'', hexit', htree', htask, hzombie, hpar⟩ := exit_links htree ht ht₀ ht₁
  rw [hlinks, hexit'] at hexit
  obtain rfl := Option.some.inj hexit
  have hlive : ∀ q, links''.Live q ↔ s.links.Live q := fun q => by rw [Tasks.Live, htask, Tasks.Live]
  have hfacts : Facts s₁ := hlater.facts (h.facts.die ht htz code)
  refine ⟨htree', fun q hq => ?_, hfacts.relink (fun q hq => ?_) fun u q hu hw hc => ?_⟩
  · have hq := (hlive q).mp hq
    show links''.zombie q = true ↔ (s₁.info q).state = .zombie
    rw [(hlater.mild q hq).zombie, hzombie]
    rcases eq_or_ne q t with rfl | hqt
    · rw [update_self, show (s.die q code).info q = _ from update_self ..]
      simp
    · rw [update_of_ne hqt, show (s.die t code).info q = s.info q from update_of_ne hqt ..]
      exact h.synced q hq
  · rw [hlinks]
    exact (hlive q).mp hq
  · have hwait : s₁.wait = s.wait := by rw [hlater.eq]; rfl
    rw [hwait] at hw
    have hc' : Child s u q := by
      rw [Child, hlinks] at hc
      exact hc
    refine ⟨(hlive q).mpr hc'.1, hpar q u hc'.1 hc'.2 ?_⟩
    rintro rfl
    exact hw hcall.2.2

theorem later (h : Inv s p₀ p₁) (hl : Later s s') : Inv s' p₀ p₁ where
  tree := by
    rw [hl.links]
    exact h.tree
  synced p hp := by
    rw [hl.links] at hp ⊢
    rw [(hl.mild p hp).zombie]
    exact h.synced p hp
  facts := hl.facts h.facts

theorem stop (h : Inv s p₀ p₁) (hcall : s.Calls t) (signr : ℕ) (quiet : Bool) :
    Inv (s.stop t signr quiet) p₀ p₁ := by
  obtain ⟨ht, -, htz⟩ := h.live_calls hcall.1
  have hhalt : Inv (s.halt t signr) p₀ p₁ :=
    h.same rfl (zombie_update (iff_of_false (by simp) htz)) (h.facts.stop ht htz (BitVec.ofNat 32 signr))
  unfold Sys.stop
  cases quiet with
  | true => exact hhalt
  | false =>
    cases hp : (s.halt t signr).links.pPptr t with
    | none =>
      simp only [hp]
      exact hhalt
    | some p =>
      simp only [hp]
      exact hhalt.later (later_childDied _ p)

theorem fork (h : Inv s p₀ p₁) (hcall : s.Calls t) (hp : ¬ s.links.Live p) {nr : Fin NR_TASKS}
    (hnr : s.links.task nr = none) (pid : Word) (fail : Bool) : Inv (s.fork t p pid nr fail) p₀ p₁ := by
  obtain ⟨kids, depth, htree⟩ := h.tree
  obtain ⟨ht, ht₀, htz⟩ := htree.calls hcall.1
  obtain ⟨htree', hlive, hold, hzombie, hpar⟩ := fork_links htree ht ht₀ htz hnr hp fail
  have hnew : ∀ k : Clock, k.sum { s.info t with
      state := .running, pid := pid, signal := 0, utime := 0, stime := 0, cutime := 0, cstime := 0 } = 0 := by
    intro k
    cases k <;> rfl
  refine ⟨htree', fun q hq => ?_, h.facts.fork hp rfl hnew hlive hold hpar⟩
  show (s.links.copyProcess t p nr fail).zombie q = true ↔ (update s.info p _ q).state = .zombie
  rw [hzombie]
  rcases eq_or_ne q p with rfl | hqp
  · rw [update_self, update_self]
    simp
  · rw [update_of_ne hqp, update_of_ne hqp]
    exact h.synced q (hlive q hq hqp)

theorem after {a : Act} (h : Inv s p₀ p₁) (hfits : Fits s a) (hs : step a s = some s') : Inv s' p₀ p₁ := by
  cases a with
  | fork t p pid fail =>
    rw [step] at hs
    split at hs
    · rename_i hcall
      cases hnr : s.links.findEmpty with
      | none =>
        simp only [hnr, Option.some_inj] at hs
        exact hs ▸ h
      | some nr =>
        simp only [hnr, Option.some_inj] at hs
        have hnone : s.links.task nr = none := by
          have := List.find?_some hnr
          simp only [Bool.and_eq_true, decide_eq_true_eq] at this
          exact this.2
        exact hs ▸ h.fork hcall.1 hcall.2 hnone pid fail
    · cases hs
  | exit t code orphaned terminal =>
    rw [step] at hs
    split at hs
    · rename_i hcall
      exact h.exit hcall.1 hcall.2 hfits hs
    · cases hs
  | stop t signr quiet =>
    rw [step] at hs
    split at hs
    · rename_i hcall
      cases hs
      exact h.stop hcall.1 signr quiet
    · cases hs
  | send t p sig priv =>
    rw [step] at hs
    split at hs
    · cases hs
      split
      · rename_i hmay
        exact h.setInfo (mild_post (hfits hmay))
      · exact h
    · cases hs
  | wake p =>
    rw [step] at hs
    split at hs
    · rename_i hp
      cases hs
      exact h.setInfo (mild_of_eq rfl rfl rfl rfl (by simp [hp.2]) nofun fun _ => ⟨rfl, rfl⟩)
    · cases hs
  | touch p pgrp signal blocked utime stime euid saHandler =>
    rw [step] at hs
    dsimp only at hs
    split at hs
    · cases hs
      refine h.setInfo ?_
      split
      · exact mild_of_eq rfl rfl rfl rfl Iff.rfl id fun _ => ⟨rfl, rfl⟩
      · rename_i hz
        exact mild_of_eq rfl rfl rfl rfl Iff.rfl id fun hz' => absurd hz' hz
    · cases hs
  | waitpid t pid options =>
    rw [step] at hs
    split at hs
    · rename_i hcall
      cases hs
      obtain ⟨ht, ht₀, htz⟩ := h.live_calls hcall.1
      refine h.pass ht ht₀ htz (fun p d hw => ?_) hfits
      rw [hcall.2.2] at hw
      cases hw
    · cases hs
  | resume t =>
    rw [step] at hs
    split at hs
    · rename_i hcall
      obtain ⟨ht, ht₀, htz⟩ := h.live_calls hcall.1
      exact h.resume ht ht₀ htz hfits hs
    · cases hs
  | finish t =>
    rw [step] at hs
    split at hs
    · rename_i hcall
      obtain ⟨ht, ht₀, htz⟩ := h.live_calls hcall
      exact h.finish ht ht₀ htz hfits hs
    · cases hs

theorem boot (h : Boot s p₀ p₁) : Inv s p₀ p₁ := by
  refine ⟨⟨_, _, Tree.boot h.tree⟩, fun p hp => iff_of_false ?_ (fun hz => ?_), .boot h⟩
  · obtain ⟨i, hi⟩ := hp
    rcases (h.tree.task i p).mp hi with ⟨-, rfl⟩ | ⟨-, rfl⟩
    · simp [h.tree.zombie.1]
    · simp [h.tree.zombie.2]
  · rw [(h.info p hp).1] at hz
    cases hz

end Inv

/-- Along every run whose steps clear no code and whose calls find a child that counts, if any, `sys_waitpid`
accounts for all children. -/
theorem waitpid_accounting {s₀ : Sys} (h₀ : Boot s₀ p₀ p₁) (h : Run step Fits s₀ s) : Contract s := by
  have hinv : Inv s p₀ p₁ :=
    h.invariant (I := fun s => Inv s p₀ p₁) (Inv.boot h₀) fun _ _ _ hi hfits hs => hi.after hfits hs
  exact hinv.facts.contract

/-- The tasks after the kernel has started -/
def booted : Sys where
  links := Ptree.booted
  info := fun p => if p = 100 then Exit.rootTask 0 0 else Exit.rootTask 1 1
  wait := fun _ => .none
  ret := fun _ => 0
  born := 2
  serial := fun p => if p = 100 then 0 else 1
  stops := fun _ => 0
  dead := fun _ => none
  log := []

theorem boot_booted : Boot booted 100 101 where
  tree := Ptree.boot_booted
  info p _ := by
    unfold booted
    dsimp only
    split <;> exact ⟨rfl, rfl, rfl⟩
  wait _ _ := rfl
  serial p _ := by
    unfold booted
    dsimp only
    split <;> decide
  inj p q hp hq := by
    have hlive : ∀ p, booted.links.Live p → p = 100 ∨ p = 101 := by
      rintro p ⟨i, hi⟩
      exact ((Ptree.boot_booted.task i p).mp hi).imp And.right And.right
    rcases hlive p hp with rfl | rfl <;> rcases hlive q hq with rfl | rfl <;> decide
  log := rfl

def forked : Sys := (step (.fork 101 102 2 false) booted).get (by decide +kernel)

/-- The child of `task[1]` exits with the code 3. -/
def exited : Sys := (step (.exit 102 0x300 [] none) forked).get (by decide +kernel)

def found : Sys := (step (.waitpid 101 (-1) 0) exited).get (by decide +kernel)

def returned : Sys := (step (.finish 101) found).get (by decide +kernel)

theorem waitpid_accounting_child : Contract returned := by
  have hforked : Run step Fits booted forked :=
    Run.refl.tail (a := .fork 101 102 2 false) trivial (Option.some_get _).symm
  have hexited : Run step Fits booted exited :=
    hforked.tail (a := .exit 102 0x300 [] none) (fun pgrp hp => absurd hp List.not_mem_nil)
      (Option.some_get _).symm
  have hcounts : Counts exited 101 (-1) 0 := fun _ =>
    ⟨102, by decide +kernel, by decide +kernel, fun hq => absurd hq.1 (by decide +kernel)⟩
  have hfound : Run step Fits booted found :=
    hexited.tail (a := .waitpid 101 (-1) 0) hcounts (Option.some_get _).symm
  refine waitpid_accounting boot_booted (hfound.tail (a := .finish 101) ?_ (Option.some_get _).symm)
  intro p nr status hw
  have hreaping : found.wait 101 = .reaping 102 ⟨2, 0x300, 0, 0⟩ := by decide +kernel
  rw [hreaping] at hw
  cases hw

/-- The same, with a `SIGKILL` after the exit -/
def killed : List Act :=
  [.fork 101 102 2 false, .exit 102 0x300 [] none, .send 101 102 9 false, .waitpid 101 (-1) 0, .finish 101]

/-- A signal to a dead child clears its code. -/
theorem waitpid_loses_code : ¬ ∀ s, Run step Always booted s → Contract s := by
  intro h
  have hcontract := h ((runList step killed booted).get (by decide +kernel))
    (Run.of_runList_get (by decide +kernel))
  have hcode := hcontract.code 1 2 ⟨2, 0, 0, 0⟩ (by decide +kernel)
  exact absurd hcode (by decide +kernel)

end Linux012.Waitpid
