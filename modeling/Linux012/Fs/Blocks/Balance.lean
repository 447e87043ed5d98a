import Linux012.Fs.Blocks.Account

/-! # Calls leave the counts as they were

In a run in which no buffer ever has more than 255 references, each count is the number of references that the
tasks hold, so a call of a function that returns no buffer leaves every count alone, up to what the other tasks
get and release while it sleeps. `brelse` never finds a count of 0.
-/

namespace Linux012.Blocks

open Function Coop Runs Buffer
open FileDev (Block)

variable {n : ℕ} {s s' : State n Sys Frame AnyPanic} {b : ℕ}

structure Accounted (s : State n Sys Frame AnyPanic) : Prop where
  good : ∀ t, ∀ f ∈ s.stack t, f.Good
  stacked : Stacked Waits s
  count : ∀ b, s.shared.count b = s.total (Frame.refs b) % 256
  panic : s.panicked ≠ some (.inl .freeFreeBuffer)

namespace Accounted

theorem count_eq (hi : Accounted s) (hfew : Few s) (b : ℕ) : s.shared.count b = s.total (Frame.refs b) := by
  rw [hi.count, Nat.mod_eq_of_lt (hfew b)]

theorem count_ne_zero (hi : Accounted s) (hfew : Few s) {t : Fin n} {f : Frame} (hf : f ∈ s.stack t)
    (hb : f.refs b ≠ 0) : s.shared.count b ≠ 0 := by
  have := State.frame_le_total (w := Frame.refs b) hf
  rw [hi.count_eq hfew]
  omega

/-- What holds does not depend on which task has the processor. -/
theorem congr (hi : Accounted s) (hc : ∀ b, s'.shared.count b = s.shared.count b) (hst : s'.stack = s.stack)
    (hp : s'.panicked ≠ some (.inl .freeFreeBuffer)) : Accounted s' := by
  have htotal : ∀ w : Frame → ℕ, s'.total w = s.total w := fun w => by simp only [State.total, hst]
  refine ⟨?_, fun t => ?_, fun b => ?_, hp⟩
  · rw [hst]
    exact hi.good
  · rw [hst]
    exact hi.stacked t
  · rw [hc, htotal, hi.count]

/-- A panic of a step is not that of `brelse`: the buffer that it releases has a reference. -/
theorem not_panic (hi : Accounted s) (hfew : Few s) {t : Fin n} {ch : Choice} {f : Frame} {fs : List Frame}
    {σ' : Sys} {q : AnyPanic} (hst : s.stack t = f :: fs) (hg : f.Goes (.panic q))
    (hx : exec ch s.shared f = some (σ', .panic q)) : q ≠ .inl .freeFreeBuffer := by
  rintro rfl
  obtain ⟨bh, rfl⟩ := hg rfl
  obtain ⟨c, hc⟩ := exec_cache_panic hx
  have hone : (Frame.cache (.brelse bh)).refs bh ≠ 0 := by simp [Frame.refs, Buffer.Frame.refs]
  exact hi.count_ne_zero hfew (hst ▸ List.mem_cons_self) hone (brelse_panic hc)

theorem enter (hi : Accounted s) {t : Fin n} {f : Frame} {fs fs' : List Frame} {σ' : Sys}
    {nx : Next Frame Value AnyPanic} (hst : s.stack t = f :: fs) (hg : f.Goes nx) (hm : Moves s.shared σ' f nx)
    (he : (program n).Enters fs nx fs') (cpu : Option (Fin n)) :
    Accounted { s with shared := σ', stack := update s.stack t fs', cpu := cpu } := by
  have hgood : ∀ g ∈ f :: fs, g.Good := fun g hm => hi.good t g (hst ▸ hm)
  have hkind : ∀ h v h', resume h v = some h' → ∀ x, Waits h x → Waits h' x := fun h v h' hr x hx =>
    hx.trans (congrArg some (kind_resume hr).symm)
  refine ⟨fun u g hgu => ?_, hi.stacked.enter hst he hg.fits hkind σ' cpu, fun b => ?_, hi.panic⟩
  · rcases eq_or_ne u t with rfl | hu
    · simp only [update_self] at hgu
      rcases he.mem_head hgu with hgu | hgu | ⟨h, hs, v, rfl, rfl, hr⟩
      · exact hgood g (List.mem_cons_of_mem f hgu)
      · exact hg.good g hgu
      · have hwait : Waits f h := (hst ▸ hi.stacked u : (f :: h :: hs).IsChain Waits).rel
        have hfits : ∀ κ, h.awaited = some κ → v.Fits κ := by
          intro κ hκ
          obtain rfl := Option.some.inj (hwait.symm.trans hκ)
          exact hg
        exact good_resume (hgood h (by simp)) hfits hr
    · simp only [update_of_ne hu] at hgu
      exact hi.good u g hgu
  · have hresume : ∀ h v h', (program n).resume h v = some h' → h'.refs b = h.refs b + v.refs b :=
      fun _ _ _ hr => refs_resume hr
    have htotal := State.total_enter hresume hst he σ' cpu
    have hmod := hm.moves b
    have hsmall := hm.small b (by rw [hi.count]; exact Nat.mod_lt _ (by decide))
    rw [hi.count] at hmod
    simp only [Nat.ModEq] at hmod
    change σ'.count b = _
    omega

/-- What a frame does that the state has on a stack -/
theorem exec_goes (hi : Accounted s) (hfew : Few s) {t : Fin n} {f : Frame} (hf : f ∈ s.stack t) {ch : Choice}
    {σ' : Sys} {nx : Next Frame Value AnyPanic} (hx : exec ch s.shared f = some (σ', nx)) :
    f.Goes nx ∧ ((∀ q, nx ≠ .panic q) → Moves s.shared σ' f nx) :=
  exec_spec (hi.good t f hf) (fun _ hb => hi.count_ne_zero hfew hf hb) hx

theorem step {a : Act n Choice Intr} (hi : Accounted s) (hfew : Few s) (hs : (program n).step a s = some s') :
    Accounted s' := by
  obtain ⟨-, ⟨t, ch, f, fs, σ', nx, -, -, hst, hx, ⟨q, rfl, rfl⟩ | ⟨fs', cpu', he, rfl⟩⟩ |
    ⟨-, rfl⟩ | ⟨e, σ', -, hx, rfl⟩⟩ := Program.step_cases hs
  · have hg := (hi.exec_goes hfew (hst ▸ List.mem_cons_self) hx).1
    refine hi.congr (fun _ => rfl) rfl fun hq => ?_
    exact hi.not_panic hfew hst hg hx (Option.some.inj hq)
  · obtain ⟨hg, hm⟩ := hi.exec_goes hfew (hst ▸ List.mem_cons_self) hx
    refine hi.enter hst hg (hm ?_) he cpu'
    rintro q rfl
    cases he
  · exact hi.congr (fun _ => rfl) rfl hi.panic
  · refine hi.congr (fun b => ?_) rfl hi.panic
    cases e with
    | endRequest e =>
      obtain ⟨c, hc, rfl⟩ := Option.map_eq_some_iff.mp hx
      exact sameCount_endRequest hc b
    | clock time =>
      obtain rfl := Option.some.inj hx
      rfl

end Accounted

end Linux012.Blocks
