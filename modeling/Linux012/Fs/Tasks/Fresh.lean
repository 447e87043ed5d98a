import Linux012.Fs.Tasks.Effect
import Linux012.Lib.Index

/-! # The buffer of a new block

`new_block` expects that nobody but itself has a reference to the buffer of the block it has just taken. A
block whose bit is zero has no users as long as nobody asks for such a block, and `free_block` clears no bit
while somebody is on the way to the block.
-/

namespace Linux012.Tasks

open Function Coop Runs
open Buffer (Cache Dev BlockNr RepInv EndRequest one)
open FileDev (Block)
open scoped Index

variable {n : ℕ} {s s' : State n Sys Frame Panic} {σ : Sys} {f g h : Frame} {nx : Next Frame Value Panic}
  {v : Value} {dev : Dev} {b j m : ℕ} {k : Key}

/-! ## Returns -/

theorem resume_cache {f : Buffer.Frame} (hr : resume (.cache f) v = some g) :
    (∃ u f', v = .buffer u ∧ Buffer.resume f u = some f' ∧ g = .cache f') ∨
      ((∀ u, v ≠ .buffer u) ∧ ∃ held, f = .code held ∧ g = .cache f) := by
  cases v with
  | buffer u =>
    have hr : (Buffer.resume f u).map Frame.cache = some g := hr
    obtain ⟨f', hf', rfl⟩ := Option.map_eq_some_iff.mp hr
    exact .inl ⟨u, f', rfl, hf', rfl⟩
  | block | int =>
    cases f <;> simp only [resume, reduceCtorEq, Option.some.injEq] at hr
    exact .inr ⟨by simp, _, rfl, hr.symm⟩

theorem refs_resume (hr : resume f v = some g) : g.refs b = f.refs b + v.refs b := by
  cases f with
  | cache f =>
    rcases resume_cache hr with ⟨u, f', rfl, hf', rfl⟩ | ⟨hv, held, rfl, rfl⟩
    · exact Buffer.refs_resume hf'
    · cases v with
      | buffer u => exact absurd rfl (hv u)
      | _ => rfl
  | _ =>
    rcases v with (_ | bh) | _ | _ <;> simp only [resume, reduceCtorEq, Option.some.injEq] at hr <;>
      subst hr <;> simp [Frame.refs, Value.refs, Buffer.Value.refs]

theorem asks_resume (hr : resume f v = some g) : g.asks k ≤ f.asks k + 0 := by
  cases f with
  | cache f =>
    rcases resume_cache hr with ⟨u, f', rfl, hf', rfl⟩ | ⟨-, held, rfl, rfl⟩
    · exact cacheAsks_resume hf'
    · exact le_rfl
  | _ =>
    rcases v with (_ | bh) | _ | _ <;> simp only [resume, reduceCtorEq, Option.some.injEq] at hr <;>
      subst hr <;> simp [Frame.asks]

theorem takes_resume (hr : resume f v = some g) : g.takes k ≤ f.takes k + 0 := by
  cases f with
  | cache f =>
    rcases resume_cache hr with ⟨u, f', rfl, hf', rfl⟩ | ⟨-, held, rfl, rfl⟩ <;> exact le_rfl
  | _ =>
    rcases v with (_ | bh) | _ | _ <;> simp only [resume, reduceCtorEq, Option.some.injEq] at hr <;>
      subst hr <;> simp [Frame.takes]

theorem frees_resume (hr : resume f v = some g) : g.frees k ≤ f.frees k + 0 := by
  cases f with
  | cache f =>
    rcases resume_cache hr with ⟨u, f', rfl, hf', rfl⟩ | ⟨-, held, rfl, rfl⟩ <;> exact le_rfl
  | _ =>
    rcases v with (_ | bh) | _ | _ <;> simp only [resume, reduceCtorEq, Option.some.injEq] at hr <;>
      subst hr <;> simp [Frame.frees]

theorem fit_resume (hr : resume h v = some g) : ∀ x, Fit h x → Fit g x := by
  intro x hx
  cases x with
  | newBlockGot dev j =>
    obtain ⟨f, rfl, hin⟩ := hx
    rcases resume_cache hr with ⟨u, f', rfl, hf', rfl⟩ | ⟨-, held, rfl, rfl⟩
    · exact ⟨f', rfl, inGetblk_resume hin hf'⟩
    · cases hin
  | _ => trivial

/-- A returned buffer is one that the frame below expects. -/
theorem ok_resume (hh : h.Ok σ) (hr : resume h v = some g)
    (hv : ∀ dev j bh, h = .newBlockGot dev j → v = .buffer (some bh) →
      bh < σ.cache.nrBuffers ∧ key σ.cache bh = (dev, blockNr j)) : g.Ok σ := by
  cases h with
  | cache f =>
    rcases resume_cache hr with ⟨u, f', rfl, hf', rfl⟩ | ⟨-, held, rfl, rfl⟩
    · exact ⟨hh.1.resume hf', keyed_resume hh.2 hf'⟩
    · exact hh
  | newBlockGot dev j =>
    rcases v with (_ | bh) | _ | _ <;> simp only [resume, reduceCtorEq, Option.some.injEq] at hr <;> subst hr
    · trivial
    · exact hv dev j bh rfl rfl
  | _ =>
    rcases v with (_ | bh) | _ | _ <;> simp only [resume, reduceCtorEq, Option.some.injEq] at hr <;>
      subst hr <;> trivial

/-- What holds of a frame stays true while its buffers keep their blocks. -/
theorem Frame.Ok.keep {σ' : Sys} (hn : σ'.cache.nrBuffers = σ.cache.nrBuffers)
    (hkey : ∀ b, 0 < g.refs b → key σ'.cache b = key σ.cache b) (hzone : ∀ k, Zone σ k → Zone σ' k)
    (hg : g.Ok σ) : g.Ok σ' := by
  cases g with
  | cache f =>
    refine ⟨hg.1.congr hn, ?_⟩
    have hf := hg.2
    cases f with
    | getHashTableWait d b bh | getblkHash d b bh =>
      exact ⟨hn ▸ hf.1, (hkey bh (by simp [Frame.refs, Buffer.Frame.refs])).trans hf.2⟩
    | _ => trivial
  | newBlockHas dev j bh => exact ⟨hn ▸ hg.1, (hkey bh (by simp [Frame.refs])).trans hg.2⟩
  | freeBlockWait dev block bh =>
    exact ⟨⟨hn ▸ hg.1.1, (hkey bh (by simp [Frame.refs])).trans hg.1.2⟩, hzone _ hg.2⟩
  | _ => trivial

/-! ## The invariant -/

/-- At most `m` tasks have asked for the block or hold its buffer. -/
structure Bounded (s : State n Sys Frame Panic) (k : Key) (m : ℕ) : Prop where
  asks : s.total (Frame.asks k) ≤ m
  users : ∀ b < s.shared.cache.nrBuffers, key s.shared.cache b = k →
    s.total (Frame.asks k) + s.total (Frame.refs b) ≤ m

/-- Nobody uses a spare block, and nobody but `new_block` the block it is taking. -/
structure Inv (s : State n Sys Frame Panic) : Prop where
  holds : Holds (fun σ => (RepInv σ.cache ∧ 2 ≤ σ.cache.nrBuffers) ∧ Reserved σ) (fun σ f => f.Ok σ) s
  stacked : Stacked Fit s
  count : ∀ b, (s.shared.cache.heads b).bCount = s.total (Frame.refs b) % 256
  spare : ∀ k, Spare s.shared k → Bounded s k 0 ∧ s.total (Frame.takes k) = 0
  taking : ∀ k, 0 < s.total (Frame.takes k) → Bounded s k 1 ∧ s.total (Frame.frees k) = 0

/-- The piece of code asks for the buffer of a block. -/
def Calls (s : State n Sys Frame Panic) (a : Act n Choice (EndRequest Block)) (k : Key) : Prop :=
  ∃ t ch f fs σ nx, a = .run t ch ∧ s.stack t = f :: fs ∧ exec s.shared ch f = some (σ, nx) ∧
    (∀ dev, f ≠ .newBlock dev) ∧ f.asks k < nx.weight (Frame.asks k) fun _ => 0

/-- The condition on the steps of a run: no buffer has 256 references, whoever asks for the buffer of a
data zone asks for one that is in use, and `free_block` clears no bit while somebody else is on the way to
the block. -/
structure Careful (s : State n Sys Frame Panic) (a : Act n Choice (EndRequest Block)) : Prop where
  few : ∀ b, s.total (Frame.refs b) < 256
  calls : ∀ k, Calls s a k → ¬ Spare s.shared k ∧ s.total (Frame.takes k) = 0
  frees : ∀ t ch f fs σ nx k, a = .run t ch → s.stack t = f :: fs →
    exec s.shared ch f = some (σ, nx) → ¬ Spare s.shared k → Spare σ k →
    s.total (Frame.asks k) = f.asks k

/-- The last frame that holds a reference to a buffer keeps its block. -/
theorem Inv.key_eq (hi : Inv s) (hfew : ∀ b, s.total (Frame.refs b) < 256) {c : Cache Block}
    (hkey : ∀ b, key c b ≠ key s.shared.cache b → (s.shared.cache.heads b).bCount = 0)
    (hb : 0 < s.total (Frame.refs b)) : key c b = key s.shared.cache b := by
  by_contra hne
  have h₁ := hkey b hne
  have h₂ := hi.count b
  have h₃ := hfew b
  omega

theorem Inv.no_frees (hi : Inv s) (hk : Bounded s k 0) : s.total (Frame.frees k) = 0 := by
  refine State.total_eq_zero fun t f hf => ?_
  have hasks := (State.frame_le_total (w := Frame.asks k) hf).trans hk.asks
  have hok := hi.holds.frames t f hf
  cases f with
  | freeBlock dev block => exact Nat.le_zero.mp hasks
  | freeBlockWait dev block bh =>
    by_contra hne
    have hkey : k = (dev, block) := by
      have := List.count_pos_iff.mp (Nat.pos_of_ne_zero hne)
      exact List.mem_singleton.mp this
    have hrefs := State.frame_le_total (w := Frame.refs bh) hf
    have := hk.users bh hok.1.1 (hok.1.2.trans hkey.symm)
    simp only [Frame.refs, Buffer.one_self] at hrefs
    omega
  | _ => rfl

section Enter

variable {t : Fin n} {fs fs' : List Frame} {cpu : Option (Fin n)}

/-- The users of a block after a piece of code that asks for no other block. -/
theorem Bounded.enter (hb : Bounded s k m) (hi : Inv s) (hfew : ∀ b, s.total (Frame.refs b) < 256)
    (hst : s.stack t = f :: fs) (he : (program n).Enters fs nx fs')
    (hn : σ.cache.nrBuffers = s.shared.cache.nrBuffers)
    (hkey : ∀ b, key σ.cache b ≠ key s.shared.cache b → (s.shared.cache.heads b).bCount = 0)
    (ha : nx.weight (Frame.asks k) (fun _ => 0) ≤ f.asks k)
    (hk : ∀ b, key σ.cache b = k → nx.weight (Frame.asks k) (fun _ => 0) +
      nx.weight (Frame.refs b) (Value.refs b) ≤ f.asks k + f.refs b) :
    Bounded { s with shared := σ, stack := update s.stack t fs', cpu := cpu } k m := by
  have hA := State.total_enter_le (fun _ _ _ => asks_resume (k := k)) hst he σ cpu
  refine ⟨by have := hb.asks; omega, fun b hlt hbk => ?_⟩
  have hR := State.total_enter (fun _ _ _ => refs_resume (b := b)) hst he σ cpu
  have hk := hk b hbk
  have hle : s.total (Frame.asks k) + s.total (Frame.refs b) ≤ m := by
    rcases Nat.eq_zero_or_pos (s.total (Frame.refs b)) with hz | hpos
    · have := hb.asks
      omega
    · exact hb.users b (hn ▸ hlt) ((hi.key_eq hfew hkey hpos).symm.trans hbk)
  omega

theorem Inv.frames (hi : Inv s) (hfew : ∀ b, s.total (Frame.refs b) < 256) (hst : s.stack t = f :: fs)
    (heff : Effect s.shared f σ nx) (he : (program n).Enters fs nx fs') :
    Holds (fun σ => (RepInv σ.cache ∧ 2 ≤ σ.cache.nrBuffers) ∧ Reserved σ) (fun σ f => f.Ok σ)
      { s with shared := σ, stack := update s.stack t fs', cpu := cpu } := by
  have hstable : ∀ u, ∀ g ∈ s.stack u, g.Ok σ := fun u g hg =>
    (hi.holds.frames u g hg).keep heff.nrBuffers (fun b hb => hi.key_eq hfew heff.rekeyed
      (hb.trans_le (State.frame_le_total hg))) heff.zone
  refine ⟨⟨⟨heff.repInv, heff.nrBuffers ▸ hi.holds.shared.1.2⟩, heff.reserved hi.holds.shared.2⟩,
    fun u g hg => ?_⟩
  by_cases hu : u = t
  · subst hu
    simp only [update_self] at hg
    rcases he.mem_head hg with hg | hg | ⟨h, hs, v, rfl, hv, hr⟩
    · exact hstable u g (hst ▸ List.mem_cons_of_mem f hg)
    · exact heff.frames g hg
    · refine ok_resume (hstable u h (by simp [hst])) hr fun dev j bh hh hvb => ?_
      have hchain := hst ▸ hi.stacked u
      exact heff.value dev j bh (hh ▸ hchain.rel) (hvb ▸ hv)
  · simp only [update_of_ne hu] at hg
    exact hstable u g hg

theorem Inv.enter (hi : Inv s) (hfew : ∀ b, s.total (Frame.refs b) < 256) (hst : s.stack t = f :: fs)
    (heff : Effect s.shared f σ nx) (he : (program n).Enters fs nx fs')
    (hcalls : ∀ k, (∀ dev, f ≠ .newBlock dev) → f.asks k < nx.weight (Frame.asks k) (fun _ => 0) →
      ¬ Spare s.shared k ∧ s.total (Frame.takes k) = 0)
    (hfrees : ∀ k, ¬ Spare s.shared k → Spare σ k → s.total (Frame.asks k) = f.asks k) :
    Inv { s with shared := σ, stack := update s.stack t fs', cpu := cpu } := by
  have hA := fun k => State.total_enter_le (fun _ _ _ => asks_resume (k := k)) hst he σ cpu
  have hT := fun k => State.total_enter_le (fun _ _ _ => takes_resume (k := k)) hst he σ cpu
  have hF := fun k => State.total_enter_le (fun _ _ _ => frees_resume (k := k)) hst he σ cpu
  have hR := fun b => State.total_enter (fun _ _ _ => refs_resume (b := b)) hst he σ cpu
  have hbounded : ∀ {k m}, Bounded s k m → nx.weight (Frame.asks k) (fun _ => 0) ≤ f.asks k →
      (∀ b, key σ.cache b = k → nx.weight (Frame.asks k) (fun _ => 0) +
        nx.weight (Frame.refs b) (Value.refs b) ≤ f.asks k + f.refs b) →
      Bounded { s with shared := σ, stack := update s.stack t fs', cpu := cpu } k m := fun hb ha hk =>
    hb.enter hi hfew hst he heff.nrBuffers heff.rekeyed ha hk
  refine ⟨hi.frames hfew hst heff he, hi.stacked.enter hst he heff.fits (fun _ _ _ => fit_resume) σ cpu,
    heff.count _ _ hi.count hfew hR, fun k hk => ?_, fun k hk => ?_⟩
  · cases heff.account with
    | plain hkeeps htakes _ hnew hspare =>
      obtain ⟨hb, ht⟩ := hi.spare k (hspare k hk)
      have hask : nx.weight (Frame.asks k) (fun _ => 0) ≤ f.asks k := by
        by_contra hlt
        exact (hcalls k (fun dev he => hlt (hnew dev he k)) (Nat.lt_of_not_le hlt)).1 (hspare k hk)
      refine ⟨hbounded hb hask (hkeeps k hask), ?_⟩
      have h₁ := hT k
      have h₂ := htakes k
      omega
    | @take dev j _ hcache _ hset hspare =>
      have hne : (dev, blockNr j) ≠ k := fun he => hset (he ▸ hk)
      obtain ⟨hb, ht⟩ := hi.spare k (hspare k hk)
      have hz : [(dev, blockNr j)].count k = 0 := List.count_eq_zero.mpr (by simpa using hne.symm)
      refine ⟨hbounded hb (by simp [Next.weight, Frame.asks, cacheAsks, cacheWants, hz]) fun b _ => ?_, ?_⟩
      · simp [Next.weight, Frame.asks, Frame.refs, Buffer.Frame.refs, cacheAsks, cacheWants, hz]
      · have h₁ := hT k
        simp only [Next.weight, Frame.takes, hz] at h₁
        omega
    | clear k₀ hf honly hspare =>
      by_cases hold : Spare s.shared k
      · obtain ⟨hb, ht⟩ := hi.spare k hold
        refine ⟨hbounded hb (Nat.zero_le _) fun b _ => Nat.zero_le _, ?_⟩
        have h₁ := hT k
        simp only [Next.weight] at h₁
        omega
      · -- the block that is freed: its last user is `free_block`
        obtain rfl := (hspare k hk).resolve_left hold
        have hasks := hfrees k hold hk
        have hA := hA k
        simp only [Next.weight] at hA
        refine ⟨⟨by omega, fun b hlt hbk => ?_⟩, ?_⟩
        · have hR := hR b
          simp only [Next.weight, Value.refs] at hR
          rcases Nat.eq_zero_or_pos (s.total (Frame.refs b)) with hz | hpos
          · omega
          · have hkb := (hi.key_eq hfew heff.rekeyed hpos).symm.trans hbk
            obtain ⟨hone, hle⟩ := honly b (heff.nrBuffers ▸ hlt) hkb
            have h₁ := hi.count b
            have h₂ := hfew b
            omega
        · have hpos : 0 < s.total (Frame.frees k) :=
            (hf ▸ Nat.one_pos).trans_le (State.frame_le_total (hst ▸ List.mem_cons_self))
          have h₁ := hT k
          simp only [Next.weight] at h₁
          rcases Nat.eq_zero_or_pos (s.total (Frame.takes k)) with hz | htake
          · omega
          · have := (hi.taking k htake).2
            omega
  · cases heff.account with
    | plain hkeeps htakes hfr hnew _ =>
      have h₁ := hT k
      have h₂ := htakes k
      obtain ⟨hb, hz⟩ := hi.taking k (by omega)
      have hask : nx.weight (Frame.asks k) (fun _ => 0) ≤ f.asks k := by
        by_contra hlt
        have := (hcalls k (fun dev he => hlt (hnew dev he k)) (Nat.lt_of_not_le hlt)).2
        omega
      refine ⟨hbounded hb hask (hkeeps k hask), ?_⟩
      have h₃ := hF k
      have h₄ := hfr k hask
      omega
    | @take dev j _ hcache hold hset hspare =>
      have h₃ := hF k
      simp only [Next.weight, Frame.frees] at h₃
      by_cases hk₀ : (dev, blockNr j) = k
      · -- the block that is taken: its only user is `new_block`
        obtain ⟨hb, -⟩ := hi.spare k (hk₀ ▸ hold)
        have hz := hi.no_frees hb
        have hA := hA k
        have hone : [(dev, blockNr j)].count k = 1 := by rw [hk₀, List.count_singleton_self]
        simp only [Next.weight, Frame.asks, cacheAsks, cacheWants, hone] at hA
        have h₀ := hb.asks
        refine ⟨⟨by omega, fun b hlt hbk => ?_⟩, by omega⟩
        have hR := hR b
        simp only [Next.weight, Frame.refs, Buffer.Frame.refs] at hR
        have := hb.users b (hcache ▸ hlt) (hcache ▸ hbk)
        omega
      · have hz : [(dev, blockNr j)].count k = 0 := List.count_eq_zero.mpr (by simpa [eq_comm] using hk₀)
        have h₁ := hT k
        simp only [Next.weight, Frame.takes, hz] at h₁
        obtain ⟨hb, hfz⟩ := hi.taking k (by omega)
        refine ⟨hbounded hb (by simp [Next.weight, Frame.asks, cacheAsks, cacheWants, hz]) fun b _ => ?_,
          by omega⟩
        simp [Next.weight, Frame.asks, Frame.refs, Buffer.Frame.refs, cacheAsks, cacheWants, hz]
    | clear k₀ hf honly hspare =>
      have h₁ := hT k
      have h₃ := hF k
      simp only [Next.weight] at h₁ h₃
      obtain ⟨hb, hz⟩ := hi.taking k (by omega)
      exact ⟨hbounded hb (Nat.zero_le _) fun b _ => Nat.zero_le _, by omega⟩

end Enter

/-! ## Runs -/

/-- The invariant is about the shared state and the stacks. -/
theorem Inv.congr (hi : Inv s) (hsh : s'.shared = s.shared) (hst : s'.stack = s.stack) : Inv s' := by
  obtain ⟨σ, stack, cpu, panicked⟩ := s
  obtain ⟨σ', stack', cpu', panicked'⟩ := s'
  obtain rfl : σ' = σ := hsh
  obtain rfl : stack' = stack := hst
  exact ⟨⟨hi.holds.shared, hi.holds.frames⟩, hi.stacked, hi.count,
    fun k hk => ⟨⟨(hi.spare k hk).1.asks, (hi.spare k hk).1.users⟩, (hi.spare k hk).2⟩,
    fun k hk => ⟨⟨(hi.taking k hk).1.asks, (hi.taking k hk).1.users⟩, (hi.taking k hk).2⟩⟩

theorem Inv.endRequest (hi : Inv s) {e : EndRequest Block} {c : Cache Block}
    (he : Buffer.endRequest e s.shared.cache = some c) :
    Inv { s with shared := { s.shared with cache := c } } := by
  have hq := Buffer.sameQueues_endRequest he
  have hkey : key c = key s.shared.cache := key_congr hq
  have hbounded : ∀ {k m}, Bounded s k m →
      Bounded { s with shared := { s.shared with cache := c } } k m := fun hb =>
    ⟨hb.asks, fun b hlt hbk => hb.users b (hq.nrBuffers ▸ hlt) (hkey ▸ hbk)⟩
  refine ⟨⟨⟨⟨hq.repInv hi.holds.shared.1.1, hq.nrBuffers ▸ hi.holds.shared.1.2⟩, hi.holds.shared.2⟩,
    fun t g hg => (hi.holds.frames t g hg).keep hq.nrBuffers (fun b _ => congrFun hkey b) fun _ => id⟩,
    hi.stacked, fun b => (Buffer.sameCount_endRequest he b).trans (hi.count b), fun k hk => ?_, fun k hk => ?_⟩
  · exact ⟨hbounded (hi.spare k hk).1, (hi.spare k hk).2⟩
  · exact ⟨hbounded (hi.taking k hk).1, (hi.taking k hk).2⟩

/-- The buffer that `new_block` gets has one reference. -/
theorem Inv.fresh (hi : Inv s) {t : Fin n} {bh : ℕ} (hf : .newBlockHas dev j bh ∈ s.stack t) :
    (s.shared.cache.heads bh).bCount = 1 := by
  have hok := hi.holds.frames t _ hf
  have htake := State.frame_le_total (w := Frame.takes (dev, blockNr j)) hf
  have href := State.frame_le_total (w := Frame.refs bh) hf
  simp only [Frame.takes, List.count_singleton_self] at htake
  simp only [Frame.refs, Buffer.one_self] at href
  have := (hi.taking (dev, blockNr j) htake).1.users bh hok.1 hok.2
  rw [hi.count, show s.total (Frame.refs bh) = 1 by omega]

theorem execCache_ne_newBlockCount {s : Sys} {ch : Buffer.Choice Block} {f : Buffer.Frame} :
    execCache s ch f ≠ some (σ, .panic .newBlockCount) := by
  intro h
  obtain ⟨⟨c, nb⟩, -, he⟩ := Option.map_eq_some_iff.mp h
  cases nb <;> simp [lift] at he

theorem panic_newBlockCount {s : Sys} {ch : Choice} (h : exec s ch f = some (σ, .panic .newBlockCount)) :
    ∃ dev j bh, f = .newBlockHas dev j bh ∧ (s.cache.heads bh).bCount ≠ 1 := by
  cases f with
  | cache f =>
    by_cases hcode : ∃ held, f = .code held
    · obtain ⟨held, rfl⟩ := hcode
      cases ch with
      | cache ch => exact absurd h execCache_ne_newBlockCount
      | fileRead inode filp count =>
        simp only [exec, execCode, Option.some.injEq] at h
        split_ifs at h <;> cases h
      | _ => cases h
    · rw [exec_cache fun held he => hcode ⟨held, he⟩] at h
      exact absurd h execCache_ne_newBlockCount
  | newBlockHas dev j bh =>
    have h := Option.some.inj h
    unfold newBlockHas at h
    split_ifs at h with hcount
    · exact ⟨dev, j, bh, rfl, hcount⟩
    · cases h
  | newBlock dev =>
    have h := Option.some.inj h
    unfold newBlock at h
    split at h
    · cases h
    · split at h
      · cases h
      · dsimp only at h
        split_ifs at h <;> cases h
  | freeBlock dev block =>
    have h := Option.some.inj h
    unfold freeBlock at h
    split at h
    · cases h
    · split_ifs at h
      · cases h
      · split at h <;> cases h
  | freeBlockWait dev block bh =>
    have h := Option.some.inj h
    unfold freeBlockWait at h
    split_ifs at h <;> cases h
  | free dev z depth =>
    cases depth <;> simp only [exec, free, Option.some.injEq] at h
    · cases h
    · split_ifs at h <;> cases h
  | bmapTable dev z path =>
    cases path <;> simp only [exec, bmapTable, Option.some.injEq] at h
    · cases h
    · split_ifs at h <;> cases h
  | newBlockGot | freeGot | freeNext | truncateNext | bmapGot | fileReadNr | fileReadGot => cases h
  | newBlockNull | newBlockEnd | bmapEntry | fileReadEnd | fileReadCopy => cases h
  | _ =>
    simp only [exec, freeLoop, freeFreed, truncate, truncateLoop, truncateFreed, bmap, fileRead, fileReadZone,
      Option.some.injEq] at h
    split_ifs at h <;> cases h

theorem Inv.step {a : Act n Choice (EndRequest Block)} (hi : Inv s) (ha : Careful s a)
    (hs : (program n).step a s = some s') : Inv s' ∧ s'.panicked ≠ some .newBlockCount := by
  obtain ⟨hp, ⟨t, ch, f, fs, σ, nx, rfl, -, hst, hx, ⟨q, rfl, rfl⟩ | ⟨fs', cpu', he, rfl⟩⟩ |
    ⟨-, rfl⟩ | ⟨e, σ, -, hx, rfl⟩⟩ := Program.step_cases hs
  · refine ⟨hi.congr rfl rfl, fun hq => ?_⟩
    obtain rfl := Option.some.inj hq
    obtain ⟨dev, j, bh, rfl, hne⟩ := panic_newBlockCount hx
    exact hne (hi.fresh (hst ▸ List.mem_cons_self))
  · have hmem : f ∈ s.stack t := hst ▸ List.mem_cons_self
    have heff := exec_effect hi.holds.shared.1.1 hi.holds.shared.1.2 hi.holds.shared.2
      (hi.holds.frames t f hmem) (fun b hb => ?_) (by rintro q rfl; cases he) hx
    · exact ⟨hi.enter ha.few hst heff he
        (fun k hne hlt => ha.calls k ⟨t, ch, f, fs, σ, nx, rfl, hst, hx, hne, hlt⟩)
        fun k => ha.frees t ch f fs σ nx k rfl hst hx, by simp [hp]⟩
    · have h₁ := State.frame_le_total (w := Frame.refs b) hmem
      have h₂ := hi.count b
      have h₃ := ha.few b
      omega
  · exact ⟨hi.congr rfl rfl, by simp [hp]⟩
  · obtain ⟨c, hc, rfl⟩ := Option.map_eq_some_iff.mp hx
    exact ⟨hi.endRequest hc, by simp [hp]⟩

section

variable (startBuffer bufferEnd : ℕ) (junk : Buffer.Junk Block) (requestFn : ℕ → Bool)
  (disk : Dev → BlockNr → Block) (super : Dev → Option Super) (inode : ℕ → Inode) (fPos : ℕ → ℕ)

theorem inv_initial (htwo : 2 ≤ (Buffer.bufferInit startBuffer bufferEnd junk requestFn disk).nrBuffers) :
    Inv (initial n (Buffer.bufferInit startBuffer bufferEnd junk requestFn disk) super inode fPos) := by
  set c := Buffer.bufferInit startBuffer bufferEnd junk requestFn disk with hc
  have hzero : ∀ w : Frame → ℕ, w (.cache (.code [])) = 0 → (initial n c super inode fPos).total w = 0 :=
    fun w hw => State.total_eq_zero fun t f hf => by
      obtain rfl := List.mem_singleton.mp hf
      exact hw
  have hbounded : ∀ k m, Bounded (initial n c super inode fPos) k m := fun k m =>
    ⟨(hzero _ rfl).trans_le (Nat.zero_le _), fun b _ _ => by rw [hzero _ rfl, hzero _ rfl]; exact Nat.zero_le _⟩
  refine ⟨⟨⟨⟨Buffer.repInv_bufferInit _ _ _ _ _ htwo, htwo⟩, ?_⟩, fun t f hf => ?_⟩, fun t => .singleton _,
    fun b => ?_, fun k _ => ⟨hbounded k 0, hzero _ rfl⟩, fun k _ => ⟨hbounded k 1, hzero _ rfl⟩⟩
  · intro d sb hsb m hm
    obtain ⟨sb₀, -, rfl⟩ := Option.map_eq_some_iff.mp hsb
    simp only [Super.setBit, FileDev.setBit, update_self] at hm
    obtain ⟨m₀, -, rfl⟩ := Option.map_eq_some_iff.mp hm
    exact update_self ..
  · obtain rfl := List.mem_singleton.mp hf
    exact ⟨trivial, trivial⟩
  · have hblank := Buffer.blank_bufferInit startBuffer bufferEnd junk requestFn disk b
    simp only [Buffer.BufferHead.Blank, Prod.mk.injEq] at hblank
    rw [hzero _ rfl]
    exact hblank.2.2.2.1

/-- In a run whose steps are careful, `new_block` gets a buffer with one reference, its own, and never panics
because of another one. -/
theorem new_block_count (htwo : 2 ≤ (Buffer.bufferInit startBuffer bufferEnd junk requestFn disk).nrBuffers)
    (s : State n Sys Frame Panic) (h : Run (program n).step Careful
      (initial n (Buffer.bufferInit startBuffer bufferEnd junk requestFn disk) super inode fPos) s) :
    s.panicked ≠ some .newBlockCount ∧
      ∀ t dev j bh, .newBlockHas dev j bh ∈ s.stack t → (s.shared.cache.heads bh).bCount = 1 := by
  have hinit := inv_initial (n := n) startBuffer bufferEnd junk requestFn disk super inode fPos htwo
  have hs : Inv s ∧ s.panicked ≠ some .newBlockCount :=
    h.invariant (I := fun s => Inv s ∧ s.panicked ≠ some .newBlockCount) ⟨hinit, by simp [initial]⟩
      fun _ _ _ hi ha hstep => hi.1.step ha hstep
  exact ⟨hs.2, fun t dev j bh => hs.1.fresh⟩

end

/-- A fresh cache of two buffers for a hard disk. -/
def twoBuffers : Cache Block :=
  Buffer.bufferInit 0 (2 * (Buffer.BLOCK_SIZE + Buffer.sizeofBufferHead)) ⟨fun _ _ => 0, fun _ => 0⟩
    (fun major => major = 3) fun _ _ _ => 0

/-- A disk with the data zones 5 to 9, of which only zone 5 may be free. -/
def disk (used : Bool) : Dev → Option Super := fun dev =>
  if dev = 0x300 then some ⟨10, 5, fun i => if i = 0 then some fun j => j ≠ 1 ∨ used else none⟩ else none

/-- A regular file whose only zone is zone 5. -/
def file : ℕ → Inode := fun _ => ⟨Files.S_IFREG, 0x300, fun k => if k = 0 then 5 else 0⟩

/-- A step is careful when its piece of code asks for no other block and clears no bit. -/
theorem Inv.careful (hi : Inv s) {t : Fin n} {ch : Choice} {fs : List Frame} (hst : s.stack t = f :: fs)
    (hx : (exec s.shared ch f).map Prod.snd = some nx) (hnp : ∀ q, nx ≠ .panic q) (hret : nx ≠ .ret (.int 1))
    (hfew : ∀ u, ∀ g ∈ s.stack u, ∀ b, g.refs b = 0)
    (hasks : ∀ k, (∃ dev, f = .newBlock dev) ∨ nx.weight (Frame.asks k) (fun _ => 0) ≤ f.asks k) :
    Careful s (.run t ch) := by
  obtain ⟨⟨σ, nx₀⟩, hrun, he⟩ := Option.map_eq_some_iff.mp hx
  obtain rfl : nx₀ = nx := he
  have hmem : f ∈ s.stack t := hst ▸ List.mem_cons_self
  have heff := exec_effect hi.holds.shared.1.1 hi.holds.shared.1.2 hi.holds.shared.2
    (hi.holds.frames t f hmem) (fun b hb => by rw [hfew t f hmem b] at hb; cases hb) hnp hrun
  refine ⟨fun b => by rw [State.total_eq_zero fun u g hg => hfew u g hg b]; decide, ?_, ?_⟩
  · rintro k ⟨u, ch', g, gs, σ', nx', ha, hst', hx', hne, hlt⟩
    obtain ⟨rfl, rfl⟩ : t = u ∧ ch = ch' := by injection ha with h₁ h₂; exact ⟨h₁, h₂⟩
    obtain ⟨rfl, -⟩ := List.cons.inj (hst.symm.trans hst')
    obtain ⟨-, rfl⟩ := Prod.mk.inj (Option.some.inj (hrun.symm.trans hx'))
    rcases hasks k with ⟨dev, rfl⟩ | hle
    · exact absurd rfl (hne dev)
    · exact absurd hlt hle.not_gt
  · intro u ch' g gs σ' nx' k ha hst' hx' hold hnew
    obtain ⟨rfl, rfl⟩ : t = u ∧ ch = ch' := by injection ha with h₁ h₂; exact ⟨h₁, h₂⟩
    obtain ⟨rfl, -⟩ := List.cons.inj (hst.symm.trans hst')
    obtain ⟨rfl, rfl⟩ := Prod.mk.inj (Option.some.inj (hrun.symm.trans hx'))
    cases heff.account with
    | plain _ _ _ _ hspare => exact absurd (hspare k hnew) hold
    | take _ _ _ hspare => exact absurd (hspare k hnew) hold
    | clear => exact absurd rfl hret

/-- The first state, and those of a task in `new_block` up to the one in which it has its buffer. -/
def start : State 1 Sys Frame Panic := initial 1 twoBuffers (disk false) file fun _ => 0

def choice (k : ℕ) : Choice := if k = 0 then .newBlock 0x300 else .cache .done

def newState : ℕ → Option (State 1 Sys Frame Panic)
  | 0 => some start
  | k + 1 => (newState k).bind ((program 1).step (.run 0 (choice k)))

def hasBuffer : State 1 Sys Frame Panic := (newState 5).get (by decide +kernel)

theorem newState_succ (i : ℕ) (f : Frame) (fs : List Frame) (nx : Next Frame Value Panic)
    {s s' : State 1 Sys Frame Panic} (h : Run (program 1).step Careful start s ∧ Inv s) (hs : newState i = some s)
    (hs' : newState (i + 1) = some s') (hst : (newState i).map (·.stack 0) = some (f :: fs))
    (hx : ((newState i).bind fun s => exec s.shared (choice i) f).map Prod.snd = some nx)
    (hnp : ∀ q, nx ≠ .panic q) (hret : nx ≠ .ret (.int 1)) (hfew : ∀ g ∈ f :: fs, ∀ b, g.refs b = 0)
    (hasks : ∀ k, (∃ dev, f = .newBlock dev) ∨ nx.weight (Frame.asks k) (fun _ => 0) ≤ f.asks k) :
    Run (program 1).step Careful start s' ∧ Inv s' := by
  rw [hs, Option.map_some, Option.some.injEq] at hst
  rw [hs, Option.bind_some] at hx
  have hstep : (program 1).step (.run 0 (choice i)) s = some s' := by
    rw [newState, hs, Option.bind_some] at hs'
    exact hs'
  have hcareful : Careful s (.run 0 (choice i)) := h.2.careful hst hx hnp hret (fun u g hg => by
    rw [Subsingleton.elim u 0, hst] at hg
    exact hfew g hg) hasks
  exact ⟨h.1.tail hcareful hstep, (h.2.step hcareful hstep).1⟩

theorem run_hasBuffer : Run (program 1).step Careful start hasBuffer := by
  obtain ⟨s₁, h₁⟩ := Option.isSome_iff_exists.mp (show (newState 1).isSome by decide +kernel)
  obtain ⟨s₂, h₂⟩ := Option.isSome_iff_exists.mp (show (newState 2).isSome by decide +kernel)
  obtain ⟨s₃, h₃⟩ := Option.isSome_iff_exists.mp (show (newState 3).isSome by decide +kernel)
  obtain ⟨s₄, h₄⟩ := Option.isSome_iff_exists.mp (show (newState 4).isSome by decide +kernel)
  have r₀ : Run (program 1).step Careful start start ∧ Inv start :=
    ⟨.refl, inv_initial _ _ _ _ _ _ _ _ (show 2 ≤ twoBuffers.nrBuffers by decide +kernel)⟩
  have r₁ := newState_succ 0 (.cache (.code [])) [] (.call (.cache (.code [])) (.newBlock 0x300)) r₀ rfl h₁
    (by decide +kernel) (by decide +kernel) (by simp) (by simp) (by simp [Frame.refs, Buffer.Frame.refs])
    (by simp [Next.weight, Frame.asks, cacheAsks, cacheWants])
  have r₂ := newState_succ 1 (.newBlock 0x300) [.cache (.code [])]
    (.call (.newBlockGot 0x300 5) (.cache (.getblk 0x300 5))) r₁ h₁ h₂ (by decide +kernel) (by decide +kernel)
    (by simp) (by simp) (by simp [Frame.refs, Buffer.Frame.refs]) (by simp)
  have r₃ := newState_succ 2 (.cache (.getblk 0x300 5)) [.newBlockGot 0x300 5, .cache (.code [])]
    (.goto (.cache (.getblkScan 0x300 5))) r₂ h₂ h₃ (by decide +kernel) (by decide +kernel) (by simp) (by simp)
    (by simp [Frame.refs, Buffer.Frame.refs]) (by simp [Next.weight, Frame.asks, cacheAsks, cacheWants])
  have r₄ := newState_succ 3 (.cache (.getblkScan 0x300 5)) [.newBlockGot 0x300 5, .cache (.code [])]
    (.goto (.cache (.getblkWait 0x300 5 0))) r₃ h₃ h₄ (by decide +kernel) (by decide +kernel) (by simp) (by simp)
    (by simp [Frame.refs, Buffer.Frame.refs]) (by simp [Next.weight, Frame.asks, cacheAsks, cacheWants])
  exact (newState_succ 4 (.cache (.getblkWait 0x300 5 0)) [.newBlockGot 0x300 5, .cache (.code [])]
    (.ret (.buffer (some 0))) r₄ h₄ (Option.some_get _).symm (by decide +kernel) (by decide +kernel) (by simp)
    (by simp) (by simp [Frame.refs, Buffer.Frame.refs])
    (by simp [Next.weight, Frame.asks, cacheAsks, cacheWants])).1

theorem new_block_count_hasBuffer : hasBuffer.stack 0 = [.newBlockHas 0x300 5 0, .cache (.code [])] ∧
    (hasBuffer.shared.cache.heads 0).bCount = 1 := by
  have hst : hasBuffer.stack 0 = [.newBlockHas 0x300 5 0, .cache (.code [])] := by decide +kernel
  refine ⟨hst, (new_block_count 0 _ _ _ _ (disk false) file (fun _ => 0)
    (show 2 ≤ twoBuffers.nrBuffers by decide +kernel) hasBuffer run_hasBuffer).2 0 0x300 5 0 ?_⟩
  rw [hst]
  exact List.mem_cons_self

/-- `k` pieces of code of the task `t`. -/
def goOn (t : Fin n) (k : ℕ) : List (Act n Choice (EndRequest Block)) :=
  List.replicate k (.run t (.cache .done))

/-- The last task holds both buffers, so the first one sleeps in `getblk` for the zone of the file; the second
one truncates the file. Then a buffer is released, the first task reads the zone into it, and the second one
takes the zone. -/
def busySteps : List (Act 3 Choice (EndRequest Block)) :=
  .run 2 (.cache (.getblk 0x300 1)) :: goOn 2 3 ++ .run 2 (.cache (.getblk 0x300 2)) :: goOn 2 3 ++ [.tick] ++
    .run 0 (.fileRead 0 0 1024) :: goOn 0 7 ++ .run 1 (.truncate 0) :: goOn 1 18 ++ [.tick] ++
    .run 2 (.cache (.brelse 0)) :: goOn 2 1 ++ [.tick] ++ goOn 0 8 ++ .run 1 (.newBlock 0x300) :: goOn 1 3 ++
    [.intr ⟨31, true, fun _ => 0⟩] ++ goOn 1 2

theorem new_block_busy : ∃ s, Run (program 3).step Always (initial 3 twoBuffers (disk true) file fun _ => 0) s ∧
    s.panicked = some .newBlockCount := by
  have hrun : (runList (program 3).step busySteps (initial 3 twoBuffers (disk true) file fun _ => 0)).map
      (·.panicked) = some (some .newBlockCount) := by decide +kernel
  obtain ⟨s, hs, hp⟩ := Option.map_eq_some_iff.mp hrun
  exact ⟨s, .of_runList hs, hp⟩

end Linux012.Tasks
