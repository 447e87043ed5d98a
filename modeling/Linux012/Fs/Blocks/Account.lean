import Linux012.Fs.Blocks.Bodies
import Linux012.Fs.Blocks.Cache

/-! # The counts are the references that are held

As long as no buffer has more than 255 references, `b_count` is the number of references that the activations
on the stacks hold. A call that has returned holds none, so it leaves the counts as they were but for the
buffer that it returns and for what other tasks did meanwhile.
-/

namespace Linux012.Blocks

open Function Coop Scripts Loans Runs Buffer
open FileDev (Block)

variable {n : ℕ} {s s' : Sys} {f g h : Frame} {nx : Next Frame Value AnyPanic} {b : ℕ}

namespace Frame

/-- What the function of an activation returns; the rest of the kernel does not. -/
def kind : Frame → Kind
  | .cache f => if f.isVoid then .void else .buffer
  | .run f _ _ => f.kind
  | .wait f _ _ _ => f.kind
  | .kernel _ => .void
  | .kernelWait _ _ => .void

/-- What an activation that waits for a call gets from it -/
def awaited : Frame → Option Kind
  | .cache f => some (if f.awaitsVoid then .void else .buffer)
  | .wait _ _ g _ => some g.kind
  | .kernelWait _ g => some g.kind
  | _ => none

/-- A script is balanced from where it is on. -/
def Good : Frame → Prop
  | .cache f => f.Proper
  | .run f held p => Ends f (loans.Leaves (.fn f)) held p
  | .wait f held g k => ∀ v, v.Fits g.kind → Ends f (loans.Leaves (.fn f)) (held + v.gives) (k v)
  | _ => True

end Frame

/-- The frame below waits for what the frame returns. -/
def Waits (f g : Frame) : Prop := g.awaited = some f.kind

/-- A piece of code goes on in its own function, and calls functions that return what it waits for. -/
def Frame.Goes (f : Frame) : Next Frame Value AnyPanic → Prop
  | .goto g => g.Good ∧ g.kind = f.kind
  | .sleep g => g.Good ∧ g.kind = f.kind
  | .call g h => (g.Good ∧ g.kind = f.kind) ∧ h.Good ∧ Waits h g
  | .ret v => v.Fits f.kind
  | .panic q => q = .inl .freeFreeBuffer → ∃ bh, f = .cache (.brelse bh)

theorem Frame.Goes.good (hg : f.Goes nx) : ∀ g ∈ nx.frames, g.Good := by
  intro g hm
  cases nx with
  | goto | sleep =>
    obtain rfl := List.mem_singleton.mp hm
    exact hg.1
  | call g' h =>
    rcases List.mem_pair.mp hm with rfl | rfl
    · exact hg.2.1
    · exact hg.1.1
  | ret | panic => cases hm

theorem Frame.Goes.fits (hg : f.Goes nx) : nx.Fits Waits f := by
  have hsame : ∀ {g : Frame}, g.kind = f.kind → ∀ x, Waits f x → Waits g x := fun hk x hx =>
    hx.trans (congrArg some hk.symm)
  cases nx with
  | goto | sleep => exact hsame hg.2
  | call => exact ⟨hg.2.2, hsame hg.1.2⟩
  | ret | panic => trivial

theorem Frame.Goes.keeps {κ : Kind} (hg : f.Goes nx) (hf : f.kind = κ) :
    nx.Keeps fun g => g.kind = κ := by
  cases nx with
  | goto | sleep => exact hg.2.trans hf
  | call => exact hg.1.2.trans hf
  | ret | panic => trivial

/-! ## Frames of calls -/

theorem good_entryFrame (g : Callee) : (entryFrame g).Good := by
  cases g with
  | fn f => exact ends_body f
  | _ => trivial

@[simp] theorem kind_entryFrame (g : Callee) : (entryFrame g).kind = g.kind := by cases g <;> rfl

@[simp] theorem refs_entryFrame (g : Callee) : (entryFrame g).refs b = g.takes.count b := by
  cases g with
  | brelse bh => simp [entryFrame, Frame.refs, Buffer.Frame.refs, Callee.takes, one, Multiset.count_singleton, eq_comm]
  | _ => rfl

theorem ofCache_of_proper {f : Buffer.Frame} (hf : f.Proper) : ofCache f = .cache f := by
  cases f with
  | code => exact hf.elim
  | _ => rfl

theorem refs_ofCache {f : Buffer.Frame} (hf : f.Proper ∨ f = .code []) : (ofCache f).refs b = f.refs b := by
  rcases hf with hf | rfl
  · rw [ofCache_of_proper hf]
    rfl
  · rfl

/-! ## Pieces of code -/

/-- The count of a buffer moves by what the frame gives up and leaves, as far as its width allows. -/
structure Moves (s s' : Sys) (f : Frame) (nx : Next Frame Value AnyPanic) : Prop where
  moves : ∀ b, s'.count b + f.refs b ≡ s.count b + nx.weight (Frame.refs b) (Value.refs b) [MOD 256]
  small : ∀ b, s.count b < 256 → s'.count b < 256

theorem Moves.of_eq (hc : ∀ b, s'.count b = s.count b)
    (hr : ∀ b, nx.weight (Frame.refs b) (Value.refs b) = f.refs b) : Moves s s' f nx :=
  ⟨fun b => by rw [hc, hr], fun b hb => by rw [hc]; exact hb⟩

theorem refs_buffer (v : Buffer.Value) : Value.refs b (.buffer v) = Buffer.Value.refs b v := by
  cases v with
  | none => rfl
  | some bh => simp [Value.refs, Value.gives, Buffer.Value.refs, one, Multiset.count_singleton, eq_comm]

/-- A piece of code of the cache -/
theorem cache_goes {f : Buffer.Frame} {nx : Next Buffer.Frame Buffer.Value Buffer.Panic} (hg : f.Goes nx) :
    (Frame.cache f).Goes (liftNext nx) := by
  have hkind : ∀ {g : Buffer.Frame}, g.Proper ∧ g.isVoid = f.isVoid →
      (ofCache g).Good ∧ (ofCache g).kind = (Frame.cache f).kind := by
    rintro g ⟨hg, hv⟩
    rw [ofCache_of_proper hg]
    exact ⟨hg, by simp only [Frame.kind, hv]⟩
  cases nx with
  | goto | sleep => exact hkind hg
  | call g h =>
    obtain ⟨hgf, hh, hv⟩ := hg
    refine ⟨hkind hgf, ?_⟩
    rw [ofCache_of_proper hgf.1]
    rcases hh with hh | rfl
    · rw [ofCache_of_proper hh]
      exact ⟨hh, by simp only [Waits, Frame.awaited, Frame.kind, hv]⟩
    · refine ⟨good_entryFrame (.fn .syncInodes), ?_⟩
      have hv : g.awaitsVoid = true := hv.symm
      simp [Waits, Frame.awaited, hv, ofCache, Callee.kind, Fn.kind]
  | ret v =>
    change Value.Fits (if f.isVoid then .void else .buffer) (.buffer v)
    split
    · rw [hg ‹_›]
      trivial
    · trivial
  | panic q =>
    intro hq
    obtain ⟨bh, rfl⟩ := hg (Sum.inl.inj hq)
    exact ⟨bh, rfl⟩

theorem cache_moves {f : Buffer.Frame} {c : Cache Block} {nx : Next Buffer.Frame Buffer.Value Buffer.Panic}
    (hg : f.Goes nx) (hc : Counts s.cache c f nx) :
    Moves s { s with cache := c } (.cache f) (liftNext nx) := by
  have hw : ∀ b, (liftNext nx).weight (Frame.refs b) (Value.refs b) =
      nx.weight (Buffer.Frame.refs b) (Buffer.Value.refs b) := by
    intro b
    cases nx with
    | goto | sleep => exact refs_ofCache (.inl hg.1)
    | call => exact congrArg₂ _ (refs_ofCache (.inl hg.1.1)) (refs_ofCache hg.2.1)
    | ret v => exact refs_buffer v
    | panic => rfl
  exact ⟨fun b => by rw [hw]; exact hc.moves b, hc.small⟩

/-- A piece of a balanced script -/
theorem runScript_spec {f : Fn} {held : Multiset ℕ} {p : Code Value}
    (hp : Ends f (loans.Leaves (.fn f)) held p) (hs : ∀ i ∈ held, s.count i ≠ 0)
    (h : runScript f held p s = (s', nx)) :
    (∀ b, s'.count b = s.count b) ∧ (Frame.run f held p).Goes nx ∧
      ((∀ q, nx ≠ .panic q) → ∀ b, nx.weight (Frame.refs b) (Value.refs b) = held.count b) := by
  obtain ⟨hcount, hstop⟩ := hp.run hs
  unfold runScript at h
  generalize hr : p.run s = r at h hcount hstop
  obtain ⟨a, stop⟩ := r
  cases stop with
  | ret v =>
    obtain ⟨rfl, rfl⟩ := Prod.mk.inj h
    obtain ⟨hfit, rfl⟩ := hstop
    exact ⟨hcount, hfit, fun _ _ => rfl⟩
  | call g k =>
    obtain ⟨rfl, rfl⟩ := Prod.mk.inj h
    obtain ⟨htakes, hk⟩ := hstop
    refine ⟨hcount, ⟨⟨hk, rfl⟩, good_entryFrame g, ?_⟩, fun _ b => ?_⟩
    · rw [Waits, kind_entryFrame]
      rfl
    · have hle := Multiset.count_le_of_le b htakes
      change g.takes.count b ≤ held.count b at hle
      change (held - g.takes).count b + (entryFrame g).refs b = held.count b
      rw [refs_entryFrame, Multiset.count_sub]
      omega
  | sleep k =>
    obtain ⟨rfl, rfl⟩ := Prod.mk.inj h
    exact ⟨hcount, ⟨hstop, rfl⟩, fun _ _ => rfl⟩
  | goto g =>
    obtain ⟨rfl, rfl⟩ := Prod.mk.inj h
    obtain ⟨htakes, hkind⟩ := hstop
    refine ⟨hcount, ⟨good_entryFrame g, (kind_entryFrame g).trans hkind⟩, fun _ b => ?_⟩
    rw [← htakes]
    exact refs_entryFrame g
  | panic q =>
    obtain ⟨rfl, rfl⟩ := Prod.mk.inj h
    exact ⟨hcount, nofun, fun hnp => absurd rfl (hnp _)⟩

theorem runKernel_spec {held : Multiset ℕ} {ch : Choice} (h : runKernel held s ch = some (s', nx)) :
    (∀ b, s'.count b = s.count b) ∧ (Frame.kernel held).Goes nx ∧
      ∀ b, nx.weight (Frame.refs b) (Value.refs b) = held.count b := by
  unfold runKernel at h
  cases ch with
  | call g =>
    dsimp only at h
    split at h
    · rename_i htakes
      obtain ⟨rfl, rfl⟩ := Prod.mk.inj (Option.some.inj h)
      refine ⟨fun _ => rfl, ⟨⟨trivial, rfl⟩, good_entryFrame g, ?_⟩, fun b => ?_⟩
      · rw [Waits, kind_entryFrame]
        rfl
      · have hle := Multiset.count_le_of_le b htakes
        change (held - g.takes).count b + (entryFrame g).refs b = held.count b
        rw [refs_entryFrame, Multiset.count_sub]
        omega
    · cases h
  | store bh data =>
    dsimp only at h
    split at h
    · obtain ⟨rfl, rfl⟩ := Prod.mk.inj (Option.some.inj h)
      exact ⟨Sys.count_setHead (by intro b; rfl), ⟨trivial, rfl⟩, fun _ => rfl⟩
    · cases h
  | world w =>
    obtain ⟨rfl, rfl⟩ := Prod.mk.inj (Option.some.inj h)
    exact ⟨fun _ => rfl, ⟨trivial, rfl⟩, fun _ => rfl⟩
  | go => cases h

/-- Everything a piece of code does, when the buffers that its frame holds have references -/
theorem exec_spec {ch : Choice} (hf : f.Good) (hs : ∀ i, f.refs i ≠ 0 → s.count i ≠ 0)
    (h : exec ch s f = some (s', nx)) : f.Goes nx ∧ ((∀ q, nx ≠ .panic q) → Moves s s' f nx) := by
  cases f with
  | cache f =>
    obtain ⟨⟨c, nx'⟩, hx, hr⟩ := Option.map_eq_some_iff.mp h
    obtain ⟨rfl, rfl⟩ := Prod.mk.inj hr
    have hg := goes_exec hf hx
    refine ⟨cache_goes hg, fun hnp => cache_moves hg ((exec_effect (Frame.Proper.arises hf) hx).counts ?_)⟩
    rintro q rfl
    exact hnp _ rfl
  | run f held p =>
    have hheld : ∀ i ∈ held, s.count i ≠ 0 := fun i hi => hs i (Multiset.count_ne_zero.mpr hi)
    obtain ⟨hcount, hg, hw⟩ := runScript_spec hf hheld (Option.some.inj h)
    exact ⟨hg, fun hnp => .of_eq hcount (hw hnp)⟩
  | kernel held =>
    obtain ⟨hcount, hg, hw⟩ := runKernel_spec h
    exact ⟨hg, fun _ => .of_eq hcount hw⟩
  | wait | kernelWait => cases h

theorem exec_cache_panic {ch : Choice} {f : Buffer.Frame} {q : Buffer.Panic}
    (h : exec ch s (.cache f) = some (s', .panic (.inl q))) :
    ∃ c, Buffer.exec s.cache .done f = some (c, .panic q) := by
  obtain ⟨⟨c, nx⟩, hx, hr⟩ := Option.map_eq_some_iff.mp h
  have hl : liftNext nx = .panic (.inl q) := (Prod.mk.inj hr).2
  cases nx with
  | panic q' =>
    obtain rfl := Sum.inl.inj (Next.panic.inj hl)
    exact ⟨c, hx⟩
  | goto | sleep | call | ret => cases hl

/-- An activation that goes on still returns a value of its kind. -/
theorem kind_resume {v : Value} (h : resume f v = some g) : g.kind = f.kind := by
  cases f with
  | cache f =>
    cases v with
    | buffer v =>
      obtain ⟨g', hr, rfl⟩ := Option.map_eq_some_iff.mp h
      simp only [Frame.kind, isVoid_resume hr]
    | super | int => cases h
  | wait | kernelWait =>
    obtain rfl := Option.some.inj h
    rfl
  | run | kernel => cases h

/-- A frame that waits for a value goes on with a value of this kind. -/
theorem good_resume {v : Value} (hf : f.Good) (hv : ∀ κ, f.awaited = some κ → v.Fits κ)
    (h : resume f v = some g) : g.Good := by
  cases f with
  | cache f =>
    cases v with
    | buffer v =>
      obtain ⟨g', hr, rfl⟩ := Option.map_eq_some_iff.mp h
      exact proper_resume hf hr
    | super | int => cases h
  | wait f held g' k =>
    obtain rfl := Option.some.inj h
    exact hf v (hv _ rfl)
  | kernelWait =>
    obtain rfl := Option.some.inj h
    trivial
  | run | kernel => cases h

theorem refs_resume {v : Value} (h : resume f v = some g) : g.refs b = f.refs b + v.refs b := by
  cases f with
  | cache f =>
    cases v with
    | buffer v =>
      obtain ⟨g', hr, rfl⟩ := Option.map_eq_some_iff.mp h
      rw [refs_buffer]
      exact Buffer.refs_resume hr
    | super | int => cases h
  | wait | kernelWait =>
    obtain rfl := Option.some.inj h
    exact Multiset.count_add b _ _
  | run | kernel => cases h

end Linux012.Blocks
