import Linux012.Fs.Tasks.Basic

/-! # The blocks that tasks ask for

A task that is inside `getblk` or `get_hash_table` has asked for a block and does not hold its buffer yet. Once
it does, the buffer keeps the block.
-/

namespace Linux012.Tasks

open Function Coop
open Buffer (Cache Dev BlockNr RepInv SameQueues one incCount)
open Buffer.Cache (heads_upd_self)

variable {D : Type*} {c c' : Cache D} {f g : Buffer.Frame} {nx nx' : Next Buffer.Frame Buffer.Value Buffer.Panic}
  {d : Dev} {block : BlockNr} {b bh : ℕ} {k : Key}

def key (c : Cache D) (b : ℕ) : Key := (c.dev b, c.blk b)

/-- The blocks that a frame of the cache has still to find a buffer for. -/
def cacheWants : Buffer.Frame → List Key
  | .getHashTable d b => [(d, b)]
  | .getblk d b => [(d, b)]
  | .getblkScan d b => [(d, b)]
  | .getblkWait d b _ => [(d, b)]
  | .bread d b => [(d, b)]
  | .breadPage d todo _ => todo.map (d, ·)
  | .breadPageGot d todo _ => todo.map (d, ·)
  | .breadPageRead d todo _ _ => todo.map (d, ·)
  | .breada d first rest => (first :: rest).map (d, ·)
  | .breadaGot d rest => rest.map (d, ·)
  | .breadaRead d rest _ => rest.map (d, ·)
  | .breadaRest d rest _ => rest.map (d, ·)
  | .breadaRestGot d rest _ => rest.map (d, ·)
  | .breadaAhead d rest _ _ => rest.map (d, ·)
  | .breadaDrop d rest _ _ => rest.map (d, ·)
  | _ => []

def cacheAsks (k : Key) (f : Buffer.Frame) : ℕ := (cacheWants f).count k

/-- A frame of `get_hash_table` that has a reference has the buffer of its block. -/
def Keyed (c : Cache D) : Buffer.Frame → Prop
  | .getHashTableWait d b bh => bh < c.nrBuffers ∧ key c bh = (d, b)
  | .getblkHash d b bh => bh < c.nrBuffers ∧ key c bh = (d, b)
  | _ => True

/-- No more users of a block than before, if the piece of code asks for no other block: those who ask for it
and those who hold its buffer. -/
structure Users (c : Cache D) (f : Buffer.Frame) (c' : Cache D)
    (nx : Next Buffer.Frame Buffer.Value Buffer.Panic) : Prop where
  le : ∀ k, nx.weight (cacheAsks k) (fun _ => 0) ≤ cacheAsks k f → ∀ b, key c' b = k →
    nx.weight (cacheAsks k) (fun _ => 0) + nx.weight (Buffer.Frame.refs b) (Buffer.Value.refs b) ≤
      cacheAsks k f + f.refs b
  keyed : ∀ g ∈ nx.frames, Keyed c' g

theorem users_of_le
    (hr : ∀ b, nx.weight (Buffer.Frame.refs b) (Buffer.Value.refs b) ≤ f.refs b)
    (hk : ∀ g ∈ nx.frames, Keyed c' g) : Users c f c' nx :=
  ⟨fun _ ha b _ => Nat.add_le_add ha (hr b), hk⟩

theorem users_of_eq (h : (c, nx) = (c', nx'))
    (hr : ∀ b, nx.weight (Buffer.Frame.refs b) (Buffer.Value.refs b) ≤ f.refs b)
    (hk : ∀ g ∈ nx.frames, Keyed c g) : Users c f c' nx' := by
  obtain ⟨rfl, rfl⟩ := Prod.mk.inj h
  exact users_of_le hr hk

theorem users_waitOnBuffer {go : Buffer.Piece D} (hf : Keyed c f)
    (hgo : go = (c', nx) → Users c f c' nx) (h : Buffer.waitOnBuffer c bh f go = (c', nx)) :
    Users c f c' nx := by
  unfold Buffer.waitOnBuffer at h
  split_ifs at h
  · exact users_of_eq h (fun _ => le_rfl) (by simpa [Next.frames] using hf)
  · exact hgo h

/-- A buffer that is found has the block that was asked for. -/
theorem users_lookup (hc : RepInv c) {wait : ℕ → Buffer.Frame}
    (hask : cacheWants f = [(d, block)]) (hwant : ∀ i, cacheWants (wait i) = [])
    (hrefs : ∀ i b, (wait i).refs b = one b i)
    (hkey : ∀ (c' : Cache D) i, i < c'.nrBuffers → key c' i = (d, block) → Keyed c' (wait i))
    (hnull : Users c f c nx') (h : Buffer.lookup c d block wait nx' = (c', nx)) : Users c f c' nx := by
  unfold Buffer.lookup at h
  split at h
  · obtain ⟨rfl, rfl⟩ := Prod.mk.inj h
    exact hnull
  · rename_i i hi
    obtain ⟨rfl, rfl⟩ := Prod.mk.inj h
    obtain ⟨hlt, -, hd, hb⟩ := hc.key_of_findBuffer hi
    have hq : SameQueues c (incCount c i) := Buffer.sameQueues_incCount
    have hsame : ∀ b, key (incCount c i) b = key c b := fun b => by
      rw [key, hq.dev, hq.blk]
      rfl
    have hik : key c i = (d, block) := Prod.ext hd hb
    refine ⟨fun k _ b hbk => ?_, ?_⟩
    · rw [hsame] at hbk
      simp only [Next.weight, cacheAsks, hask, hwant, hrefs, List.count_nil, Nat.zero_add]
      by_cases hbi : i = b
      · subst hbi
        rw [← hbk, hik, List.count_singleton_self, Buffer.one_self]
        exact Nat.le_add_right 1 _
      · rw [Buffer.one_of_ne hbi]
        exact Nat.zero_le _
    · intro g hg
      obtain rfl := List.mem_singleton.mp hg
      exact hkey _ i (hq.nrBuffers ▸ hlt) ((hsame i).trans hik)

theorem users_recheck {again : Buffer.Frame} (hf : Keyed c f)
    (hr : ∀ b, f.refs b = one b bh) (hb : bh < c.nrBuffers ∧ key c bh = (d, block))
    (h : Buffer.recheck c d block bh f again = (c', nx)) : Users c f c' nx := by
  refine users_waitOnBuffer hf (fun h => ?_) h
  have hkey : c.dev bh = d ∧ c.blk bh = block := Prod.mk.inj hb.2
  rw [if_pos hkey] at h
  exact users_of_eq h (fun b => (hr b).ge) (by simp [Next.frames])

theorem users_takeFree (hc : RepInv c) (htwo : 2 ≤ c.nrBuffers) (hbh : bh < c.nrBuffers)
    (h : Buffer.takeFree c d block bh = (c', nx)) : Users c (.getblkWait d block bh) c' nx := by
  refine users_waitOnBuffer trivial (fun h => ?_) h
  split_ifs at h with hz hd hfind
  · exact users_of_eq h (fun _ => le_rfl) (by simp [Next.frames, Keyed])
  · exact users_of_eq h (fun _ => le_rfl) (by simp [Next.frames, Keyed])
  · exact users_of_eq h (fun _ => le_rfl) (by simp [Next.frames, Keyed])
  · obtain ⟨c₁, hrun, -, hcont⟩ := hc.rekey htwo hbh (by simpa using hfind) (d := d)
    simp only [hrun, Prod.mk.injEq] at h
    obtain ⟨rfl, rfl⟩ := h
    refine ⟨fun k _ b hbk => ?_, by simp [Next.frames]⟩
    simp only [Next.weight, Buffer.Value.refs, Buffer.Frame.refs, Nat.zero_add, Nat.add_zero]
    by_cases hb : bh = b
    · subst hb
      have hnew : key c₁ bh = (d, block) := by
        rw [key, hcont.dev, hcont.blk, Cache.dev, Cache.blk, heads_upd_self]
        rfl
      rw [← hbk, hnew, Buffer.one_self, cacheAsks, cacheWants, List.count_singleton_self]
    · rw [Buffer.one_of_ne hb]
      exact Nat.zero_le _

theorem users_code {held : List ℕ} {ch : Buffer.Choice D} (h : Buffer.execCode c held ch = some (c', nx)) :
    Users c (.code held) c' nx := by
  cases ch with
  | brelse bh =>
    simp only [Buffer.execCode] at h
    split_ifs at h with hm
    refine users_of_eq (Option.some.inj h) (fun b => ?_) (by simp [Next.frames, Keyed])
    have hpos := List.count_pos_iff.mpr hm
    by_cases hb : bh = b
    · subst hb
      simp only [Next.weight, Buffer.Frame.refs, List.count_erase_self, Buffer.one_self]
      omega
    · simp [Next.weight, Buffer.Frame.refs, List.count_erase_of_ne (Ne.symm hb), Buffer.one_of_ne hb]
  | store bh data =>
    simp only [Buffer.execCode] at h
    split_ifs at h with hm
    obtain ⟨rfl, rfl⟩ := Prod.mk.inj (Option.some.inj h)
    exact users_of_le (fun _ => le_rfl) (by simp [Next.frames, Keyed])
  | done =>
    simp only [Buffer.execCode] at h
    split_ifs at h
    exact users_of_eq (Option.some.inj h) (fun b => Nat.zero_le _) (by simp [Next.frames])
  | _ =>
    exact users_of_eq (Option.some.inj h) (fun b => by simp [Next.weight, Buffer.Frame.refs])
      (by simp [Next.frames, Keyed])

/-- What a piece of the cache's code leaves of the users of a block. -/
theorem users_exec {ch : Buffer.Choice D} (hc : RepInv c) (htwo : 2 ≤ c.nrBuffers) (hf : f.Ok c)
    (hk : Keyed c f) (h : Buffer.exec c ch f = some (c', nx)) : Users c f c' nx := by
  cases f with
  | code held => exact users_code h
  | getHashTable d block =>
    refine users_lookup hc rfl (fun _ => rfl) (fun _ _ => rfl) (fun _ _ => And.intro) ?_
      (Option.some.inj h)
    exact users_of_le (fun _ => le_rfl) (by simp [Next.frames])
  | getblk d block =>
    refine users_lookup hc rfl (fun _ => rfl) (fun _ _ => rfl) (fun _ _ => And.intro) ?_
      (Option.some.inj h)
    exact users_of_le (fun _ => le_rfl) (by simp [Next.frames, Keyed])
  | getHashTableWait d block bh | getblkHash d block bh =>
    exact users_recheck hk (fun _ => rfl) hk (Option.some.inj h)
  | getblkWait d block bh => exact users_takeFree hc htwo hf (Option.some.inj h)
  | brelse bh =>
    refine users_waitOnBuffer trivial (fun h => ?_) (Option.some.inj h)
    split_ifs at h
    · exact users_of_eq h (fun _ => Nat.zero_le _) (by simp [Next.frames])
    · obtain ⟨rfl, rfl⟩ := Prod.mk.inj h
      exact users_of_le (fun _ => Nat.zero_le _) (by simp [Next.frames])
  | breadaDrop d rest bh tmp =>
    obtain ⟨rfl, rfl⟩ := Prod.mk.inj (Option.some.inj h)
    exact users_of_le (fun _ => Nat.le_add_right ..) (by simp [Next.frames, Keyed])
  | breadWait bh =>
    refine users_waitOnBuffer trivial (fun h => ?_) (Option.some.inj h)
    split_ifs at h <;> exact users_of_eq h (fun b => by simp [Next.weight, Buffer.Frame.refs, Buffer.Value.refs])
      (by simp [Next.frames, Keyed])
  | syncDevWait d again i =>
    refine users_waitOnBuffer trivial (fun h => ?_) (Option.some.inj h)
    split_ifs at h <;> exact users_of_eq h (fun _ => le_rfl) (by simp [Next.frames, Keyed])
  | breadPageCopy got =>
    rcases got with _ | ⟨_ | bh, got⟩
    · exact users_of_eq (Option.some.inj h) (fun _ => le_rfl) (by simp [Next.frames])
    · exact users_of_eq (Option.some.inj h) (fun b => by simp [Next.weight, Buffer.Frame.refs])
        (by simp [Next.frames, Keyed])
    · refine users_waitOnBuffer trivial (fun h => ?_) (Option.some.inj h)
      exact users_of_eq h (fun b => by simp [Next.weight, Buffer.Frame.refs, List.count_cons, one])
        (by simp [Next.frames, Keyed])
  | breadPage d todo got =>
    cases todo with
    | nil => exact users_of_eq (Option.some.inj h) (fun _ => le_rfl) (by simp [Next.frames, Keyed])
    | cons x todo =>
      simp only [Buffer.exec, Option.some.injEq] at h
      split_ifs at h <;> exact users_of_eq h (fun b => by simp [Next.weight, Buffer.Frame.refs])
        (by simp [Next.frames, Keyed])
  | breadPageRead d todo got bh =>
    simp only [Buffer.exec, Option.some.injEq] at h
    split_ifs at h <;> exact users_of_eq h
      (fun b => by simp [Next.weight, Buffer.Frame.refs, List.count_cons, one])
      (by simp [Next.frames, Keyed])
  | breadaRest d rest bh =>
    cases rest <;> exact users_of_eq (Option.some.inj h) (fun _ => by simp [Next.weight, Buffer.Frame.refs])
      (by simp [Next.frames, Keyed])
  | getblkScan d block =>
    simp only [Buffer.exec, Option.some.injEq] at h
    split at h <;> exact users_of_eq h (fun _ => le_rfl) (by simp [Next.frames, Keyed])
  | syncDev d again i =>
    have h := Option.some.inj h
    unfold Buffer.syncDev at h
    split_ifs at h <;> exact users_of_eq h (fun _ => le_rfl) (by simp [Next.frames, Keyed])
  | llRwBlock rw bh =>
    have h := Option.some.inj h
    cases rw <;> simp only [Buffer.llRwBlock] at h <;> split_ifs at h <;>
      exact users_of_eq h (fun _ => le_rfl) (by simp [Next.frames, Keyed])
  | lockBuffer rw ahead bh =>
    refine users_waitOnBuffer trivial (fun h => ?_) (Option.some.inj h)
    dsimp only at h
    split_ifs at h <;> obtain ⟨rfl, rfl⟩ := Prod.mk.inj h <;>
      exact users_of_le (fun _ => le_rfl) (by simp [Next.frames, Keyed])
  | findRequest rw ahead bh =>
    have h := Option.some.inj h
    unfold Buffer.findRequest at h
    split at h
    · obtain ⟨rfl, rfl⟩ := Prod.mk.inj h
      exact users_of_le (fun _ => le_rfl) (by simp [Next.frames])
    · split_ifs at h <;> obtain ⟨rfl, rfl⟩ := Prod.mk.inj h <;>
        exact users_of_le (fun _ => le_rfl) (by simp [Next.frames, Keyed])
  | breadGot | breadPageGot | breadaGot | breadaRestGot => cases h
  | breadRead | breadaRead | breadaAhead =>
    simp only [Buffer.exec, Option.some.injEq] at h
    split_ifs at h <;> exact users_of_eq h
      (fun b => by simp [Next.weight, Buffer.Frame.refs, Buffer.Value.refs]) (by simp [Next.frames, Keyed])
  | bread | breada | returnNull | getblkNull =>
    exact users_of_eq (Option.some.inj h)
      (fun b => by simp [Next.weight, Buffer.Frame.refs, Buffer.Value.refs]) (by simp [Next.frames, Keyed])

/-- A frame that `getblk` returns `NULL` to asks for nothing any more. -/
theorem cacheAsks_resume {v : Buffer.Value} (h : Buffer.resume f v = some g) :
    cacheAsks k g ≤ cacheAsks k f := by
  cases f <;> cases v <;> simp only [Buffer.resume, reduceCtorEq, Option.some.injEq] at h <;> subst h <;>
    first | exact le_rfl | exact Nat.zero_le _

theorem keyed_resume {v : Buffer.Value} (hf : Keyed c f) (h : Buffer.resume f v = some g) : Keyed c g := by
  cases f <;> cases v <;> simp only [Buffer.resume, reduceCtorEq, Option.some.injEq] at h <;> subst h <;>
    trivial

/-! ## Inside `getblk` -/

/-- A piece of `getblk` stays in the same call, or returns the buffer of the block. -/
theorem inGetblk_exec {ch : Buffer.Choice D} (hc : RepInv c) (htwo : 2 ≤ c.nrBuffers) (hf : f.Ok c)
    (hk : Keyed c f) (hin : f.inGetblk d block) (h : Buffer.exec c ch f = some (c', nx)) :
    (∃ g, (nx = .goto g ∨ nx = .sleep g ∨ ∃ g', nx = .call g g') ∧ g.inGetblk d block) ∨
      (∃ bh, nx = .ret (some bh) ∧ bh < c'.nrBuffers ∧ key c' bh = (d, block)) ∨ ∃ q, nx = .panic q := by
  cases f with
  | getblk d' block' =>
    obtain ⟨rfl, rfl⟩ := hin
    simp only [Buffer.exec, Buffer.lookup, Option.some.injEq] at h
    split at h <;> obtain ⟨rfl, rfl⟩ := Prod.mk.inj h
    · exact .inl ⟨_, .inl rfl, rfl, rfl⟩
    · exact .inl ⟨_, .inl rfl, rfl, rfl⟩
  | getblkHash d' block' bh =>
    obtain ⟨rfl, rfl⟩ := hin
    simp only [Buffer.exec, Buffer.recheck, Buffer.waitOnBuffer, Option.some.injEq] at h
    have hkey : c.dev bh = d' ∧ c.blk bh = block' := Prod.mk.inj hk.2
    rw [if_pos hkey] at h
    split_ifs at h <;> obtain ⟨rfl, rfl⟩ := Prod.mk.inj h
    · exact .inl ⟨_, .inr (.inl rfl), rfl, rfl⟩
    · exact .inr (.inl ⟨bh, rfl, hk⟩)
  | getblkScan d' block' =>
    obtain ⟨rfl, rfl⟩ := hin
    simp only [Buffer.exec, Option.some.injEq] at h
    split at h <;> obtain ⟨rfl, rfl⟩ := Prod.mk.inj h
    · exact .inl ⟨_, .inr (.inl rfl), rfl, rfl⟩
    · exact .inl ⟨_, .inl rfl, rfl, rfl⟩
  | getblkWait d' block' bh =>
    obtain ⟨rfl, rfl⟩ := hin
    simp only [Buffer.exec, Buffer.takeFree, Buffer.waitOnBuffer, Option.some.injEq] at h
    split_ifs at h with hl hz hd hfind
    · obtain ⟨rfl, rfl⟩ := Prod.mk.inj h
      exact .inl ⟨_, .inr (.inl rfl), rfl, rfl⟩
    · obtain ⟨rfl, rfl⟩ := Prod.mk.inj h
      exact .inl ⟨_, .inl rfl, rfl, rfl⟩
    · obtain ⟨rfl, rfl⟩ := Prod.mk.inj h
      exact .inl ⟨_, .inr (.inr ⟨_, rfl⟩), rfl, rfl⟩
    · obtain ⟨rfl, rfl⟩ := Prod.mk.inj h
      exact .inl ⟨_, .inl rfl, rfl, rfl⟩
    · obtain ⟨c₁, hrun, -, hcont⟩ := hc.rekey htwo hf (by simpa using hfind) (d := d')
      simp only [hrun, Prod.mk.injEq] at h
      obtain ⟨rfl, rfl⟩ := h
      refine .inr (.inl ⟨bh, rfl, hcont.nrBuffers ▸ hf, ?_⟩)
      rw [key, hcont.dev, hcont.blk, Cache.dev, Cache.blk, heads_upd_self]
      rfl
  | _ => cases hin

theorem inGetblk_resume {v : Buffer.Value} (hf : f.inGetblk d block) (h : Buffer.resume f v = some g) :
    g.inGetblk d block := by
  cases f <;> cases v <;> simp only [Buffer.resume, reduceCtorEq, Option.some.injEq] at h <;> subst h <;>
    exact hf

end Linux012.Tasks
