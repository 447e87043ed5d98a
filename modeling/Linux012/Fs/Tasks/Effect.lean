import Linux012.Fs.Tasks.Asks

/-! # What a piece of code does to the blocks

Most pieces add no user to a block. `new_block` takes a block whose bit is zero and asks for its buffer, and
`free_block` clears the bit of a block that it has found unused.
-/

namespace Linux012.Tasks

open Function Coop
open Buffer (Cache Dev BlockNr RepInv SameQueues one incCount decCount)
open Buffer.Cache (heads_upd_self heads_upd_of_ne field_upd)
open FileDev (Block BitSet)

variable {s s' : Sys} {c' : Cache Block} {f g x : Frame} {nx nx' : Next Frame Value Panic} {d dev : Dev}
  {block : BlockNr} {b bh i j z : ℕ} {k : Key}

/-! ## Users -/

/-- The references to the buffer `b` that a frame holds. -/
def Frame.refs (b : ℕ) : Frame → ℕ
  | .cache f => f.refs b
  | .newBlockHas _ _ bh => one b bh
  | .freeBlockWait _ _ bh => one b bh
  | .freeLoop _ _ _ bh _ _ => one b bh
  | .freeNext _ _ _ bh _ _ => one b bh
  | .freeFreed _ _ _ bh _ _ _ => one b bh
  | .bmapEntry _ _ _ bh => one b bh
  | .fileReadCopy _ bh => one b bh
  | _ => 0

def Value.refs (b : ℕ) : Value → ℕ
  | .buffer v => Buffer.Value.refs b v
  | _ => 0

/-- How often a frame has still to find a buffer for the block. -/
def Frame.asks (k : Key) : Frame → ℕ
  | .cache f => cacheAsks k f
  | .freeBlock dev block => [(dev, block)].count k
  | _ => 0

/-- A `new_block` that has set the bit of the block and not released its buffer yet. -/
def Frame.takes (k : Key) : Frame → ℕ
  | .newBlockGot dev j => [(dev, blockNr j)].count k
  | .newBlockHas dev j _ => [(dev, blockNr j)].count k
  | _ => 0

/-- A `free_block` of the block. -/
def Frame.frees (k : Key) : Frame → ℕ
  | .freeBlock dev block => [(dev, block)].count k
  | .freeBlockWait dev block _ => [(dev, block)].count k
  | _ => 0

/-- The block is a data zone of a mounted device. -/
def Zone (s : Sys) (k : Key) : Prop :=
  ∃ sb, s.getSuper k.1 = some sb ∧ sb.sFirstdatazone.toNat ≤ k.2.toNat ∧ k.2.toNat < sb.sNzones.toNat

/-- A data zone whose bit is zero. -/
def Spare (s : Sys) (k : Key) : Prop :=
  ∃ sb, s.getSuper k.1 = some sb ∧ sb.sFirstdatazone.toNat ≤ k.2.toNat ∧ k.2.toNat < sb.sNzones.toNat ∧
    ¬ FileDev.Used sb.fs k.2.toNat

/-- The first bit of a zone bitmap is set. -/
def Reserved (s : Sys) : Prop := ∀ d sb, s.super d = some sb → ∀ m, sb.sZmap 0 = some m → m 0 = true

/-- A frame that has the buffer of a block. -/
def Frame.Ok (s : Sys) : Frame → Prop
  | .cache f => f.Ok s.cache ∧ Keyed s.cache f
  | .newBlockHas dev j bh => bh < s.cache.nrBuffers ∧ key s.cache bh = (dev, blockNr j)
  | .freeBlockWait dev block bh =>
    (bh < s.cache.nrBuffers ∧ key s.cache bh = (dev, block)) ∧ Zone s (dev, block)
  | _ => True

/-- Above `new_block`, while it waits for the buffer, is its call of `getblk`. -/
def Fit (f : Frame) : Frame → Prop
  | .newBlockGot dev j => ∃ g, f = .cache g ∧ g.inGetblk dev (blockNr j)
  | _ => True

/-! ## Super blocks -/

theorem getSuper_updSuper (h : Super → Super) : (s.updSuper dev h).getSuper d =
    if d = dev then (s.getSuper d).map h else s.getSuper d := by
  unfold Sys.getSuper Sys.updSuper
  by_cases hd : d = 0
  · simp only [if_pos hd, Option.map_none, ite_self]
  · simp only [if_neg hd, update_apply]
    split_ifs with hdev
    · rw [hdev]
    · rfl

theorem Spare.zone (h : Spare s k) : Zone s k := by
  obtain ⟨sb, hsb, hfirst, hn, -⟩ := h
  exact ⟨sb, hsb, hfirst, hn⟩

theorem zone_updSuper {h : Super → Super}
    (hh : ∀ sb, (h sb).sNzones = sb.sNzones ∧ (h sb).sFirstdatazone = sb.sFirstdatazone) (hz : Zone s k) :
    Zone (s.updSuper dev h) k := by
  obtain ⟨sb, hsb, hfirst, hn⟩ := hz
  rw [Zone, getSuper_updSuper]
  split_ifs with hd
  · exact ⟨h sb, by rw [hsb, Option.map_some], by rwa [(hh sb).2], by rwa [(hh sb).1]⟩
  · exact ⟨sb, hsb, hfirst, hn⟩

/-- The spare zones of a super block that has changed were zones before. -/
theorem spare_updSuper {h : Super → Super}
    (hh : ∀ sb, (h sb).sNzones = sb.sNzones ∧ (h sb).sFirstdatazone = sb.sFirstdatazone)
    (hs : Spare (s.updSuper dev h) k) : Spare s k ∨ k.1 = dev ∧ ∃ sb, s.getSuper dev = some sb ∧
      sb.sFirstdatazone.toNat ≤ k.2.toNat ∧ k.2.toNat < sb.sNzones.toNat ∧
      ¬ FileDev.Used (h sb).fs k.2.toNat := by
  obtain ⟨sb, hsb, hfirst, hn, hu⟩ := hs
  rw [getSuper_updSuper] at hsb
  split_ifs at hsb with hd
  · obtain ⟨sb₀, hsb₀, rfl⟩ := Option.map_eq_some_iff.mp hsb
    rw [(hh sb₀).2] at hfirst
    rw [(hh sb₀).1] at hn
    exact .inr ⟨hd, sb₀, hd ▸ hsb₀, hfirst, hn, hu⟩
  · exact .inl ⟨sb, hsb, hfirst, hn, hu⟩

theorem getSuper_some {sb : Super} (h : s.getSuper dev = some sb) : s.super dev = some sb ∧ dev ≠ 0 := by
  unfold Sys.getSuper at h
  split_ifs at h with hd
  exact ⟨h, hd⟩

theorem reserved_updSuper {h : Super → Super}
    (hh : ∀ sb, s.super dev = some sb → (∀ m, sb.sZmap 0 = some m → m 0 = true) →
      ∀ m, (h sb).sZmap 0 = some m → m 0 = true) (hr : Reserved s) : Reserved (s.updSuper dev h) := by
  intro d sb hsb
  by_cases hd : d = dev
  · subst hd
    simp only [Sys.updSuper, update_self] at hsb
    obtain ⟨sb₀, hsb₀, rfl⟩ := Option.map_eq_some_iff.mp hsb
    exact hh sb₀ hsb₀ (hr d sb₀ hsb₀)
  · simp only [Sys.updSuper, update_of_ne hd] at hsb
    exact hr d sb hsb

/-! ## Pieces of code -/

/-- No more users of a block than before, if the piece of code asks for no other block. -/
def Keeps (f : Frame) (s' : Sys) (nx : Next Frame Value Panic) : Prop :=
  ∀ k, nx.weight (Frame.asks k) (fun _ => 0) ≤ f.asks k → ∀ b, key s'.cache b = k →
    nx.weight (Frame.asks k) (fun _ => 0) + nx.weight (Frame.refs b) (Value.refs b) ≤
      f.asks k + f.refs b

/-- What a piece of code does to the users of blocks and to the bits. -/
inductive Account (s : Sys) : Frame → Sys → Next Frame Value Panic → Prop
  | plain {f : Frame} {s' : Sys} {nx : Next Frame Value Panic} : Keeps f s' nx →
      (∀ k, nx.weight (Frame.takes k) (fun _ => 0) ≤ f.takes k) →
      (∀ k, nx.weight (Frame.asks k) (fun _ => 0) ≤ f.asks k →
        nx.weight (Frame.frees k) (fun _ => 0) ≤ f.frees k) →
      (∀ dev, f = .newBlock dev → ∀ k, nx.weight (Frame.asks k) (fun _ => 0) ≤ f.asks k) →
      (∀ k, Spare s' k → Spare s k) → Account s f s' nx
  | take {dev : Dev} {j : ℕ} {s' : Sys} : s'.cache = s.cache → Spare s (dev, blockNr j) →
      ¬ Spare s' (dev, blockNr j) → (∀ k, Spare s' k → Spare s k) →
      Account s (.newBlock dev) s'
        (.call (.newBlockGot dev j) (.cache (.getblk dev (blockNr j))))
  | clear {f : Frame} {s' : Sys} (k : Key) : f.frees k = 1 →
      (∀ b < s.cache.nrBuffers, key s.cache b = k → f.refs b = 1 ∧ (s.cache.heads b).bCount ≤ 1) →
      (∀ x, Spare s' x → Spare s x ∨ x = k) → Account s f s' (.ret (.int 1))

structure Effect (s : Sys) (f : Frame) (s' : Sys) (nx : Next Frame Value Panic) : Prop where
  repInv : RepInv s'.cache
  nrBuffers : s'.cache.nrBuffers = s.cache.nrBuffers
  count : ∀ R R' : ℕ → ℕ, (∀ b, (s.cache.heads b).bCount = R b % 256) → (∀ b, R b < 256) →
    (∀ b, R' b + f.refs b = R b + nx.weight (Frame.refs b) (Value.refs b)) →
    ∀ b, (s'.cache.heads b).bCount = R' b % 256
  rekeyed : ∀ b, key s'.cache b ≠ key s.cache b → (s.cache.heads b).bCount = 0
  zone : ∀ k, Zone s k → Zone s' k
  reserved : Reserved s → Reserved s'
  frames : ∀ g ∈ nx.frames, g.Ok s'
  fits : nx.Fits Fit f
  value : ∀ dev j bh, Fit f (.newBlockGot dev j) → nx = .ret (.buffer (some bh)) →
    bh < s'.cache.nrBuffers ∧ key s'.cache bh = (dev, blockNr j)
  account : Account s f s' nx

/-- The count of a buffer that has got and lost references. -/
theorem count_of_moves {c c' : Cache Block} (plus minus : ℕ → ℕ)
    (hm : ∀ b, nx.weight (Frame.refs b) (Value.refs b) + minus b = f.refs b + plus b)
    (hc : ∀ b, (c'.heads b).bCount % 256 = ((c.heads b).bCount + plus b + 255 * minus b) % 256)
    (hlt : ∀ b, (c'.heads b).bCount < 256) (R R' : ℕ → ℕ) (hR : ∀ b, (c.heads b).bCount = R b % 256)
    (hR' : ∀ b, R' b + f.refs b = R b + nx.weight (Frame.refs b) (Value.refs b)) :
    ∀ b, (c'.heads b).bCount = R' b % 256 := by
  intro b
  have h₁ := hm b
  have h₂ := hc b
  have h₃ := hlt b
  have h₄ := hR b
  have h₅ := hR' b
  omega

/-! ## The cache's own code -/

section Cache

variable {nb : Next Buffer.Frame Buffer.Value Buffer.Panic}

theorem weight_lift (w : Frame → ℕ) (wv : Value → ℕ) :
    (lift nb).weight w wv = nb.weight (fun f => w (.cache f)) fun v => wv (.buffer v) := by
  cases nb <;> rfl

theorem frames_lift : (lift nb).frames = nb.frames.map .cache := by
  cases nb <;> rfl

/-- A call of `getblk` above `new_block` stays one, and returns the buffer of the block. -/
theorem fits_cache {f : Buffer.Frame} {ch : Buffer.Choice Block} {c' : Cache Block} (hc : RepInv s.cache)
    (htwo : 2 ≤ s.cache.nrBuffers) (hf : (Frame.cache f).Ok s)
    (h : Buffer.exec s.cache ch f = some (c', nb)) : (lift nb).Fits Fit (.cache f) := by
  have hin : ∀ dev j, Fit (.cache f) (.newBlockGot dev j) → f.inGetblk dev (blockNr j) := by
    rintro dev j ⟨g, hg, hin⟩
    exact Frame.cache.inj hg ▸ hin
  cases nb with
  | goto g | sleep g =>
    intro x hx
    cases x with
    | newBlockGot dev j =>
      rcases inGetblk_exec hc htwo hf.1 hf.2 (hin dev j hx) h with
        ⟨g', h | h | ⟨_, h⟩, hg⟩ | ⟨bh, h, -⟩ | ⟨q, h⟩ <;> cases h
      exact ⟨g, rfl, hg⟩
    | _ => trivial
  | call g g₀ =>
    refine ⟨trivial, fun x hx => ?_⟩
    cases x with
    | newBlockGot dev j =>
      rcases inGetblk_exec hc htwo hf.1 hf.2 (hin dev j hx) h with
        ⟨g', h | h | ⟨_, h⟩, hg⟩ | ⟨bh, h, -⟩ | ⟨q, h⟩ <;> cases h
      exact ⟨g, rfl, hg⟩
    | _ => trivial
  | ret v | panic q => trivial

theorem effect_cache {f : Buffer.Frame} {ch : Buffer.Choice Block} (hc : RepInv s.cache)
    (htwo : 2 ≤ s.cache.nrBuffers) (hf : (Frame.cache f).Ok s) (hnp : ∀ q, nx ≠ .panic q)
    (h : execCache s ch f = some (s', nx)) : Effect s (.cache f) s' nx := by
  obtain ⟨⟨c', nb⟩, hx, he⟩ := Option.map_eq_some_iff.mp h
  simp only [Prod.mk.injEq] at he
  obtain ⟨rfl, rfl⟩ := he
  obtain ⟨hok, hkeyed⟩ := hf
  have heff := Buffer.exec_effect hok.arises hx
  have hnb : ∀ q, nb ≠ .panic q := by
    rintro q rfl
    exact hnp _ rfl
  obtain ⟨hinv, hn, hnew⟩ := heff.repInv hc htwo hok
  have husers := users_exec hc htwo hok hkeyed hx
  refine ⟨hinv, hn, fun R R' hR hfew hR' => ?_, fun b hb => ?_, fun _ => id, id, fun g hg => ?_,
    fits_cache hc htwo ⟨hok, hkeyed⟩ hx, fun dev j bh hfit hv => ?_, .plain (fun k ha b hb => ?_) ?_ ?_ (by simp) fun _ => id⟩
  · exact heff.count hnb hc htwo hok hR hfew fun b => (hR' b).trans (by rw [weight_lift]; rfl)
  · obtain ⟨d, block, -, -, hz, -⟩ := heff.sameKey hc htwo hok hb
    exact hz
  · rw [frames_lift] at hg
    obtain ⟨g', hg', rfl⟩ := List.mem_map.mp hg
    exact ⟨hnew g' hg', husers.keyed g' hg'⟩
  · obtain ⟨g, hg, hin⟩ := hfit
    rcases inGetblk_exec hc htwo hok hkeyed (Frame.cache.inj hg ▸ hin) hx with
      ⟨g', h | h | ⟨_, h⟩, hg⟩ | ⟨bh', h, hlt, hkey⟩ | ⟨q, h⟩ <;> subst h <;> cases hv
    exact ⟨hlt, hkey⟩
  · rw [weight_lift] at ha ⊢
    rw [weight_lift]
    exact husers.le k ha b hb
  · intro k
    rw [weight_lift]
    cases nb <;> exact le_rfl
  · intro k _
    rw [weight_lift]
    cases nb <;> exact le_rfl

end Cache

/-! ## Code on top of the cache -/

/-- `new_block` is not waiting for a piece of code that is not in `getblk`. -/
def Free (f : Frame) : Prop := ∀ dev j, ¬ Fit f (.newBlockGot dev j)

theorem Free.code {held : List ℕ} : Free (.cache (.code held)) := by
  rintro dev j ⟨g, hg, hin⟩
  cases hg
  cases hin

theorem Free.of_ne (h : ∀ g, f ≠ .cache g) : Free f := by
  rintro dev j ⟨g, hg, -⟩
  exact h g hg

theorem Free.fits (h : Free f) (hcall : ∀ g x, nx = .call g x → Fit x g) : nx.Fits Fit f := by
  have hgo : ∀ g x, Fit f x → Fit g x := by
    intro g x hx
    cases x with
    | newBlockGot dev j => exact absurd hx (h dev j)
    | _ => trivial
  cases nx with
  | goto g | sleep g => exact hgo g
  | call g x => exact ⟨hcall g x rfl, hgo g⟩
  | ret v | panic q => trivial

theorem zone_congr (h : s'.super = s.super) : Zone s' = Zone s := by
  unfold Zone Sys.getSuper
  rw [h]

theorem spare_congr (h : s'.super = s.super) : Spare s' = Spare s := by
  unfold Spare Sys.getSuper
  rw [h]

theorem key_congr {c : Cache Block} (hq : SameQueues c c') : key c' = key c := by
  unfold key
  rw [hq.dev, hq.blk]

/-- What a piece of code leaves of the references, the blocks it takes and those it frees. -/
structure Passes (f : Frame) (nx : Next Frame Value Panic) (plus minus : ℕ → ℕ) : Prop where
  refs : ∀ b, nx.weight (Frame.refs b) (Value.refs b) + minus b = f.refs b + plus b
  takes : ∀ k, nx.weight (Frame.takes k) (fun _ => 0) ≤ f.takes k
  frees : ∀ k, nx.weight (Frame.asks k) (fun _ => 0) ≤ f.asks k →
    nx.weight (Frame.frees k) (fun _ => 0) ≤ f.frees k
  new : ∀ dev, f = .newBlock dev → ∀ k, nx.weight (Frame.asks k) (fun _ => 0) ≤ f.asks k
  call : ∀ g x, nx = .call g x → Fit x g

/-- The frame is neither about to take a block nor in the middle of freeing one, and relies on nothing. -/
def Frame.idle : Frame → Bool
  | .cache (.code _) | .cache (.bread ..) | .cache (.brelse _) => true
  | .cache _ | .newBlockGot .. | .newBlockHas .. | .freeBlockWait .. => false
  | _ => true

theorem Frame.idle_spec (h : f.idle = true) (k : Key) :
    f.takes k = 0 ∧ f.frees k ≤ f.asks k ∧ (∀ x, Fit x f) ∧ ∀ s, f.Ok s := by
  cases f with
  | cache f =>
    cases f with
    | code | bread | brelse => exact ⟨rfl, Nat.zero_le _, fun _ => trivial, fun _ => ⟨trivial, trivial⟩⟩
    | _ => cases h
  | newBlockGot | newBlockHas | freeBlockWait => cases h
  | freeBlock => exact ⟨rfl, le_rfl, fun _ => trivial, fun _ => trivial⟩
  | _ => exact ⟨rfl, Nat.zero_le _, fun _ => trivial, fun _ => trivial⟩

theorem ok_of_idle (hnx : nx.frames.all Frame.idle = true) : ∀ g ∈ nx.frames, ∀ s, g.Ok s :=
  fun g hg => (Frame.idle_spec (List.all_eq_true.mp hnx g hg) (0, 0)).2.2.2

/-- The frame is neither in the cache nor about to look for a block. -/
def Frame.own : Frame → Bool
  | .cache _ | .newBlock _ => false
  | _ => true

theorem Frame.own_free (h : f.own = true) : Free f := by
  apply Free.of_ne
  rintro g rfl
  cases h

/-- A piece of code that only hands its references on. -/
theorem Passes.idle (hf : ∀ k, f.asks k ≤ f.frees k) (hnew : ∀ dev, f ≠ .newBlock dev)
    (hnx : nx.frames.all Frame.idle = true)
    (hrefs : ∀ b, nx.weight (Frame.refs b) (Value.refs b) = f.refs b) : Passes f nx 0 0 := by
  have hidle : ∀ g ∈ nx.frames, g.idle = true := List.all_eq_true.mp hnx
  have hframes : ∀ k, nx.weight (Frame.takes k) (fun _ => 0) = 0 ∧
      nx.weight (Frame.frees k) (fun _ => 0) ≤ nx.weight (Frame.asks k) (fun _ => 0) := by
    intro k
    cases nx with
    | goto g | sleep g =>
      obtain ⟨htakes, hfrees, -⟩ := Frame.idle_spec (hidle g List.mem_cons_self) k
      exact ⟨htakes, hfrees⟩
    | call g x =>
      obtain ⟨htakes, hfrees, -⟩ := Frame.idle_spec (hidle g (List.mem_cons_of_mem _ List.mem_cons_self)) k
      obtain ⟨htakes', hfrees', -⟩ := Frame.idle_spec (hidle x List.mem_cons_self) k
      exact ⟨Nat.add_eq_zero_iff.mpr ⟨htakes, htakes'⟩, Nat.add_le_add hfrees hfrees'⟩
    | ret | panic => exact ⟨rfl, le_rfl⟩
  constructor
  · exact hrefs
  · intro k
    rw [(hframes k).1]
    exact Nat.zero_le _
  · intro k hasks
    exact ((hframes k).2.trans hasks).trans (hf k)
  · exact fun dev he => absurd he (hnew dev)
  · rintro g x rfl
    exact (Frame.idle_spec (hidle g (List.mem_cons_of_mem _ List.mem_cons_self)) (0, 0)).2.2.1 x

theorem Passes.own (h : f.own = true) (hf : ∀ k, f.asks k ≤ f.frees k) (hnx : nx.frames.all Frame.idle = true)
    (hrefs : ∀ b, nx.weight (Frame.refs b) (Value.refs b) = f.refs b) : Passes f nx 0 0 := by
  refine .idle hf ?_ hnx hrefs
  rintro dev rfl
  cases h

/-- A piece of code that takes and releases references. -/
theorem effect_move (hc : RepInv s.cache) (hf : Free f) (hq : SameQueues s.cache s'.cache)
    (hsuper : s'.super = s.super) {plus minus : ℕ → ℕ} (hp : Passes f nx plus minus)
    (hcount : ∀ b r, (s.cache.heads b).bCount = r % 256 →
      (s'.cache.heads b).bCount = (r + plus b + 255 * minus b) % 256)
    (hkeeps : Keeps f s' nx) (hok : ∀ g ∈ nx.frames, g.Ok s') : Effect s f s' nx := by
  refine ⟨hq.repInv hc, hq.nrBuffers, fun R R' hR _ hR' b => ?_, fun b hb => ?_, fun k => ?_, fun hr => ?_,
    hok, hf.fits hp.call, fun dev j bh hfit => absurd hfit (hf dev j),
    .plain hkeeps hp.takes hp.frees hp.new fun k => ?_⟩
  · have h₁ := hp.refs b
    have h₂ := hR' b
    rw [hcount b _ (hR b)]
    omega
  · exact absurd (congrFun (key_congr hq) b) hb
  · rw [zone_congr hsuper]
    exact id
  · unfold Reserved
    rw [hsuper]
    exact hr
  · rw [spare_congr hsuper]
    exact id

/-- A piece of code that keeps the queues, the counts and the bits. -/
theorem effect_keep (hc : RepInv s.cache) (hf : Free f) (hq : SameQueues s.cache s'.cache)
    (hcount : ∀ b, (s'.cache.heads b).bCount = (s.cache.heads b).bCount) (hsuper : s'.super = s.super)
    (hp : Passes f nx 0 0) (hok : ∀ g ∈ nx.frames, g.Ok s') : Effect s f s' nx :=
  effect_move hc hf hq hsuper hp (fun b _ hr => (hcount b).trans hr)
    (fun _ ha b _ => Nat.add_le_add ha (hp.refs b).le) hok

theorem effect_quiet (hc : RepInv s.cache) (hf : Free f) (h : (s, nx) = (s', nx')) (hp : Passes f nx 0 0)
    (hok : ∀ g ∈ nx.frames, g.Ok s) : Effect s f s' nx' := by
  obtain ⟨rfl, rfl⟩ := Prod.mk.inj h
  exact effect_keep hc hf (.refl _) (fun _ => rfl) rfl hp hok

/-- A store into a buffer. -/
theorem effect_store {h : Buffer.BufferHead Block → Buffer.BufferHead Block} (hc : RepInv s.cache) (hf : Free f)
    (hl : ∀ b, ((h b).bNext, (h b).bPrev, (h b).bNextFree, (h b).bPrevFree) =
      (b.bNext, b.bPrev, b.bNextFree, b.bPrevFree))
    (hk : ∀ b, ((h b).bDev, (h b).bBlocknr) = (b.bDev, b.bBlocknr)) (hn : ∀ b, (h b).bCount = b.bCount)
    (hp : Passes f nx 0 0) (hok : ∀ g ∈ nx.frames, ∀ s', g.Ok s') :
    Effect s f { s with cache := s.cache.upd bh h } nx := by
  have hq : SameQueues s.cache (s.cache.upd bh h) := .upd _ _ _ hl hk
  have hcount : ∀ b, ((s.cache.upd bh h).heads b).bCount = (s.cache.heads b).bCount :=
    field_upd Buffer.BufferHead.bCount (hn _)
  exact effect_keep hc hf hq hcount rfl hp fun g hg => hok g hg _

/-! ## Taking a block -/

theorem blockNr_toNat {n : UInt16} (h : z < n.toNat) : (blockNr z).toNat = z := by
  have := n.toNat_lt
  rw [blockNr, BitVec.toNat_ofNat]
  omega

theorem reserved_setBit {sb : Super} (h : ∀ m, sb.sZmap 0 = some m → m 0 = true) :
    ∀ m, (sb.setBit i j).sZmap 0 = some m → m 0 = true := by
  intro m hm
  simp only [Super.setBit, FileDev.setBit, Super.fs, update_apply] at hm
  split_ifs at hm with hi
  · subst hi
    obtain ⟨m₀, hm₀, rfl⟩ := Option.map_eq_some_iff.mp hm
    rw [update_apply, h m₀ hm₀, ite_self]
  · exact h m hm

/-- The zone of a bit that is not the first one of the bitmap. -/
theorem used_iff {sb : Super} (hpos : 1 ≤ j + i * 8192) (hlt : j < 8192) :
    FileDev.Used sb.fs (j + i * 8192 + sb.sFirstdatazone.toNat - 1) ↔ BitSet sb.fs i j := by
  have hbit : j + i * 8192 + sb.sFirstdatazone.toNat - 1 + 1 - sb.sFirstdatazone.toNat = j + i * 8192 := by
    omega
  have hdiv : (j + i * 8192) / 8192 = i := by omega
  have hmod : (j + i * 8192) % 8192 = j := by omega
  change BitSet sb.fs ((j + i * 8192 + sb.sFirstdatazone.toNat - 1 + 1 - sb.sFirstdatazone.toNat) / 8192)
    ((j + i * 8192 + sb.sFirstdatazone.toNat - 1 + 1 - sb.sFirstdatazone.toNat) % 8192) ↔ _
  rw [hbit, hdiv, hmod]

/-- The bit that `new_block` sets is the one of a spare zone, or lies behind the last zone. -/
theorem effect_newBlock (hc : RepInv s.cache) (hr : Reserved s) (hnp : ∀ q, nx ≠ .panic q)
    (h : newBlock s dev = (s', nx)) : Effect s (.newBlock dev) s' nx := by
  have hfree : Free (.newBlock dev) := .of_ne (by simp)
  unfold newBlock at h
  split at h
  · obtain ⟨-, rfl⟩ := Prod.mk.inj h
    exact absurd rfl (hnp _)
  · rename_i sb hsb
    split at h
    · exact effect_quiet hc hfree h ⟨fun _ => rfl, fun _ => le_rfl, fun _ _ => le_rfl, fun _ _ _ => Nat.zero_le _, by simp⟩
        (by simp [Next.frames])
    · rename_i i j hscan
      obtain ⟨m, hm, hj, hlt⟩ := FileDev.scanZmap_spec hscan
      set s₁ := s.updSuper dev fun sb => sb.setBit i j with hs₁
      have hset : ∀ sb : Super, (sb.setBit i j).sNzones = sb.sNzones ∧
          (sb.setBit i j).sFirstdatazone = sb.sFirstdatazone := fun _ => ⟨rfl, rfl⟩
      have hzone : ∀ k, Zone s k → Zone s₁ k := fun k => zone_updSuper hset
      have hspare : ∀ k, Spare s₁ k → Spare s k := by
        intro k hk
        rcases spare_updSuper hset hk with hk | ⟨hd, sb₀, hsb₀, hfirst, hn, hu⟩
        · exact hk
        · exact ⟨sb₀, hd ▸ hsb₀, hfirst, hn, fun hused => hu (FileDev.setBit_mono hused)⟩
      have hres : Reserved s₁ := reserved_updSuper (fun _ _ => reserved_setBit) hr
      have hsuper := (getSuper_some hsb).1
      split_ifs at h with hany
      · obtain ⟨-, rfl⟩ := Prod.mk.inj h
        exact absurd rfl (hnp _)
      dsimp only at h
      split_ifs at h with hn
      · obtain ⟨rfl, rfl⟩ := Prod.mk.inj h
        exact ⟨hc, rfl, fun R R' hR _ hR' b => by rw [show R' b = R b from hR' b]; exact hR b,
          fun b hb => absurd rfl hb, hzone, fun _ => hres, by simp [Next.frames], trivial,
          fun d j bh hfit => absurd hfit (hfree d j),
          .plain (fun k _ b _ => le_rfl) (fun _ => le_rfl) (fun _ _ => le_rfl) (fun _ _ _ => le_rfl) hspare⟩
      · obtain ⟨rfl, rfl⟩ := Prod.mk.inj h
        -- the first bit is set, so the zone lies behind the inodes
        have hpos : 1 ≤ j + i * 8192 := by
          by_contra hz
          obtain ⟨rfl, rfl⟩ : j = 0 ∧ i = 0 := by omega
          rw [hr dev sb hsuper m hm] at hj
          cases hj
        have hnr := blockNr_toNat (Nat.lt_of_not_le hn)
        refine ⟨hc, rfl, fun R R' hR _ hR' b => by rw [show R' b = R b from hR' b]; exact hR b,
          fun b hb => absurd rfl hb, hzone, fun _ => hres, ?_, ⟨⟨_, rfl, rfl, rfl⟩, ?_⟩,
          fun d j bh hfit => absurd hfit (hfree d j), .take rfl ⟨sb, hsb, ?_, ?_, ?_⟩ ?_ hspare⟩
        · simp [Next.frames, Frame.Ok, Buffer.Frame.Ok, Keyed]
        · intro x hx
          cases x with
          | newBlockGot d j => exact absurd hx (hfree d j)
          | _ => trivial
        · rw [hnr]
          omega
        · rw [hnr]
          exact Nat.lt_of_not_le hn
        · rw [hnr, used_iff hpos hlt]
          rintro ⟨m', hm', ht⟩
          obtain rfl := Option.some.inj (hm.symm.trans hm')
          rw [hj] at ht
          cases ht
        · rintro ⟨sb₀, hsb₀, -, -, hu⟩
          rw [getSuper_updSuper, if_pos rfl, hsb, Option.map_some] at hsb₀
          obtain rfl := Option.some.inj hsb₀
          refine hu ?_
          rw [hnr]
          refine (@used_iff i j (sb.setBit i j) hpos hlt).mpr ⟨update m j true, ?_, update_self ..⟩
          change update sb.sZmap i ((sb.sZmap i).map fun b => update b j true) i = _
          rw [update_self, show sb.sZmap i = some m from hm, Option.map_some]

/-! ## Freeing a block -/

theorem reserved_clearBit {sb : Super} (hij : i ≠ 0 ∨ j ≠ 0) (h : ∀ m, sb.sZmap 0 = some m → m 0 = true) :
    ∀ m, (sb.clearBit i j).sZmap 0 = some m → m 0 = true := by
  intro m hm
  simp only [Super.clearBit, FileDev.Truncate.clearBit, Super.fs, update_apply] at hm
  split_ifs at hm with hi
  · subst hi
    obtain ⟨m₀, hm₀, rfl⟩ := Option.map_eq_some_iff.mp hm
    rw [update_apply, if_neg (by simpa [eq_comm] using hij)]
    exact h m₀ hm₀
  · exact h m hm

/-- `free_block` clears the bit of its block and of no other. -/
theorem effect_clear (hc : RepInv s.cache) (hf : Free f) (hq : SameQueues s.cache c') (hz : Zone s (dev, block))
    (hfrees : f.frees (dev, block) = 1) (hrefs : ∀ b, f.refs b ≤ 1)
    (hcount : ∀ b, (c'.heads b).bCount =
      if f.refs b = 0 then (s.cache.heads b).bCount else ((s.cache.heads b).bCount + 255) % 256)
    (honly : ∀ b < s.cache.nrBuffers, key s.cache b = (dev, block) →
      f.refs b = 1 ∧ (s.cache.heads b).bCount ≤ 1)
    (h : freeZone { s with cache := c' } dev block = (s', nx)) : Effect s f s' nx := by
  obtain ⟨rfl, rfl⟩ := Prod.mk.inj h
  obtain ⟨sb, hsb, hfirst, hn⟩ := hz
  set free : Super → Super := fun sb =>
    sb.clearBit ((block.toNat + 1 - sb.sFirstdatazone.toNat) / 8192)
      ((block.toNat + 1 - sb.sFirstdatazone.toNat) % 8192) with hfree
  have hclear : ∀ sb : Super, (free sb).sNzones = sb.sNzones ∧
      (free sb).sFirstdatazone = sb.sFirstdatazone := fun _ => ⟨rfl, rfl⟩
  refine ⟨hq.repInv hc, hq.nrBuffers, fun R R' hR _ hR' b => ?_,
    fun b hb => absurd (congrFun (key_congr hq) b) hb, fun k => zone_updSuper (s := { s with cache := c' }) hclear,
    fun hr => ?_, by simp [Next.frames], trivial, fun dev j bh hfit => absurd hfit (hf dev j),
    .clear (dev, block) hfrees honly fun x hx => ?_⟩
  · have h₁ := hrefs b
    have h₂ := hR' b
    simp only [Next.weight, Value.refs, Nat.add_zero] at h₂
    change (c'.heads b).bCount = _
    rw [hcount, hR]
    split_ifs with h₀ <;> omega
  · refine reserved_updSuper (s := { s with cache := c' }) (fun sb₀ hsb₀ => reserved_clearBit ?_) hr
    obtain rfl := Option.some.inj ((getSuper_some hsb).1.symm.trans hsb₀)
    simp only at hfirst
    omega
  · rcases spare_updSuper (s := { s with cache := c' }) hclear hx with hx | ⟨hd, sb₀, hsb₀, hfirst₀, hn₀, hu⟩
    · exact .inl hx
    · obtain rfl := Option.some.inj (hsb.symm.trans hsb₀)
      by_cases he : FileDev.Truncate.bitOf sb.fs block.toNat = FileDev.Truncate.bitOf sb.fs x.2.toNat
      · have := @FileDev.Truncate.bitOf_inj sb.fs _ _ hfirst hfirst₀ he
        exact .inr (Prod.ext hd (BitVec.eq_of_toNat_eq this.symm))
      · refine .inl ⟨sb, hd ▸ hsb, hfirst₀, hn₀, fun hused => hu ?_⟩
        exact FileDev.Truncate.bitSet_clearBit.mpr ⟨hused, he⟩

theorem effect_freeBlock (hc : RepInv s.cache) (hnp : ∀ q, nx ≠ .panic q)
    (h : freeBlock s dev block = (s', nx)) : Effect s (.freeBlock dev block) s' nx := by
  have hfree : Free (.freeBlock dev block) := .of_ne (by simp)
  unfold freeBlock at h
  split at h
  · obtain ⟨-, rfl⟩ := Prod.mk.inj h
    exact absurd rfl (hnp _)
  · rename_i sb hsb
    split_ifs at h with hz
    · obtain ⟨-, rfl⟩ := Prod.mk.inj h
      exact absurd rfl (hnp _)
    have hzone : Zone s (dev, block) := ⟨sb, hsb, by simpa using (not_or.mp hz).1, by simpa using (not_or.mp hz).2⟩
    split at h
    · rename_i hfind
      refine effect_clear hc hfree (.refl _) hzone (by simp [Frame.frees]) (fun _ => Nat.zero_le _)
        (fun b => (if_pos rfl).symm) (fun b hb hk => ?_) h
      exact absurd (Prod.mk.inj hk) (hc.findBuffer_eq_none (getSuper_some hsb).2 hfind hb)
    · rename_i bh hfind
      obtain ⟨rfl, rfl⟩ := Prod.mk.inj h
      obtain ⟨hlt, -, hd, hb⟩ := hc.key_of_findBuffer hfind
      have hq : SameQueues s.cache (incCount s.cache bh) := Buffer.sameQueues_incCount
      have hkey : key (incCount s.cache bh) = key s.cache := key_congr hq
      have hbh : key s.cache bh = (dev, block) := Prod.ext hd hb
      have hp : Passes (.freeBlock dev block) (.goto (.freeBlockWait dev block bh)) (one · bh) 0 :=
        ⟨fun b => by simp [Next.weight, Frame.refs], fun _ => le_rfl, fun _ _ => le_rfl, fun _ _ _ => Nat.zero_le _,
          by simp⟩
      refine effect_move hc hfree hq rfl hp (fun b r hr => ?_) (fun k _ b hk => ?_) ?_
      · by_cases hbb : b = bh
        · subst hbb
          change ((incCount s.cache b).heads b).bCount = _
          rw [incCount, heads_upd_self, Buffer.one_self]
          simp only [hr, Pi.zero_apply]
          omega
        · change ((incCount s.cache bh).heads b).bCount = _
          rw [incCount, heads_upd_of_ne _ hbb, hr, Buffer.one_of_ne (Ne.symm hbb)]
          rfl
      · simp only [Next.weight, Frame.asks, Frame.refs, Nat.zero_add, Nat.add_zero]
        by_cases hbb : bh = b
        · subst hbb
          have : k = (dev, block) := by rw [← hk, hkey, hbh]
          rw [this, Buffer.one_self, List.count_singleton_self]
        · rw [Buffer.one_of_ne hbb]
          exact Nat.zero_le _
      · intro g hg
        obtain rfl := List.mem_singleton.mp hg
        exact ⟨⟨hlt, by rw [hkey, hbh]⟩, hzone⟩

/-- `free_block` keeps a block to which somebody else has a reference. -/
theorem effect_freeBlockWait (hc : RepInv s.cache) (hf : (Frame.freeBlockWait dev block bh).Ok s)
    (hpos : 0 < (s.cache.heads bh).bCount) (h : freeBlockWait s dev block bh = (s', nx)) :
    Effect s (.freeBlockWait dev block bh) s' nx := by
  have hfree : Free (.freeBlockWait dev block bh) := .of_ne (by simp)
  obtain ⟨⟨hlt, hkey⟩, hzone⟩ := hf
  have hdec : ∀ c : Cache Block, ∀ b, ((decCount c bh).heads b).bCount =
      if b = bh then ((c.heads bh).bCount + 255) % 256 else (c.heads b).bCount := by
    intro c b
    split_ifs with hb
    · subst hb
      rw [decCount, heads_upd_self]
    · rw [decCount, heads_upd_of_ne _ hb]
  unfold freeBlockWait at h
  split_ifs at h with hl hk hbusy
  · exact effect_quiet hc hfree h ⟨fun _ => rfl, fun _ => le_rfl, fun _ _ => le_rfl, fun _ _ _ => Nat.zero_le _, by simp⟩
      (by simpa [Next.frames] using ⟨⟨hlt, hkey⟩, hzone⟩)
  · obtain ⟨rfl, rfl⟩ := Prod.mk.inj h
    have hp : Passes (.freeBlockWait dev block bh) (.ret (.int 0)) 0 (one · bh) :=
      ⟨fun b => by simp [Next.weight, Frame.refs, Value.refs], fun _ => le_rfl, fun _ _ => Nat.zero_le _,
        by simp, by simp⟩
    refine effect_move hc hfree Buffer.sameQueues_decCount rfl hp (fun b r hr => ?_)
      (fun k _ b _ => ?_) (by simp [Next.frames])
    · rw [hdec]
      split_ifs with hb
      · rw [hb] at hr ⊢
        rw [hr, Buffer.one_self]
        simp only [Pi.zero_apply]
        omega
      · rw [Buffer.one_of_ne (Ne.symm hb), hr]
        rfl
    · exact Nat.zero_le _
  · dsimp only at h
    set c := s.cache.upd bh fun b => { b with bDirt := false, bUptodate := false } with hc'
    have hsame : ∀ b, (c.heads b).bCount = (s.cache.heads b).bCount :=
      fun b => field_upd Buffer.BufferHead.bCount rfl b
    rw [if_pos (by rw [hsame]; omega)] at h
    have hq : SameQueues s.cache c := .upd _ _ _ (fun _ => rfl) fun _ => rfl
    refine effect_clear hc hfree (hq.trans Buffer.sameQueues_decCount) hzone (by simp [Frame.frees])
      (fun b => ?_) (fun b => ?_) (fun b hb hkb => ?_) h
    · simp only [Frame.refs, one]
      split_ifs <;> omega
    · rw [hdec, hsame, hsame]
      simp only [Frame.refs, one]
      by_cases hb : b = bh
      · simp [hb]
      · simp [hb, Ne.symm hb]
    · obtain ⟨sb, hsb, -⟩ := hzone
      obtain ⟨hd, hblk⟩ := Prod.mk.inj hkb
      have hbh : b = bh := hc.unique b hb bh hlt (hd ▸ (getSuper_some hsb).2) (hd.trans hk.1.symm)
        (hblk.trans hk.2.symm)
      rw [hbh]
      exact ⟨Buffer.one_self, by omega⟩
  · exact absurd (Prod.mk.inj hkey) hk

/-! ## Every piece -/

theorem effect_code {held : List ℕ} {ch : Choice} (hc : RepInv s.cache) (htwo : 2 ≤ s.cache.nrBuffers)
    (hnp : ∀ q, nx ≠ .panic q) (h : execCode s held ch = some (s', nx)) :
    Effect s (.cache (.code held)) s' nx := by
  have quiet : ∀ {nx' : Next Frame Value Panic}, (s, nx') = (s', nx) → nx'.frames.all Frame.idle = true →
      (∀ b, nx'.weight (Frame.refs b) (Value.refs b) = (Frame.cache (.code held)).refs b) →
      Effect s (.cache (.code held)) s' nx := fun he hidle hrefs =>
    effect_quiet hc .code he (.idle (fun _ => le_rfl) nofun hidle hrefs) fun g hg => ok_of_idle hidle g hg s
  cases ch with
  | cache ch => exact effect_cache hc htwo ⟨trivial, trivial⟩ hnp h
  | fileRead inode filp count =>
    simp only [execCode, Option.some.injEq] at h
    split_ifs at h
    · exact quiet h rfl fun _ => rfl
    · exact quiet h rfl fun _ => rfl
  | setZone inode k z =>
    obtain ⟨rfl, rfl⟩ := Prod.mk.inj (Option.some.inj h)
    exact effect_keep hc .code (.refl _) (fun _ => rfl) rfl (.idle (fun _ => le_rfl) nofun rfl fun _ => rfl)
      fun g hg => ok_of_idle rfl g hg _
  | seek filp pos =>
    obtain ⟨rfl, rfl⟩ := Prod.mk.inj (Option.some.inj h)
    exact effect_keep hc .code (.refl _) (fun _ => rfl) rfl (.idle (fun _ => le_rfl) nofun rfl fun _ => rfl)
      fun g hg => ok_of_idle rfl g hg _
  | _ => exact quiet (Option.some.inj h) rfl fun _ => rfl

theorem exec_cache {f : Buffer.Frame} {ch : Choice} (hf : ∀ held, f ≠ .code held) :
    exec s ch (.cache f) = execCache s .done f := by
  cases f with
  | code held => exact absurd rfl (hf held)
  | _ => rfl

/-- Everything an uninterrupted piece of code can do but panic. -/
theorem exec_effect {ch : Choice} (hc : RepInv s.cache) (htwo : 2 ≤ s.cache.nrBuffers) (hr : Reserved s)
    (hf : f.Ok s) (hpos : ∀ b, 0 < f.refs b → 0 < (s.cache.heads b).bCount) (hnp : ∀ q, nx ≠ .panic q)
    (h : exec s ch f = some (s', nx)) : Effect s f s' nx := by
  have quiet : ∀ {nx' : Next Frame Value Panic}, f.own = true → (∀ k, f.asks k ≤ f.frees k) → (s, nx') = (s', nx) →
      nx'.frames.all Frame.idle = true → (∀ b, nx'.weight (Frame.refs b) (Value.refs b) = f.refs b) →
      Effect s f s' nx := by
    intro nx' hown hasks he hidle hrefs
    exact effect_quiet hc (Frame.own_free hown) he (.own hown hasks hidle hrefs) fun g hg => ok_of_idle hidle g hg s
  cases f with
  | cache f =>
    by_cases hcode : ∃ held, f = .code held
    · obtain ⟨held, rfl⟩ := hcode
      exact effect_code hc htwo hnp h
    · rw [exec_cache fun held he => hcode ⟨held, he⟩] at h
      exact effect_cache hc htwo hf hnp h
  | newBlock dev => exact effect_newBlock hc hr hnp (Option.some.inj h)
  | newBlockHas dev j bh =>
    have h := Option.some.inj h
    unfold newBlockHas at h
    split_ifs at h with hcount
    · obtain ⟨-, rfl⟩ := Prod.mk.inj h
      exact absurd rfl (hnp _)
    · obtain ⟨rfl, rfl⟩ := Prod.mk.inj h
      exact effect_store hc (Frame.own_free rfl) (fun _ => rfl) (fun _ => rfl) (fun _ => rfl)
        (.own rfl (fun _ => Nat.zero_le _) rfl fun _ => Nat.zero_add _) (ok_of_idle rfl)
  | freeBlock dev block => exact effect_freeBlock hc hnp (Option.some.inj h)
  | freeBlockWait dev block bh =>
    exact effect_freeBlockWait hc hf (hpos bh (by simp [Frame.refs, one])) (Option.some.inj h)
  | free dev z depth =>
    cases depth with
    | zero =>
      simp only [exec, free, Option.some.injEq] at h
      exact quiet rfl (fun _ => le_rfl) h rfl fun _ => rfl
    | succ depth =>
      simp only [exec, free, Option.some.injEq] at h
      split_ifs at h <;> exact quiet rfl (fun _ => le_rfl) h rfl fun _ => rfl
  | freeLoop dev z depth bh i busy =>
    simp only [exec, freeLoop, Option.some.injEq] at h
    split_ifs at h
    · exact quiet rfl (fun _ => le_rfl) h rfl fun _ => rfl
    · exact quiet rfl (fun _ => le_rfl) h rfl fun _ => rfl
    · exact quiet rfl (fun _ => le_rfl) h rfl fun _ => Nat.zero_add _
  | freeFreed dev z depth bh i busy ok =>
    simp only [exec, freeFreed, Option.some.injEq] at h
    split_ifs at h
    · obtain ⟨rfl, rfl⟩ := Prod.mk.inj h
      exact effect_store hc (Frame.own_free rfl) (fun _ => rfl) (fun _ => rfl) (fun _ => rfl)
        (.own rfl (fun _ => le_rfl) rfl fun _ => rfl) (ok_of_idle rfl)
    · exact quiet rfl (fun _ => le_rfl) h rfl fun _ => rfl
  | freeEnd dev z busy =>
    simp only [exec, Option.some.injEq] at h
    split_ifs at h <;> exact quiet rfl (fun _ => le_rfl) h rfl fun _ => rfl
  | truncate inode =>
    simp only [exec, truncate, Option.some.injEq] at h
    split_ifs at h <;> exact quiet rfl (fun _ => le_rfl) h rfl fun _ => rfl
  | truncateLoop inode i busy =>
    simp only [exec, truncateLoop, Option.some.injEq] at h
    split_ifs at h <;> exact quiet rfl (fun _ => le_rfl) h rfl fun _ => rfl
  | truncateFreed inode i busy ok =>
    simp only [exec, truncateFreed, Option.some.injEq] at h
    split_ifs at h
    · obtain ⟨rfl, rfl⟩ := Prod.mk.inj h
      exact effect_keep hc (Frame.own_free rfl) (.refl _) (fun _ => rfl) rfl
        (.own rfl (fun _ => le_rfl) rfl fun _ => rfl) fun g hg => ok_of_idle rfl g hg _
    · exact quiet rfl (fun _ => le_rfl) h rfl fun _ => rfl
  | bmap inode block =>
    simp only [exec, bmap, Option.some.injEq] at h
    split_ifs at h
    · obtain ⟨-, rfl⟩ := Prod.mk.inj h
      exact absurd rfl (hnp _)
    all_goals exact quiet rfl (fun _ => le_rfl) h rfl fun _ => rfl
  | bmapTable dev z path =>
    cases path with
    | nil =>
      simp only [exec, bmapTable, Option.some.injEq] at h
      exact quiet rfl (fun _ => le_rfl) h rfl fun _ => rfl
    | cons k path =>
      simp only [exec, bmapTable, Option.some.injEq] at h
      split_ifs at h <;> exact quiet rfl (fun _ => le_rfl) h rfl fun _ => rfl
  | fileRead r =>
    simp only [exec, fileRead, Option.some.injEq] at h
    split_ifs at h <;> exact quiet rfl (fun _ => le_rfl) h rfl fun _ => rfl
  | fileReadZone r nr =>
    simp only [exec, fileReadZone, Option.some.injEq] at h
    split_ifs at h
    · exact quiet rfl (fun _ => le_rfl) h rfl fun _ => rfl
    · obtain ⟨rfl, rfl⟩ := Prod.mk.inj h
      exact effect_keep hc (Frame.own_free rfl) (.refl _) (fun _ => rfl) rfl
        (.own rfl (fun _ => le_rfl) rfl fun _ => rfl) fun g hg => ok_of_idle rfl g hg _
  | fileReadCopy r bh =>
    obtain ⟨rfl, rfl⟩ := Prod.mk.inj (Option.some.inj h)
    exact effect_keep hc (Frame.own_free rfl) (.refl _) (fun _ => rfl) rfl
      (.own rfl (fun _ => le_rfl) rfl fun _ => Nat.zero_add _) fun g hg => ok_of_idle rfl g hg _
  | newBlockNull =>
    obtain ⟨-, rfl⟩ := Prod.mk.inj (Option.some.inj h)
    exact absurd rfl (hnp _)
  | newBlockGot | freeGot | freeNext | truncateNext | bmapGot | fileReadNr | fileReadGot => cases h
  | newBlockEnd | fileReadEnd =>
    simp only [exec, fileReadEnd, Option.some.injEq] at h
    exact quiet rfl (fun _ => le_rfl) h rfl fun _ => rfl
  | bmapEntry =>
    simp only [exec, bmapEntry, Option.some.injEq] at h
    exact quiet rfl (fun _ => le_rfl) h rfl fun _ => Nat.zero_add _

end Linux012.Tasks
