import Linux012.Fs.Buffer.Devices
import Linux012.Fs.Blocks.Tasks

/-! # The cache below the scripts

What a piece of code of `fs/buffer.c` does to the counts of the buffers, whatever the queues and the requests
are, and what its calls return.
-/

namespace Linux012.Buffer

open Function Cache Coop

variable {D : Type*} {c c' : Cache D} {f g : Frame} {nx : Next Frame Value Panic} {dev : Dev} {block : BlockNr}
  {bh b : ℕ}

theorem rekey_count (h : rekey c dev block bh = some c') :
    (c'.heads bh).bCount = 1 ∧ ∀ b, b ≠ bh → (c'.heads b).bCount = (c.heads b).bCount := by
  unfold rekey at h
  obtain ⟨c₁, hremove, hinsert⟩ := Option.bind_eq_some_iff.mp h
  obtain rfl := Option.some.inj hinsert
  have h₁ := (removeFromQueues_contents hremove).field BufferHead.bCount fun _ => rfl
  have h₂ := (insertIntoQueues_contents
    (c₁.upd bh fun b => { b with bDev := dev, bBlocknr := block, stored := false }) bh).field
      BufferHead.bCount fun _ => rfl
  constructor
  · rw [h₂, heads_upd_self, h₁, heads_upd_self]
  · intro b hb
    rw [h₂, heads_upd_of_ne _ hb, h₁, heads_upd_of_ne _ hb]

/-- The count of a buffer moves by what the frame gives up and leaves, as far as its width allows. -/
structure Counts (c c' : Cache D) (f : Frame) (nx : Next Frame Value Panic) : Prop where
  moves : ∀ b, (c'.heads b).bCount + f.refs b ≡
    (c.heads b).bCount + nx.weight (Frame.refs b) (Value.refs b) [MOD 256]
  small : ∀ b, (c.heads b).bCount < 256 → (c'.heads b).bCount < 256

theorem Counts.of_eq (hc : ∀ b, (c'.heads b).bCount = (c.heads b).bCount)
    (hr : ∀ b, nx.weight (Frame.refs b) (Value.refs b) = f.refs b) : Counts c c' f nx :=
  ⟨fun b => by rw [hc, hr], fun b hb => by rw [hc]; exact hb⟩

theorem Effect.counts (h : Effect c f c' nx) (hnp : ∀ q, nx ≠ .panic q) : Counts c c' f nx := by
  cases h with
  | quiet hp => exact .of_eq (fun _ => rfl) fun b => by simpa using hp.refs b
  | panic q => exact absurd rfl (hnp q)
  | @take _ _ _ _ bh _ hp =>
    constructor
    · intro b
      have := hp.refs b
      simp only [Pi.zero_apply, Nat.add_zero] at this
      rcases eq_or_ne b bh with rfl | hb
      · rw [incCount, heads_upd_self, this, one_self]
        simp only [Nat.ModEq]
        omega
      · rw [incCount, heads_upd_of_ne _ hb, this, one_of_ne (Ne.symm hb), Nat.add_zero]
    · intro b hb
      rcases eq_or_ne b bh with rfl | hne
      · rw [incCount, heads_upd_self]
        exact Nat.mod_lt _ (by decide)
      · rw [incCount, heads_upd_of_ne _ hne]
        exact hb
  | @release _ _ bh hp =>
    constructor
    · intro b
      have := hp.refs b
      simp only [Pi.zero_apply, Nat.add_zero] at this
      rcases eq_or_ne b bh with rfl | hb
      · rw [decCount, heads_upd_self, ← this, one_self]
        simp only [Nat.ModEq]
        omega
      · rw [decCount, heads_upd_of_ne _ hb, ← this, one_of_ne (Ne.symm hb), Nat.add_zero]
    · intro b hb
      rcases eq_or_ne b bh with rfl | hne
      · rw [decCount, heads_upd_self]
        exact Nat.mod_lt _ (by decide)
      · rw [decCount, heads_upd_of_ne _ hne]
        exact hb
  | store data _ _ hp =>
    exact .of_eq (field_upd BufferHead.bCount rfl) fun b => by simpa using hp.refs b
  | @rekey _ d block bh hl hz hd hfind hrun =>
    obtain ⟨hbh, hother⟩ := rekey_count hrun
    constructor
    · intro b
      simp only [Frame.refs, Next.weight, Value.refs, Nat.add_zero]
      rcases eq_or_ne b bh with rfl | hb
      · rw [hbh, hz, one_self]
      · rw [hother b hb, one_of_ne (Ne.symm hb), Nat.add_zero]
    · intro b hb
      rcases eq_or_ne b bh with rfl | hne
      · rw [hbh]
        decide
      · rw [hother b hne]
        exact hb
  | lock => exact .of_eq (field_upd BufferHead.bCount rfl) fun _ => rfl
  | request =>
    refine .of_eq (fun b => ?_) fun _ => rfl
    rw [Sound.heads_addRequest]
    exact field_upd BufferHead.bCount rfl b
  | unlock => exact .of_eq (field_upd BufferHead.bCount rfl) fun _ => rfl

/-! ## What calls return -/

/-- The frames of functions that return no value -/
def Frame.isVoid : Frame → Bool
  | .code _ | .brelse _ | .breadPage .. | .breadPageGot .. | .breadPageRead .. | .breadPageCopy _
  | .syncDev .. | .syncDevWait .. | .llRwBlock .. | .lockBuffer .. | .findRequest .. => true
  | _ => false

/-- What a frame that has called a function gets from it: nothing, or a buffer. -/
def Frame.awaitsVoid : Frame → Bool
  | .breadGot | .breadPageGot .. | .breadaGot .. | .breadaRestGot .. => false
  | _ => true

/-- A frame of the cache; requests in it are for reading or writing. -/
def Frame.Proper : Frame → Prop
  | .code _ => False
  | .lockBuffer rw _ _ => rw = .read ∨ rw = .write
  | _ => True

theorem Frame.Proper.arises (hf : f.Proper) : Arises c f f := by
  cases f with
  | lockBuffer => exact hf
  | getblkWait d block bh => exact .inl ⟨d, block, rfl⟩
  | findRequest => rfl
  | _ => trivial

/-- A piece of code goes on in its own function, and calls functions that return what it waits for. The panic
about a buffer that is free is that of `brelse`. -/
def Frame.Goes (f : Frame) : Next Frame Value Panic → Prop
  | .goto g => g.Proper ∧ g.isVoid = f.isVoid
  | .sleep g => g.Proper ∧ g.isVoid = f.isVoid
  | .call g h => (g.Proper ∧ g.isVoid = f.isVoid) ∧ (h.Proper ∨ h = .code []) ∧ h.isVoid = g.awaitsVoid
  | .ret v => f.isVoid = true → v = none
  | .panic q => q = .freeFreeBuffer → ∃ bh, f = .brelse bh

theorem goes_waitOnBuffer {self : Frame} {go : Piece D} (hs : self.Proper) (hgo : f.Goes go.2)
    (hf : self.isVoid = f.isVoid) : f.Goes (waitOnBuffer c bh self go).2 := by
  unfold waitOnBuffer
  split
  · exact ⟨hs, hf⟩
  · exact hgo

theorem goes_recheck {self again : Frame} (hs : self.Proper) (ha : again.Proper) (hf : f.isVoid = false)
    (hself : self.isVoid = false) (hagain : again.isVoid = false) :
    f.Goes (recheck c dev block bh self again).2 := by
  refine goes_waitOnBuffer hs ?_ (hself.trans hf.symm)
  split
  · exact fun hv => absurd (hf.symm.trans hv) nofun
  · exact ⟨ha, hagain.trans hf.symm⟩

theorem goes_exec (hf : f.Proper) {ch : Choice D} (h : exec c ch f = some (c', nx)) : f.Goes nx := by
  have hgoes : ∀ {r : Piece D}, some r = some (c', nx) → f.Goes r.2 → f.Goes nx := by
    rintro r ⟨⟩ hr
    exact hr
  cases f with
  | code => exact hf.elim
  | getHashTable | getblk =>
    refine hgoes h ?_
    unfold lookup
    split
    · first | exact ⟨trivial, rfl⟩ | exact fun _ => rfl
    · exact ⟨trivial, rfl⟩
  | getHashTableWait | getblkHash => exact hgoes h (goes_recheck trivial trivial rfl rfl rfl)
  | getblkScan =>
    refine hgoes h ?_
    split
    · exact ⟨trivial, rfl⟩
    · exact ⟨trivial, rfl⟩
  | getblkWait dev block bh =>
    refine hgoes h (goes_waitOnBuffer trivial ?_ rfl)
    split
    · exact ⟨trivial, rfl⟩
    · split
      · exact ⟨⟨trivial, rfl⟩, .inl trivial, rfl⟩
      · split
        · exact ⟨trivial, rfl⟩
        · split
          · exact nofun
          · exact nofun
  | getblkNull => exact hgoes h nofun
  | brelse bh =>
    refine hgoes h (goes_waitOnBuffer trivial ?_ rfl)
    split
    · exact fun _ => ⟨bh, rfl⟩
    · exact fun _ => rfl
  | bread | breada => exact hgoes h ⟨⟨trivial, rfl⟩, .inl trivial, rfl⟩
  | breadGot | breadPageGot | breadaGot | breadaRestGot => cases h
  | breadRead =>
    refine hgoes h ?_
    split
    · exact nofun
    · exact ⟨⟨trivial, rfl⟩, .inl trivial, rfl⟩
  | breadWait =>
    refine hgoes h (goes_waitOnBuffer trivial ?_ rfl)
    split
    · exact nofun
    · exact ⟨⟨trivial, rfl⟩, .inl trivial, rfl⟩
  | returnNull => exact hgoes h fun _ => rfl
  | breadPage dev todo got =>
    cases todo with
    | nil => exact hgoes h ⟨trivial, rfl⟩
    | cons b todo =>
      refine hgoes h ?_
      split
      · exact ⟨trivial, rfl⟩
      · exact ⟨⟨trivial, rfl⟩, .inl trivial, rfl⟩
  | breadPageRead | breadaRead | breadaAhead =>
    refine hgoes h ?_
    split
    · exact ⟨trivial, rfl⟩
    · exact ⟨⟨trivial, rfl⟩, .inl trivial, rfl⟩
  | breadPageCopy got =>
    rcases got with _ | ⟨_ | bh, got⟩
    · exact hgoes h fun _ => rfl
    · exact hgoes h ⟨trivial, rfl⟩
    · exact hgoes h (goes_waitOnBuffer trivial ⟨⟨trivial, rfl⟩, .inl trivial, rfl⟩ rfl)
  | breadaRest dev rest bh =>
    cases rest with
    | nil => exact hgoes h ⟨trivial, rfl⟩
    | cons first rest => exact hgoes h ⟨⟨trivial, rfl⟩, .inl trivial, rfl⟩
  | breadaDrop => exact hgoes h ⟨trivial, rfl⟩
  | syncDev dev again i =>
    refine hgoes h ?_
    unfold syncDev
    split
    · split
      · exact ⟨trivial, rfl⟩
      · exact ⟨trivial, rfl⟩
    · split
      · exact fun _ => rfl
      · exact ⟨⟨trivial, rfl⟩, .inr rfl, rfl⟩
  | syncDevWait dev again i =>
    refine hgoes h (goes_waitOnBuffer trivial ?_ rfl)
    split
    · exact ⟨⟨trivial, rfl⟩, .inl trivial, rfl⟩
    · exact ⟨trivial, rfl⟩
  | llRwBlock rw bh =>
    refine hgoes h ?_
    unfold llRwBlock
    split
    · exact fun _ => rfl
    · cases rw with
      | read => exact ⟨.inl rfl, rfl⟩
      | write => exact ⟨.inr rfl, rfl⟩
      | reada =>
        dsimp only
        split
        · exact fun _ => rfl
        · exact ⟨.inl rfl, rfl⟩
      | writea =>
        dsimp only
        split
        · exact fun _ => rfl
        · exact ⟨.inr rfl, rfl⟩
  | lockBuffer rw ahead bh =>
    refine hgoes h (goes_waitOnBuffer hf ?_ rfl)
    dsimp only
    split
    · exact fun _ => rfl
    · exact ⟨trivial, rfl⟩
  | findRequest rw ahead bh =>
    refine hgoes h ?_
    unfold findRequest
    split
    · exact fun _ => rfl
    · split
      · exact fun _ => rfl
      · exact ⟨trivial, rfl⟩

theorem brelse_panic {ch : Choice D} (h : exec c ch (.brelse bh) = some (c', .panic .freeFreeBuffer)) :
    (c.heads bh).bCount = 0 := by
  simp only [exec, waitOnBuffer, Option.some.injEq] at h
  split at h
  · cases h
  · split at h
    · assumption
    · cases h

theorem isVoid_resume {v : Value} (h : resume f v = some g) : g.isVoid = f.isVoid := by
  cases f <;> cases v <;> simp only [resume, reduceCtorEq, Option.some.injEq] at h <;> subst h <;> rfl

theorem proper_resume {v : Value} (hf : f.Proper) (h : resume f v = some g) : g.Proper := by
  cases f <;> cases v <;> simp only [resume, reduceCtorEq, Option.some.injEq] at h <;> subst h <;>
    first | exact hf.elim | trivial

end Linux012.Buffer
