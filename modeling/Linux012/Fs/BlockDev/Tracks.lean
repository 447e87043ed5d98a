import Linux012.Fs.BlockDev.Basic

/-! # The cache and the bytes of a device

The bytes of a device are spread over the valid buffers and the disk. As long as nothing
is stored into a buffer that is not valid, a valid buffer shows the bytes of its block,
and the disk shows those of every block that no buffer has still to write.
-/

namespace Linux012.BlockDev

open Function Coop Splice Buffer Cache

variable {c c' : Cache Block} {bytes bytes' : Dev → ℕ → UInt8} {f : Buffer.Frame}
  {nx nx' : Next Buffer.Frame Value Panic} {b bh i : ℕ} {d : Dev} {block : BlockNr} {r : Request}
  {locks : ℕ → ℕ}

/-- The block shows the bytes of its place on the device. -/
def Shows (x : Block) (g : ℕ → UInt8) (block : BlockNr) : Prop :=
  ∀ i < BLOCK_SIZE, x i = g (block.toNat * BLOCK_SIZE + i)

structure Tracks (c : Cache Block) (bytes : Dev → ℕ → UInt8) : Prop where
  valid : ∀ b, c.dev b ≠ 0 → (c.heads b).bUptodate = true →
    Shows (c.heads b).bData (bytes (c.dev b)) (c.blk b)
  clean : ∀ d block, d ≠ 0 →
    (∀ b, c.dev b = d → c.blk b = block → (c.heads b).stored = false) →
    Shows (c.disk d block) (bytes d) block
  stored : ∀ b, (c.heads b).stored = true → (c.heads b).bUptodate = true
  write : ∀ i r, c.request i = some r → r.cmd = .write → (c.heads r.bh).stored = true

namespace Tracks

theorem congr (h : Tracks c bytes) (hb : ∀ b, ((c'.heads b).bDev, (c'.heads b).bBlocknr,
      (c'.heads b).bData, (c'.heads b).bUptodate, (c'.heads b).stored) =
      ((c.heads b).bDev, (c.heads b).bBlocknr, (c.heads b).bData, (c.heads b).bUptodate,
        (c.heads b).stored)) (hdisk : c'.disk = c.disk)
    (hreq : ∀ i r, c'.request i = some r → r.cmd = .write →
      c.request i = some r ∨ (c.heads r.bh).stored = true) : Tracks c' bytes := by
  simp only [Prod.mk.injEq] at hb
  have hdev : c'.dev = c.dev := funext fun b => (hb b).1
  have hblk : c'.blk = c.blk := funext fun b => (hb b).2.1
  refine ⟨fun b => ?_, fun d block => ?_, fun b => ?_, fun i r hi hw => ?_⟩
  · rw [hdev, hblk, (hb b).2.2.1, (hb b).2.2.2.1]
    exact h.valid b
  · simp only [hdev, hblk, hdisk, (hb _).2.2.2.2]
    exact h.clean d block
  · rw [(hb b).2.2.2.1, (hb b).2.2.2.2]
    exact h.stored b
  · rw [(hb r.bh).2.2.2.2]
    exact (hreq i r hi hw).elim (fun hi => h.write i r hi hw) id

/-- A store makes the buffer show other bytes, and it has the only buffer of its block. -/
theorem store (h : Tracks c bytes) (hu : Unique c) (hkey : ∀ b, c.nrBuffers ≤ b → c.dev b = 0)
    (x : Block) (hself : Shows x (bytes' (c.dev bh)) (c.blk bh))
    (hother : ∀ d block, ¬ (d = c.dev bh ∧ block = c.blk bh) → ∀ i < BLOCK_SIZE,
      bytes' d (block.toNat * BLOCK_SIZE + i) = bytes d (block.toNat * BLOCK_SIZE + i)) :
    Tracks (c.upd bh fun b =>
      { b with bData := x, bUptodate := true, bDirt := true, stored := true }) bytes' := by
  set c' := c.upd bh fun b =>
    { b with bData := x, bUptodate := true, bDirt := true, stored := true } with hc'
  have hdev : c'.dev = c.dev := funext (field_upd BufferHead.bDev rfl)
  have hblk : c'.blk = c.blk := funext (field_upd BufferHead.bBlocknr rfl)
  have hone : c'.heads bh =
      { c.heads bh with bData := x, bUptodate := true, bDirt := true, stored := true } :=
    heads_upd_self _
  have hrest : ∀ b, b ≠ bh → c'.heads b = c.heads b := fun b hb => heads_upd_of_ne _ hb
  have hlt : ∀ b, c.dev b ≠ 0 → b < c.nrBuffers := fun b hb =>
    Nat.lt_of_not_le fun hle => hb (hkey b hle)
  refine ⟨fun b hd hv => ?_, fun d block hd hs => ?_, fun b => ?_, fun i r hi hw => ?_⟩
  · rw [hdev] at hd ⊢
    rw [hblk]
    by_cases hb : b = bh
    · rw [hb, hone]
      exact hself
    · rw [hrest b hb] at hv ⊢
      have hne : ¬ (c.dev b = c.dev bh ∧ c.blk b = c.blk bh) := fun hk =>
        hb (hu b (hlt b hd) bh (hlt bh (hk.1 ▸ hd)) hd hk.1 hk.2)
      intro i hi
      rw [hother _ _ hne i hi]
      exact h.valid b hd hv i hi
  · have hne : ¬ (d = c.dev bh ∧ block = c.blk bh) := fun hk => by
      have := hs bh (by rw [hdev]; exact hk.1.symm) (by rw [hblk]; exact hk.2.symm)
      rw [hone] at this
      cases this
    intro i hi
    rw [hother _ _ hne i hi]
    refine h.clean d block hd (fun b hbd hbb => ?_) i hi
    have hb : b ≠ bh := fun he => hne (he ▸ ⟨hbd.symm, hbb.symm⟩)
    rw [← hrest b hb]
    exact hs b (by rw [hdev]; exact hbd) (by rw [hblk]; exact hbb)
  · by_cases hb : b = bh
    · rw [hb, hone]
      exact fun _ => rfl
    · rw [hrest b hb]
      exact h.stored b
  · by_cases hb : r.bh = bh
    · rw [hb, hone]
    · rw [hrest _ hb]
      exact h.write i r hi hw

theorem rekey (h : Tracks c bytes) (hclean : (c.heads bh).stored = false)
    (hlock : ∀ i r, c.request i = some r → r.bh ≠ bh)
    (hc : SameContents (c.upd bh fun b => b.fresh d block) c') : Tracks c' bytes := by
  have hhead : ∀ b, (c'.heads b).bare = if b = bh then ((c.heads bh).fresh d block).bare
      else (c.heads b).bare := fun b => by
    rw [hc.heads b, heads_upd]
    split_ifs <;> rfl
  have hself : (c'.heads bh).bDev = d ∧ (c'.heads bh).bBlocknr = block ∧
      (c'.heads bh).bUptodate = false ∧ (c'.heads bh).stored = false := by
    have := hhead bh
    simp only [if_true, BufferHead.bare, BufferHead.fresh, BufferHead.mk.injEq] at this
    simp [this]
  have hrest : ∀ b, b ≠ bh → (c'.heads b).bDev = (c.heads b).bDev ∧
      (c'.heads b).bBlocknr = (c.heads b).bBlocknr ∧ (c'.heads b).bData = (c.heads b).bData ∧
      (c'.heads b).bUptodate = (c.heads b).bUptodate ∧
      (c'.heads b).stored = (c.heads b).stored := fun b hb => by
    have := hhead b
    simp only [if_neg hb, BufferHead.bare, BufferHead.mk.injEq] at this
    simp [this]
  refine ⟨fun b hd hv => ?_, fun d' block' hd hs => ?_, fun b => ?_, fun i r hi hw => ?_⟩
  · by_cases hb : b = bh
    · rw [hb, hself.2.2.1] at hv
      cases hv
    · simp only [Cache.dev, Cache.blk, hrest b hb] at hd hv ⊢
      exact h.valid b hd hv
  · rw [hc.disk]
    refine h.clean d' block' hd fun b hbd hbb => ?_
    by_cases hb : b = bh
    · exact hb ▸ hclean
    · rw [← (hrest b hb).2.2.2.2]
      exact hs b ((hrest b hb).1.trans hbd) ((hrest b hb).2.1.trans hbb)
  · by_cases hb : b = bh
    · rw [hb, hself.2.2.2]
      intro h
      cases h
    · rw [(hrest b hb).2.2.2.1, (hrest b hb).2.2.2.2]
      exact h.stored b
  · rw [hc.request] at hi
    rw [(hrest _ (hlock i r hi)).2.2.2.2]
    exact h.write i r hi hw

/-- The end of a request of the buffer `bh` leaves the head `x` and the disk `disk'`. -/
theorem endTransfer (h : Tracks c bytes) (hs : Sound c locks) (hr : c.request i = some r)
    {x : BufferHead Block} {disk' : Dev → BlockNr → Block}
    (hkey : x.bDev = c.dev r.bh ∧ x.bBlocknr = c.blk r.bh)
    (hvalid : c.dev r.bh ≠ 0 → x.bUptodate = true →
      Shows x.bData (bytes (c.dev r.bh)) (c.blk r.bh))
    (hclean : c.dev r.bh ≠ 0 → x.stored = false →
      Shows (disk' (c.dev r.bh) (c.blk r.bh)) (bytes (c.dev r.bh)) (c.blk r.bh))
    (hstored : x.stored = true → x.bUptodate = true)
    (hrest : ∀ d block, ¬ (d = c.dev r.bh ∧ block = c.blk r.bh) → disk' d block = c.disk d block) :
    Tracks { c with
      heads := update c.heads r.bh x, request := update c.request i none, disk := disk' } bytes := by
  have hhead : ∀ b, b ≠ r.bh → update c.heads r.bh x b = c.heads b := fun b hb =>
    update_of_ne hb ..
  refine ⟨fun b hd hv => ?_, fun d block hd hst => ?_, fun b => ?_, fun j r' hj hw => ?_⟩
  · simp only [Cache.dev, Cache.blk] at hd hv ⊢
    by_cases hb : b = r.bh
    · subst hb
      rw [update_self] at hd hv ⊢
      rw [hkey.1] at hd ⊢
      rw [hkey.2]
      exact hvalid hd hv
    · rw [hhead b hb] at hd hv ⊢
      exact h.valid b hd hv
  · simp only [Cache.dev, Cache.blk] at hst ⊢
    by_cases hk : d = c.dev r.bh ∧ block = c.blk r.bh
    · obtain ⟨rfl, rfl⟩ := hk
      have := hst r.bh
      rw [update_self] at this
      exact hclean hd (this hkey.1 hkey.2)
    · rw [hrest d block hk]
      refine h.clean d block hd fun b hbd hbb => ?_
      have hb : b ≠ r.bh := fun he => hk (he ▸ ⟨hbd.symm, hbb.symm⟩)
      have := hst b
      rw [hhead b hb] at this
      exact this hbd hbb
  · dsimp only
    by_cases hb : b = r.bh
    · rw [hb, update_self]
      exact hstored
    · rw [hhead b hb]
      exact h.stored b
  · dsimp only at hj ⊢
    have hji : j ≠ i := by
      rintro rfl
      rw [update_self] at hj
      cases hj
    rw [update_of_ne hji] at hj
    have hb : r'.bh ≠ r.bh := fun hb => hji (hs.request_unique hj hr hb)
    rw [hhead _ hb]
    exact h.write j r' hj hw

/-- A buffer that is being read has nothing to write, so the disk shows its block. -/
theorem endRequest (h : Tracks c bytes) (hs : Sound c locks) (hu : Unique c)
    {e : EndRequest Block} (he : endRequest e c = some c') : Tracks c' bytes := by
  obtain ⟨r, hr, he⟩ := Option.bind_eq_some_iff.mp he
  have hok := hs.request _ _ hr
  have hlt : ∀ b, c.dev b ≠ 0 → b < c.nrBuffers := fun b hb =>
    Nat.lt_of_not_le fun hle => hb (hs.unkeyed b hle)
  have honly : c.dev r.bh ≠ 0 → (c.heads r.bh).stored = false →
      Shows (c.disk (c.dev r.bh) (c.blk r.bh)) (bytes (c.dev r.bh)) (c.blk r.bh) := by
    intro hd hst
    refine h.clean _ _ hd fun b hbd hbb => ?_
    rw [hu b (hlt b (hbd ▸ hd)) r.bh (hlt _ hd) (hbd ▸ hd) hbd hbb]
    exact hst
  rcases hok.cmd with hcmd | hcmd
  · simp only [hcmd, Option.some.injEq] at he
    subst he
    have hnot : (c.heads r.bh).stored = false := by
      by_contra hst
      have := h.stored r.bh (by simpa using hst)
      rw [hok.read hcmd] at this
      cases this
    refine h.endTransfer hs hr ⟨rfl, rfl⟩ (fun hd hv => ?_) honly ?_ fun _ _ _ => rfl
    · dsimp only at hv ⊢
      rw [hv, if_pos rfl, hok.dev, hok.block]
      exact honly hd hnot
    · dsimp only
      rw [hnot]
      intro h
      cases h
  · simp only [hcmd, Option.some.injEq] at he
    subst he
    have hup := h.stored _ (h.write _ _ hr hcmd)
    refine h.endTransfer hs hr ⟨rfl, rfl⟩ (fun hd _ => h.valid _ hd hup) (fun hd hst => ?_)
      (fun _ => rfl) fun d block hk => ?_
    · have hdirt : (c.heads r.bh).bDirt = false := by
        change ((c.heads r.bh).stored && (c.heads r.bh).bDirt) = false at hst
        rwa [h.write _ _ hr hcmd, Bool.true_and] at hst
      have hwrite : (writeDisk { c with request := update c.request e.i none } r.dev r.block
          (c.heads r.bh).bData).disk (c.dev r.bh) (c.blk r.bh) = (c.heads r.bh).bData := by
        simp [writeDisk, hok.dev, hok.block]
      simp only [hdirt, Bool.false_eq_true, if_false]
      rw [hwrite]
      exact h.valid _ hd hup
    · by_cases hd : d = c.dev r.bh
      · have hb : block ≠ c.blk r.bh := fun hb => hk ⟨hd, hb⟩
        simp [writeDisk, hok.dev, hok.block, hd, update_of_ne hb]
      · simp [writeDisk, hok.dev, update_of_ne hd]

end Tracks

/-! ## Pieces of code -/

/-- No piece of the cache's own code changes contents, or marks a buffer dirty. -/
def Tame (c c' : Cache Block) : Prop := ∀ b, (c'.heads b).bDirt = true →
  (c.heads b).bDirt = true ∧ (c'.heads b).bData = (c.heads b).bData

theorem Tame.refl : Tame c c := fun _ h => ⟨h, rfl⟩

theorem tame_upd {g : BufferHead Block → BufferHead Block}
    (hg : (g (c.heads bh)).bDirt = true →
      (c.heads bh).bDirt = true ∧ (g (c.heads bh)).bData = (c.heads bh).bData) :
    Tame c (c.upd bh g) := by
  intro b
  by_cases hb : b = bh
  · rw [hb, heads_upd_self]
    exact hg
  · rw [heads_upd_of_ne _ hb]
    exact fun h => ⟨h, rfl⟩

theorem tame_waitOnBuffer {self : Buffer.Frame} {go : Buffer.Piece Block}
    (hgo : go = (c', nx) → Tame c c') (h : waitOnBuffer c bh self go = (c', nx)) : Tame c c' := by
  unfold waitOnBuffer at h
  split_ifs at h
  · obtain ⟨rfl, -⟩ := Prod.mk.inj h
    exact .refl
  · exact hgo h

theorem tame_of_eq (h : (c, nx') = (c', nx)) : Tame c c' := by
  obtain ⟨rfl, -⟩ := Prod.mk.inj h
  exact .refl

theorem tame_decCount : Tame c (decCount c bh) := tame_upd fun h => ⟨h, rfl⟩

theorem tame_lookup {wait : ℕ → Buffer.Frame} (h : lookup c d block wait nx' = (c', nx)) :
    Tame c c' := by
  unfold lookup at h
  split at h
  · exact tame_of_eq h
  · obtain ⟨rfl, -⟩ := Prod.mk.inj h
    exact tame_upd fun h => ⟨h, rfl⟩

theorem tame_recheck {self again : Buffer.Frame}
    (h : recheck c d block bh self again = (c', nx)) : Tame c c' := by
  refine tame_waitOnBuffer (fun h => ?_) h
  split_ifs at h
  · exact tame_of_eq h
  · obtain ⟨rfl, -⟩ := Prod.mk.inj h
    exact tame_decCount

theorem tame_takeFree (hc : RepInv c) (htwo : 2 ≤ c.nrBuffers) (hbh : bh < c.nrBuffers)
    (h : takeFree c d block bh = (c', nx)) : Tame c c' := by
  refine tame_waitOnBuffer (fun h => ?_) h
  split_ifs at h with hz hd hfind
  · exact tame_of_eq h
  · exact tame_of_eq h
  · exact tame_of_eq h
  · obtain ⟨c₁, hrun, -, hcont⟩ := hc.rekey htwo hbh (by simpa using hfind) (d := d)
    simp only [hrun, Prod.mk.injEq] at h
    obtain ⟨rfl, -⟩ := h
    intro b hb
    rw [hcont.field BufferHead.bDirt (fun _ => rfl) b] at hb
    rw [hcont.field BufferHead.bData (fun _ => rfl) b]
    exact tame_upd (fun h => by simp [BufferHead.fresh] at h) b hb

theorem tame_lockBuffer {rw : Rw} {ahead : Bool} (h : lockBuffer c rw ahead bh = (c', nx)) :
    Tame c c' := by
  refine tame_waitOnBuffer (fun h => ?_) h
  dsimp only at h
  split_ifs at h <;> obtain ⟨rfl, -⟩ := Prod.mk.inj h
  · intro b hb
    have h₁ := tame_upd (c := c.upd bh fun b => { b with bLock := true })
      (g := fun b => { b with bLock := false }) (fun h => ⟨h, rfl⟩) b hb
    have h₂ := tame_upd (c := c) (g := fun b => { b with bLock := true }) (fun h => ⟨h, rfl⟩) b h₁.1
    exact ⟨h₂.1, h₁.2.trans h₂.2⟩
  · exact tame_upd fun h => ⟨h, rfl⟩

theorem tame_findRequest {rw : Rw} {ahead : Bool} (h : findRequest c rw ahead bh = (c', nx)) :
    Tame c c' := by
  unfold findRequest at h
  split at h
  · obtain ⟨rfl, -⟩ := Prod.mk.inj h
    exact fun b hb => tame_upd (c := c) (g := fun b => { b with bDirt := false })
      (fun h => by simp at h) b hb
  · split_ifs at h
    · obtain ⟨rfl, -⟩ := Prod.mk.inj h
      exact tame_upd fun h => ⟨h, rfl⟩
    · exact tame_of_eq h

theorem tame_exec {ch : Buffer.Choice Block} (hc : RepInv c) (htwo : 2 ≤ c.nrBuffers)
    (hf : f.Ok c) (hcode : ∀ held, f ≠ .code held) (h : exec c ch f = some (c', nx)) :
    Tame c c' := by
  cases f with
  | code held => exact absurd rfl (hcode held)
  | getHashTable | getblk => exact tame_lookup (Option.some.inj h)
  | getHashTableWait | getblkHash => exact tame_recheck (Option.some.inj h)
  | getblkWait d block bh => exact tame_takeFree hc htwo hf (Option.some.inj h)
  | lockBuffer => exact tame_lockBuffer (Option.some.inj h)
  | findRequest => exact tame_findRequest (Option.some.inj h)
  | brelse =>
    refine tame_waitOnBuffer (fun h => ?_) (Option.some.inj h)
    split_ifs at h
    · exact tame_of_eq h
    · obtain ⟨rfl, -⟩ := Prod.mk.inj h
      exact tame_decCount
  | breadaDrop =>
    obtain ⟨rfl, -⟩ := Prod.mk.inj (Option.some.inj h)
    exact tame_decCount
  | breadWait =>
    refine tame_waitOnBuffer (fun h => ?_) (Option.some.inj h)
    split_ifs at h <;> exact tame_of_eq h
  | syncDevWait =>
    refine tame_waitOnBuffer (fun h => ?_) (Option.some.inj h)
    split_ifs at h <;> exact tame_of_eq h
  | breadPageCopy got =>
    rcases got with _ | ⟨_ | bh, got⟩
    · exact tame_of_eq (Option.some.inj h)
    · exact tame_of_eq (Option.some.inj h)
    · exact tame_waitOnBuffer tame_of_eq (Option.some.inj h)
  | breadPage d todo got =>
    cases todo with
    | nil => exact tame_of_eq (Option.some.inj h)
    | cons b todo =>
      simp only [exec, Option.some.injEq] at h
      split_ifs at h <;> exact tame_of_eq h
  | breadaRest d rest bh => cases rest <;> exact tame_of_eq (Option.some.inj h)
  | breadGot | breadPageGot | breadaGot | breadaRestGot => cases h
  | getblkScan =>
    simp only [exec, Option.some.injEq] at h
    split at h <;> exact tame_of_eq h
  | llRwBlock rw bh =>
    have h := Option.some.inj h
    cases rw <;> simp only [llRwBlock] at h <;> split_ifs at h <;> exact tame_of_eq h
  | syncDev =>
    have h := Option.some.inj h
    unfold syncDev at h
    split_ifs at h <;> exact tame_of_eq h
  | breadRead | breadaRead | breadaAhead | breadPageRead =>
    simp only [exec, Option.some.injEq] at h
    split_ifs at h <;> exact tame_of_eq h
  | bread | breada | returnNull | getblkNull => exact tame_of_eq (Option.some.inj h)

/-- A piece of code that stores no bytes keeps the cache in step with the devices. -/
theorem Tracks.effect (h : Tracks c bytes) (heff : Effect c f c' nx) (hc : RepInv c)
    (htwo : 2 ≤ c.nrBuffers) (hf : f.Ok c) (hs : Sound c locks) (htame : Tame c c')
    (hw : ∀ ahead bh, f = .findRequest .write ahead bh → (c.heads bh).stored = true) :
    Tracks c' bytes := by
  have hupd : ∀ (bh : ℕ) (g : BufferHead Block → BufferHead Block),
      (∀ b, ((g b).bDev, (g b).bBlocknr, (g b).bData, (g b).bUptodate, (g b).stored) =
        (b.bDev, b.bBlocknr, b.bData, b.bUptodate, b.stored)) → Tracks (c.upd bh g) bytes :=
    fun bh g hg => h.congr (fun b => field_upd
      (fun b => (b.bDev, b.bBlocknr, b.bData, b.bUptodate, b.stored)) (hg _) b) rfl
      fun i r hi _ => .inl hi
  cases heff with
  | quiet | panic => exact h
  | take | release => exact hupd _ _ fun _ => rfl
  | lock | unlock => exact hupd _ _ fun _ => rfl
  | @request rw ahead bh i _ _ =>
    refine h.congr (fun b => ?_) rfl fun j r hj hcmd => ?_
    · rw [Sound.heads_addRequest]
      exact field_upd (fun b => (b.bDev, b.bBlocknr, b.bData, b.bUptodate, b.stored)) rfl b
    simp only [addRequest, update_apply] at hj
    split_ifs at hj
    · obtain rfl := Option.some.inj hj
      obtain rfl : rw = .write := hcmd
      exact .inr (hw ahead bh rfl)
    · exact .inl hj
  | @rekey _ d block bh hl hz hd hfind hrun =>
    obtain ⟨c₁, hrun₁, -, hcont⟩ := hc.rekey htwo hf hfind
    obtain rfl : c₁ = c' := Option.some.inj (hrun₁.symm.trans hrun)
    refine h.rekey (hs.clean hl hd) (fun i r hi hb => ?_) hcont
    have := (hs.locked hi).1
    rw [hb, hl] at this
    cases this
  | @store _ _ bh data _ _ _ =>
    have hone := heads_upd_self (c := c) (i := bh) fun b : BufferHead Block =>
      { b with bData := data, bUptodate := true, bDirt := true, stored := true }
    have ht := htame bh
    rw [hone] at ht
    obtain ⟨hd, hdata⟩ := ht rfl
    refine h.congr (fun b => ?_) rfl fun i r hi _ => .inl hi
    by_cases hb : b = bh
    · rw [hb, hone]
      simp only at hdata ⊢
      rw [hdata, hs.valid bh hd, hs.dirty bh hd]
    · rw [heads_upd_of_ne _ hb]

/-! ## Held buffers -/

/-- The buffer keeps its block, and stays valid and still to be written. -/
structure Keeps (c c' : Cache Block) (b : ℕ) : Prop where
  dev : c'.dev b = c.dev b
  blk : c'.blk b = c.blk b
  valid : (c.heads b).bUptodate = true → (c'.heads b).bUptodate = true

theorem Keeps.refl : Keeps c c b := ⟨rfl, rfl, id⟩

theorem keeps_update {x : BufferHead Block} (hc : c'.heads = update c.heads bh x)
    (hx : x.bDev = c.dev bh ∧ x.bBlocknr = c.blk bh)
    (hv : (c.heads bh).bUptodate = true → x.bUptodate = true) : Keeps c c' b := by
  by_cases hb : b = bh
  · have hself : c'.heads b = x := by rw [hc, hb, update_self]
    refine ⟨?_, ?_, ?_⟩
    · rw [Cache.dev, hself, hb, hx.1]
    · rw [Cache.blk, hself, hb, hx.2]
    · rw [hself, hb]
      exact hv
  · have hother : c'.heads b = c.heads b := by rw [hc, update_of_ne hb]
    exact ⟨by rw [Cache.dev, hother]; rfl, by rw [Cache.blk, hother]; rfl, by rw [hother]; exact id⟩

/-- A piece of code takes its block from an unlocked clean buffer without references only. -/
theorem Effect.keeps (heff : Effect c f c' nx) (hc : RepInv c) (htwo : 2 ≤ c.nrBuffers)
    (hf : f.Ok c) (b : ℕ) :
    ((c.heads b).bLock = false ∧ (c.heads b).bCount = 0 ∧ (c.heads b).bDirt = false) ∨
      Keeps c c' b ∧ ((c.heads b).stored = true → (c'.heads b).stored = true) := by
  have hupd : ∀ (bh : ℕ) (g : BufferHead Block → BufferHead Block), c'.heads = (c.upd bh g).heads →
      (∀ b, ((g b).bDev, (g b).bBlocknr) = (b.bDev, b.bBlocknr)) →
      (∀ b, b.bUptodate = true → (g b).bUptodate = true) →
      (∀ b, b.stored = true → (g b).stored = true) →
      Keeps c c' b ∧ ((c.heads b).stored = true → (c'.heads b).stored = true) :=
    fun bh g hc' hg hv hst => ⟨keeps_update hc' (Prod.mk.inj (hg _)) (hv _), by
      rw [hc', heads_upd]
      split_ifs with hb
      · rw [hb]
        exact hst _
      · exact id⟩
  cases heff with
  | quiet | panic => exact .inr ⟨.refl, id⟩
  | take | release => exact .inr (hupd _ _ rfl (fun _ => rfl) (fun _ => id) fun _ => id)
  | lock | unlock => exact .inr (hupd _ _ rfl (fun _ => rfl) (fun _ => id) fun _ => id)
  | @request _ _ bh _ _ _ =>
    exact .inr (hupd bh (fun b => { b with bDirt := false }) rfl (fun _ => rfl) (fun _ => id)
      fun _ => id)
  | store => exact .inr (hupd _ _ rfl (fun _ => rfl) (fun _ _ => rfl) fun _ _ => rfl)
  | @rekey _ d block bh hl hz hd hfind hrun =>
    obtain ⟨c₁, hrun₁, -, hcont⟩ := hc.rekey htwo hf hfind
    obtain rfl : c₁ = c' := Option.some.inj (hrun₁.symm.trans hrun)
    by_cases hb : b = bh
    · exact .inl (hb ▸ ⟨hl, hz, hd⟩)
    · have hsame : (c₁.heads b).bare = (c.heads b).bare := by
        rw [hcont.heads b, heads_upd_of_ne _ hb]
      simp only [BufferHead.bare, BufferHead.mk.injEq] at hsame
      refine .inr ⟨⟨?_, ?_, ?_⟩, ?_⟩
      · simp [Cache.dev, hsame]
      · simp [Cache.blk, hsame]
      · simp [hsame]
      · simp [hsame]

/-- The end of a request takes no block from a buffer, and a locked buffer without a request is as
before. -/
theorem endRequest_keeps (hs : Sound c locks) {e : EndRequest Block}
    (he : Buffer.endRequest e c = some c') (b : ℕ) :
    Keeps c c' b ∧ ((∀ i r, c.request i = some r → r.bh ≠ b) → c'.heads b = c.heads b) := by
  obtain ⟨r, hr, he⟩ := Option.bind_eq_some_iff.mp he
  have hok := hs.request _ _ hr
  rcases hok.cmd with hcmd | hcmd
  · simp only [hcmd, Option.some.injEq] at he
    subst he
    refine ⟨keeps_update rfl ⟨rfl, rfl⟩ fun hv => ?_, fun h => heads_upd_of_ne _ (h _ _ hr).symm⟩
    rw [hok.read hcmd] at hv
    cases hv
  · simp only [hcmd, Option.some.injEq] at he
    subst he
    exact ⟨keeps_update rfl ⟨rfl, rfl⟩ fun _ => rfl, fun h => heads_upd_of_ne _ (h _ _ hr).symm⟩

end Linux012.BlockDev
