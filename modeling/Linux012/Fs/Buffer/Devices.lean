import Linux012.Fs.Buffer.Lookup
import Linux012.Fs.Buffer.Tasks

/-! # The devices of the buffers

A buffer is only given to a device that some call has asked for, and only the buffers that were returned to
the code that asked are changed and requested.
-/

namespace Linux012.Buffer

open Function Cache Coop

variable {D : Type*} {c c' : Cache D} {good : Dev → Prop} {f g h : Frame} {nx : Next Frame Value Panic}
  {dev : Dev} {block : BlockNr} {bh b : ℕ}

/-! ## Queues -/

theorem removeFromQueues_contents (h : removeFromQueues c bh = some c') : SameContents c c' := by
  unfold removeFromQueues at h
  dsimp only at h
  set c₁ := c.setPrev (c.next bh) (c.prev bh)
  set c₂ := c₁.setNext (c₁.prev bh) (c₁.next bh)
  have h₂ : SameContents c c₂ := (sameLinks_setPrev c _ _).contents.trans (sameLinks_setNext c₁ _ _).contents
  set k := hashfn (c₂.dev bh) (c₂.blk bh)
  set c₃ := if c₂.hashTable k = some bh then c₂.setHash k (c₂.next bh) else c₂ with hc₃
  have h₃ : SameContents c c₃ := by
    rw [hc₃]
    split
    · exact h₂.trans ⟨fun _ => rfl, rfl, rfl, rfl, rfl⟩
    · exact h₂
  split at h
  · rename_i n _ _
    set c₄ := c₃.setNextFree (c₃.prevFree bh) (c₃.nextFree bh)
    set c₅ := c₄.setPrevFree (c₄.nextFree bh) (c₄.prevFree bh)
    have h₅ : SameContents c c₅ :=
      h₃.trans ((sameLinks_setNextFree c₃ _ _).contents.trans (sameLinks_setPrevFree c₄ _ _).contents)
    have heq := Option.some.inj h
    rw [← heq]
    split
    · exact h₅.trans ⟨fun _ => rfl, rfl, rfl, rfl, rfl⟩
    · exact h₅
  · exact nomatch h

theorem insertIntoQueues_contents (c : Cache D) (bh : ℕ) : SameContents c (insertIntoQueues c bh) := by
  unfold insertIntoQueues
  dsimp only
  set c₁ := c.setNextFree (some bh) (some c.freeList)
  set c₂ := c₁.setPrevFree (some bh) (c₁.prevFree c₁.freeList)
  set c₃ := c₂.setNextFree (c₂.prevFree c₂.freeList) (some bh)
  set c₄ := c₃.setPrevFree (some c₃.freeList) (some bh)
  set c₅ := c₄.setPrev (some bh) none
  set c₆ := c₅.setNext (some bh) none
  have h₂ : SameContents c c₂ :=
    (sameLinks_setNextFree c _ _).contents.trans (sameLinks_setPrevFree c₁ _ _).contents
  have h₄ : SameContents c₂ c₄ :=
    (sameLinks_setNextFree c₂ _ _).contents.trans (sameLinks_setPrevFree c₃ _ _).contents
  have h₆ : SameContents c₄ c₆ := (sameLinks_setPrev c₄ _ _).contents.trans (sameLinks_setNext c₅ _ _).contents
  have h : SameContents c c₆ := h₂.trans (h₄.trans h₆)
  split
  · exact h
  · set k := hashfn (c₆.dev bh) (c₆.blk bh)
    set c₇ := c₆.setNext (some bh) (c₆.hashTable k)
    have h₇ : SameContents c c₇ := h.trans (sameLinks_setNext c₆ _ _).contents
    have h₈ : SameContents c (c₇.setHash k (some bh)) := h₇.trans ⟨fun _ => rfl, rfl, rfl, rfl, rfl⟩
    exact h₈.trans (sameLinks_setPrev _ _ _).contents

/-- The re-keyed buffer is clean and of the device, the others are as before. -/
theorem rekey_spec (h : rekey c dev block bh = some c') :
    c'.dev bh = dev ∧ (c'.heads bh).bDirt = false ∧
      ∀ b, b ≠ bh → c'.dev b = c.dev b ∧ (c'.heads b).bDirt = (c.heads b).bDirt := by
  unfold rekey at h
  obtain ⟨c₁, hremove, hinsert⟩ := Option.bind_eq_some_iff.mp h
  have h₁ := removeFromQueues_contents hremove
  obtain rfl := Option.some.inj hinsert
  have h₂ := insertIntoQueues_contents
    (c₁.upd bh fun b => { b with bDev := dev, bBlocknr := block, stored := false }) bh
  have hdirt := h₁.field BufferHead.bDirt fun _ => rfl
  have hdirt₂ := h₂.field BufferHead.bDirt fun _ => rfl
  refine ⟨?_, ?_, fun b hb => ⟨?_, ?_⟩⟩
  · rw [h₂.dev]
    unfold Cache.dev
    rw [heads_upd_self]
  · rw [hdirt₂, heads_upd_self, hdirt, heads_upd_self]
  · rw [h₂.dev]
    unfold Cache.dev
    rw [heads_upd_of_ne _ hb]
    have hdev := congrFun h₁.dev b
    unfold Cache.dev at hdev
    rw [hdev, heads_upd_of_ne _ hb]
  · rw [hdirt₂, heads_upd_of_ne _ hb, hdirt, heads_upd_of_ne _ hb]

theorem findFrom_dev {fuel : ℕ} {o : Option ℕ} (h : findFrom c dev block fuel o = some bh) : c.dev bh = dev := by
  induction fuel generalizing o with
  | zero => cases o <;> exact nomatch h
  | succ fuel ih =>
    cases o with
    | none => exact nomatch h
    | some tmp =>
      unfold findFrom at h
      split at h
      · rename_i hkey
        obtain rfl := Option.some.inj h
        exact hkey.1
      · exact ih h

/-! ## What frames ask for -/

def Frame.devs : Frame → List Dev
  | .getHashTable dev _ | .getHashTableWait dev _ _ | .getblk dev _ | .getblkHash dev _ _
  | .getblkScan dev _ | .getblkWait dev _ _ | .bread dev _ | .breadPage dev _ _ | .breadPageGot dev _ _
  | .breadPageRead dev _ _ _ | .breada dev _ _ | .breadaGot dev _ | .breadaRead dev _ _
  | .breadaRest dev _ _ | .breadaRestGot dev _ _ | .breadaAhead dev _ _ _ | .breadaDrop dev _ _ _ => [dev]
  | _ => []

/-- The buffers that were returned to the call, and those that it requests -/
def Frame.bufs : Frame → List ℕ
  | .code held => held
  | .getHashTableWait _ _ bh | .getblkHash _ _ bh | .breadRead bh | .breadWait bh
  | .breadPageRead _ _ _ bh | .breadaRead _ _ bh | .breadaRest _ _ bh | .breadaRestGot _ _ bh
  | .breadaDrop _ _ bh _ | .llRwBlock _ bh | .lockBuffer _ _ bh | .findRequest _ _ bh => [bh]
  | .breadaAhead _ _ bh tmp => [bh, tmp]
  | _ => []

def Choice.devs : Choice D → List Dev
  | .getblk dev _ | .getHashTable dev _ | .bread dev _ | .breadPage dev _ | .breada dev _ _ => [dev]
  | _ => []

structure Asked (good : Dev → Prop) (c : Cache D) (f : Frame) : Prop where
  devs : ∀ d ∈ f.devs, good d
  bufs : ∀ b ∈ f.bufs, good (c.dev b)

/-- The buffers that are still to be written are of these devices. -/
def Owned (good : Dev → Prop) (c : Cache D) : Prop := ∀ b, (c.heads b).bDirt = true → good (c.dev b)

/-- Buffers only go over to these devices. -/
def Moves (good : Dev → Prop) (c c' : Cache D) : Prop := ∀ b, c'.dev b = c.dev b ∨ good (c'.dev b)

theorem good_of_moves (hm : Moves good c c') (hb : good (c.dev b)) : good (c'.dev b) := by
  rcases hm b with heq | hgood
  · rw [heq]
    exact hb
  · exact hgood

theorem moves_of_eq (h : c'.dev = c.dev) : Moves good c c' := fun b => .inl (congrFun h b)

theorem Asked.mono (hf : Asked good c f) (hm : Moves good c c') : Asked good c' f :=
  ⟨hf.devs, fun b hb => good_of_moves hm (hf.bufs b hb)⟩

theorem Asked.resume {v : Value} (hf : Asked good c f) (hv : ∀ b, v = some b → good (c.dev b))
    (hr : resume f v = some g) : Asked good c g := by
  obtain ⟨hdevs, hbufs⟩ := hf
  cases f <;> cases v <;> simp only [Buffer.resume, reduceCtorEq, Option.some.injEq] at hr <;> subst hr <;>
    refine ⟨?_, ?_⟩ <;> simp_all [Frame.devs, Frame.bufs]

/-- What a piece of code leaves: buffers only go over to the devices asked for, and what is returned is of
one of them. -/
structure Leaves (good : Dev → Prop) (c c' : Cache D) (nx : Next Frame Value Panic) : Prop where
  moves : Moves good c c'
  owned : Owned good c'
  frames : ∀ g ∈ nx.frames, Asked good c' g
  value : ∀ b, nx = .ret (some b) → good (c'.dev b)

namespace Leaves

variable (hm : Moves good c c') (ho : Owned good c')

include hm ho

theorem goto (hg : Asked good c' g) : Leaves good c c' (.goto g) :=
  ⟨hm, ho, fun _ hf => List.mem_singleton.mp hf ▸ hg, fun _ hb => nomatch hb⟩

theorem sleep (hg : Asked good c' g) : Leaves good c c' (.sleep g) :=
  ⟨hm, ho, fun _ hf => List.mem_singleton.mp hf ▸ hg, fun _ hb => nomatch hb⟩

theorem call (hg : Asked good c' g) (hh : Asked good c' h) : Leaves good c c' (.call g h) := by
  refine ⟨hm, ho, fun f hf => ?_, fun _ hb => nomatch hb⟩
  rcases List.mem_cons.mp hf with rfl | hf
  · exact hh
  · exact List.mem_singleton.mp hf ▸ hg

theorem ret (hb : good (c'.dev bh)) : Leaves good c c' (.ret (some bh)) := by
  refine ⟨hm, ho, fun _ hf => (nomatch hf), ?_⟩
  rintro b ⟨⟩
  exact hb

theorem null : Leaves good c c' (.ret none) := ⟨hm, ho, fun _ hf => (nomatch hf), fun _ hb => nomatch hb⟩

theorem panic (q : Panic) : Leaves good c c' (.panic q) :=
  ⟨hm, ho, fun _ hf => (nomatch hf), fun _ hb => nomatch hb⟩

end Leaves

/-! ## The pieces of code -/

section Pieces

variable (ho : Owned good c)

include ho

theorem leaves_waitOnBuffer {self : Frame} {go : Piece D} (hself : Asked good c self)
    (hgo : go = (c', nx) → Leaves good c c' nx) (h : waitOnBuffer c bh self go = (c', nx)) :
    Leaves good c c' nx := by
  unfold waitOnBuffer at h
  split at h
  · obtain ⟨rfl, rfl⟩ := Prod.mk.inj h
    exact .sleep (moves_of_eq rfl) ho hself
  · exact hgo h

theorem owned_of_heads (hdev : c'.dev = c.dev) (hdirt : ∀ b, (c'.heads b).bDirt = true → (c.heads b).bDirt = true) :
    Owned good c' := by
  intro b hb
  rw [hdev]
  exact ho b (hdirt b hb)

theorem owned_upd {k : BufferHead D → BufferHead D} (hdev : ∀ b, (k b).bDev = b.bDev)
    (hdirt : ∀ b, (k b).bDirt = true → b.bDirt = true) :
    (c.upd bh k).dev = c.dev ∧ Owned good (c.upd bh k) := by
  have hd : (c.upd bh k).dev = c.dev := funext fun b => field_upd BufferHead.bDev (hdev _) b
  refine ⟨hd, owned_of_heads ho hd fun b hb => ?_⟩
  rw [heads_upd] at hb
  split at hb
  · rename_i heq
    rw [heq]
    exact hdirt _ hb
  · exact hb

theorem leaves_lookup {wait : ℕ → Frame} {null : Next Frame Value Panic}
    (h : lookup c dev block wait null = (c', nx)) (hnull : Leaves good c c null)
    (hwait : ∀ c' bh, c'.dev bh = dev → Asked good (D := D) c' (wait bh)) : Leaves good c c' nx := by
  unfold lookup at h
  split at h
  · obtain ⟨rfl, rfl⟩ := Prod.mk.inj h
    exact hnull
  · rename_i bh hfind
    obtain ⟨rfl, rfl⟩ := Prod.mk.inj h
    obtain ⟨hdev, ho'⟩ : (incCount c bh).dev = c.dev ∧ Owned good (incCount c bh) :=
      owned_upd ho (fun _ => rfl) fun _ h => h
    refine .goto (moves_of_eq hdev) ho' (hwait _ _ ?_)
    rw [hdev]
    exact findFrom_dev hfind

theorem leaves_recheck {self again : Frame} (h : recheck c dev block bh self again = (c', nx)) (hdev : good dev)
    (hself : Asked good c self) (hagain : ∀ c' : Cache D, Asked good c' again) : Leaves good c c' nx := by
  refine leaves_waitOnBuffer ho hself (fun h => ?_) h
  split at h
  · rename_i hkey
    obtain ⟨rfl, rfl⟩ := Prod.mk.inj h
    refine .ret (moves_of_eq rfl) ho ?_
    rw [hkey.1]
    exact hdev
  · obtain ⟨rfl, rfl⟩ := Prod.mk.inj h
    obtain ⟨hd, ho'⟩ : (decCount c bh).dev = c.dev ∧ Owned good (decCount c bh) :=
      owned_upd ho (fun _ => rfl) fun _ h => h
    exact .goto (moves_of_eq hd) ho' (hagain _)

theorem leaves_takeFree (h : takeFree c dev block bh = (c', nx)) (hdev : good dev) : Leaves good c c' nx := by
  have hasked : ∀ g : Frame, g.devs ⊆ [dev] → g.bufs = [] → Asked good c g := by
    intro g hdevs hbufs
    refine ⟨fun d hd => ?_, fun b hb => ?_⟩
    · rw [List.mem_singleton.mp (hdevs hd)]
      exact hdev
    · rw [hbufs] at hb
      exact nomatch hb
  have hm : Moves good c c := moves_of_eq rfl
  have hself : Asked good c (.getblkWait dev block bh) := hasked _ (List.Subset.refl _) rfl
  refine leaves_waitOnBuffer ho hself (fun h => ?_) h
  split at h
  · obtain ⟨rfl, rfl⟩ := Prod.mk.inj h
    exact .goto hm ho (hasked _ (List.Subset.refl _) rfl)
  split at h
  · obtain ⟨rfl, rfl⟩ := Prod.mk.inj h
    exact .call hm ho hself (hasked _ (List.nil_subset _) rfl)
  split at h
  · obtain ⟨rfl, rfl⟩ := Prod.mk.inj h
    exact .goto hm ho (hasked _ (List.Subset.refl _) rfl)
  split at h
  · obtain ⟨rfl, rfl⟩ := Prod.mk.inj h
    exact .panic hm ho _
  · rename_i c₁ hrekey
    obtain ⟨rfl, rfl⟩ := Prod.mk.inj h
    obtain ⟨hd, hclean, hrest⟩ := rekey_spec hrekey
    have hbh : good (c₁.dev bh) := by
      rw [hd]
      exact hdev
    refine .ret (fun b => ?_) (fun b hb => ?_) hbh
    · by_cases hne : b = bh
      · rw [hne]
        exact .inr hbh
      · exact .inl (hrest b hne).1
    · by_cases hne : b = bh
      · rw [hne]
        exact hbh
      · rw [(hrest b hne).2] at hb
        rw [(hrest b hne).1]
        exact ho b hb

theorem leaves_llRwBlock {rw : Rw} (h : llRwBlock c rw bh = (c', nx)) (hbh : good (c.dev bh)) :
    Leaves good c c' nx := by
  have hm : Moves good c c := moves_of_eq rfl
  have hlock : ∀ rw ahead, Asked good c (.lockBuffer rw ahead bh) := fun rw ahead =>
    ⟨fun _ hd => (nomatch hd), fun b hb => List.mem_singleton.mp hb ▸ hbh⟩
  unfold llRwBlock at h
  split at h
  · obtain ⟨rfl, rfl⟩ := Prod.mk.inj h
    exact .null hm ho
  cases rw with
  | read =>
    obtain ⟨rfl, rfl⟩ := Prod.mk.inj h
    exact .goto hm ho (hlock _ _)
  | write =>
    obtain ⟨rfl, rfl⟩ := Prod.mk.inj h
    exact .goto hm ho (hlock _ _)
  | _ =>
    dsimp only at h
    split at h
    · obtain ⟨rfl, rfl⟩ := Prod.mk.inj h
      exact .null hm ho
    · obtain ⟨rfl, rfl⟩ := Prod.mk.inj h
      exact .goto hm ho (hlock _ _)

theorem leaves_lockBuffer {rw : Rw} {ahead : Bool} (h : lockBuffer c rw ahead bh = (c', nx))
    (hbh : good (c.dev bh)) : Leaves good c c' nx := by
  have hself : ∀ c' : Cache D, c'.dev = c.dev →
      Asked good c' (.lockBuffer rw ahead bh) ∧ Asked good c' (.findRequest rw ahead bh) := by
    intro c' hd
    have hbufs : ∀ b ∈ [bh], good (c'.dev b) := by
      intro b hb
      rw [List.mem_singleton.mp hb, hd]
      exact hbh
    exact ⟨⟨fun _ hd => (nomatch hd), hbufs⟩, ⟨fun _ hd => (nomatch hd), hbufs⟩⟩
  refine leaves_waitOnBuffer ho (hself c rfl).1 (fun h => ?_) h
  dsimp only at h
  obtain ⟨hd, ho'⟩ : (c.upd bh fun b => { b with bLock := true }).dev = c.dev ∧
      Owned good (c.upd bh fun b => { b with bLock := true }) := owned_upd ho (fun _ => rfl) fun _ h => h
  split at h
  · obtain ⟨rfl, rfl⟩ := Prod.mk.inj h
    obtain ⟨hd₂, ho₂⟩ : (unlockBuffer (c.upd bh fun b => { b with bLock := true }) bh).dev = _ ∧
        Owned good (unlockBuffer (c.upd bh fun b => { b with bLock := true }) bh) :=
      owned_upd ho' (fun _ => rfl) fun _ h => h
    exact .null (moves_of_eq (hd₂.trans hd)) ho₂
  · obtain ⟨rfl, rfl⟩ := Prod.mk.inj h
    exact .goto (moves_of_eq hd) ho' (hself _ hd).2

theorem leaves_findRequest {rw : Rw} {ahead : Bool} (h : findRequest c rw ahead bh = (c', nx))
    (hbh : good (c.dev bh)) : Leaves good c c' nx := by
  unfold findRequest at h
  split at h
  · rename_i i _
    obtain ⟨rfl, rfl⟩ := Prod.mk.inj h
    obtain ⟨hd, ho'⟩ : (c.upd bh fun b => { b with bDirt := false }).dev = c.dev ∧
        Owned good (c.upd bh fun b => { b with bDirt := false }) :=
      owned_upd ho (fun _ => rfl) fun _ h => nomatch h
    have hsame : (addRequest c i rw bh).dev = c.dev := hd
    have hown : Owned good (addRequest c i rw bh) := ho'
    exact .null (moves_of_eq hsame) hown
  · split at h
    · obtain ⟨rfl, rfl⟩ := Prod.mk.inj h
      obtain ⟨hd, ho'⟩ : (unlockBuffer c bh).dev = c.dev ∧ Owned good (unlockBuffer c bh) :=
        owned_upd ho (fun _ => rfl) fun _ h => h
      exact .null (moves_of_eq hd) ho'
    · obtain ⟨rfl, rfl⟩ := Prod.mk.inj h
      refine .sleep (moves_of_eq rfl) ho ⟨fun _ hd => (nomatch hd), fun b hb => ?_⟩
      rw [List.mem_singleton.mp hb]
      exact hbh

theorem leaves_syncDevWait {again : Bool} {i : ℕ} (h : syncDevWait c dev again i = (c', nx)) :
    Leaves good c c' nx := by
  have hm : Moves good c c := moves_of_eq rfl
  have hasked : ∀ g : Frame, g.devs = [] → g.bufs = [] → Asked good c g := by
    intro g hdevs hbufs
    refine ⟨fun d hd => ?_, fun b hb => ?_⟩
    · rw [hdevs] at hd
      exact nomatch hd
    · rw [hbufs] at hb
      exact nomatch hb
  refine leaves_waitOnBuffer ho (hasked _ rfl rfl) (fun h => ?_) h
  split at h
  · rename_i hdirt
    obtain ⟨rfl, rfl⟩ := Prod.mk.inj h
    refine .call hm ho (hasked _ rfl rfl) ⟨fun _ hd => (nomatch hd), fun b hb => ?_⟩
    rw [List.mem_singleton.mp hb]
    exact ho i hdirt.2
  · obtain ⟨rfl, rfl⟩ := Prod.mk.inj h
    exact .goto hm ho (hasked _ rfl rfl)

theorem leaves_code {held : List ℕ} {ch : Choice D} (hf : Asked good c (.code held)) (hch : ∀ d ∈ ch.devs, good d)
    (h : execCode c held ch = some (c', nx)) : Leaves good c c' nx := by
  have hm : Moves good c c := moves_of_eq rfl
  have hcall : ∀ g : Frame, g.devs ⊆ ch.devs → g.bufs = [] → Leaves good c c (.call (.code held) g) := by
    intro g hdevs hbufs
    refine .call hm ho hf ⟨fun d hd => hch d (hdevs hd), fun b hb => ?_⟩
    rw [hbufs] at hb
    exact nomatch hb
  cases ch with
  | brelse bh =>
    simp only [execCode] at h
    split_ifs at h
    obtain ⟨rfl, rfl⟩ := Prod.mk.inj (Option.some.inj h)
    have hrest : ∀ b ∈ held.erase bh, good (c.dev b) := fun b hb => hf.bufs b (List.mem_of_mem_erase hb)
    exact .call hm ho ⟨fun _ hd => (nomatch hd), hrest⟩ ⟨fun _ hd => (nomatch hd), fun _ hb => (nomatch hb)⟩
  | store bh data =>
    simp only [execCode] at h
    split_ifs at h with hheld
    obtain ⟨rfl, rfl⟩ := Prod.mk.inj (Option.some.inj h)
    have hd : (c.upd bh fun b =>
        { b with bData := data, bUptodate := true, bDirt := true, stored := true }).dev = c.dev :=
      funext fun b => field_upd BufferHead.bDev (by rfl) b
    refine .goto (moves_of_eq hd) (fun b hb => ?_) (hf.mono (moves_of_eq hd))
    rw [hd]
    rw [heads_upd] at hb
    split at hb
    · rename_i heq
      rw [heq]
      exact hf.bufs bh hheld.1
    · exact ho b hb
  | done =>
    simp only [execCode] at h
    split_ifs at h
    obtain ⟨rfl, rfl⟩ := Prod.mk.inj (Option.some.inj h)
    exact .null hm ho
  | _ =>
    obtain ⟨rfl, rfl⟩ := Prod.mk.inj (Option.some.inj h)
    exact hcall _ (fun _ hd => hd) rfl

/-- Whatever a piece of code does, buffers only go over to the devices asked for. -/
theorem exec_leaves {ch : Choice D} (hf : Asked good c f)
    (hch : ∀ held, f = .code held → ∀ d ∈ ch.devs, good d) (h : exec c ch f = some (c', nx)) :
    Leaves good c c' nx := by
  have hm : Moves good c c := moves_of_eq rfl
  have hnone : ∀ g : Frame, g.devs = [] → g.bufs = [] → Asked good c g := by
    intro g hdevs hbufs
    refine ⟨fun d hd => ?_, fun b hb => ?_⟩
    · rw [hdevs] at hd
      exact nomatch hd
    · rw [hbufs] at hb
      exact nomatch hb
  -- the next frames ask for no other device and hold no other buffer
  have hsub : ∀ g : Frame, g.devs ⊆ f.devs → g.bufs ⊆ f.bufs → Asked good c g := fun g hdevs hbufs =>
    ⟨fun d hd => hf.devs d (hdevs hd), fun b hb => hf.bufs b (hbufs hb)⟩
  cases f with
  | code held => exact leaves_code ho hf (hch held rfl) h
  | getHashTable dev block =>
    refine leaves_lookup ho (Option.some.inj h) (.null hm ho) fun c' bh hd => ?_
    have hdev := hf.devs dev (List.mem_singleton_self dev)
    refine ⟨hf.devs, fun b hb => ?_⟩
    rw [List.mem_singleton.mp hb, hd]
    exact hdev
  | getHashTableWait dev block bh =>
    have hdev := hf.devs dev (List.mem_singleton_self dev)
    exact leaves_recheck ho (Option.some.inj h) hdev hf fun c' => ⟨hf.devs, fun _ hb => (nomatch hb)⟩
  | getblk dev block =>
    have hdev := hf.devs dev (List.mem_singleton_self dev)
    have hscan : Asked good c (.getblkScan dev block) := ⟨hf.devs, fun _ hb => (nomatch hb)⟩
    refine leaves_lookup ho (Option.some.inj h) (.goto hm ho hscan) fun c' bh hd => ?_
    refine ⟨hf.devs, fun b hb => ?_⟩
    rw [List.mem_singleton.mp hb, hd]
    exact hdev
  | getblkHash dev block bh =>
    have hdev := hf.devs dev (List.mem_singleton_self dev)
    exact leaves_recheck ho (Option.some.inj h) hdev hf fun c' => ⟨hf.devs, fun _ hb => (nomatch hb)⟩
  | getblkScan dev block =>
    have heq := Option.some.inj h
    split at heq
    · obtain ⟨rfl, rfl⟩ := Prod.mk.inj heq
      exact .sleep hm ho (hsub _ (List.Subset.refl _) (List.Subset.refl _))
    · obtain ⟨rfl, rfl⟩ := Prod.mk.inj heq
      exact .goto hm ho (hsub _ (List.Subset.refl _) (List.Subset.refl _))
  | getblkWait dev block bh =>
    exact leaves_takeFree ho (Option.some.inj h) (hf.devs dev (List.mem_singleton_self dev))
  | getblkNull =>
    obtain ⟨rfl, rfl⟩ := Prod.mk.inj (Option.some.inj h)
    exact .panic hm ho _
  | brelse bh =>
    refine leaves_waitOnBuffer ho hf (fun h => ?_) (Option.some.inj h)
    split at h
    · obtain ⟨rfl, rfl⟩ := Prod.mk.inj h
      exact .panic hm ho _
    · obtain ⟨rfl, rfl⟩ := Prod.mk.inj h
      obtain ⟨hd, ho'⟩ : (decCount c bh).dev = c.dev ∧ Owned good (decCount c bh) :=
        owned_upd ho (fun _ => rfl) fun _ h => h
      exact .null (moves_of_eq hd) ho'
  | bread dev block =>
    obtain ⟨rfl, rfl⟩ := Prod.mk.inj (Option.some.inj h)
    exact .call hm ho (hnone _ rfl rfl) (hsub _ (List.Subset.refl _) (List.Subset.refl _))
  | breadRead bh =>
    have heq := Option.some.inj h
    split at heq
    · obtain ⟨rfl, rfl⟩ := Prod.mk.inj heq
      exact .ret hm ho (hf.bufs bh (List.mem_singleton_self bh))
    · obtain ⟨rfl, rfl⟩ := Prod.mk.inj heq
      exact .call hm ho (hsub _ (List.Subset.refl _) (List.Subset.refl _))
        (hsub _ (List.Subset.refl _) (List.Subset.refl _))
  | breadWait bh =>
    refine leaves_waitOnBuffer ho hf (fun h => ?_) (Option.some.inj h)
    split at h
    · obtain ⟨rfl, rfl⟩ := Prod.mk.inj h
      exact .ret hm ho (hf.bufs bh (List.mem_singleton_self bh))
    · obtain ⟨rfl, rfl⟩ := Prod.mk.inj h
      exact .call hm ho (hnone _ rfl rfl) (hnone _ rfl rfl)
  | returnNull =>
    obtain ⟨rfl, rfl⟩ := Prod.mk.inj (Option.some.inj h)
    exact .null hm ho
  | breadPage dev todo got =>
    cases todo with
    | nil =>
      obtain ⟨rfl, rfl⟩ := Prod.mk.inj (Option.some.inj h)
      exact .goto hm ho (hnone _ rfl rfl)
    | cons b todo =>
      have heq := Option.some.inj h
      split at heq
      · obtain ⟨rfl, rfl⟩ := Prod.mk.inj heq
        exact .goto hm ho (hsub _ (List.Subset.refl _) (List.Subset.refl _))
      · obtain ⟨rfl, rfl⟩ := Prod.mk.inj heq
        exact .call hm ho (hsub _ (List.Subset.refl _) (List.Subset.refl _))
          (hsub _ (List.Subset.refl _) (List.Subset.refl _))
  | breadPageRead dev todo got bh =>
    have heq := Option.some.inj h
    split at heq
    · obtain ⟨rfl, rfl⟩ := Prod.mk.inj heq
      exact .goto hm ho (hsub _ (List.Subset.refl _) (List.nil_subset _))
    · obtain ⟨rfl, rfl⟩ := Prod.mk.inj heq
      exact .call hm ho (hsub _ (List.Subset.refl _) (List.nil_subset _))
        (hsub _ (List.nil_subset _) (List.Subset.refl _))
  | breadPageCopy got =>
    rcases got with _ | ⟨_ | bh, got⟩
    · obtain ⟨rfl, rfl⟩ := Prod.mk.inj (Option.some.inj h)
      exact .null hm ho
    · obtain ⟨rfl, rfl⟩ := Prod.mk.inj (Option.some.inj h)
      exact .goto hm ho (hnone _ rfl rfl)
    · refine leaves_waitOnBuffer ho hf (fun h => ?_) (Option.some.inj h)
      obtain ⟨rfl, rfl⟩ := Prod.mk.inj h
      exact .call hm ho (hnone _ rfl rfl) (hnone _ rfl rfl)
  | breada dev first rest =>
    obtain ⟨rfl, rfl⟩ := Prod.mk.inj (Option.some.inj h)
    exact .call hm ho (hsub _ (List.Subset.refl _) (List.Subset.refl _))
      (hsub _ (List.Subset.refl _) (List.Subset.refl _))
  | breadaRead dev rest bh =>
    have heq := Option.some.inj h
    split at heq
    · obtain ⟨rfl, rfl⟩ := Prod.mk.inj heq
      exact .goto hm ho (hsub _ (List.Subset.refl _) (List.Subset.refl _))
    · obtain ⟨rfl, rfl⟩ := Prod.mk.inj heq
      exact .call hm ho (hsub _ (List.Subset.refl _) (List.Subset.refl _))
        (hsub _ (List.nil_subset _) (List.Subset.refl _))
  | breadaRest dev rest bh =>
    cases rest with
    | nil =>
      obtain ⟨rfl, rfl⟩ := Prod.mk.inj (Option.some.inj h)
      exact .goto hm ho (hsub _ (List.nil_subset _) (List.Subset.refl _))
    | cons first rest =>
      obtain ⟨rfl, rfl⟩ := Prod.mk.inj (Option.some.inj h)
      exact .call hm ho (hsub _ (List.Subset.refl _) (List.Subset.refl _))
        (hsub _ (List.Subset.refl _) (List.nil_subset _))
  | breadaAhead dev rest bh tmp =>
    have hdrop : Frame.bufs (.breadaDrop dev rest bh tmp) ⊆ Frame.bufs (.breadaAhead dev rest bh tmp) :=
      List.cons_subset.mpr ⟨List.mem_cons_self, List.nil_subset _⟩
    have htmp : Frame.bufs (.llRwBlock .reada tmp) ⊆ Frame.bufs (.breadaAhead dev rest bh tmp) :=
      List.cons_subset.mpr ⟨List.mem_cons_of_mem _ List.mem_cons_self, List.nil_subset _⟩
    have heq := Option.some.inj h
    split at heq
    · obtain ⟨rfl, rfl⟩ := Prod.mk.inj heq
      exact .goto hm ho (hsub _ (List.Subset.refl _) hdrop)
    · obtain ⟨rfl, rfl⟩ := Prod.mk.inj heq
      exact .call hm ho (hsub _ (List.Subset.refl _) hdrop) (hsub _ (List.nil_subset _) htmp)
  | breadaDrop dev rest bh tmp =>
    obtain ⟨rfl, rfl⟩ := Prod.mk.inj (Option.some.inj h)
    obtain ⟨hd, ho'⟩ : (decCount c tmp).dev = c.dev ∧ Owned good (decCount c tmp) :=
      owned_upd ho (fun _ => rfl) fun _ h => h
    exact .goto (moves_of_eq hd) ho'
      ((hsub (.breadaRest dev rest bh) (List.Subset.refl _) (List.Subset.refl _)).mono (moves_of_eq hd))
  | syncDev dev again i =>
    have heq := Option.some.inj h
    unfold syncDev at heq
    split at heq
    · split at heq
      · obtain ⟨rfl, rfl⟩ := Prod.mk.inj heq
        exact .goto hm ho (hnone _ rfl rfl)
      · obtain ⟨rfl, rfl⟩ := Prod.mk.inj heq
        exact .goto hm ho (hnone _ rfl rfl)
    · split at heq
      · obtain ⟨rfl, rfl⟩ := Prod.mk.inj heq
        exact .null hm ho
      · obtain ⟨rfl, rfl⟩ := Prod.mk.inj heq
        exact .call hm ho (hnone _ rfl rfl) (hnone _ rfl rfl)
  | syncDevWait dev again i => exact leaves_syncDevWait ho (Option.some.inj h)
  | llRwBlock rw bh => exact leaves_llRwBlock ho (Option.some.inj h) (hf.bufs bh (List.mem_singleton_self bh))
  | lockBuffer rw ahead bh =>
    exact leaves_lockBuffer ho (Option.some.inj h) (hf.bufs bh (List.mem_singleton_self bh))
  | findRequest rw ahead bh =>
    exact leaves_findRequest ho (Option.some.inj h) (hf.bufs bh (List.mem_singleton_self bh))
  | breadGot => exact nomatch h
  | breadPageGot => exact nomatch h
  | breadaGot => exact nomatch h
  | breadaRestGot => exact nomatch h

end Pieces

/-- The end of a request leaves the devices and the marks alone. -/
theorem endRequest_moves {e : EndRequest D} (h : endRequest e c = some c') :
    c'.dev = c.dev ∧ ∀ b, (c'.heads b).bDirt = (c.heads b).bDirt := by
  unfold endRequest at h
  obtain ⟨r, -, hr⟩ := Option.bind_eq_some_iff.mp h
  dsimp only at hr
  split at hr
  · obtain rfl := Option.some.inj hr
    exact ⟨funext fun b => field_upd BufferHead.bDev rfl b, fun b => field_upd BufferHead.bDirt rfl b⟩
  · obtain rfl := Option.some.inj hr
    exact ⟨funext fun b => field_upd BufferHead.bDev rfl b, fun b => field_upd BufferHead.bDirt rfl b⟩
  · exact nomatch hr

end Linux012.Buffer
