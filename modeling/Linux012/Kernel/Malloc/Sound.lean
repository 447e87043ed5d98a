import Linux012.Kernel.Malloc.Shape

/-! # The allocator at work

From the start, after any calls of `malloc` and `free_s`, the live objects are apart, each page is
counted and threaded, and the pages are those with live objects. No panic is reached, and the size
given to `free_s` is of no consequence.
-/

namespace Linux012.Malloc

open Function Links Runs

variable {s s' : Heap} {v : View} {a b b' d d' p obj len cp first : ℕ} {size : ℤ} {l l₁ l₂ : List ℕ}

/-- Two objects, each with the size of its bucket, do not overlap. -/
def Apart (s : Heap) (x y : ℕ × ℕ) : Prop :=
  ∀ b d b' d', Bucket s b d → x.1 ∈ slots s b d → Bucket s b' d' → y.1 ∈ slots s b' d' →
    x.1 + b ≤ y.1 ∨ y.1 + b' ≤ x.1

structure Sound (s : Heap) : Prop where
  apart : s.live.Pairwise (Apart s)
  within : ∀ x ∈ s.live, ∃ b d, Bucket s b d ∧ x.1 ∈ slots s b d ∧ x.2 ≤ b ∧
    s.page d ≤ x.1 ∧ x.1 + b ≤ s.page d + PAGE_SIZE
  refcnt : ∀ b d, Bucket s b d → s.refcnt d = (s.live.filter fun x => x.1 ∈ slots s b d).length
  freeptr : ∀ b d, Bucket s b d → ∃ l, Path s.mem (s.freeptr d) l ∧ l.Nodup ∧
    ∀ a, a ∈ l ↔ a ∈ slots s b d ∧ ¬ Live s a
  heldNodup : s.held.Nodup
  held : ∀ p, p ∈ s.held ↔ ∃ x ∈ s.live, x.1 / PAGE_SIZE * PAGE_SIZE = p

/-- Every page has a live object. -/
def Inv (s : Heap) : Prop := ∃ v, Shape s v ∧ ∀ b d, On v b d → 0 < s.refcnt d

/-! ## The lists and the heap -/

namespace Shape

theorem bucket_iff (h : Shape s v) : Bucket s b d ↔ On v b d := by
  refine and_congr_right fun hb => ?_
  constructor
  · rintro ⟨l, hl, hd⟩
    rwa [(h.chain b hb).unique hl]
  · exact fun hd => ⟨_, h.chain b hb, hd⟩

/-- The live objects are counted. -/
theorem refcnt_eq (h : Shape s v) (hd : On v b d) :
    s.refcnt d = (s.live.filter fun x => x.1 ∈ slots s b d).length := by
  have ht := h.objs b d hd
  have hslots := nodup_slots (s := s) (d := d) hd.1
  have hfree : (v.objs d).Perm ((slots s b d).filter fun a => a ∉ s.live.map Prod.fst) := by
    refine (List.perm_ext_iff_of_nodup ht.nodup (hslots.filter _)).mpr fun a => ?_
    rw [ht.mem a, List.mem_filter, decide_eq_true_eq]
    rfl
  have hlive : ((s.live.filter fun x => x.1 ∈ slots s b d).map Prod.fst).Perm
      ((slots s b d).filter fun a => a ∈ s.live.map Prod.fst) := by
    refine (List.perm_ext_iff_of_nodup (h.liveNodup.sublist (List.filter_sublist.map _))
      (hslots.filter _)).mpr fun a => ?_
    simp only [List.mem_map, List.mem_filter, decide_eq_true_eq]
    constructor
    · rintro ⟨x, ⟨hx, hs⟩, rfl⟩
      exact ⟨hs, x, hx, rfl⟩
    · rintro ⟨hs, x, hx, rfl⟩
      exact ⟨x, ⟨hx, hs⟩, rfl⟩
  have hsplit := List.length_eq_length_filter_add (l := slots s b d) fun a => decide (a ∈ s.live.map Prod.fst)
  have h₁ := hfree.length_eq
  have h₂ := hlive.length_eq
  have hcount := ht.count
  simp only [List.length_map, decide_not] at h₁ h₂
  simp only [slots, length_cells] at hsplit h₁ h₂ hcount
  simp only [slots]
  omega

theorem sound (h : Shape s v) (hu : ∀ b d, On v b d → 0 < s.refcnt d) : Sound s where
  apart := by
    refine (List.pairwise_map.mp h.liveNodup).imp fun {x y} hne b d b' d' hd hx hd' hy => ?_
    have hd := h.bucket_iff.mp hd
    have hd' := h.bucket_iff.mp hd'
    rcases eq_or_ne d d' with rfl | hdd
    · obtain rfl : b = b' := (h.size b d hd).symm.trans (h.size b' d hd')
      exact slots_apart hx hy hne
    · -- The objects are in different pages.
      have hpp : s.page d ≠ s.page d' := fun e => hdd (h.pages b d b' d' hd hd' e)
      have h₁ := mem_slots hd.1 hx
      have h₂ := mem_slots hd'.1 hy
      obtain ⟨k, hk⟩ := h.aligned b d hd
      obtain ⟨k', hk'⟩ := h.aligned b' d' hd'
      unfold PAGE_SIZE at *
      omega
  within x hx := by
    obtain ⟨b, d, hd, hs, hle⟩ := h.live x hx
    exact ⟨b, d, h.bucket_iff.mpr hd, hs, hle, mem_slots hd.1 hs⟩
  refcnt b d hd := h.refcnt_eq (h.bucket_iff.mp hd)
  freeptr b d hd := by
    have ht := h.objs b d (h.bucket_iff.mp hd)
    exact ⟨_, ht.path, ht.nodup, ht.mem⟩
  heldNodup := h.heldNodup
  held p := by
    rw [h.held p]
    constructor
    · rintro ⟨b, d, hd, rfl⟩
      have hpos := hu b d hd
      rw [h.refcnt_eq hd] at hpos
      obtain ⟨x, hx⟩ := List.exists_mem_of_length_pos hpos
      obtain ⟨hx, hs⟩ := List.mem_filter.mp hx
      exact ⟨x, hx, page_of_mem_slots hd.1 (h.aligned b d hd) (of_decide_eq_true hs)⟩
    · rintro ⟨x, hx, rfl⟩
      obtain ⟨b, d, hd, hs, -⟩ := h.live x hx
      exact ⟨b, d, hd, (page_of_mem_slots hd.1 (h.aligned b d hd) hs).symm⟩

/-! ## `free_s` -/

/-- The search ends at the descriptor of the page, whatever the size that is given. -/
theorem findDesc_eq (h : Shape s v) (hc : v.chains b = l₁ ++ d :: l₂) (hb : b ∈ bucketDir)
    (hobj : obj ∈ slots s b d) (hsize : size ≤ b) {bs : List ℕ} (hbs : bs ⊆ bucketDir) (hm : b ∈ bs) :
    s.findDesc (obj / PAGE_SIZE * PAGE_SIZE) size bs = some (b, l₁.getLast?, d) := by
  have hd : On v b d := ⟨hb, by rw [hc]; simp⟩
  have hpage := page_of_mem_slots hb (h.aligned b d hd) hobj
  rw [hpage]
  induction bs with
  | nil => cases hm
  | cons c bs ih =>
    have hcd := hbs List.mem_cons_self
    have hrest : c ≠ b → s.findDesc (s.page d) size bs = some (b, l₁.getLast?, d) := by
      intro hne
      refine ih (fun x hx => hbs (List.mem_cons_of_mem _ hx)) ?_
      rcases List.mem_cons.mp hm with rfl | hm
      · exact absurd rfl hne
      · exact hm
    unfold Heap.findDesc
    split
    · refine hrest ?_
      rintro rfl
      omega
    · rcases eq_or_ne c b with rfl | hne
      · have hp := h.chain c hb
        have hlt := h.length_lt hb
        have hn := h.chainNodup c hb
        rw [hc] at hp hlt hn
        rw [List.length_append, List.length_cons] at hlt
        rw [hp.scan_eq (by omega) (fun y hy => ?_) (by simp)]
        · simp
        · have hyd : y ≠ d := by
            rintro rfl
            exact List.disjoint_of_nodup_append hn hy List.mem_cons_self
          refine decide_eq_false fun e => hyd ?_
          exact h.pages c y c d ⟨hb, by rw [hc]; simp [hy]⟩ hd e
      · obtain ⟨q, hq⟩ := (h.chain c hcd).scan_of_forall none
          (fun bdesc => decide (s.page bdesc = s.page d)) (h.length_lt hcd) fun y hy => by
            refine decide_eq_false fun e => hne ?_
            have hy : On v c y := ⟨hcd, hy⟩
            obtain rfl := h.pages c y b d hy hd e
            exact (h.size c y hy).symm.trans (h.size b y hd)
        rw [hq]
        exact hrest hne

/-- `prev` is still the one before. -/
theorem checkPrev_eq (h : Shape s v) (hc : v.chains b = l₁ ++ d :: l₂) (hb : b ∈ bucketDir) :
    s.checkPrev b l₁.getLast? d = some l₁.getLast? := by
  have hp := h.chain b hb
  rw [hc] at hp
  unfold Heap.checkPrev
  rcases List.eq_nil_or_concat l₁ with rfl | ⟨l₀, q, rfl⟩
  · simp [hp.1]
  · have hq : s.next q = some d := by
      rw [List.concat_eq_append, List.append_assoc] at hp
      exact hp.next_eq
    simp [hq]

theorem freeS (h : Shape s v) (hu : ∀ b d, On v b d → 0 < s.refcnt d) (hlive : (obj, len) ∈ s.live) :
    ∃ s', Inv s' ∧ s'.live = s.live.filter (fun x => x.1 ≠ obj) ∧
      ∀ size : ℤ, (∀ b d, On v b d → obj ∈ slots s b d → size ≤ b) → s.freeS obj size = some s' := by
  obtain ⟨b, d, hd, hobj, -⟩ := h.live _ hlive
  obtain ⟨l₁, l₂, hc⟩ := List.append_of_mem hd.2
  have hback := h.giveBack hd hobj (List.mem_map_of_mem hlive)
  have hfind : ∀ size : ℤ, (∀ b d, On v b d → obj ∈ slots s b d → size ≤ b) →
      s.findDesc (obj / PAGE_SIZE * PAGE_SIZE) size bucketDir = some (b, l₁.getLast?, d) :=
    fun size hsize =>
      h.findDesc_eq hc hd.1 hobj (hsize b d hd hobj) (fun _ h => h) hd.1
  have hpos : ∀ b' d', On v b' d' → d' ≠ d → 0 < (s.giveBack obj d).refcnt d' := by
    intro b' d' hd' hne
    dsimp only [Heap.giveBack]
    rw [update_of_ne hne]
    exact hu b' d' hd'
  rcases Nat.eq_zero_or_pos ((s.giveBack obj d).refcnt d) with hzero | hnz
  · obtain ⟨s₁, hs₁, hshape, href⟩ := hback.unlink hd.1 hc hzero
    have hlive₁ : s₁.live = (s.giveBack obj d).live := by
      unfold Heap.unlinkDesc at hs₁
      split at hs₁
      · obtain rfl := Option.some.inj hs₁
        rfl
      · split at hs₁
        · cases hs₁
        · obtain rfl := Option.some.inj hs₁
          rfl
    refine ⟨s₁.freePage d, ⟨_, hshape, fun b' d' hd' => ?_⟩, hlive₁, fun size hsize => ?_⟩
    · have honly : ∀ b', On v b' d → b' = b := fun b' hd' =>
        (h.size b' d hd').symm.trans (h.size b d hd)
      obtain ⟨hd', hne⟩ := (on_erase hc (h.chainNodup b hd.1) honly).mp hd'
      have := hpos b' d' hd' hne
      rwa [← href] at this
    · unfold Heap.freeS
      rw [hfind size hsize]
      simp only [Option.bind_eq_bind, Option.bind_some, hzero, if_true]
      rw [hback.checkPrev_eq hc hd.1, Option.bind_some, hs₁]
      rfl
  · refine ⟨s.giveBack obj d, ⟨_, hback, fun b' d' hd' => ?_⟩, rfl, fun size hsize => ?_⟩
    · rcases eq_or_ne d' d with rfl | hne
      · exact hnz
      · exact hpos b' d' hd' hne
    · unfold Heap.freeS
      rw [hfind size hsize]
      simp only [Option.bind_eq_bind, Option.bind_some, hnz.ne', if_false]

/-! ## `malloc` -/

/-- The object that is taken leaves no page without a live object. -/
theorem take_inv (h : Shape s v) (hu : ∀ b' d', On v b' d' → d' ≠ d → 0 < s.refcnt d') (hd : On v b d)
    (hlen : len ≤ b) (hs : s.take len d = some (obj, s')) :
    Inv s' ∧ s'.live = (obj, len) :: s.live := by
  obtain ⟨l, hshape, href⟩ := h.take hd hlen hs
  obtain ⟨obj', -, he⟩ := Option.map_eq_some_iff.mp hs
  obtain ⟨rfl, rfl⟩ := Prod.mk.inj he
  refine ⟨⟨_, hshape, fun b' d' hd' => ?_⟩, rfl⟩
  rw [href]
  rcases eq_or_ne d' d with rfl | hne
  · rw [update_self]
    exact Nat.succ_pos _
  · rw [update_of_ne hne]
    exact hu b' d' hd' hne

theorem newBucket_take (h : Shape s v) (hu : ∀ b d, On v b d → 0 < s.refcnt d) (hb : b ∈ bucketDir)
    (hlen : len ≤ b) (hfirst : Fresh s first) (hcp : Fresh s cp) :
    ∃ obj s', ((s.newBucket first cp b).bind fun (d, s) => s.take len d) = some (obj, s') ∧
      Inv s' ∧ s'.live = (obj, len) :: s.live := by
  -- A page of descriptors is fetched first when none of them is free.
  obtain ⟨s₁, d, rest, objs, hs₁, hshape, hchain, hsame⟩ : ∃ s₁ d rest objs,
      (if s.freeBucketDesc = none then s.initBucketDesc first else s) = s₁ ∧
      Shape s₁ ⟨v.chains, d :: rest, objs⟩ ∧ s₁.freeBucketDesc = some d ∧
      s₁.held = s.held ∧ s₁.refcnt = s.refcnt ∧ s₁.live = s.live := by
    split
    · rename_i hfree
      obtain ⟨n, hn⟩ : ∃ n, PAGE_SIZE / BUCKET_DESC = n + 1 := ⟨255, rfl⟩
      refine ⟨_, first, cells BUCKET_DESC (first + BUCKET_DESC) n, v.objs, rfl, ?_, rfl, rfl, rfl, rfl⟩
      have := h.initBucketDesc hfree hfirst.1 hfirst.2.2
      rwa [hn, cells_succ] at this
    · rename_i hfree
      obtain ⟨d, hd⟩ := Option.ne_none_iff_exists'.mp hfree
      have hp := h.free
      rw [hd] at hp
      rcases hv : v.free with _ | ⟨x, rest⟩
      · rw [hv] at hp
        cases hp
      · rw [hv] at hp
        obtain rfl := Option.some.inj hp.1
        refine ⟨s, d, rest, v.objs, rfl, ?_, hd, rfl, rfl, rfl⟩
        rw [← hv]
        exact h
  obtain ⟨hheld, href, hlive⟩ := hsame
  have hfill := hshape.fill rfl hb hcp.1 (by rw [hheld]; exact hcp.2.1)
  have hon : On ⟨update v.chains b (d :: v.chains b), rest, update objs d (cells b cp (PAGE_SIZE / b))⟩ b d :=
    ⟨hb, by simp⟩
  have hnew : (s.newBucket first cp b) = some (d, s₁.fill d cp b) := by
    unfold Heap.newBucket
    rw [hs₁]
    dsimp only
    rw [hchain]
    rfl
  have htake : ∃ obj s', (s₁.fill d cp b).take len d = some (obj, s') := by
    unfold Heap.take Heap.fill
    simp
  obtain ⟨obj, s', hs'⟩ := htake
  rw [hnew, Option.bind_some]
  refine ⟨obj, s', hs', ?_⟩
  rw [← hlive]
  refine hfill.take_inv (fun b' d' hd' hne => ?_) hon hlen hs'
  dsimp only [Heap.fill]
  rw [update_of_ne hne, href]
  rcases (on_push (v := ⟨v.chains, d :: rest, objs⟩) hb).mp hd' with hd' | ⟨-, hdd⟩
  · exact hu b' d' hd'
  · exact absurd hdd hne

theorem malloc (h : Shape s v) (hu : ∀ b d, On v b d → 0 < s.refcnt d) (hlen : len ≤ PAGE_SIZE)
    (hfirst : Fresh s first) (hcp : Fresh s cp) :
    ∃ obj s', s.malloc first cp len = some (obj, s') ∧ Inv s' ∧ s'.live = (obj, len) :: s.live := by
  obtain ⟨b, hfind⟩ : ∃ b, bucketDir.find? (fun size => decide (len ≤ size)) = some b := by
    refine Option.isSome_iff_exists.mp (List.find?_isSome.mpr ⟨PAGE_SIZE, by decide, ?_⟩)
    exact decide_eq_true hlen
  have hb := List.mem_of_find?_eq_some hfind
  have hle : len ≤ b := by simpa using List.find?_some hfind
  have hp := h.chain b hb
  have hlt := h.length_lt hb
  unfold Heap.malloc
  rw [hfind]
  dsimp only
  rcases exists_first (fun d => (s.freeptr d).isSome) (v.chains b) with hnone |
    ⟨l₁, d, l₂, hc, hl₁, hd⟩
  · obtain ⟨q, hq⟩ := hp.scan_of_forall none _ hlt hnone
    rw [hq]
    exact h.newBucket_take hu hb hle hfirst hcp
  · have hon : On v b d := ⟨hb, by rw [hc]; simp⟩
    rw [hc] at hp hlt
    rw [List.length_append] at hlt
    rw [hp.scan_eq (by omega) hl₁ hd]
    obtain ⟨x, hx⟩ := Option.isSome_iff_exists.mp hd
    have htake : ∃ obj s', s.take len d = some (obj, s') := by
      unfold Heap.take
      simp [hx]
    obtain ⟨obj, s', hs'⟩ := htake
    exact ⟨obj, s', hs', h.take_inv (fun b' d' hd' _ => hu b' d' hd') hon hle hs'⟩

end Shape

/-! ## Runs -/

theorem Inv.sound (h : Inv s) : Sound s := by
  obtain ⟨v, hv, hu⟩ := h
  exact hv.sound hu

theorem Inv.malloc (h : Inv s) (hl : Legal s (.malloc len first cp)) :
    ∃ obj s', s.malloc first cp len = some (obj, s') ∧ Inv s' ∧ s'.live = (obj, len) :: s.live := by
  obtain ⟨v, hv, hu⟩ := h
  exact hv.malloc hu hl.1 hl.2.1 hl.2.2.1

/-- With the size or without, `free_s` does the same. -/
theorem Inv.freeS (h : Inv s) (hl : Legal s (.free obj size)) :
    ∃ s', s.freeS obj size = some s' ∧ s.freeS obj 0 = some s' ∧ Inv s' ∧
      s'.live = s.live.filter fun x => x.1 ≠ obj := by
  obtain ⟨v, hv, hu⟩ := h
  obtain ⟨⟨len, hlive⟩, hsize⟩ := hl
  obtain ⟨s', hs', hlive', hfree⟩ := hv.freeS hu hlive
  refine ⟨s', hfree size fun b d hd => hsize b d (hv.bucket_iff.mpr hd), ?_, hs', hlive'⟩
  exact hfree 0 fun b d _ _ => Int.natCast_nonneg b

theorem Inv.step {c : Call} (h : Inv s) (hl : Legal s c) (hs : step c s = some s') : Inv s' := by
  cases c with
  | malloc len first cp =>
    obtain ⟨obj, s₁, h₁, hinv, -⟩ := h.malloc hl
    simp only [Malloc.step, h₁, Option.map_some] at hs
    obtain rfl := Option.some.inj hs
    exact hinv
  | free obj size =>
    obtain ⟨s₁, h₁, -, hinv, -⟩ := h.freeS hl
    obtain rfl := Option.some.inj (h₁.symm.trans hs)
    exact hinv
  | store obj data =>
    obtain ⟨v, hv, hu⟩ := h
    obtain ⟨len, hlen, rfl⟩ := Option.map_eq_some_iff.mp hs
    obtain ⟨l₁, l₂, he, -⟩ := List.lookup_eq_some_iff.mp hlen
    exact ⟨v, hv.store (by rw [he]; simp), hu⟩

theorem inv_boot (page refcnt bucketSize : ℕ → ℕ) (next freeptr mem : ℕ → Option ℕ) :
    Inv (boot page refcnt bucketSize next freeptr mem) := by
  refine ⟨⟨fun _ => [], [], fun _ => []⟩, ?_, fun b d hd => absurd hd.2 nofun⟩
  constructor
  case chain => exact fun _ _ => rfl
  case chainNodup => exact fun _ _ => List.nodup_nil
  case free => exact rfl
  case freeNodup => exact List.nodup_nil
  case descPages => exact nofun
  case heldNodup => exact List.nodup_nil
  case liveNodup => exact List.nodup_nil
  case live => exact nofun
  case descs => exact fun d hd => hd.elim (fun ⟨b, hb⟩ => absurd hb.2 nofun) nofun
  case held => exact fun p => iff_of_false nofun fun ⟨b, d, hd, _⟩ => absurd hd.2 nofun
  case pages => exact fun b d b' d' hd => absurd hd.2 nofun
  all_goals exact fun b d hd => absurd hd.2 nofun

/-- After any run the heap is sound, and every call that may be made ends without a panic, with a
sound heap; `free_s` has the same effect with the size and without it. -/
theorem malloc_sound (page refcnt bucketSize : ℕ → ℕ) (next freeptr mem : ℕ → Option ℕ) {s : Heap}
    (hrun : Run step Legal (boot page refcnt bucketSize next freeptr mem) s) :
    Sound s ∧
    (∀ len first cp, Legal s (.malloc len first cp) → ∃ obj s', s.malloc first cp len = some (obj, s') ∧
      Sound s' ∧ s'.live = (obj, len) :: s.live) ∧
    ∀ obj size, Legal s (.free obj size) → ∃ s', s.freeS obj size = some s' ∧
      s.freeS obj 0 = some s' ∧ Sound s' ∧ s'.live = s.live.filter fun x => x.1 ≠ obj := by
  have h : Inv s := hrun.invariant (inv_boot page refcnt bucketSize next freeptr mem)
    fun _ _ _ h hl hs => h.step hl hs
  refine ⟨h.sound, fun len first cp hl => ?_, fun obj size hl => ?_⟩
  · obtain ⟨obj, s', hs', hinv, hlive⟩ := h.malloc hl
    exact ⟨obj, s', hs', hinv.sound, hlive⟩
  · obtain ⟨s', hs', h0, hinv, hlive⟩ := h.freeS hl
    exact ⟨s', hs', h0, hinv.sound, hlive⟩

/-- An object of ten bytes in the second page, with the descriptors in the first. -/
def firstObject : Heap :=
  (step (.malloc 10 4096 8192)
    (boot (fun _ => 0) (fun _ => 0) (fun _ => 0) (fun _ => none) (fun _ => none) fun _ => none)).get
    (by decide +kernel)

theorem malloc_sound_firstObject : firstObject.live = [(8192, 10)] ∧ firstObject.held = [8192] ∧
    Sound firstObject := by
  refine ⟨by decide +kernel, by decide +kernel, (malloc_sound (fun _ => 0) (fun _ => 0) (fun _ => 0)
    (fun _ => none) (fun _ => none) (fun _ => none) (.tail .refl (a := .malloc 10 4096 8192) ?_ ?_)).1⟩
  · unfold Legal Fresh
    decide
  · exact (Option.some_get _).symm

end Linux012.Malloc
