import Mathlib.Tactic
import Linux012.Kernel.Malloc.Basic

/-! # The lists of the allocator

The descriptors are on chains and on a list of free ones, and each descriptor of a chain has the list
of the objects of its page that are not live. One lemma for each edit of the code.
-/

namespace Linux012.Malloc

open Function Links

/-- The lists: the chain for each size, the free descriptors, the free objects for each descriptor. -/
structure View where
  chains : ℕ → List ℕ
  free : List ℕ
  objs : ℕ → List ℕ

def On (v : View) (b d : ℕ) : Prop := b ∈ bucketDir ∧ d ∈ v.chains b

def Live (s : Heap) (a : ℕ) : Prop := a ∈ s.live.map Prod.fst

/-- The free objects of a page are those that are not live, and the others are counted. -/
structure Threaded (s : Heap) (b d : ℕ) (l : List ℕ) : Prop where
  path : Path s.mem (s.freeptr d) l
  nodup : l.Nodup
  mem : ∀ a, a ∈ l ↔ a ∈ slots s b d ∧ ¬ Live s a
  count : s.refcnt d + l.length = PAGE_SIZE / b

structure Shape (s : Heap) (v : View) : Prop where
  chain : ∀ b ∈ bucketDir, Path s.next (s.chain b) (v.chains b)
  chainNodup : ∀ b ∈ bucketDir, (v.chains b).Nodup
  free : Path s.next s.freeBucketDesc v.free
  freeNodup : v.free.Nodup
  size : ∀ b d, On v b d → s.bucketSize d = b
  disjoint : ∀ b d, On v b d → d ∉ v.free
  descs : ∀ d, (∃ b, On v b d) ∨ d ∈ v.free →
    ∃ p ∈ s.descPages, d ∈ cells BUCKET_DESC p (PAGE_SIZE / BUCKET_DESC)
  descPages : ∀ p ∈ s.descPages, PAGE_SIZE ∣ p
  objs : ∀ b d, On v b d → Threaded s b d (v.objs d)
  aligned : ∀ b d, On v b d → PAGE_SIZE ∣ s.page d
  pages : ∀ b d b' d', On v b d → On v b' d' → s.page d = s.page d' → d = d'
  heldNodup : s.held.Nodup
  held : ∀ p, p ∈ s.held ↔ ∃ b d, On v b d ∧ s.page d = p
  liveNodup : (s.live.map Prod.fst).Nodup
  live : ∀ x ∈ s.live, ∃ b d, On v b d ∧ x.1 ∈ slots s b d ∧ x.2 ≤ b

variable {s s' : Heap} {v : View} {a b b' d d' p obj len cp first : ℕ} {l l₁ l₂ rest : List ℕ}

/-! ## Addresses -/

theorem bucketDir_spec (hb : b ∈ bucketDir) : 0 < b ∧ b ≤ PAGE_SIZE ∧ b * (PAGE_SIZE / b) = PAGE_SIZE := by
  revert hb b
  decide

theorem mem_cells_page (hb : b * (PAGE_SIZE / b) = PAGE_SIZE) (ha : a ∈ cells b p (PAGE_SIZE / b)) :
    p ≤ a ∧ a + b ≤ p + PAGE_SIZE := by
  obtain ⟨i, hi, rfl⟩ := mem_cells.mp ha
  have : b * (i + 1) ≤ b * (PAGE_SIZE / b) := Nat.mul_le_mul_left b hi
  rw [hb, Nat.mul_add, Nat.mul_one] at this
  omega

/-- The page of an object -/
theorem page_of_mem_cells (hpos : 0 < b) (hb : b * (PAGE_SIZE / b) = PAGE_SIZE) (hp : PAGE_SIZE ∣ p)
    (ha : a ∈ cells b p (PAGE_SIZE / b)) : a / PAGE_SIZE * PAGE_SIZE = p := by
  obtain ⟨h₁, h₂⟩ := mem_cells_page hb ha
  obtain ⟨k, rfl⟩ := hp
  unfold PAGE_SIZE at *
  omega

theorem mem_slots (hb : b ∈ bucketDir) (ha : a ∈ slots s b d) :
    s.page d ≤ a ∧ a + b ≤ s.page d + PAGE_SIZE :=
  mem_cells_page (bucketDir_spec hb).2.2 ha

theorem page_of_mem_slots (hb : b ∈ bucketDir) (hp : PAGE_SIZE ∣ s.page d) (ha : a ∈ slots s b d) :
    a / PAGE_SIZE * PAGE_SIZE = s.page d :=
  page_of_mem_cells (bucketDir_spec hb).1 (bucketDir_spec hb).2.2 hp ha

theorem nodup_slots (hb : b ∈ bucketDir) : (slots s b d).Nodup := nodup_cells (bucketDir_spec hb).1

/-- Objects of one page are apart by their size. -/
theorem slots_apart (ha : a ∈ slots s b d) (hp : p ∈ slots s b d) (hne : a ≠ p) :
    a + b ≤ p ∨ p + b ≤ a := by
  obtain ⟨i, -, rfl⟩ := mem_cells.mp ha
  obtain ⟨j, -, rfl⟩ := mem_cells.mp hp
  rcases Nat.lt_trichotomy i j with h | rfl | h
  · have : b * (i + 1) ≤ b * j := Nat.mul_le_mul_left b h
    rw [Nat.mul_add, Nat.mul_one] at this
    omega
  · exact absurd rfl hne
  · have : b * (j + 1) ≤ b * i := Nat.mul_le_mul_left b h
    rw [Nat.mul_add, Nat.mul_one] at this
    omega

namespace Shape

/-- An object belongs to the page of one descriptor. -/
theorem owner_unique (h : Shape s v) (hd : On v b d) (hd' : On v b' d') (ha : a ∈ slots s b d)
    (ha' : a ∈ slots s b' d') : b = b' ∧ d = d' := by
  have hp := page_of_mem_slots hd.1 (h.aligned b d hd) ha
  have hp' := page_of_mem_slots hd'.1 (h.aligned b' d' hd') ha'
  have hdd := h.pages b d b' d' hd hd' (hp.symm.trans hp')
  subst hdd
  exact ⟨(h.size b d hd).symm.trans (h.size b' d hd'), rfl⟩

/-- No chain is longer than there are descriptors. -/
theorem length_lt (h : Shape s v) (hb : b ∈ bucketDir) : (v.chains b).length < s.steps := by
  have hsub : v.chains b ⊆ s.descPages.flatMap fun p => cells BUCKET_DESC p (PAGE_SIZE / BUCKET_DESC) := by
    intro d hd
    obtain ⟨p, hp, hc⟩ := h.descs d (.inl ⟨b, hb, hd⟩)
    exact List.mem_flatMap.mpr ⟨p, hp, hc⟩
  have hle := (List.subperm_of_subset (h.chainNodup b hb) hsub).length_le
  have hlen : (s.descPages.flatMap fun p => cells BUCKET_DESC p (PAGE_SIZE / BUCKET_DESC)).length =
      PAGE_SIZE / BUCKET_DESC * s.descPages.length := by
    rw [List.length_flatMap]
    simp only [length_cells, List.map_const', List.sum_replicate, smul_eq_mul]
    exact Nat.mul_comm _ _
  unfold Heap.steps
  omega

end Shape

/-- Other objects, other descriptors. -/
theorem Threaded.congr (h : Threaded s b d l) (hp : s'.page d = s.page d)
    (hf : s'.freeptr d = s.freeptr d) (hr : s'.refcnt d = s.refcnt d)
    (hm : ∀ a ∈ l, s'.mem a = s.mem a) (hl : ∀ a ∈ slots s b d, Live s' a ↔ Live s a) :
    Threaded s' b d l where
  path := by
    rw [hf]
    exact h.path.congr hm
  nodup := h.nodup
  mem a := by
    unfold slots
    rw [hp, h.mem a]
    exact and_congr_right fun ha => not_congr (hl a ha).symm
  count := by rw [hr, h.count]

/-! ## Objects -/

namespace Shape

/-- The first free object becomes live. -/
theorem take (h : Shape s v) (hd : On v b d) (hlen : len ≤ b) (hs : s.take len d = some (obj, s')) :
    ∃ l, Shape s' { v with objs := update v.objs d l } ∧
      s'.refcnt = update s.refcnt d (s.refcnt d + 1) := by
  obtain ⟨obj', hobj, he⟩ := Option.map_eq_some_iff.mp hs
  obtain ⟨rfl, rfl⟩ := Prod.mk.inj he
  have ht := h.objs b d hd
  rcases hl : v.objs d with _ | ⟨x, l⟩
  · have := ht.path
    rw [hl, path_nil, hobj] at this
    cases this
  · rw [hl] at ht
    obtain rfl : x = obj' := Option.some.inj (ht.path.1.symm.trans hobj)
    obtain ⟨hslot, hfree⟩ := (ht.mem x).mp List.mem_cons_self
    refine ⟨l, ?_, rfl⟩
    refine ⟨h.chain, h.chainNodup, h.free, h.freeNodup, h.size, h.disjoint, h.descs, h.descPages, ?_,
      h.aligned, h.pages, h.heldNodup, h.held, ?_, ?_⟩
    · intro b' d' hd'
      rcases eq_or_ne d' d with rfl | hne
      · obtain rfl : b' = b := (h.size b' d' hd').symm.trans (h.size b d' hd)
        dsimp only
        rw [update_self]
        refine ⟨?_, (List.nodup_cons.mp ht.nodup).2, fun a => ?_, ?_⟩
        · dsimp only
          rw [update_self]
          exact ht.path.2
        · have ha := ht.mem a
          have hx := (List.nodup_cons.mp ht.nodup).1
          simp only [Live, List.map_cons, List.mem_cons] at ha ⊢
          rcases eq_or_ne a x with rfl | hax
          · simp [hx]
          · simp only [hax, false_or] at ha ⊢
            exact ha
        · have := ht.count
          dsimp only
          rw [update_self]
          rw [List.length_cons] at this
          omega
      · dsimp only
        rw [update_of_ne hne]
        refine (h.objs b' d' hd').congr rfl (update_of_ne hne _ _) (update_of_ne hne _ _)
          (fun _ _ => rfl) fun a ha => ?_
        have hax : a ≠ x := by
          rintro rfl
          exact hne (h.owner_unique hd' hd ha hslot).2
        simp [Live, hax]
    · exact List.nodup_cons.mpr ⟨hfree, h.liveNodup⟩
    · rintro y (_ | ⟨_, hy⟩)
      · exact ⟨b, d, hd, hslot, hlen⟩
      · exact h.live y hy

/-- A live object becomes the first free one. -/
theorem giveBack (h : Shape s v) (hd : On v b d) (hobj : obj ∈ slots s b d) (hlive : Live s obj) :
    Shape (s.giveBack obj d) { v with objs := update v.objs d (obj :: v.objs d) } := by
  have ht := h.objs b d hd
  have hnot : obj ∉ v.objs d := fun hm => ((ht.mem obj).mp hm).2 hlive
  have hgone : ∀ a, Live (s.giveBack obj d) a ↔ Live s a ∧ a ≠ obj := by
    intro a
    simp only [Live, Heap.giveBack, List.mem_map, List.mem_filter, decide_eq_true_eq]
    constructor
    · rintro ⟨x, ⟨hx, hne⟩, rfl⟩
      exact ⟨⟨x, hx, rfl⟩, hne⟩
    · rintro ⟨⟨x, hx, rfl⟩, hne⟩
      exact ⟨x, ⟨hx, hne⟩, rfl⟩
  refine ⟨h.chain, h.chainNodup, h.free, h.freeNodup, h.size, h.disjoint, h.descs, h.descPages, ?_,
    h.aligned, h.pages, h.heldNodup, h.held, ?_, ?_⟩
  · intro b' d' hd'
    rcases eq_or_ne d' d with rfl | hne
    · obtain rfl : b' = b := (h.size b' d' hd').symm.trans (h.size b d' hd)
      dsimp only
      rw [update_self]
      have hnodup : (obj :: v.objs d').Nodup := List.nodup_cons.mpr ⟨hnot, ht.nodup⟩
      refine ⟨?_, hnodup, fun a => ?_, ?_⟩
      · dsimp only [Heap.giveBack]
        rw [update_self]
        exact ht.path.push hnot
      · rw [hgone, List.mem_cons, ht.mem a]
        rcases eq_or_ne a obj with rfl | hax
        · exact iff_of_true (.inl rfl) ⟨hobj, fun hc => hc.2 rfl⟩
        · constructor
          · rintro (rfl | ⟨hs, hn⟩)
            · exact absurd rfl hax
            · exact ⟨hs, fun hc => hn hc.1⟩
          · rintro ⟨hs, hn⟩
            exact .inr ⟨hs, fun hc => hn ⟨hc, hax⟩⟩
      · have hsub : obj :: v.objs d' ⊆ slots s b' d' := by
          rintro a (_ | ⟨_, ha⟩)
          · exact hobj
          · exact ((ht.mem a).mp ha).1
        have hle := (List.subperm_of_subset hnodup hsub).length_le
        have hcount := ht.count
        dsimp only [Heap.giveBack]
        rw [update_self]
        simp only [slots, length_cells, List.length_cons] at hle ⊢
        omega
    · dsimp only
      rw [update_of_ne hne]
      refine (h.objs b' d' hd').congr rfl (update_of_ne hne _ _) (update_of_ne hne _ _)
        (fun a ha => ?_) fun a ha => ?_
      · have hao : a ≠ obj := by
          rintro rfl
          exact (((h.objs b' d' hd').mem a).mp ha).2 hlive
        exact update_of_ne hao _ _
      · have hao : a ≠ obj := by
          rintro rfl
          exact hne (h.owner_unique hd' hd ha hobj).2
        rw [hgone]
        exact and_iff_left hao
  · exact h.liveNodup.sublist (List.Sublist.map _ List.filter_sublist)
  · exact fun x hx => h.live x (List.mem_of_mem_filter hx)

/-- What an owner stores is in its own object. -/
theorem store {data : ℕ → Option ℕ} (h : Shape s v) (hlive : (obj, len) ∈ s.live) :
    Shape { s with mem := fun a => if obj ≤ a ∧ a < obj + len then data a else s.mem a } v := by
  obtain ⟨b, d, hd, hobj, hlen⟩ := h.live _ hlive
  refine ⟨h.chain, h.chainNodup, h.free, h.freeNodup, h.size, h.disjoint, h.descs, h.descPages, ?_,
    h.aligned, h.pages, h.heldNodup, h.held, h.liveNodup, h.live⟩
  intro b' d' hd'
  refine (h.objs b' d' hd').congr rfl rfl rfl (fun a ha => ?_) fun a _ => Iff.rfl
  dsimp only
  refine if_neg fun hin => ?_
  obtain ⟨hslot, hfree⟩ := ((h.objs b' d' hd').mem a).mp ha
  -- A free object begins neither in another page nor within this object.
  have hpage : a / PAGE_SIZE * PAGE_SIZE = s.page d := by
    have h₁ := mem_slots hd.1 hobj
    obtain ⟨k, hk⟩ := h.aligned b d hd
    dsimp only at hlen
    rw [hk] at h₁ ⊢
    unfold PAGE_SIZE at *
    omega
  have hdd := h.pages b' d' b d hd' hd
    ((page_of_mem_slots hd'.1 (h.aligned b' d' hd') hslot).symm.trans hpage)
  subst hdd
  obtain rfl : b' = b := (h.size b' d' hd').symm.trans (h.size b d' hd)
  have hne : a ≠ obj := by
    rintro rfl
    exact hfree (List.mem_map.mpr ⟨_, hlive, rfl⟩)
  have := slots_apart hslot hobj hne
  dsimp only at hlen
  omega

/-! ## Descriptors -/

attribute [local irreducible] thread in
/-- A page of descriptors is added to the free ones. -/
theorem initBucketDesc (h : Shape s v) (hfree : s.freeBucketDesc = none) (hp : PAGE_SIZE ∣ first)
    (hnew : first ∉ s.descPages) :
    Shape (s.initBucketDesc first) { v with free := cells BUCKET_DESC first (PAGE_SIZE / BUCKET_DESC) } := by
  have hoff : ∀ b d, On v b d → d ∉ cells BUCKET_DESC first (PAGE_SIZE / BUCKET_DESC) := by
    intro b d hd hc
    obtain ⟨p, hp', hc'⟩ := h.descs d (.inl ⟨b, hd⟩)
    have h₁ := page_of_mem_cells (b := BUCKET_DESC) (by decide) (by decide) hp hc
    have h₂ := page_of_mem_cells (b := BUCKET_DESC) (by decide) (by decide) (h.descPages p hp') hc'
    exact hnew (h₁.symm.trans h₂ ▸ hp')
  refine ⟨fun b hb => ?_, h.chainNodup, ?_, nodup_cells (by decide), h.size, hoff, ?_, ?_,
    fun b d hd => (h.objs b d hd).congr rfl rfl rfl (fun _ _ => rfl) fun _ _ => Iff.rfl, h.aligned, h.pages, h.heldNodup, h.held, h.liveNodup, h.live⟩
  · exact (h.chain b hb).congr fun d hd => thread_of_notMem (by decide) (hoff b d ⟨hb, hd⟩)
  · have := thread_path BUCKET_DESC s.freeBucketDesc (a := first) (n := PAGE_SIZE / BUCKET_DESC)
      (f := s.next) (l := []) (by decide) (by decide) hfree nofun
    rw [List.append_nil] at this
    exact this
  · rintro d (⟨b, hd⟩ | hd)
    · obtain ⟨p, hp, hc⟩ := h.descs d (.inl ⟨b, hd⟩)
      exact ⟨p, List.mem_cons_of_mem _ hp, hc⟩
    · exact ⟨first, List.mem_cons_self, hd⟩
  · rintro p (_ | ⟨_, hm⟩)
    · exact hp
    · exact h.descPages p hm

theorem on_push (hb : b ∈ bucketDir) {objs : ℕ → List ℕ} :
    On ⟨update v.chains b (d :: v.chains b), l, objs⟩ b' d' ↔ On v b' d' ∨ b' = b ∧ d' = d := by
  unfold On
  dsimp only
  rcases eq_or_ne b' b with rfl | hne
  · simp only [update_self, List.mem_cons, hb, true_and]
    exact or_comm
  · simp [hne]

theorem on_erase (hc : v.chains b = l₁ ++ d :: l₂) (hn : (v.chains b).Nodup)
    (hd : ∀ b', On v b' d → b' = b) {objs : ℕ → List ℕ} :
    On ⟨update v.chains b (l₁ ++ l₂), l, objs⟩ b' d' ↔ On v b' d' ∧ d' ≠ d := by
  rcases eq_or_ne b' b with rfl | hne
  · rw [hc] at hn
    have hd : d ∉ l₁ ++ l₂ := (List.nodup_cons.mp (List.nodup_middle.mp hn)).1
    unfold On
    dsimp only
    rw [update_self, hc, and_assoc]
    refine and_congr_right fun _ => ?_
    constructor
    · intro h
      refine ⟨?_, ne_of_mem_of_not_mem h hd⟩
      rcases List.mem_append.mp h with h | h
      · exact List.mem_append_left _ h
      · exact List.mem_append_right _ (List.mem_cons_of_mem _ h)
    · rintro ⟨h, hne⟩
      rcases List.mem_append.mp h with h | h
      · exact List.mem_append_left _ h
      · exact List.mem_append_right _ (List.mem_of_ne_of_mem hne h)
  · have hiff : On ⟨update v.chains b (l₁ ++ l₂), l, objs⟩ b' d' ↔ On v b' d' := by
      unfold On
      dsimp only
      rw [update_of_ne hne]
    rw [hiff]
    refine (and_iff_left_of_imp fun h => ?_).symm
    rintro rfl
    exact hne (hd b' h)

attribute [local irreducible] thread in
/-- A free descriptor gets a page, all of it free objects. -/
theorem fill (h : Shape s v) (hfree : v.free = d :: rest) (hb : b ∈ bucketDir) (hcp : PAGE_SIZE ∣ cp)
    (hnew : cp ∉ s.held) :
    Shape (s.fill d cp b)
      ⟨update v.chains b (d :: v.chains b), rest, update v.objs d (cells b cp (PAGE_SIZE / b))⟩ := by
  have hfp : Path s.next s.freeBucketDesc (d :: rest) := hfree ▸ h.free
  have hfn : (d :: rest).Nodup := hfree ▸ h.freeNodup
  obtain ⟨hdrest, hrest⟩ := List.nodup_cons.mp hfn
  have hne : ∀ b' d', On v b' d' → d' ≠ d := by
    rintro b' d' hd' rfl
    exact h.disjoint b' d' hd' (hfree ▸ List.mem_cons_self)
  have hpage : ∀ b' d', On v b' d' → s.page d' ≠ cp := fun b' d' hd' e =>
    hnew ((h.held cp).mpr ⟨b', d', hd', e⟩)
  obtain ⟨hpos, -, hmul⟩ := bucketDir_spec hb
  have hn : 0 < PAGE_SIZE / b := Nat.div_pos (bucketDir_spec hb).2.1 hpos
  have hoff : ∀ b' d', On v b' d' → ∀ a ∈ slots s b' d', a ∉ cells b cp (PAGE_SIZE / b) := by
    intro b' d' hd' a ha hc
    have h₁ := page_of_mem_slots hd'.1 (h.aligned b' d' hd') ha
    exact hpage b' d' hd' (h₁.symm.trans (page_of_mem_cells hpos hmul hcp hc))
  have hlive : ∀ a, Live s a → a ∉ cells b cp (PAGE_SIZE / b) := by
    intro a ha hc
    obtain ⟨x, hx, rfl⟩ := List.mem_map.mp ha
    obtain ⟨b', d', hd', hs, -⟩ := h.live x hx
    exact hoff b' d' hd' _ hs hc
  have hslots : ∀ b' d', d' ≠ d → slots (s.fill d cp b) b' d' = slots s b' d' := by
    intro b' d' hd'
    unfold slots Heap.fill
    dsimp only
    rw [update_of_ne hd']
  have hslot : slots (s.fill d cp b) b d = cells b cp (PAGE_SIZE / b) := by
    unfold slots Heap.fill
    dsimp only
    rw [update_self]
  constructor
  case chain =>
    intro b' hb'
    dsimp only [Heap.fill]
    rcases eq_or_ne b' b with rfl | hbb
    · rw [update_self, update_self]
      exact (h.chain b' hb').push fun hm => hne b' d ⟨hb', hm⟩ rfl
    · rw [update_of_ne hbb, update_of_ne hbb]
      exact (h.chain b' hb').update_of_notMem (fun hm => hne b' d ⟨hb', hm⟩ rfl) _
  case chainNodup =>
    intro b' hb'
    dsimp only
    rcases eq_or_ne b' b with rfl | hbb
    · rw [update_self]
      exact List.nodup_cons.mpr ⟨fun hm => hne b' d ⟨hb', hm⟩ rfl, h.chainNodup b' hb'⟩
    · rw [update_of_ne hbb]
      exact h.chainNodup b' hb'
  case free => exact hfp.2.update_of_notMem hdrest _
  case freeNodup => exact hrest
  case size =>
    intro b' d' hd'
    dsimp only [Heap.fill]
    rcases (on_push hb).mp hd' with hd' | ⟨rfl, rfl⟩
    · rw [update_of_ne (hne b' d' hd')]
      exact h.size b' d' hd'
    · exact update_self _ _ _
  case disjoint =>
    intro b' d' hd'
    rcases (on_push hb).mp hd' with hd' | ⟨rfl, rfl⟩
    · exact fun hm => h.disjoint b' d' hd' (hfree ▸ List.mem_cons_of_mem _ hm)
    · exact hdrest
  case descs =>
    rintro d' (⟨b', hd'⟩ | hd')
    · rcases (on_push hb).mp hd' with hd' | ⟨rfl, rfl⟩
      · exact h.descs d' (.inl ⟨b', hd'⟩)
      · exact h.descs d' (.inr (hfree ▸ List.mem_cons_self))
    · exact h.descs d' (.inr (hfree ▸ List.mem_cons_of_mem _ hd'))
  case descPages => exact h.descPages
  case objs =>
    intro b' d' hd'
    rcases (on_push hb).mp hd' with hd' | ⟨rfl, rfl⟩
    · have hdd := hne b' d' hd'
      dsimp only
      rw [update_of_ne hdd]
      refine (h.objs b' d' hd').congr (update_of_ne hdd _ _) (update_of_ne hdd _ _)
        (update_of_ne hdd _ _) (fun a ha => ?_) fun _ _ => Iff.rfl
      exact thread_of_notMem hn (hoff b' d' hd' a (((h.objs b' d' hd').mem a).mp ha).1)
    · dsimp only
      rw [update_self]
      refine ⟨?_, nodup_cells hpos, fun a => ?_, ?_⟩
      · have := thread_path _ none (a := cp) (f := s.mem) (l := []) hpos hn rfl nofun
        rw [List.append_nil] at this
        dsimp only [Heap.fill]
        rw [update_self]
        exact this
      · rw [hslot]
        exact (and_iff_left_of_imp fun ha hc => hlive a hc ha).symm
      · dsimp only [Heap.fill]
        rw [update_self, length_cells, Nat.zero_add]
  case aligned =>
    intro b' d' hd'
    dsimp only [Heap.fill]
    rcases (on_push hb).mp hd' with hd' | ⟨rfl, rfl⟩
    · rw [update_of_ne (hne b' d' hd')]
      exact h.aligned b' d' hd'
    · rw [update_self]
      exact hcp
  case pages =>
    intro b₁ d₁ b₂ d₂ h₁ h₂ he
    dsimp only [Heap.fill] at he
    rcases (on_push hb).mp h₁ with h₁' | ⟨-, e₁⟩ <;> rcases (on_push hb).mp h₂ with h₂' | ⟨-, e₂⟩
    · rw [update_of_ne (hne b₁ d₁ h₁'), update_of_ne (hne b₂ d₂ h₂')] at he
      exact h.pages b₁ d₁ b₂ d₂ h₁' h₂' he
    · rw [update_of_ne (hne b₁ d₁ h₁'), e₂, update_self] at he
      exact absurd he (hpage b₁ d₁ h₁')
    · rw [update_of_ne (hne b₂ d₂ h₂'), e₁, update_self] at he
      exact absurd he.symm (hpage b₂ d₂ h₂')
    · rw [e₁, e₂]
  case heldNodup => exact List.nodup_cons.mpr ⟨hnew, h.heldNodup⟩
  case held =>
    intro p
    dsimp only [Heap.fill]
    rw [List.mem_cons, h.held p]
    constructor
    · rintro (rfl | ⟨b', d', hd', rfl⟩)
      · exact ⟨b, d, (on_push hb).mpr (.inr ⟨rfl, rfl⟩), update_self _ _ _⟩
      · exact ⟨b', d', (on_push hb).mpr (.inl hd'), update_of_ne (hne b' d' hd') _ _⟩
    · rintro ⟨b', d', hd', rfl⟩
      rcases (on_push hb).mp hd' with hd' | ⟨rfl, rfl⟩
      · exact .inr ⟨b', d', hd', (update_of_ne (hne b' d' hd') _ _).symm⟩
      · exact .inl (update_self _ _ _)
  case liveNodup => exact h.liveNodup
  case live =>
    intro x hx
    obtain ⟨b', d', hd', hs, hle⟩ := h.live x hx
    refine ⟨b', d', (on_push hb).mpr (.inl hd'), ?_, hle⟩
    rw [hslots b' d' (hne b' d' hd')]
    exact hs

/-- Without a live object all the objects are free. -/
theorem not_live_of_refcnt (h : Shape s v) (hd : On v b d) (hzero : s.refcnt d = 0)
    (ha : a ∈ slots s b d) : ¬ Live s a := by
  have ht := h.objs b d hd
  have hsub : v.objs d ⊆ slots s b d := fun x hx => ((ht.mem x).mp hx).1
  have hle : (slots s b d).length ≤ (v.objs d).length := by
    have := ht.count
    simp only [slots, length_cells]
    omega
  have hperm := (List.subperm_of_subset ht.nodup hsub).perm_of_length_le hle
  exact ((ht.mem a).mp (hperm.mem_iff.mpr ha)).2

/-- Without live objects the descriptor leaves its chain, and its page is returned. -/
theorem unlink (h : Shape s v) (hb : b ∈ bucketDir) (hc : v.chains b = l₁ ++ d :: l₂)
    (hzero : s.refcnt d = 0) :
    ∃ s₁, s.unlinkDesc b l₁.getLast? d = some s₁ ∧
      Shape (s₁.freePage d) ⟨update v.chains b (l₁ ++ l₂), d :: v.free, v.objs⟩ ∧
      s₁.refcnt = s.refcnt := by
  have hd : On v b d := ⟨hb, by rw [hc]; simp⟩
  have honly : ∀ b', On v b' d → b' = b := fun b' hd' => (h.size b' d hd').symm.trans (h.size b d hd)
  have hn := h.chainNodup b hb
  have hp := h.chain b hb
  have hiff : ∀ b' d', On ⟨update v.chains b (l₁ ++ l₂), d :: v.free, v.objs⟩ b' d' ↔ On v b' d' ∧ d' ≠ d :=
    fun b' d' => on_erase hc hn honly
  -- What the code does to the chains, whether the descriptor is the first of its chain or not.
  obtain ⟨s₁, hs₁, hpath, hsame⟩ : ∃ s₁, s.unlinkDesc b l₁.getLast? d = some s₁ ∧
      (∀ b' ∈ bucketDir, Path s₁.next (s₁.chain b') (update v.chains b (l₁ ++ l₂) b')) ∧
      ∃ next chain, s₁ = { s with next := next, chain := chain } ∧ ∀ x ∈ v.free, next x = s.next x := by
    rw [hc] at hp hn
    rcases List.eq_nil_or_concat l₁ with rfl | ⟨l₀, q, rfl⟩
    · refine ⟨{ s with chain := update s.chain b (s.next d) }, ?_, fun b' hb' => ?_, _, _, rfl,
        fun _ _ => rfl⟩
      · simp [Heap.unlinkDesc, hp.1]
      · dsimp only
        rcases eq_or_ne b' b with rfl | hbb
        · rw [update_self, update_self]
          exact hp.2
        · rw [update_of_ne hbb, update_of_ne hbb]
          exact h.chain b' hb'
    · simp only [List.concat_eq_append, List.append_assoc, List.singleton_append] at hp hn hc ⊢
      have hq : On v b q := ⟨hb, by rw [hc]; simp⟩
      refine ⟨{ s with next := update s.next q (s.next d) }, ?_, fun b' hb' => ?_, _, _, rfl,
        fun x hx => ?_⟩
      · rw [List.getLast?_append_cons, List.getLast?_singleton]
        rfl
      · dsimp only
        rcases eq_or_ne b' b with rfl | hbb
        · rw [update_self]
          exact hp.unlink hn
        · rw [update_of_ne hbb]
          refine (h.chain b' hb').update_of_notMem (fun hm => ?_) _
          exact hbb ((h.size b' q ⟨hb', hm⟩).symm.trans (h.size b q hq))
      · refine update_of_ne ?_ _ _
        rintro rfl
        exact h.disjoint b x hq hx
  obtain ⟨next, chain, rfl, hfree⟩ := hsame
  refine ⟨_, hs₁, ?_, rfl⟩
  have hdead : ∀ b' d' a, On v b' d' → a ∈ slots s b' d' → Live s a → d' ≠ d := by
    rintro b' d' a hd' ha hl rfl
    obtain rfl := honly b' hd'
    exact h.not_live_of_refcnt hd hzero ha hl
  constructor
  case chain =>
    intro b' hb'
    refine (hpath b' hb').update_of_notMem (fun hm => ?_) _
    exact ((hiff b' d).mp ⟨hb', hm⟩).2 rfl
  case chainNodup =>
    intro b' hb'
    dsimp only
    rcases eq_or_ne b' b with rfl | hbb
    · rw [update_self]
      rw [hc] at hn
      exact (List.nodup_cons.mp (List.nodup_middle.mp hn)).2
    · rw [update_of_ne hbb]
      exact h.chainNodup b' hb'
  case free => exact (h.free.congr hfree).push (h.disjoint b d hd)
  case freeNodup => exact List.nodup_cons.mpr ⟨h.disjoint b d hd, h.freeNodup⟩
  case size => exact fun b' d' hd' => h.size b' d' ((hiff b' d').mp hd').1
  case disjoint =>
    intro b' d' hd'
    obtain ⟨hd', hne⟩ := (hiff b' d').mp hd'
    exact List.not_mem_cons_of_ne_of_not_mem hne (h.disjoint b' d' hd')
  case descs =>
    rintro d' (⟨b', hd'⟩ | hd')
    · exact h.descs d' (.inl ⟨b', ((hiff b' d').mp hd').1⟩)
    · rcases List.mem_cons.mp hd' with rfl | hd'
      · exact h.descs d' (.inl ⟨b, hd⟩)
      · exact h.descs d' (.inr hd')
  case descPages => exact h.descPages
  case objs =>
    intro b' d' hd'
    exact (h.objs b' d' ((hiff b' d').mp hd').1).congr rfl rfl rfl (fun _ _ => rfl) fun _ _ => Iff.rfl
  case aligned => exact fun b' d' hd' => h.aligned b' d' ((hiff b' d').mp hd').1
  case pages =>
    exact fun b₁ d₁ b₂ d₂ h₁ h₂ =>
      h.pages b₁ d₁ b₂ d₂ ((hiff b₁ d₁).mp h₁).1 ((hiff b₂ d₂).mp h₂).1
  case heldNodup => exact h.heldNodup.erase _
  case held =>
    intro p
    dsimp only [Heap.freePage]
    rw [h.heldNodup.mem_erase_iff, h.held p]
    constructor
    · rintro ⟨hne, b', d', hd', rfl⟩
      refine ⟨b', d', (hiff b' d').mpr ⟨hd', ?_⟩, rfl⟩
      rintro rfl
      exact hne rfl
    · rintro ⟨b', d', hd', rfl⟩
      obtain ⟨hd', hne⟩ := (hiff b' d').mp hd'
      exact ⟨fun e => hne (h.pages b' d' b d hd' hd e), b', d', hd', rfl⟩
  case liveNodup => exact h.liveNodup
  case live =>
    intro x hx
    obtain ⟨b', d', hd', hs, hle⟩ := h.live x hx
    exact ⟨b', d', (hiff b' d').mpr ⟨hd', hdead b' d' _ hd' hs (List.mem_map_of_mem hx)⟩, hs, hle⟩

end Shape

end Linux012.Malloc
