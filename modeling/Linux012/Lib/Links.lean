import Mathlib.Data.List.Nodup
import Mathlib.Data.List.Rotate
import Mathlib.Logic.Function.Basic
import Mathlib.Tactic
import Linux012.Lib.Paths

/-! # Doubly linked lists

Two pointer maps link nodes forwards and backwards. A chain is a null-terminated
doubly linked list with a head pointer, a ring is a circular one. Unlinking a node
rewrites the pointers of its two neighbours only.
-/

namespace Links

open Function

variable {α : Type*} {next prev next' prev' : α → Option α} {a a' b b' hd : Option α}
  {l l₁ l₂ : List α} {x y : α}

/-- The nodes of a list are linked in order, the first back to `a`, the last on to `b`. -/
def Seg (next prev : α → Option α) : Option α → List α → Option α → Prop
  | _, [], _ => True
  | a, x :: xs, b => prev x = a ∧ next x = xs.head?.or b ∧ Seg next prev (some x) xs b

@[simp] theorem seg_nil : Seg next prev a [] b := trivial

theorem seg_cons : Seg next prev a (x :: l) b ↔
    prev x = a ∧ next x = l.head?.or b ∧ Seg next prev (some x) l b := Iff.rfl

theorem seg_append : Seg next prev a (l₁ ++ l₂) b ↔
    Seg next prev a l₁ (l₂.head?.or b) ∧ Seg next prev (l₁.getLast?.or a) l₂ b := by
  induction l₁ generalizing a with
  | nil => simp
  | cons z l₁ ih =>
    have hhead : (l₁ ++ l₂).head?.or b = l₁.head?.or (l₂.head?.or b) := by
      cases l₁ <;> simp
    have hlast : (z :: l₁).getLast?.or a = l₁.getLast?.or (some z) := by
      cases h : l₁.getLast? <;> simp [List.getLast?_cons, h]
    rw [List.cons_append, seg_cons, seg_cons, ih, hhead, hlast]
    tauto

variable [DecidableEq α]

/-- New pointers that agree inside the list, with new ends, link it to the new ends. -/
theorem Seg.relink (h : Seg next prev a l b) (hl : l.Nodup)
    (hn : ∀ y ∈ l, next' y = if l.getLast? = some y then b' else next y)
    (hp : ∀ y ∈ l, prev' y = if l.head? = some y then a' else prev y) :
    Seg next' prev' a' l b' := by
  induction l generalizing a a' with
  | nil => exact seg_nil
  | cons z l ih =>
    obtain ⟨-, hz, hs⟩ := seg_cons.mp h
    obtain ⟨hzl, hl⟩ := List.nodup_cons.mp hl
    refine seg_cons.mpr ⟨by simpa using hp z List.mem_cons_self, ?_, ih hs hl ?_ ?_⟩
    · rw [hn z List.mem_cons_self]
      cases l with
      | nil => simp
      | cons w l =>
        have : (z :: w :: l).getLast? ≠ some z := fun hg =>
          hzl (List.mem_of_getLast? (by simpa using hg))
        rw [if_neg this, hz]; simp
    · intro y hy
      rw [hn y (List.mem_cons_of_mem _ hy), List.getLast?_cons]
      cases hg : l.getLast? with
      | none => simp [List.getLast?_eq_none_iff] at hg; simp [hg] at hy
      | some w => simp
    · intro y hy
      have hyz : z ≠ y := fun h => hzl (h ▸ hy)
      rw [hp y (List.mem_cons_of_mem _ hy), List.head?_cons, if_neg (by simpa using hyz)]
      cases l with
      | nil => simp at hy
      | cons w l =>
        by_cases hw : w = y
        · subst hw; simpa using (seg_cons.mp hs).1
        · simp [hw]

omit [DecidableEq α] in
theorem Seg.congr (h : Seg next prev a l b) (hn : ∀ y ∈ l, next' y = next y)
    (hp : ∀ y ∈ l, prev' y = prev y) : Seg next' prev' a l b := by
  induction l generalizing a with
  | nil => exact seg_nil
  | cons z l ih =>
    obtain ⟨h₁, h₂, h₃⟩ := seg_cons.mp h
    exact seg_cons.mpr ⟨(hp z List.mem_cons_self).trans h₁, (hn z List.mem_cons_self).trans h₂,
      ih h₃ (fun y hy => hn y (List.mem_cons_of_mem _ hy))
        (fun y hy => hp y (List.mem_cons_of_mem _ hy))⟩

/-! ## Null-terminated chains -/

/-- A doubly linked chain from the head pointer `hd` through the nodes of `l`. -/
structure Chain (next prev : α → Option α) (hd : Option α) (l : List α) : Prop where
  head : hd = l.head?
  seg : Seg next prev none l none
  nodup : l.Nodup

omit [DecidableEq α] in
theorem Seg.path (h : Seg next prev a l none) : Path next l.head? l := by
  induction l generalizing a with
  | nil => rfl
  | cons x l ih =>
    obtain ⟨-, hn, hs⟩ := seg_cons.mp h
    refine ⟨rfl, ?_⟩
    rw [hn, Option.or_none]
    exact ih hs

omit [DecidableEq α] in
theorem Chain.path (h : Chain next prev hd l) : Path next hd l := h.head ▸ h.seg.path

omit [DecidableEq α] in
theorem Chain.nil : Chain next prev none [] := ⟨rfl, seg_nil, List.nodup_nil⟩

omit [DecidableEq α] in
theorem Chain.congr (h : Chain next prev hd l) (hn : ∀ y ∈ l, next' y = next y)
    (hp : ∀ y ∈ l, prev' y = prev y) : Chain next' prev' hd l :=
  ⟨h.head, h.seg.congr hn hp, h.nodup⟩

omit [DecidableEq α] in
theorem Seg.next_mem (h : Seg next prev a l b) (hx : x ∈ l) (hy : next x = some y) :
    y ∈ l ∨ b = some y := by
  induction l generalizing a with
  | nil => simp at hx
  | cons z l ih =>
    obtain ⟨-, hn, hs⟩ := seg_cons.mp h
    rcases List.mem_cons.mp hx with rfl | hx
    · rw [hy] at hn
      cases l with
      | nil => exact .inr (by simpa using hn.symm)
      | cons w l => exact .inl (by simp at hn; simp [hn])
    · exact (ih hs hx).imp_left (List.mem_cons_of_mem _)

omit [DecidableEq α] in
theorem Seg.prev_mem (h : Seg next prev a l b) (hx : x ∈ l) (hy : prev x = some y) :
    y ∈ l ∨ a = some y := by
  induction l generalizing a with
  | nil => simp at hx
  | cons z l ih =>
    obtain ⟨hp, -, hs⟩ := seg_cons.mp h
    rcases List.mem_cons.mp hx with rfl | hx
    · exact .inr (hp.symm.trans hy)
    · rcases ih hs hx with hm | he
      · exact .inl (List.mem_cons_of_mem _ hm)
      · exact .inl (by rw [Option.some.inj he]; exact List.mem_cons_self)

omit [DecidableEq α] in
theorem Chain.next_mem (h : Chain next prev hd l) (hx : x ∈ l) (hy : next x = some y) : y ∈ l :=
  (h.seg.next_mem hx hy).resolve_right (by simp)

omit [DecidableEq α] in
theorem Chain.prev_mem (h : Chain next prev hd l) (hx : x ∈ l) (hy : prev x = some y) : y ∈ l :=
  (h.seg.prev_mem hx hy).resolve_right (by simp)

omit [DecidableEq α] in
theorem Chain.next_ne_self (h : Chain next prev hd l) (hx : x ∈ l) : next x ≠ some x := by
  obtain ⟨l₁, l₂, rfl⟩ := List.append_of_mem hx
  have hn := (seg_cons.mp (seg_append.mp h.seg).2).2.1
  have hd := (List.nodup_cons.mp (List.nodup_append.mp h.nodup).2.1).1
  rw [hn]
  cases l₂ with
  | nil => simp
  | cons w l₂ => simp at hd ⊢; exact fun e => hd.1 e.symm

/-- Push a new node at the head. -/
theorem Chain.cons (h : Chain next prev hd l) (hx : x ∉ l)
    (hnx : next' x = hd) (hpx : prev' x = none) (hn : ∀ y ∈ l, next' y = next y)
    (hp : ∀ y ∈ l, prev' y = if hd = some y then some x else prev y) :
    Chain next' prev' (some x) (x :: l) := by
  refine ⟨rfl, seg_cons.mpr ⟨hpx, by rw [hnx, h.head]; simp, ?_⟩, List.nodup_cons.mpr ⟨hx, h.nodup⟩⟩
  refine h.seg.relink h.nodup (fun y hy => ?_) fun y hy => by rw [hp y hy, h.head]
  rw [hn y hy]
  split_ifs with hy'
  · obtain ⟨l₀, rfl⟩ : ∃ l₀, l = l₀ ++ [y] := by
      obtain ⟨l₀, z, rfl⟩ := (List.eq_nil_or_concat l).resolve_left (List.ne_nil_of_mem hy)
      simp at hy'; exact ⟨l₀, by rw [hy']; simp⟩
    have := (seg_append.mp h.seg).2
    simpa [seg_cons] using (seg_cons.mp this).2.1
  · rfl

/-- Follow one pointer map and store at the node it points to, if any. -/
def setAt (m : α → Option α) (i : Option α) (v : Option α) : α → Option α :=
  match i with
  | none => m
  | some i => update m i v

@[simp] theorem setAt_none (m : α → Option α) (v : Option α) : setAt m none v = m := rfl

theorem setAt_apply (m : α → Option α) (i : Option α) (v : Option α) (y : α) :
    setAt m i v y = if i = some y then v else m y := by
  cases i with
  | none => simp
  | some i =>
    by_cases h : i = y
    · subst h; simp [setAt]
    · simp [setAt, h, update_of_ne (Ne.symm h)]

/-- Unlink a node of a chain from its neighbours. -/
theorem Chain.erase (h : Chain next prev hd l) (hx : x ∈ l) :
    Chain (setAt next (prev x) (next x)) (setAt prev (next x) (prev x))
      (if hd = some x then next x else hd) (l.erase x) := by
  obtain ⟨l₁, l₂, rfl⟩ := List.append_of_mem hx
  have hnd := h.nodup
  obtain ⟨hs₁, hs₂⟩ := seg_append.mp h.seg
  obtain ⟨hpx, hnx, hs₂⟩ := seg_cons.mp hs₂
  simp only [Option.or_none] at hpx hnx
  have hd₁ : l₁.Nodup := (List.nodup_append.mp hnd).1
  have hd₂ : l₂.Nodup := (List.nodup_cons.mp (List.nodup_append.mp hnd).2.1).2
  have hx₁ : x ∉ l₁ := fun hm => by
    have := (List.nodup_append.mp hnd).2.2 x hm x List.mem_cons_self; exact this rfl
  have h₁₂ : ∀ y ∈ l₁, y ∉ l₂ := fun y hy hy' =>
    (List.nodup_append.mp hnd).2.2 y hy y (List.mem_cons_of_mem _ hy') rfl
  have he : (l₁ ++ x :: l₂).erase x = l₁ ++ l₂ := by
    rw [List.erase_append_right _ hx₁, List.erase_cons_head]
  rw [he]
  refine ⟨?_, seg_append.mpr ⟨?_, ?_⟩, he ▸ hnd.erase x⟩
  · rw [h.head]
    cases l₁ with
    | nil => simp [hnx]
    | cons z l₁ =>
      have hzx : z ≠ x := fun h => hx₁ (h ▸ List.mem_cons_self)
      simp [hzx]
  · refine hs₁.relink hd₁ (fun y hy => ?_) fun y hy => ?_
    · rw [setAt_apply, hpx, hnx]; simp
    · rw [setAt_apply, hnx]
      have h1 : l₂.head? ≠ some y := fun hh => h₁₂ y hy (List.mem_of_mem_head? hh)
      rw [if_neg h1]
      split_ifs with hh
      · cases l₁ with
        | nil => simp at hy
        | cons z l₁ => simp at hh; subst hh; exact (seg_cons.mp hs₁).1
      · rfl
  · refine hs₂.relink hd₂ (fun y hy => ?_) fun y hy => ?_
    · rw [setAt_apply, hpx]
      have h1 : l₁.getLast? ≠ some y := fun hh => h₁₂ y (List.mem_of_getLast? hh) hy
      rw [if_neg h1]
      split_ifs with hh
      · obtain ⟨l₀, rfl⟩ : ∃ l₀, l₂ = l₀ ++ [y] := by
          obtain ⟨l₀, z, rfl⟩ := (List.eq_nil_or_concat l₂).resolve_left (List.ne_nil_of_mem hy)
          simp at hh; exact ⟨l₀, by rw [hh]; simp⟩
        simpa [seg_cons] using (seg_cons.mp (seg_append.mp hs₂).2).2.1
      · rfl
    · rw [setAt_apply, hpx, hnx]; simp

omit [DecidableEq α] in
theorem Chain.prev_next (h : Chain next prev hd l) (hx : x ∈ l) (hy : next x = some y) :
    prev y = some x := by
  obtain ⟨l₁, l₂, rfl⟩ := List.append_of_mem hx
  obtain ⟨-, hn, hs⟩ := seg_cons.mp (seg_append.mp h.seg).2
  rw [hn, Option.or_none] at hy
  cases l₂ with
  | nil => cases hy
  | cons z l₂ =>
    obtain rfl : z = y := Option.some.inj hy
    exact hs.1

omit [DecidableEq α] in
theorem Chain.next_prev (h : Chain next prev hd l) (hx : x ∈ l) (hy : prev x = some y) :
    next y = some x := by
  obtain ⟨l₁, l₂, rfl⟩ := List.append_of_mem hx
  obtain ⟨hs₁, hs₂⟩ := seg_append.mp h.seg
  rw [(seg_cons.mp hs₂).1, Option.or_none] at hy
  obtain ⟨l₀, rfl⟩ : ∃ l₀, l₁ = l₀ ++ [y] := by
    obtain ⟨l₀, z, rfl⟩ := (List.eq_nil_or_concat l₁).resolve_left (by rintro rfl; cases hy)
    simp at hy; exact ⟨l₀, by rw [hy]; simp⟩
  simpa using (seg_cons.mp (seg_append.mp hs₁).2).2.1

omit [DecidableEq α] in
theorem Chain.prev_eq_none_iff (h : Chain next prev hd l) (hx : x ∈ l) :
    prev x = none ↔ hd = some x := by
  obtain ⟨l₁, l₂, rfl⟩ := List.append_of_mem hx
  have hp := (seg_cons.mp (seg_append.mp h.seg).2).1
  have hx₁ : x ∉ l₁ := fun hm => (List.nodup_append.mp h.nodup).2.2 x hm x List.mem_cons_self rfl
  rw [hp, h.head]
  cases l₁ with
  | nil => simp
  | cons z l₁ =>
    have hzx : z ≠ x := fun e => hx₁ (e ▸ List.mem_cons_self)
    simp [hzx, List.getLast?_cons]

/-- Splice a chain in front of another: the last node of the one and the head of the other are
linked to each other. -/
theorem Chain.append {hd₁ : Option α} {b : α} (h₁ : Chain next prev hd₁ (l₁ ++ [b]))
    (h₂ : Chain next prev (some y) l₂) (hdisj : ∀ x ∈ l₁ ++ [b], x ∉ l₂) :
    Chain (update next b (some y)) (update prev y (some b)) hd₁ ((l₁ ++ [b]) ++ l₂) := by
  have hb₂ : b ∉ l₂ := hdisj b (by simp)
  have hy₂ : y ∈ l₂ := List.mem_of_mem_head? (by simp [← h₂.head])
  have hy₁ : y ∉ l₁ ++ [b] := fun hm => hdisj y hm hy₂
  refine ⟨?_, seg_append.mpr ⟨?_, ?_⟩, ?_⟩
  · rw [h₁.head]
    cases l₁ <;> rfl
  · refine h₁.seg.relink h₁.nodup (fun x hx => ?_) fun x hx => ?_
    · rw [update_apply, ← h₂.head, List.getLast?_append]
      by_cases hxb : x = b
      · simp [hxb]
      · simp [hxb, Ne.symm hxb]
    · have hne : x ≠ y := fun e => hy₁ (e ▸ hx)
      rw [update_of_ne hne]
      split_ifs with hh
      · cases l₁ with
        | nil => simpa using (h₁.seg.1 : prev b = none) ▸ (by simp at hh; rw [hh])
        | cons z l₁ =>
          obtain rfl : z = x := by simpa using hh
          exact h₁.seg.1
      · rfl
  · refine h₂.seg.relink h₂.nodup (fun x hx => ?_) fun x hx => ?_
    · have hne : x ≠ b := fun e => hb₂ (e ▸ hx)
      rw [update_of_ne hne]
      split_ifs with hh
      · obtain ⟨l₀, rfl⟩ : ∃ l₀, l₂ = l₀ ++ [x] := by
          obtain ⟨l₀, z, rfl⟩ := (List.eq_nil_or_concat l₂).resolve_left (List.ne_nil_of_mem hx)
          simp at hh; exact ⟨l₀, by rw [hh]; simp⟩
        simpa [seg_cons] using (seg_cons.mp (seg_append.mp h₂.seg).2).2.1
      · rfl
    · rw [update_apply, ← h₂.head]
      by_cases hxy : x = y
      · simp [hxy]
      · simp [hxy, Ne.symm hxy]
  · refine List.nodup_append.mpr ⟨h₁.nodup, h₂.nodup, fun x hx z hz e => hdisj x hx (e ▸ hz)⟩

/-! ## Rings -/

/-- The nodes of the list form one circular doubly linked list. -/
def Cyc (next prev : α → Option α) (l : List α) : Prop :=
  Seg next prev l.getLast? l l.head?

omit [DecidableEq α] in
theorem Cyc.append_comm (h : Cyc next prev (l₁ ++ l₂)) : Cyc next prev (l₂ ++ l₁) := by
  unfold Cyc at *
  rw [seg_append] at *
  simp only [List.getLast?_append, List.head?_append] at h ⊢
  cases l₁ with
  | nil => simpa using h.2
  | cons z l₁ =>
    cases l₂ with
    | nil => simpa using h.1
    | cons w l₂ =>
      refine ⟨?_, ?_⟩
      · convert h.2 using 1 <;> simp [List.getLast?_cons]
      · convert h.1 using 1 <;> simp [List.getLast?_cons]

/-- A circular doubly linked list entered at `hd`. -/
structure Ring (next prev : α → Option α) (hd : α) (l : List α) : Prop where
  head : l.head? = some hd
  cyc : Cyc next prev l
  nodup : l.Nodup

omit [DecidableEq α] in
theorem Ring.neighbours {hd x : α} (h : Ring next prev hd l) (hx : x ∈ l) :
    (∃ y ∈ l, prev x = some y) ∧ ∃ y ∈ l, next x = some y := by
  obtain ⟨l₁, l₂, rfl⟩ := List.append_of_mem hx
  have hc : Cyc next prev (x :: (l₂ ++ l₁)) := by simpa using h.cyc.append_comm
  obtain ⟨hp, hn, -⟩ := seg_cons.mp hc
  have hsub : ∀ y ∈ x :: (l₂ ++ l₁), y ∈ l₁ ++ x :: l₂ := fun y hy => by
    simp at hy ⊢; tauto
  constructor
  · obtain ⟨w, hw⟩ := Option.isSome_iff_exists.mp
      (List.getLast?_isSome.mpr (List.cons_ne_nil x (l₂ ++ l₁)))
    exact ⟨w, hsub w (List.mem_of_getLast? hw), hp.trans hw⟩
  · cases hm : l₂ ++ l₁ with
    | nil => rw [hm] at hn; exact ⟨x, hx, by simpa using hn⟩
    | cons w l =>
      rw [hm] at hn
      exact ⟨w, hsub w (by rw [hm]; simp), by simpa using hn⟩

/-- Append a node before the entry of a ring. -/
theorem Ring.append {hd x : α} (h : Ring next prev hd l) (hx : x ∉ l)
    (hnx : next' x = some hd) (hpx : prev' x = prev hd)
    (hn : ∀ y ∈ l, next' y = if prev hd = some y then some x else next y)
    (hp : ∀ y ∈ l, prev' y = if y = hd then some x else prev y) :
    Ring next' prev' hd (l ++ [x]) := by
  have hlast : prev hd = l.getLast? := by
    have hc := h.cyc
    have hh := h.head
    cases l with
    | nil => simp at hh
    | cons z l => simp at hh; subst hh; exact (seg_cons.mp hc).1
  refine ⟨by rw [List.head?_append, h.head]; rfl, ?_, ?_⟩
  · unfold Cyc
    rw [seg_append]
    refine ⟨h.cyc.relink h.nodup (fun y hy => ?_) fun y hy => ?_, ?_⟩
    · rw [hn y hy, hlast]; simp
    · rw [hp y hy, h.head]; simp [eq_comm]
    · rw [seg_cons, hpx, hnx, hlast]
      have hne : l ≠ [] := by rintro rfl; simpa using h.head
      obtain ⟨w, hw⟩ := Option.isSome_iff_exists.mp (List.getLast?_isSome.mpr hne)
      simp [hw, List.head?_append, h.head]
  · exact List.nodup_append.mpr ⟨h.nodup, List.nodup_singleton x,
      fun y hy z hz => by rw [List.mem_singleton.mp hz]; exact fun e => hx (e ▸ hy)⟩

theorem Cyc.tail (h : Cyc next prev (x :: l)) (hl : (x :: l).Nodup) (hne : l ≠ []) :
    Cyc (setAt next (prev x) (next x)) (setAt prev (next x) (prev x)) l := by
  obtain ⟨hpx, hnx, hs⟩ := seg_cons.mp h
  have hlast : (x :: l).getLast? = l.getLast? := by
    cases l with
    | nil => exact absurd rfl hne
    | cons z l => simp
  have hhead : l.head?.or (some x) = l.head? := by
    cases l with
    | nil => exact absurd rfl hne
    | cons z l => simp
  rw [hlast] at hpx
  rw [List.head?_cons, hhead] at hnx
  refine hs.relink (List.nodup_cons.mp hl).2 (fun y _ => ?_) fun y _ => ?_
  · rw [setAt_apply, hpx, hnx]
  · rw [setAt_apply, hpx, hnx]

/-- Unlink a node of a ring of at least two nodes; the entry moves on from that node. -/
theorem Ring.erase {hd x hd' : α} (h : Ring next prev hd l) (hx : x ∈ l) (hne : l.erase x ≠ [])
    (hhd : some hd' = if hd = x then next x else some hd) :
    Ring (setAt next (prev x) (next x)) (setAt prev (next x) (prev x)) hd' (l.erase x) := by
  obtain ⟨l₁, l₂, rfl⟩ := List.append_of_mem hx
  have hnd := h.nodup
  have hx₁ : x ∉ l₁ := fun hm => (List.nodup_append.mp hnd).2.2 x hm x List.mem_cons_self rfl
  have he : (l₁ ++ x :: l₂).erase x = l₁ ++ l₂ := by
    rw [List.erase_append_right _ hx₁, List.erase_cons_head]
  rw [he] at hne ⊢
  have hrot : Cyc next prev (x :: (l₂ ++ l₁)) := by simpa using h.cyc.append_comm
  have hnd' : (x :: (l₂ ++ l₁)).Nodup := by
    have : (l₁ ++ x :: l₂).Perm (x :: (l₂ ++ l₁)) := by
      simpa using (List.perm_append_comm : (l₁ ++ x :: l₂).Perm ((x :: l₂) ++ l₁))
    exact this.nodup_iff.mp hnd
  refine ⟨?_, (hrot.tail hnd' (by simpa [and_comm] using hne)).append_comm, he ▸ hnd.erase x⟩
  have hh := h.head
  cases l₁ with
  | nil =>
    simp only [List.nil_append, List.head?_cons, Option.some.injEq] at hh
    rw [hhd, if_pos hh.symm]
    have := (seg_cons.mp hrot).2.1
    rw [this]
    cases l₂ with
    | nil => simp at hne
    | cons w l₂ => simp
  | cons z l₁ =>
    simp only [List.cons_append, List.head?_cons, Option.some.injEq] at hh
    have hzx : hd ≠ x := fun e => hx₁ (e ▸ hh ▸ List.mem_cons_self)
    rw [if_neg hzx] at hhd
    simp [hh, hhd]

theorem seg_range' {next prev : ℕ → Option ℕ} {a b : Option ℕ} {s m : ℕ}
    (hn : ∀ i, s ≤ i → i < s + m → next i = if i + 1 = s + m then b else some (i + 1))
    (hp : ∀ i, s ≤ i → i < s + m → prev i = if i = s then a else some (i - 1)) :
    Seg next prev a (List.range' s m) b := by
  induction m generalizing s a with
  | zero => exact seg_nil
  | succ m ih =>
    rw [List.range'_succ]
    refine seg_cons.mpr ⟨by simpa using hp s le_rfl (by omega), ?_, ih (fun i hi hi' => ?_)
      fun i hi hi' => ?_⟩
    · rw [hn s le_rfl (by omega)]
      cases m with
      | zero => simp
      | succ m => rw [if_neg (by omega), List.range'_succ]; simp
    · rw [hn i (by omega) (by omega)]
      simp only [show s + 1 + m = s + (m + 1) by omega]
    · rw [hp i (by omega) (by omega), if_neg (by omega)]
      split_ifs with h
      · rw [h]; rfl
      · rfl

/-- Consecutive numbers whose pointers lead to the successor and the predecessor. -/
theorem cyc_range {next prev : ℕ → Option ℕ} {m : ℕ}
    (hn : ∀ i < m, next i = if i + 1 = m then some 0 else some (i + 1))
    (hp : ∀ i < m, prev i = if i = 0 then some (m - 1) else some (i - 1)) :
    Cyc next prev (List.range m) := by
  rcases Nat.eq_zero_or_pos m with rfl | hm
  · exact seg_nil
  · unfold Cyc
    rw [List.head?_range, List.getLast?_range, if_neg (by omega), if_neg (by omega),
      List.range_eq_range']
    exact seg_range' (fun i _ hi => by simpa using hn i (by omega)) fun i _ hi =>
      hp i (by omega)

end Links
