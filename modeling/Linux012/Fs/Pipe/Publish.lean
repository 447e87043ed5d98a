import Linux012.Fs.Pipe.Fifo
import Linux012.Lib.Index

/-! # Publication before the copy

The calls move their index before they copy the bytes of a chunk. A copy that sleeps leaves
a writer's bytes readable before they are stored, and a reader's bytes free for writers
before they are copied.
-/

namespace Linux012.Pipes

open Function Coop Runs
open scoped Index

variable {n rest i chars m : ℕ} {p : Pipe} {s s' : Sys n} {t : Fin n} {f : Frame}
  {a : Act n Choice ℕ}

/-- Wherever a copy sleeps, the bytes between tail and head have been stored, and no writer may
store where a reader is still copying; readers have got what writers have stored. -/
structure Published (s : Sys n) : Prop where
  stored : ∀ t i chars count buf written moved, s.cpu ≠ some t →
    s.stack t = [.getBytes i chars count buf written moved] →
    ∀ j < chars, ¬ s.shared.Occupied (i + j)
  kept : ∀ t i chars count read got, s.cpu ≠ some t →
    s.stack t = [.putBytes i chars count read got] → ∀ j < chars, ¬ s.shared.Available (i + j)
  pre : s.shared.delivered <+: s.shared.accepted

namespace Pipe

/-- A place that many bytes before the head. -/
theorem occupied_iff (hh : p.head < PAGE_SIZE) (hi : (i + m) % PAGE_SIZE = p.head) (hm : 0 < m)
    (hle : m ≤ p.size) : p.Occupied i := by
  have h := tail_add_size hh
  have hlt := size_lt (p := p)
  unfold Occupied PAGE_SIZE at *
  omega

/-- A place that many bytes before the tail is free for writers, up to the last one. -/
theorem available_iff (hh : p.head < PAGE_SIZE) (hi : (i + m) % PAGE_SIZE = p.tail)
    (hm : 0 < m) (hle : m + p.size ≤ PAGE_SIZE) : p.Available i ↔ 1 < m := by
  have h := tail_add_size hh
  have hlt := size_lt (p := p)
  unfold Available PAGE_SIZE at *
  omega

end Pipe

theorem Fifo.published (h : Fifo 1 s) : Published s := by
  obtain ⟨start, -, hd⟩ := h.books.data
  refine ⟨fun t i chars count buf written moved ht hst j hj => ?_,
    fun t i chars count read got ht hst j hj => ?_, ⟨_, hd.symm⟩⟩
  · have hzero : chars = 0 := (h.asleep t _ ht hst).1
    omega
  · have hone : chars ≤ 1 := (h.asleep t _ ht hst).2
    obtain rfl : chars = 1 := by omega
    obtain rfl : j = 0 := by omega
    obtain ⟨-, -, hin⟩ := h.sound t _ hst
    obtain ⟨hback, htail⟩ := hin one_pos
    have hroom := h.books.room
    rw [Nat.add_zero, Pipe.available_iff h.books.head_lt htail one_pos (by omega)]
    omega

/-- A step that is not allowed for leaves a state in which bytes are not where they should be. -/
theorem Fifo.not_published (h : Fifo 1 s) (hr : ¬ Resident s a)
    (hs : (program n).step a s = some s') : ¬ Published s' := by
  intro hp
  cases a with
  | tick => exact hr trivial
  | intr => exact hr trivial
  | run t c =>
    obtain ⟨f, ht⟩ := h.single t
    obtain ⟨hc, p', nx, hx, he⟩ := Program.step_run hs ht
    change exec t c f s.shared = some (p', nx) at hx
    cases c with
    | read => exact hr trivial
    | write => exact hr trivial
    | fault =>
      cases f with
      | putBytes i chars count read got =>
        by_cases hzero : chars = 0
        · simp [exec, hzero] at hx
        rw [exec, if_neg hzero] at hx
        obtain ⟨rfl, rfl⟩ := Prod.mk.inj (Option.some.inj hx)
        obtain rfl := Option.some.inj he
        obtain ⟨-, -, hin⟩ := h.sound t _ ht
        obtain ⟨hback, htail⟩ := hin (by omega)
        have hone : chars ≠ 1 := fun h1 => hr ⟨i, count, read, got, h1 ▸ ht⟩
        refine hp.kept t i chars count read got (by simp) (update_self ..) 0 (by omega) ?_
        have hroom := h.books.room
        rw [← hback] at hroom
        have hle : chars ≤ PAGE_SIZE := by
          have := (h.sound t _ ht).1
          omega
        refine (Pipe.available_iff h.books.head_lt htail (by omega) ?_).mpr (by omega)
        omega
      | getBytes i chars count buf written moved =>
        by_cases hzero : chars = 0
        · simp [exec, hzero] at hx
        rw [exec, if_neg hzero] at hx
        obtain ⟨rfl, rfl⟩ := Prod.mk.inj (Option.some.inj hx)
        obtain rfl := Option.some.inj he
        obtain ⟨-, -, -, hin⟩ := h.sound t _ ht
        obtain ⟨hmiss, hhead⟩ := hin (by omega)
        refine hp.stored t i chars count buf written moved (by simp) (update_self ..) 0
          (by omega) ?_
        exact Pipe.occupied_iff h.books.head_lt hhead (by omega) (hmiss ▸ h.books.miss_le)
      | _ => cases hx
    | go signal =>
      -- another reader is copying, and this one takes bytes
      rw [Resident] at hr
      push Not at hr
      obtain ⟨count, read, got, ht', hcount, hsize, u, hu, g, hg, hpos⟩ := hr
      obtain rfl : f = .read count read got := by simpa [ht] using ht'
      obtain ⟨g', hg'⟩ := h.single u
      obtain rfl : g = g' := by simpa [hg'] using hg
      have hcu : s.cpu ≠ some u := by
        rintro hcu
        rcases hc with hc | hc
        · rw [hc] at hcu
          cases hcu
        · exact hu (Option.some.inj (hc.symm.trans hcu)).symm
      cases g with
      | putBytes i chars count' read' got' =>
        obtain ⟨-, -, hin⟩ := h.sound u _ hg'
        obtain ⟨hback, htail⟩ := hin (Nat.pos_of_ne_zero hpos)
        obtain rfl : read = got.length := h.sound t _ ht
        have hone : chars ≤ 1 := (h.asleep u _ hcu hg').2
        obtain rfl : chars = 1 := by
          have : chars ≠ 0 := hpos
          omega
        have htail_lt := h.books.tail_lt
        have heq := readPipe_chunk signal got.length got hcount hsize
        set chars := min (min (PAGE_SIZE - s.shared.tail) count) s.shared.size with hchars
        obtain ⟨rfl, rfl⟩ := Prod.mk.inj ((Option.some.inj hx).symm.trans heq)
        obtain rfl := Option.some.inj he
        have hroom := h.books.room
        have hsize' := Pipe.size_take h.books.head_lt (show chars ≤ s.shared.size by omega)
        refine hp.kept u i 1 count' read' got' (fun h => hu (Option.some.inj h).symm)
          ((update_of_ne hu ..).trans hg') 0 one_pos ?_
        refine (Pipe.available_iff (p := { s.shared with
          tail := Pipe.advance s.shared.tail chars }) (i := i) (m := chars + 1) h.books.head_lt
          ?_ (by omega) ?_).mpr (by omega)
        · dsimp only
          rw [Pipe.advance_eq, ← htail]
          unfold PAGE_SIZE
          omega
        · rw [hsize']
          omega
      | _ => exact hpos rfl

/-- In a run from a new pipe published bytes are stored and taken bytes are kept wherever a copy
sleeps exactly when no writer's copy sleeps, a reader's sleeps at most on the last byte of
its chunk, and no other reader takes bytes meanwhile. -/
theorem pipe_published (page : ℕ → UInt8) (as : List (Act n Choice ℕ)) :
    Throughout (program n).step Published as (newPipe n page) ↔
      Each (program n).step Resident as (newPipe n page) := by
  refine throughout_iff_each (I := Fifo 1) (fun s h => h.published) (fun s a s' h ha hs => ?_)
    (fun s a s' h hs hp => ?_) (.newPipe 1 le_rfl page)
  · exact h.step ha (fun h0 => absurd h0 one_ne_zero) hs
  · by_contra hr
    exact h.not_published hr hs hp

section Examples

/-- Task 0 writes two bytes, the first of which is not in memory; task 1 reads one. -/
def faultingActs : List (Act 2 Choice ℕ) :=
  [.run 0 (.write [7, 8]), .run 0 (.go false), .run 0 .fault, .run 1 (.read 1),
    .run 1 (.go false), .run 1 (.go false)]

def faulting : Sys 2 :=
  (runList (program 2).step faultingActs (newPipe 2 fun _ => 0)).get (by decide +kernel)

/-- The reader gets a byte that no writer has stored. -/
theorem reads_before_stored : Run (program 2).step Always (newPipe 2 fun _ => 0) faulting ∧
    faulting.shared.delivered = [0] ∧ faulting.shared.accepted = [] ∧ ¬ Published faulting := by
  have hdel : faulting.shared.delivered = [0] := by decide +kernel
  have hacc : faulting.shared.accepted = [] := by decide +kernel
  refine ⟨.of_runList_get _, hdel, hacc, fun h => ?_⟩
  have hpre := h.pre
  rw [hdel, hacc] at hpre
  exact absurd hpre (by decide)

end Examples

end Linux012.Pipes
