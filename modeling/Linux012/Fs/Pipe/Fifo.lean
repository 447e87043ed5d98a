import Linux012.Lib.Ring
import Linux012.Fs.Pipe.Basic
import Linux012.Lib.Index

/-! # The pipe as a queue

The bytes accepted and not yet delivered lie in the page, from the reader's place on. Between
the two places a writer or a reader may have a chunk in hand: its index has moved on, and
the bytes are still to be copied.
-/

namespace Linux012.Pipes

open Function Coop Runs
open scoped Index

/-! ## Indices -/

namespace Pipe

variable {p : Pipe} {m : ℕ}

theorem size_lt : p.size < PAGE_SIZE := by
  unfold size PAGE_SIZE
  omega

theorem tail_add_size (h : p.head < PAGE_SIZE) : (p.tail + p.size) % PAGE_SIZE = p.head := by
  unfold size PAGE_SIZE at *
  omega

theorem size_eq (h : (p.tail + m) % PAGE_SIZE = p.head) (hm : m < PAGE_SIZE) : p.size = m := by
  unfold size PAGE_SIZE at *
  omega

theorem advance_eq (i chars : ℕ) : advance i chars = (i + chars) % PAGE_SIZE := by
  unfold advance PAGE_SIZE
  omega

theorem size_take {chars : ℕ} (h : p.head < PAGE_SIZE) (hc : chars ≤ p.size) :
    ({ p with tail := advance p.tail chars } : Pipe).size = p.size - chars := by
  have hlt := size_lt (p := p)
  refine size_eq ?_ (by omega)
  have hadd := tail_add_size h
  dsimp only
  rw [advance_eq]
  unfold PAGE_SIZE at *
  omega

theorem size_publish {chars : ℕ} (h : p.head < PAGE_SIZE) (hc : chars ≤ PAGE_SIZE - 1 - p.size) :
    ({ p with head := advance p.head chars } : Pipe).size = p.size + chars := by
  have hlt := size_lt (p := p)
  refine size_eq ?_ (by omega)
  have hadd := tail_add_size h
  dsimp only
  rw [advance_eq]
  unfold PAGE_SIZE at *
  omega

end Pipe

/-! ## Books -/

/-- `back` bytes before the tail are in the hand of a reader, and the last `miss` bytes before the
head are still to be stored. With `rest` a reader may sleep with one byte in its hand, while
writers fill the page up to it. -/
structure Books (rest : ℕ) (p : Pipe) (back miss : ℕ) : Prop where
  rest_le : rest ≤ 1
  head_lt : p.head < PAGE_SIZE
  tail_lt : p.tail < PAGE_SIZE
  room : back + p.size < PAGE_SIZE + rest
  miss_le : miss ≤ p.size
  data : ∃ start, (start + back) % PAGE_SIZE = p.tail ∧
    p.accepted = p.delivered ++ Ring.slice p.page PAGE_SIZE start (back + p.size - miss)

namespace Books

variable {p : Pipe} {rest back miss chars i : ℕ}

/-- A reader takes a chunk off the tail. -/
theorem take (h : Books rest p 0 0) (hc : chars ≤ p.size) :
    Books rest { p with tail := Pipe.advance p.tail chars } chars 0 := by
  set p' : Pipe := { p with tail := Pipe.advance p.tail chars } with hp'
  have htail : p'.tail = (p.tail + chars) % PAGE_SIZE := Pipe.advance_eq ..
  have hlt := Pipe.size_lt (p := p)
  have hsize : p'.size = p.size - chars := Pipe.size_take h.head_lt hc
  obtain ⟨start, hs, hd⟩ := h.data
  refine ⟨h.rest_le, h.head_lt, ?_, by omega, by omega, start, ?_, ?_⟩
  · rw [htail]
    exact Nat.mod_lt _ (by decide)
  · rw [htail, Nat.add_mod, ← hs]
    simp
  · have hn : chars + p'.size - 0 = 0 + p.size - 0 := by omega
    rw [hn]
    exact hd

/-- A reader copies the next byte in its hand. -/
theorem deliver (h : Books rest p (chars + 1) 0) (hi : i + (chars + 1) ≤ PAGE_SIZE)
    (ht : (i + (chars + 1)) % PAGE_SIZE = p.tail) :
    Books rest { p with delivered := p.delivered ++ [p.page i] } chars 0 := by
  set p' : Pipe := { p with delivered := p.delivered ++ [p.page i] } with hp'
  have hsize : p'.size = p.size := rfl
  obtain ⟨start, hs, hd⟩ := h.data
  have hroom := h.room
  have hstart : start % PAGE_SIZE = i := by
    rw [← ht] at hs
    unfold PAGE_SIZE at *
    omega
  refine ⟨h.rest_le, h.head_lt, h.tail_lt, by omega, by omega, start + 1, ?_, ?_⟩
  · rw [Nat.add_right_comm, Nat.add_assoc]
    exact hs
  · have hn : chars + 1 + p.size - 0 = (chars + p'.size - 0) + 1 := by omega
    rw [hn, Ring.slice_succ, hstart] at hd
    change p.accepted = p.delivered ++ [p.page i] ++ _
    rw [hd, List.append_assoc]
    rfl

/-- A writer puts a chunk in front of the head, with its bytes still to come. -/
theorem publish (h : Books rest p back 0) (hc : back ≤ rest)
    (hfree : chars ≤ PAGE_SIZE - 1 - p.size) :
    Books rest { p with head := Pipe.advance p.head chars } back chars := by
  set p' : Pipe := { p with head := Pipe.advance p.head chars } with hp'
  have hhead : p'.head = (p.head + chars) % PAGE_SIZE := Pipe.advance_eq ..
  have hlt := Pipe.size_lt (p := p)
  have hsize : p'.size = p.size + chars := Pipe.size_publish h.head_lt hfree
  obtain ⟨start, hs, hd⟩ := h.data
  refine ⟨h.rest_le, ?_, h.tail_lt, by omega, by omega, start, hs, ?_⟩
  · rw [hhead]
    exact Nat.mod_lt _ (by decide)
  · have hn : back + p'.size - chars = back + p.size - 0 := by omega
    rw [hn]
    exact hd

/-- A writer stores the next byte of its chunk. -/
theorem store (h : Books rest p back (chars + 1)) (hi : i + (chars + 1) ≤ PAGE_SIZE)
    (hh : (i + (chars + 1)) % PAGE_SIZE = p.head) (b : UInt8) :
    Books rest { p with page := update p.page i b, accepted := p.accepted ++ [b] } back chars := by
  set p' : Pipe := { p with page := update p.page i b, accepted := p.accepted ++ [b] } with hp'
  have hsize : p'.size = p.size := rfl
  obtain ⟨start, hs, hd⟩ := h.data
  have hroom := h.room
  have hmiss := h.miss_le
  have hrest := h.rest_le
  set len := back + p.size - (chars + 1) with hlen
  have hcell : (start + len) % PAGE_SIZE = i := by
    have := Pipe.tail_add_size h.head_lt
    rw [← hs, ← hh] at this
    unfold PAGE_SIZE at *
    omega
  refine ⟨h.rest_le, h.head_lt, h.tail_lt, by omega, by omega, start, hs, ?_⟩
  have hn : back + p'.size - chars = len + 1 := by omega
  rw [hn, Ring.slice_succ_last, hcell]
  have hself : p'.page i = b := update_self ..
  change p.accepted ++ [b] = p.delivered ++ (Ring.slice (update p.page i b) _ _ _ ++ _)
  rw [hd, hself, ← hcell, Ring.slice_update (by omega), List.append_assoc]

end Books

/-! ## Frames -/

variable {n : ℕ} {p p' : Pipe} {rest back back' miss miss' : ℕ} {f g : Frame}

namespace Frame

/-- How many bytes a reader has taken off the pipe and is still to copy. -/
def putting : Frame → ℕ
  | .putBytes _ chars _ _ _ => chars
  | _ => 0

/-- How many bytes a writer has announced and is still to store. -/
def getting : Frame → ℕ
  | .getBytes _ chars _ _ _ _ => chars
  | _ => 0

end Frame

/-- A call returns the number of bytes it has moved, or an error when it has moved none. -/
def Returned (r : Result) : Prop :=
  r.ret = r.moved ∨ (r.moved = 0 ∧
    ((r.ret = -ERESTARTSYS ∧ r.sigpipe = false) ∨ (r.ret = -1 ∧ r.sigpipe = true)))

/-- A call has counted its bytes, and its chunk lies in the page where its index was. -/
def Sound (p : Pipe) (back miss : ℕ) : Frame → Prop
  | .user none => True
  | .user (some r) => Returned r
  | .read _ read got => read = got.length
  | .putBytes i chars _ read got => i + chars ≤ PAGE_SIZE ∧ read = got.length + chars ∧
      (0 < chars → chars = back ∧ (i + chars) % PAGE_SIZE = p.tail)
  | .write count buf written moved => written = moved ∧ buf.length = count
  | .getBytes i chars count buf written moved => i + chars ≤ PAGE_SIZE ∧
      written = moved + chars ∧ buf.length = count + chars ∧
      (0 < chars → chars = miss ∧ (i + chars) % PAGE_SIZE = p.head)

/-- What holds of a call at rest is not touched by the others. -/
theorem Sound.other (h : Sound p back miss g) (hg : g.getting = 0)
    (hp : g.putting = 0 ∨ (back' = back ∧ p'.tail = p.tail)) : Sound p' back' miss' g := by
  cases g with
  | user last =>
    cases last with
    | none => trivial
    | some r => exact h
  | read => exact h
  | write => exact h
  | putBytes i chars count read got =>
    obtain ⟨h₁, h₂, h₃⟩ := h
    refine ⟨h₁, h₂, fun hc => ?_⟩
    obtain ⟨rfl, ht⟩ := hp.resolve_left hc.ne'
    rw [ht]
    exact h₃ hc
  | getBytes i chars count buf written moved =>
    obtain ⟨h₁, h₂, h₃, -⟩ := h
    exact ⟨h₁, h₂, h₃, fun hc => absurd hg hc.ne'⟩

theorem readPipe_chunk {count : ℕ} (signal : Bool) (read : ℕ) (got : List UInt8)
    (hcount : 0 < count) (hsize : p.size ≠ 0) :
    readPipe p signal count read got =
      ({ p with tail := Pipe.advance p.tail (min (min (PAGE_SIZE - p.tail) count) p.size) },
        .goto (.putBytes p.tail (min (min (PAGE_SIZE - p.tail) count) p.size)
          (count - min (min (PAGE_SIZE - p.tail) count) p.size)
          (read + min (min (PAGE_SIZE - p.tail) count) p.size) got)) := by
  rw [readPipe, if_neg hcount.ne']
  dsimp only
  rw [if_neg hsize]

theorem readPipe_cases (htail : p.tail < PAGE_SIZE) (signal : Bool) (count : ℕ)
    (got : List UInt8) :
    (∃ r, Returned r ∧ readPipe p signal count got.length got = (p, .goto (.user (some r)))) ∨
    readPipe p signal count got.length got = (p, .sleep (.read count got.length got)) ∨
    (0 < count ∧ p.size ≠ 0 ∧ ∃ chars > 0, chars ≤ p.size ∧ chars ≤ PAGE_SIZE - p.tail ∧
      readPipe p signal count got.length got = ({ p with tail := Pipe.advance p.tail chars },
        .goto (.putBytes p.tail chars (count - chars) (got.length + chars) got))) := by
  by_cases hcount : count = 0
  · exact .inl ⟨_, .inl rfl, by rw [readPipe, if_pos hcount, finish]⟩
  · rw [readPipe, if_neg hcount]
    dsimp only
    by_cases hsize : p.size = 0
    · rw [if_pos hsize]
      by_cases hopen : p.iCount ≠ 2
      · rw [if_pos hopen]
        exact .inl ⟨_, .inl rfl, rfl⟩
      · rw [if_neg hopen]
        by_cases hsignal : signal
        · rw [if_pos hsignal]
          refine .inl ⟨_, ?_, rfl⟩
          by_cases hread : got.length = 0
          · exact .inr ⟨hread, .inl ⟨if_pos hread, rfl⟩⟩
          · exact .inl (if_neg hread)
        · rw [if_neg hsignal]
          exact .inr (.inl rfl)
    · rw [if_neg hsize]
      exact .inr (.inr ⟨by omega, hsize, _, by omega, by omega, by omega, rfl⟩)

theorem writePipe_cases (p : Pipe) (buf : List UInt8) (moved : ℕ) :
    (∃ r, Returned r ∧ writePipe p buf.length buf moved moved = (p, .goto (.user (some r)))) ∨
    writePipe p buf.length buf moved moved = (p, .sleep (.write buf.length buf moved moved)) ∨
    (∃ chars ≤ buf.length, chars ≤ PAGE_SIZE - 1 - p.size ∧ chars ≤ PAGE_SIZE - p.head ∧
      writePipe p buf.length buf moved moved = ({ p with head := Pipe.advance p.head chars },
        .goto (.getBytes p.head chars (buf.length - chars) buf (moved + chars) moved))) := by
  by_cases hcount : buf.length = 0
  · exact .inl ⟨_, .inl rfl, by rw [writePipe, if_pos hcount, finish]⟩
  · rw [writePipe, if_neg hcount]
    dsimp only
    by_cases hsize : PAGE_SIZE - 1 - p.size = 0
    · rw [if_pos hsize]
      by_cases hopen : p.iCount ≠ 2
      · rw [if_pos hopen]
        refine .inl ⟨_, ?_, rfl⟩
        by_cases hwritten : moved = 0
        · exact .inr ⟨hwritten, .inr ⟨if_pos hwritten, rfl⟩⟩
        · exact .inl (if_neg hwritten)
      · rw [if_neg hopen]
        exact .inr (.inl rfl)
    · rw [if_neg hsize]
      exact .inr (.inr ⟨_, by omega, by omega, by omega, rfl⟩)

/-! ## The invariant -/

abbrev Sys (n : ℕ) := State n Pipe Frame Empty

/-- The books are right for the calls under way. A call that does not have the processor has at
most `rest` bytes in its hand, which it is to put into its buffer. -/
structure Fifo (rest : ℕ) (s : Sys n) : Prop where
  books : Books rest s.shared (s.total Frame.putting) (s.total Frame.getting)
  single : ∀ t, ∃ f, s.stack t = [f]
  sound : ∀ t f, s.stack t = [f] →
    Sound s.shared (s.total Frame.putting) (s.total Frame.getting) f
  asleep : ∀ t f, s.cpu ≠ some t → s.stack t = [f] → f.getting = 0 ∧ f.putting ≤ rest

variable {s s' : Sys n} {t : Fin n}

theorem total_single (w : Frame → ℕ) (ht : s.stack t = [f])
    (h : ∀ u g, u ≠ t → s.stack u = [g] → w g = 0) (hs : ∀ u, ∃ g, s.stack u = [g]) :
    s.total w = w f := by
  rw [State.total, Finset.sum_eq_single t]
  · simp [ht]
  · intro u _ hu
    obtain ⟨g, hg⟩ := hs u
    simp [hg, h u g hu hg]
  · exact fun h => absurd (Finset.mem_univ t) h

/-- Only the task that has the processor may be storing bytes. -/
theorem Fifo.getting_eq (h : Fifo rest s) (hc : s.cpu = none ∨ s.cpu = some t)
    (ht : s.stack t = [f]) : s.total Frame.getting = f.getting := by
  refine total_single _ ht (fun u g hu hg => ?_) h.single
  refine (h.asleep u g (fun hcu => hu ?_) hg).1
  rcases hc with hc | hc
  · rw [hc] at hcu
    cases hcu
  · exact (Option.some.inj (hc.symm.trans hcu)).symm

/-- A piece of code that leaves the books right and its own frame sound keeps the invariant. -/
theorem Fifo.enter (h : Fifo rest s) (hc : s.cpu = none ∨ s.cpu = some t) (ht : s.stack t = [f])
    {cpu' : Option (Fin n)} (hcpu : cpu' = some t ∨ (cpu' = none ∧ g.getting = 0 ∧ g.putting ≤ rest))
    (hb : back' + f.putting = s.total Frame.putting + g.putting)
    (hbooks : Books rest p' back' g.getting) (hg : Sound p' back' g.getting g)
    (hother : s.total Frame.putting = f.putting ∨
      (back' = s.total Frame.putting ∧ p'.tail = s.shared.tail)) :
    Fifo rest ({ s with shared := p', stack := update s.stack t [g], cpu := cpu' } : Sys n) := by
  set s' : Sys n := { s with shared := p', stack := update s.stack t [g], cpu := cpu' } with hs'
  have hne : ∀ u, u ≠ t → s'.stack u = s.stack u := fun u hu => update_of_ne hu ..
  have hself : s'.stack t = [g] := update_self ..
  have hcu : ∀ u, u ≠ t → s.cpu ≠ some u := by
    rintro u hu hcu
    rcases hc with hc | hc
    · rw [hc] at hcu
      cases hcu
    · exact hu (Option.some.inj (hc.symm.trans hcu)).symm
  have hput : s'.total Frame.putting = back' := by
    have := State.total_update (w := Frame.putting) (s := s) t [g] p' cpu'
    simp only [ht, List.map_cons, List.map_nil, List.sum_cons, List.sum_nil, ← hs'] at this
    omega
  have hget : s'.total Frame.getting = g.getting := by
    have := State.total_update (w := Frame.getting) (s := s) t [g] p' cpu'
    simp only [ht, List.map_cons, List.map_nil, List.sum_cons, List.sum_nil, ← hs'] at this
    have := h.getting_eq hc ht
    omega
  have hrest : ∀ u g', u ≠ t → s.stack u = [g'] → g'.putting = 0 ∨
      (back' = s.total Frame.putting ∧ p'.tail = s.shared.tail) := by
    intro u g' hu hg'
    refine hother.imp_left fun heq => ?_
    have := apart_of_ne ht hu (g := g') (by rw [hg']; exact List.mem_singleton_self _)
      Frame.putting
    omega
  constructor
  · rw [hput, hget]
    exact hbooks
  · intro u
    by_cases hu : u = t
    · exact ⟨g, hu ▸ hself⟩
    · rw [hne u hu]
      exact h.single u
  · intro u g' hg'
    rw [hput, hget]
    by_cases hu : u = t
    · subst hu
      obtain rfl : g = g' := by simpa [hself] using hg'
      exact hg
    · rw [hne u hu] at hg'
      exact (h.sound u g' hg').other (h.asleep u g' (hcu u hu) hg').1 (hrest u g' hu hg')
  · intro u g' hu' hg'
    by_cases hu : u = t
    · subst hu
      obtain rfl : g = g' := by simpa [hself] using hg'
      exact (hcpu.resolve_left hu').2
    · rw [hne u hu] at hg'
      exact h.asleep u g' (hcu u hu) hg'

theorem Fifo.books_of (h : Fifo rest s) (hc : s.cpu = none ∨ s.cpu = some t) (ht : s.stack t = [f]) :
    Books rest s.shared (s.total Frame.putting) f.getting :=
  h.getting_eq hc ht ▸ h.books

/-- A piece of code outside the copy loops that leaves the pipe alone. -/
theorem Fifo.quiet (h : Fifo rest s) (hc : s.cpu = none ∨ s.cpu = some t) (ht : s.stack t = [f])
    {cpu' : Option (Fin n)} (hcpu : cpu' = some t ∨ cpu' = none) (hf : f.putting = 0)
    (hf' : f.getting = 0) (hg : g.putting = 0) (hg' : g.getting = 0)
    (hsound : Sound s.shared (s.total Frame.putting) g.getting g) :
    Fifo rest ({ s with stack := update s.stack t [g], cpu := cpu' } : Sys n) := by
  refine h.enter hc ht (hcpu.imp_right fun hc => ⟨hc, hg', by omega⟩) (by omega) ?_ hsound
    (.inr ⟨rfl, rfl⟩)
  rw [hg', ← hf']
  exact h.books_of hc ht

/-! ## Steps -/

/-- The byte that the running task copies is in memory. A byte that a reader puts into its buffer
may be missing if it is the last of its chunk and no other reader takes bytes meanwhile. -/
def Resident (s : Sys n) : Act n Choice ℕ → Prop
  | .run t .fault => ∃ i count read got, s.stack t = [.putBytes i 1 count read got]
  | .run t (.go _) => ∀ count read got, s.stack t = [.read count read got] → 0 < count →
      s.shared.size ≠ 0 → ∀ u ≠ t, ∀ f ∈ s.stack u, f.putting = 0
  | _ => True

theorem Fifo.readPipe (h : Fifo rest s) (hc : s.cpu = none ∨ s.cpu = some t) {count read : ℕ}
    {got : List UInt8} (ht : s.stack t = [.read count read got]) {signal : Bool}
    (hr : Resident s (.run t (.go signal)))
    (he : (program n).enter s t [] (readPipe s.shared signal count read got).1
      (readPipe s.shared signal count read got).2 = some s') : Fifo rest s' := by
  obtain rfl : read = got.length := h.sound t _ ht
  rcases readPipe_cases h.books.tail_lt signal count got with ⟨r, hret, heq⟩ | heq |
    ⟨hcount, hsize, chars, -, hle, hpage, heq⟩
  · rw [heq] at he
    obtain rfl := Option.some.inj he
    exact h.quiet hc ht (.inl rfl) rfl rfl rfl rfl hret
  · rw [heq] at he
    obtain rfl := Option.some.inj he
    exact h.quiet hc ht (.inr rfl) rfl rfl rfl rfl rfl
  · rw [heq] at he
    obtain rfl := Option.some.inj he
    have hzero : s.total Frame.putting = 0 :=
      total_single _ ht (fun u g hu hg => hr count _ got ht hcount hsize u hu g
        (by rw [hg]; exact List.mem_singleton_self g)) h.single
    have hbooks := h.books_of hc ht
    rw [hzero] at hbooks
    have htail := hbooks.tail_lt
    refine h.enter hc ht (.inl rfl) ?_ (hbooks.take hle) ?_ (.inl hzero)
    · rw [hzero]
      exact Nat.add_comm ..
    · exact ⟨by omega, rfl, fun _ => ⟨rfl, (Pipe.advance_eq _ _).symm⟩⟩

theorem Fifo.putByte (h : Fifo rest s) (hc : s.cpu = none ∨ s.cpu = some t)
    {i chars count read : ℕ} {got : List UInt8}
    (ht : s.stack t = [.putBytes i chars count read got])
    (he : (program n).enter s t [] (putByte s.shared i chars count read got).1
      (putByte s.shared i chars count read got).2 = some s') : Fifo rest s' := by
  obtain ⟨hi, hread, hin⟩ := h.sound t _ ht
  cases chars with
  | zero =>
    rw [Pipes.putByte, if_pos rfl] at he
    obtain rfl := Option.some.inj he
    exact h.quiet hc ht (.inl rfl) rfl rfl rfl rfl hread
  | succ chars =>
    rw [Pipes.putByte, if_neg (Nat.succ_ne_zero _)] at he
    obtain rfl := Option.some.inj he
    obtain ⟨hback, htail⟩ := hin (Nat.succ_pos _)
    have hbooks := h.books_of hc ht
    rw [← hback] at hbooks
    refine h.enter hc ht (.inl rfl) ?_ (hbooks.deliver hi htail) ?_
      (.inl hback.symm)
    · rw [← hback]
      exact Nat.add_comm ..
    · refine ⟨by omega, ?_, fun _ => ⟨rfl, ?_⟩⟩
      · rw [List.length_append, List.length_singleton]
        omega
      · rw [← htail]
        congr 1
        omega

/-- A writer that runs leaves the sleeping readers what they have in their hands. -/
theorem Fifo.back_le (h : Fifo rest s) (hc : s.cpu = none ∨ s.cpu = some t)
    (ht : s.stack t = [f]) (hf : f.putting = 0) : s.total Frame.putting ≤ rest := by
  by_cases hzero : s.total Frame.putting = 0
  · omega
  · have hex : ∃ u g, u ≠ t ∧ s.stack u = [g] ∧ g.putting ≠ 0 := by
      by_contra hno
      push Not at hno
      exact hzero (hf ▸ total_single _ ht hno h.single)
    obtain ⟨u, g, hu, hg, hpos⟩ := hex
    have hle := (h.asleep u g (fun hcu => hu ?_) hg).2
    · cases g with
      | putBytes i chars count read got =>
        obtain ⟨-, -, hin⟩ := h.sound u _ hg
        rw [← (hin (Nat.pos_of_ne_zero hpos)).1]
        exact hle
      | _ => exact absurd rfl hpos
    · rcases hc with hc | hc
      · rw [hc] at hcu
        cases hcu
      · exact (Option.some.inj (hc.symm.trans hcu)).symm

theorem Fifo.writePipe (h : Fifo rest s) (hc : s.cpu = none ∨ s.cpu = some t) {count : ℕ}
    {buf : List UInt8} {written moved : ℕ} (ht : s.stack t = [.write count buf written moved])
    (he : (program n).enter s t [] (writePipe s.shared count buf written moved).1
      (writePipe s.shared count buf written moved).2 = some s') : Fifo rest s' := by
  obtain ⟨rfl, rfl⟩ : written = moved ∧ buf.length = count := h.sound t _ ht
  rcases writePipe_cases s.shared buf written with ⟨r, hret, heq⟩ | heq |
    ⟨chars, hbuf, hfree, hpage, heq⟩
  · rw [heq] at he
    obtain rfl := Option.some.inj he
    exact h.quiet hc ht (.inl rfl) rfl rfl rfl rfl hret
  · rw [heq] at he
    obtain rfl := Option.some.inj he
    exact h.quiet hc ht (.inr rfl) rfl rfl rfl rfl ⟨rfl, rfl⟩
  · rw [heq] at he
    obtain rfl := Option.some.inj he
    have hbooks := h.books_of hc ht
    have hhead := hbooks.head_lt
    refine h.enter hc ht (.inl rfl) rfl (hbooks.publish (h.back_le hc ht rfl) hfree) ?_
      (.inr ⟨rfl, rfl⟩)
    exact ⟨by omega, rfl, by omega, fun _ => ⟨rfl, (Pipe.advance_eq _ _).symm⟩⟩

theorem Fifo.getByte (h : Fifo rest s) (hc : s.cpu = none ∨ s.cpu = some t) {i chars count : ℕ}
    {buf : List UInt8} {written moved : ℕ}
    (ht : s.stack t = [.getBytes i chars count buf written moved])
    (he : (program n).enter s t [] (getByte s.shared i chars count buf written moved).1
      (getByte s.shared i chars count buf written moved).2 = some s') : Fifo rest s' := by
  obtain ⟨hi, hwritten, hbuf, hin⟩ := h.sound t _ ht
  cases chars with
  | zero =>
    obtain rfl := Option.some.inj he
    exact h.quiet hc ht (.inl rfl) rfl rfl rfl rfl ⟨hwritten, hbuf⟩
  | succ chars =>
    cases buf with
    | nil => cases hbuf
    | cons b buf =>
      obtain rfl := Option.some.inj he
      obtain ⟨-, hhead⟩ := hin (Nat.succ_pos _)
      have hbooks := h.books_of hc ht
      refine h.enter hc ht (.inl rfl) rfl (hbooks.store hi hhead b) ?_ (.inr ⟨rfl, rfl⟩)
      refine ⟨by omega, by omega, ?_, fun _ => ⟨rfl, ?_⟩⟩
      · rw [List.length_cons] at hbuf
        omega
      · refine Eq.trans ?_ hhead
        congr 1
        omega

/-- A step that finds its bytes in memory keeps the books. -/
theorem Fifo.step {a : Act n Choice ℕ} (h : Fifo rest s) (hr : Resident s a)
    (hrest : rest = 0 → ∀ t, a ≠ .run t .fault) (hs : (program n).step a s = some s') :
    Fifo rest s' := by
  cases a with
  | run t c =>
    obtain ⟨f, ht⟩ := h.single t
    obtain ⟨hc, p', nx, hx, he⟩ := Program.step_run hs ht
    change exec t c f s.shared = some (p', nx) at hx
    cases f with
    | user last =>
      cases c with
      | read count =>
        simp only [exec, Option.ite_none_right_eq_some, Option.some.injEq, Prod.mk.injEq] at hx
        obtain ⟨-, rfl, rfl⟩ := hx
        obtain rfl := Option.some.inj he
        exact h.quiet hc ht (.inl rfl) rfl rfl rfl rfl rfl
      | write buf =>
        simp only [exec, Option.ite_none_right_eq_some, Option.some.injEq, Prod.mk.injEq] at hx
        obtain ⟨-, rfl, rfl⟩ := hx
        obtain rfl := Option.some.inj he
        exact h.quiet hc ht (.inl rfl) rfl rfl rfl rfl ⟨rfl, rfl⟩
      | go => cases hx
      | fault => cases hx
    | read count read got =>
      cases c with
      | go signal =>
        obtain ⟨rfl, rfl⟩ := Prod.ext_iff.mp (Option.some.inj hx)
        exact h.readPipe hc ht hr he
      | _ => cases hx
    | putBytes i chars count read got =>
      cases c with
      | go signal =>
        obtain ⟨rfl, rfl⟩ := Prod.ext_iff.mp (Option.some.inj hx)
        exact h.putByte hc ht he
      | fault =>
        -- the last byte of the chunk stays in the hand of the sleeping reader
        obtain ⟨i', count', read', got', ht'⟩ := hr
        obtain ⟨rfl, rfl, rfl, rfl, rfl⟩ : i = i' ∧ chars = 1 ∧ count = count' ∧ read = read' ∧
            got = got' := by simpa [ht] using ht'
        obtain ⟨rfl, rfl⟩ := Prod.mk.inj (Option.some.inj hx)
        obtain rfl := Option.some.inj he
        have hbooks := h.books_of hc ht
        have hle := hbooks.rest_le
        have hne : rest ≠ 0 := fun h0 => hrest h0 t rfl
        have hone : (1 : ℕ) ≤ rest := by omega
        refine h.enter hc ht (.inr ⟨rfl, rfl, hone⟩) rfl hbooks ?_ (.inr ⟨rfl, rfl⟩)
        have hsound := h.sound t _ ht
        rw [h.getting_eq hc ht] at hsound
        exact hsound
      | _ => cases hx
    | write count buf written moved =>
      cases c with
      | go signal =>
        obtain ⟨rfl, rfl⟩ := Prod.ext_iff.mp (Option.some.inj hx)
        exact h.writePipe hc ht he
      | _ => cases hx
    | getBytes i chars count buf written moved =>
      cases c with
      | go signal =>
        obtain ⟨rfl, rfl⟩ := Prod.ext_iff.mp (Option.some.inj hx)
        exact h.getByte hc ht he
      | fault =>
        obtain ⟨i', count', read', got', ht'⟩ := hr
        simp [ht] at ht'
      | _ => cases hx
  | tick =>
    obtain ⟨t, f, fs, hcpu, hst, huser, rfl⟩ := Program.step_tick hs
    refine ⟨h.books, h.single, h.sound, fun u g _ hg => ?_⟩
    by_cases hu : u = t
    · subst hu
      obtain rfl : g = f := (List.cons.inj (hg.symm.trans hst)).1
      cases g with
      | user => exact ⟨rfl, Nat.zero_le _⟩
      | _ => cases huser
    · refine h.asleep u g (fun hcu => hu ?_) hg
      exact (Option.some.inj (hcpu.symm.trans hcu)).symm
  | intr count =>
    obtain ⟨-, ⟨t, c, f, fs, σ', nx, ha, -⟩ | ⟨ha, -⟩ | ⟨i, σ', ha, hx, rfl⟩⟩ :=
      Program.step_cases hs
    · cases ha
    · cases ha
    · obtain rfl := Option.some.inj hx
      refine ⟨⟨h.books.rest_le, h.books.head_lt, h.books.tail_lt, h.books.room, h.books.miss_le,
        h.books.data⟩, h.single, fun u g hg => ?_, h.asleep⟩
      have hsound := h.sound u g hg
      cases g with
      | user last => cases last with
        | none => trivial
        | some r => exact hsound
      | _ => exact hsound

theorem Fifo.newPipe (rest : ℕ) (hr : rest ≤ 1) (page : ℕ → UInt8) :
    Fifo rest (newPipe n page) := by
  have hzero : ∀ w : Frame → ℕ, (∀ last, w (.user last) = 0) →
      (Pipes.newPipe n page).total w = 0 := by
    intro w hw
    simp [State.total, Pipes.newPipe, hw]
  have hsize : (Pipes.newPipe n page).shared.size = 0 := by
    simp [Pipe.size, Pipes.newPipe]
  have hput := hzero Frame.putting fun _ => rfl
  have hget := hzero Frame.getting fun _ => rfl
  constructor
  · rw [hput, hget]
    refine ⟨hr, by simp [Pipes.newPipe], by simp [Pipes.newPipe], ?_, by omega, 0, rfl, ?_⟩
    · rw [hsize, PAGE_SIZE]
      omega
    · rw [hsize]
      rfl
  · exact fun t => ⟨_, rfl⟩
  · intro t f hf
    obtain rfl : Frame.user none = f := by simpa [Pipes.newPipe] using hf
    trivial
  · intro t f _ hf
    obtain rfl : Frame.user none = f := by simpa [Pipes.newPipe] using hf
    exact ⟨rfl, Nat.zero_le _⟩

/-! ## Without faults -/

/-- No copy to or from a user's buffer sleeps. -/
def NoFault (_ : Sys n) (a : Act n Choice ℕ) : Prop := ∀ t, a ≠ .run t .fault

theorem Fifo.resident {a : Act n Choice ℕ} (h : Fifo 0 s) (ha : NoFault s a)
    (hs : (program n).step a s = some s') : Resident s a := by
  cases a with
  | run t c =>
    cases c with
    | fault => exact absurd rfl (ha t)
    | go signal =>
      intro count read got ht _ _ u hu f hf
      obtain ⟨g, hg⟩ := h.single u
      obtain rfl : f = g := by simpa [hg] using hf
      obtain ⟨hc, -⟩ := Program.step_run hs ht
      have := (h.asleep u f (fun hcu => hu ?_) hg).2
      · omega
      · rcases hc with hc | hc
        · rw [hc] at hcu
          cases hcu
        · exact (Option.some.inj (hc.symm.trans hcu)).symm
    | _ => trivial
  | _ => trivial

/-- When copies do not sleep, readers get the bytes in the order the writers stored them, the
indices and every chunk stay within the page, and a call returns the number of bytes it has
moved, or an error when it has moved none. -/
theorem pipe_fifo {page : ℕ → UInt8} (h : Run (program n).step NoFault (newPipe n page) s) :
    s.shared.delivered <+: s.shared.accepted ∧
      s.shared.head < PAGE_SIZE ∧ s.shared.tail < PAGE_SIZE ∧
      s.shared.accepted.length ≤ s.shared.delivered.length + (PAGE_SIZE - 1) ∧
      (∀ t, ∀ f ∈ s.stack t, match f with
        | .putBytes i chars _ _ _ => i + chars ≤ PAGE_SIZE
        | .getBytes i chars _ _ _ _ => i + chars ≤ PAGE_SIZE
        | .user (some r) => Returned r
        | _ => True) := by
  have hinv : Fifo 0 s := h.invariant (I := Fifo 0) (.newPipe 0 (by omega) page)
    fun s a s' hs ha hstep => hs.step (hs.resident ha hstep) (fun _ => ha) hstep
  obtain ⟨start, -, hd⟩ := hinv.books.data
  refine ⟨⟨_, hd.symm⟩, hinv.books.head_lt, hinv.books.tail_lt, ?_, fun t f hf => ?_⟩
  · have := hinv.books.room
    rw [hd, List.length_append, Ring.length_slice]
    omega
  · obtain ⟨g, hg⟩ := hinv.single t
    obtain rfl : f = g := by simpa [hg] using hf
    have hsound := hinv.sound t f hg
    cases f with
    | user last => cases last with
      | none => trivial
      | some r => exact hsound
    | putBytes => exact hsound.1
    | getBytes => exact hsound.1
    | _ => trivial

section Examples

/-- Task 0 writes two bytes and task 1 reads one of them. -/
def movingActs : List (Act 2 Choice ℕ) :=
  [.run 0 (.write [7, 8]), .run 0 (.go false), .run 0 (.go false), .run 0 (.go false),
    .run 0 (.go false), .run 0 (.go false), .tick, .run 1 (.read 1), .run 1 (.go false),
    .run 1 (.go false)]

def moving : Sys 2 :=
  (runList (program 2).step movingActs (newPipe 2 fun _ => 0)).get (by decide +kernel)

theorem noFault_of_ne {as : List (Act n Choice ℕ)} (h : ∀ a ∈ as, ∀ t, a ≠ .run t .fault) :
    Each (program n).step NoFault as s := by
  induction as generalizing s with
  | nil => trivial
  | cons a as ih =>
    exact fun s' _ => ⟨h a List.mem_cons_self, ih fun b hb => h b (List.mem_cons_of_mem _ hb)⟩

theorem pipe_fifo_moving : moving.shared.delivered <+: moving.shared.accepted :=
  (pipe_fifo (.of_each (noFault_of_ne (by simp [movingActs]) :
    Each (program 2).step NoFault movingActs _) (Option.some_get _).symm)).1

/-- A reader of the empty pipe has a signal. -/
def interruptedActs : List (Act 1 Choice ℕ) := [.run 0 (.read 1), .run 0 (.go true)]

def interrupted : Sys 1 :=
  (runList (program 1).step interruptedActs (newPipe 1 fun _ => 0)).get (by decide +kernel)

/-- It has moved no byte, and does not return 0. -/
theorem read_interrupted : Run (program 1).step NoFault (newPipe 1 fun _ => 0) interrupted ∧
    interrupted.stack 0 = [.user (some ⟨-512, 0, false⟩)] :=
  ⟨.of_each (noFault_of_ne (by simp [interruptedActs]) :
    Each (program 1).step NoFault interruptedActs _) (Option.some_get _).symm, rfl⟩

end Examples

end Linux012.Pipes
