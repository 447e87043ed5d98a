import Mathlib.Data.Multiset.AddSub
import Mathlib.Data.Multiset.Count

/-! # The code of a task as a tree

A script reads and writes the shared state, calls functions by their names, sleeps, and goes on as
another function. Other tasks run while it waits for a call or sleeps. Objects are lent: a call takes
over references of its caller, and a returned value comes with references. A script is balanced when
it ends with the references that its value comes with.
-/

namespace Scripts

universe u

variable {σ F V P α β : Type u} {K ι : Type*}

inductive Script (σ F V P α : Type u) : Type u
  | ret (a : α)
  | read (k : σ → Script σ F V P α)
  | write (g : σ → σ) (k : Script σ F V P α)
  | call (f : F) (k : V → Script σ F V P α)
  | sleep (k : Script σ F V P α)
  | goto (f : F)
  | panic (q : P)

/-- How a piece of a script ends that nothing interrupts. -/
inductive Stop (σ F V P α : Type u) : Type u
  | ret (a : α)
  | call (f : F) (k : V → Script σ F V P α)
  | sleep (k : Script σ F V P α)
  | goto (f : F)
  | panic (q : P)

namespace Script

def bind : Script σ F V P α → (α → Script σ F V P β) → Script σ F V P β
  | ret a, c => c a
  | read k, c => read fun s => (k s).bind c
  | write g k, c => write g (k.bind c)
  | call f k, c => call f fun v => (k v).bind c
  | sleep k, c => sleep (k.bind c)
  | goto f, _ => goto f
  | panic q, _ => panic q

instance : Monad (Script σ F V P) where
  pure := ret
  bind := bind

/-- Look at the shared state. -/
def reads (f : σ → α) : Script σ F V P α := read fun s => ret (f s)

def modifies (g : σ → σ) : Script σ F V P PUnit := write g (ret ⟨⟩)

/-- Wait until somebody wakes the task up. -/
def pause : Script σ F V P PUnit := sleep (ret ⟨⟩)

/-- Call a function and look at the value that it returns. -/
def calls (f : F) (k : V → α) : Script σ F V P α := call f fun v => ret (k v)

def run : Script σ F V P α → σ → σ × Stop σ F V P α
  | ret a, s => (s, .ret a)
  | read k, s => (k s).run s
  | write g k, s => k.run (g s)
  | call f k, s => (s, .call f k)
  | sleep k, s => (s, .sleep k)
  | goto f, s => (s, .goto f)
  | panic q, s => (s, .panic q)

end Script

/-! ## References -/

/-- The objects have counts of references. Each function takes references over and has a kind, and the
values that fit a kind come with references. -/
structure Loans (σ F V : Type u) (K ι : Type*) where
  count : σ → ι → ℕ
  takes : F → Multiset ι
  gives : V → Multiset ι
  kind : F → K
  fits : K → V → Prop

namespace Loans

variable (L : Loans σ F V K ι) [DecidableEq ι] (self : F)

/-- The script of `self` that holds the references `h` ends as `Q` says. A held object has a reference,
so its count is not 0 when the script looks at it. -/
def Balanced (Q : α → Multiset ι → Prop) : Multiset ι → Script σ F V P α → Prop
  | h, .ret a => Q a h
  | h, .read k => ∀ s, (∀ i ∈ h, L.count s i ≠ 0) → Balanced Q h (k s)
  | h, .write g k => (∀ s i, L.count (g s) i = L.count s i) ∧ Balanced Q h k
  | h, .call f k =>
    L.takes f ≤ h ∧ ∀ v, L.fits (L.kind f) v → Balanced Q (h - L.takes f + L.gives v) (k v)
  | h, .sleep k => Balanced Q h k
  | h, .goto f => L.takes f = h ∧ L.kind f = L.kind self
  | _, .panic _ => True

/-- The same for the end of a piece. -/
def StopBalanced (Q : α → Multiset ι → Prop) (h : Multiset ι) : Stop σ F V P α → Prop
  | .ret a => Q a h
  | .call f k =>
    L.takes f ≤ h ∧ ∀ v, L.fits (L.kind f) v → L.Balanced self Q (h - L.takes f + L.gives v) (k v)
  | .sleep k => L.Balanced self Q h k
  | .goto f => L.takes f = h ∧ L.kind f = L.kind self
  | .panic _ => True

/-- A value of the right kind is left, with just the references that it comes with. -/
def Leaves (v : V) (h : Multiset ι) : Prop := L.fits (L.kind self) v ∧ h = L.gives v

variable {L self} {Q Q' : α → Multiset ι → Prop} {R : β → Multiset ι → Prop} {h : Multiset ι}

/-- A piece of a balanced script leaves the counts alone. -/
theorem Balanced.run {p : Script σ F V P α} {s : σ} (hp : L.Balanced self Q h p)
    (hs : ∀ i ∈ h, L.count s i ≠ 0) :
    (∀ i, L.count (p.run s).1 i = L.count s i) ∧ L.StopBalanced self Q h (p.run s).2 := by
  induction p generalizing s with
  | read k ih => exact ih s (hp s hs) hs
  | write g k ih =>
    obtain ⟨hg, hk⟩ := hp
    obtain ⟨hcount, hstop⟩ := ih hk fun i hi => by rw [hg]; exact hs i hi
    exact ⟨fun i => (hcount i).trans (hg s i), hstop⟩
  | ret | call | sleep | goto | panic => exact ⟨fun _ => rfl, hp⟩

theorem Balanced.bind {p : Script σ F V P β} {c : β → Script σ F V P α} (hp : L.Balanced self R h p)
    (hc : ∀ b h', R b h' → L.Balanced self Q h' (c b)) : L.Balanced self Q h (p >>= c) := by
  induction p generalizing h with
  | ret b => exact hc b h hp
  | read k ih => exact fun s hs => ih s (hp s hs)
  | write g k ih => exact ⟨hp.1, ih hp.2⟩
  | call f k ih => exact ⟨hp.1, fun v hv => ih v (hp.2 v hv)⟩
  | sleep k ih => exact ih hp
  | goto f => exact hp
  | panic q => trivial

theorem Balanced.mono {p : Script σ F V P α} (hp : L.Balanced self Q h p)
    (hQ : ∀ a h', Q a h' → Q' a h') : L.Balanced self Q' h p := by
  induction p generalizing h with
  | ret a => exact hQ a h hp
  | read k ih => exact fun s hs => ih s (hp s hs)
  | write g k ih => exact ⟨hp.1, ih hp.2⟩
  | call f k ih => exact ⟨hp.1, fun v hv => ih v (hp.2 v hv)⟩
  | sleep k ih => exact ih hp
  | goto f => exact hp
  | panic q => trivial

theorem Balanced.pure {a : α} (ha : Q a h) : L.Balanced self Q h (Pure.pure a : Script σ F V P α) := ha

theorem Balanced.ite {c : Prop} [Decidable c] {p q : Script σ F V P α} (hp : c → L.Balanced self Q h p)
    (hq : ¬ c → L.Balanced self Q h q) : L.Balanced self Q h (if c then p else q) := by
  split
  · exact hp ‹_›
  · exact hq ‹_›

/-- What is read of the state is not known, unless it is the count of a held object. -/
theorem Balanced.reads_bind {f : σ → β} {c : β → Script σ F V P α}
    (hc : ∀ s, (∀ i ∈ h, L.count s i ≠ 0) → L.Balanced self Q h (c (f s))) :
    L.Balanced self Q h (Script.reads f >>= c) := hc

theorem Balanced.modifies_bind {g : σ → σ} {c : PUnit → Script σ F V P α}
    (hg : ∀ s i, L.count (g s) i = L.count s i) (hc : L.Balanced self Q h (c ⟨⟩)) :
    L.Balanced self Q h (Script.modifies g >>= c) := ⟨hg, hc⟩

theorem Balanced.pause_bind {c : PUnit → Script σ F V P α} (hc : L.Balanced self Q h (c ⟨⟩)) :
    L.Balanced self Q h (Script.pause >>= c) := hc

theorem Balanced.calls_bind {f : F} {k : V → β} {c : β → Script σ F V P α} (hf : L.takes f ≤ h)
    (hc : ∀ v, L.fits (L.kind f) v → L.Balanced self Q (h - L.takes f + L.gives v) (c (k v))) :
    L.Balanced self Q h (Script.calls f k >>= c) := ⟨hf, hc⟩

/-- A loop whose rounds end with the references that they start with. -/
theorem Balanced.foldlM {γ : Type*} {l : List γ} {f : β → γ → Script σ F V P β} {b : β}
    (hf : ∀ b, ∀ x ∈ l, L.Balanced self (fun _ h' => h' = h) h (f b x)) :
    L.Balanced self (fun _ h' => h' = h) h (l.foldlM f b) := by
  induction l generalizing b with
  | nil => exact rfl
  | cons x l ih =>
    rw [List.foldlM_cons]
    refine (hf b x List.mem_cons_self).bind fun b' h' hh => ?_
    rw [hh]
    exact ih fun b y hy => hf b y (List.mem_cons_of_mem x hy)

end Loans

end Scripts
