import Linux012.Kernel.Exit.Kill
import Linux012.Kernel.Wait.Look

/-! # What waitpid keeps account of

What holds of the tasks, and what each thing that is done to one keeps: a signal, a stop, a death, a
birth, and the steps of `sys_waitpid`.
-/

namespace Linux012.Waitpid

open Function
open Ptree (Ptr Tasks)
open Signals (Word SIGKILL SIGCONT)
open Exit (Task post)

variable {s : Sys} {p₀ p₁ p t : Ptr} {status : Word} {x y : Task} {sig n nr : ℕ} {d : Death}
  {f : Death → Word} {log : List Event}

/-! ## What is done to a task -/

/-- The times of a user and of the system -/
inductive Clock
  | user
  | system

/-- What a dead task has left -/
def Clock.left : Clock → Death → Word
  | .user => Death.utime
  | .system => Death.stime

/-- What a task has been given for its children -/
def Clock.sum : Clock → Task → Word
  | .user => Task.cutime
  | .system => Task.cstime

theorem Clock.sum_congr (hcu : y.cutime = x.cutime) (hcs : y.cstime = x.cstime) (k : Clock) :
    k.sum y = k.sum x := by
  cases k with
  | user => exact hcu
  | system => exact hcs

/-- Neither the number of a task nor its sums change, it does not die or stop, and what a dead one has left
stays. -/
structure Mild (x y : Task) : Prop where
  pid : y.pid = x.pid
  sum : ∀ k : Clock, k.sum y = k.sum x
  zombie : y.state = .zombie ↔ x.state = .zombie
  left : x.state = .zombie → y.exitCode = x.exitCode ∧ y.utime = x.utime ∧ y.stime = x.stime
  stopped : y.state = .stopped → y.exitCode ≠ 0 → x.state = .stopped ∧ x.exitCode ≠ 0

theorem Mild.refl (x : Task) : Mild x x :=
  ⟨rfl, fun _ => rfl, Iff.rfl, fun _ => ⟨rfl, rfl, rfl⟩, fun h h' => ⟨h, h'⟩⟩

theorem Mild.trans {z : Task} (h : Mild x y) (h' : Mild y z) : Mild x z where
  pid := h'.pid.trans h.pid
  sum k := (h'.sum k).trans (h.sum k)
  zombie := h'.zombie.trans h.zombie
  left hz := by
    obtain ⟨hc, hu, hs⟩ := h.left hz
    obtain ⟨hc', hu', hs'⟩ := h'.left (h.zombie.mpr hz)
    exact ⟨hc'.trans hc, hu'.trans hu, hs'.trans hs⟩
  stopped hs hc := by
    obtain ⟨hs', hc'⟩ := h'.stopped hs hc
    exact h.stopped hs' hc'

theorem Mild.owes (h : Mild x y) : Owes y ↔ Owes x := by
  constructor
  · rintro ⟨hz, hc⟩
    have hzx := h.zombie.mp hz
    exact ⟨hzx, (h.left hzx).1 ▸ hc⟩
  · rintro ⟨hz, hc⟩
    exact ⟨h.zombie.mpr hz, (h.left hz).1.symm ▸ hc⟩

/-- A task that owes nothing may lose its code. -/
theorem mild_clear (h : ¬ Owes x) : Mild x { x with exitCode := 0 } where
  pid := rfl
  sum := Clock.sum_congr rfl rfl
  zombie := Iff.rfl
  left hz := by
    refine ⟨?_, rfl, rfl⟩
    by_contra hc
    exact h ⟨hz, fun h0 => hc h0.symm⟩
  stopped _ hc := absurd rfl hc

theorem mild_post (h : sig = SIGKILL ∨ sig = SIGCONT → ¬ Owes x) : Mild x (post sig x) := by
  have hdeliver : ∀ y, Mild y (Exit.deliver sig y) := by
    intro y
    unfold Exit.deliver
    split
    · exact .refl y
    · exact ⟨rfl, Clock.sum_congr rfl rfl, Iff.rfl, fun _ => ⟨rfl, rfl, rfl⟩, fun h h' => ⟨h, h'⟩⟩
  have hresume : Mild x (Exit.resume sig x) := by
    unfold Exit.resume
    split
    · rename_i hsig
      apply (mild_clear (h hsig)).trans
      constructor
      · rfl
      · exact Clock.sum_congr rfl rfl
      · dsimp only
        split
        · rename_i hst
          simp [hst]
        · rfl
      · exact fun _ => ⟨rfl, rfl, rfl⟩
      · exact fun _ hc => absurd rfl hc
    · exact .refl x
  exact hresume.trans (hdeliver _)

/-- Only signals, the mask and the group change, or the task goes to sleep or wakes up. -/
theorem mild_of_eq (hpid : y.pid = x.pid) (hcode : y.exitCode = x.exitCode) (hcu : y.cutime = x.cutime)
    (hcs : y.cstime = x.cstime) (hz : y.state = .zombie ↔ x.state = .zombie)
    (hs : y.state = .stopped → x.state = .stopped)
    (htimes : x.state = .zombie → y.utime = x.utime ∧ y.stime = x.stime) : Mild x y where
  pid := hpid
  sum := Clock.sum_congr hcu hcs
  zombie := hz
  left h := ⟨hcode, htimes h⟩
  stopped h hc := ⟨hs h, hcode ▸ hc⟩

/-! ## The accounts -/

def lastWords (x : Task) : Death := ⟨x.pid, x.exitCode, x.utime, x.stime⟩

/-- What has been added for a child that is being returned -/
def pending (f : Death → Word) : Wait → Word
  | .reaping _ d => f d
  | _ => 0

theorem pending_eq_zero {w : Wait} (h : ∀ p d, w ≠ .reaping p d) : pending f w = 0 := by
  cases w with
  | reaping p d => exact absurd rfl (h p d)
  | none => rfl
  | asleep => rfl
  | reporting => rfl

section

variable {found : Found} {ret : Option Word} {child zombie : Bool} {parent m : ℕ}

@[simp] theorem reaped_looked : reaped (.looked found ret child zombie :: log) = reaped log := rfl

@[simp] theorem reported_looked : reported (.looked found ret child zombie :: log) = reported log := rfl

@[simp] theorem total_looked : total f n (.looked found ret child zombie :: log) = total f n log := zero_add _

@[simp] theorem reaped_reaped : reaped (.reaped parent m d :: log) = m :: reaped log := rfl

@[simp] theorem reported_reaped : reported (.reaped parent m d :: log) = reported log := rfl

theorem total_reaped :
    total f n (.reaped parent m d :: log) = (if parent = n then f d else 0) + total f n log := rfl

@[simp] theorem reaped_reported : reaped (.reported parent m nr status :: log) = reaped log := rfl

@[simp] theorem reported_reported :
    reported (.reported parent m nr status :: log) = (m, nr) :: reported log := rfl

@[simp] theorem total_reported : total f n (.reported parent m nr status :: log) = total f n log := zero_add _

/-- Nothing has been given to a task that is not born. -/
theorem total_eq_zero (h : ∀ parent child d, .reaped parent child d ∈ log → parent < n) :
    total f n log = 0 := by
  induction log with
  | nil => rfl
  | cons e log ih =>
    have hrest := ih fun parent child d he => h parent child d (List.mem_cons_of_mem e he)
    cases e with
    | reaped parent child d =>
      have := h parent child d List.mem_cons_self
      rw [total_reaped, hrest, if_neg (by omega), add_zero]
    | reported => rw [total_reported, hrest]
    | looked => rw [total_looked, hrest]

end

def Child (s : Sys) (t p : Ptr) : Prop := s.links.Live p ∧ s.links.pPptr p = some t

structure Facts (s : Sys) : Prop where
  young : ∀ p, s.links.Live p → s.serial p < s.born
  inj : ∀ p q, s.links.Live p → s.links.Live q → s.serial p = s.serial q → p = q
  dead : ∀ p, s.links.Live p → (s.info p).state = .zombie → s.dead (s.serial p) = some (lastWords (s.info p))
  reaping : ∀ t p d, s.links.Live t → s.wait t = .reaping p d →
    Child s t p ∧ (s.info p).state = .zombie ∧ s.dead (s.serial p) = some d
  reporting : ∀ t p nr status, s.links.Live t → s.wait t = .reporting p nr status →
    Child s t p ∧ nr ≤ s.stops p ∧ (s.serial p, nr) ∉ reported s.log
  parents : ∀ parent child d, .reaped parent child d ∈ s.log → parent < s.born
  code : ∀ parent child d, .reaped parent child d ∈ s.log → s.dead child = some d
  looked : ∀ found ret child zombie,
    .looked found ret child zombie ∈ s.log → LookedRight found ret child zombie
  once : (reaped s.log).Nodup
  freed : ∀ p, s.links.Live p → s.serial p ∉ reaped s.log
  gone : ∀ n ∈ reaped s.log, n < s.born
  sum : ∀ p, s.links.Live p → ∀ k : Clock,
    k.sum (s.info p) = total k.left (s.serial p) s.log + pending k.left (s.wait p)
  counted : ∀ p, s.links.Live p → ∀ nr, (s.serial p, nr) ∈ reported s.log → nr ≤ s.stops p
  unreported : ∀ p, s.links.Live p → (s.info p).state = .stopped → (s.info p).exitCode ≠ 0 →
    (s.serial p, s.stops p) ∉ reported s.log
  told : ∀ x ∈ reported s.log, x.1 < s.born
  twice : (reported s.log).Nodup

namespace Facts

theorem boot (h : Boot s p₀ p₁) : Facts s := by
  have hstate : ∀ p, s.links.Live p → (s.info p).state = .running := fun p hp => (h.info p hp).1
  constructor
  · exact h.serial
  · exact h.inj
  · intro p hp hz
    rw [hstate p hp] at hz
    cases hz
  · intro t p d ht hw
    rw [h.wait t ht] at hw
    cases hw
  · intro t p nr status ht hw
    rw [h.wait t ht] at hw
    cases hw
  all_goals rw [h.log]
  · exact fun _ _ _ => nofun
  · exact fun _ _ _ => nofun
  · exact fun _ _ _ _ => nofun
  · exact List.nodup_nil
  · exact fun _ _ => nofun
  · exact fun _ => nofun
  · intro p hp k
    rw [h.wait p hp]
    cases k with
    | user => exact (h.info p hp).2.1.trans (add_zero _).symm
    | system => exact (h.info p hp).2.2.trans (add_zero _).symm
  · exact fun _ _ _ => nofun
  · intro p hp hst
    rw [hstate p hp] at hst
    cases hst
  · exact fun _ => nofun
  · exact List.nodup_nil

theorem contract (h : Facts s) : Contract s where
  code := h.code
  once := h.once
  freed := h.freed
  times p hp hw := by
    have hsum : ∀ k : Clock, k.sum (s.info p) = total k.left (s.serial p) s.log := by
      intro k
      rw [h.sum p hp k, pending_eq_zero hw, add_zero]
    exact ⟨hsum .user, hsum .system⟩
  stops := h.twice
  looked := h.looked

/-- Tasks change mildly. -/
theorem mild (h : Facts s) {info : Ptr → Task} (hinfo : ∀ p, s.links.Live p → Mild (s.info p) (info p)) :
    Facts { s with info := info } where
  young := h.young
  inj := h.inj
  dead p hp hz := by
    have hz' := (hinfo p hp).zombie.mp hz
    obtain ⟨hc, hu, hs⟩ := (hinfo p hp).left hz'
    have hlast : lastWords (info p) = lastWords (s.info p) := by
      simp only [lastWords, hc, hu, hs, (hinfo p hp).pid]
    exact (h.dead p hp hz').trans (congrArg some hlast.symm)
  reaping t p d ht hw := by
    obtain ⟨hc, hz, hd⟩ := h.reaping t p d ht hw
    exact ⟨hc, (hinfo p hc.1).zombie.mpr hz, hd⟩
  reporting := h.reporting
  parents := h.parents
  code := h.code
  looked := h.looked
  once := h.once
  freed := h.freed
  gone := h.gone
  sum p hp k := ((hinfo p hp).sum k).trans (h.sum p hp k)
  counted := h.counted
  unreported p hp hs hc := by
    obtain ⟨hs', hc'⟩ := (hinfo p hp).stopped hs hc
    exact h.unreported p hp hs' hc'
  told := h.told
  twice := h.twice

theorem setInfo (h : Facts s) (hx : Mild (s.info p) x) : Facts (s.setInfo p x) := by
  apply h.mild
  intro q _
  rcases eq_or_ne q p with rfl | hq
  · rw [update_self]
    exact hx
  · rw [update_of_ne hq]
    exact .refl _

/-- A call sleeps, or is about to report a stop. -/
theorem setWait (h : Facts s) {w : Wait} (hold : ∀ p d, s.wait t ≠ .reaping p d)
    (hnew : ∀ p d, w ≠ .reaping p d)
    (hreport : ∀ p nr status, w = .reporting p nr status →
      Child s t p ∧ nr ≤ s.stops p ∧ (s.serial p, nr) ∉ reported s.log) : Facts (s.setWait t w) := by
  have hother : ∀ u, u ≠ t → (s.setWait t w).wait u = s.wait u := fun u hu => update_of_ne hu ..
  have hself : (s.setWait t w).wait t = w := update_self ..
  have hpending : ∀ f u, pending f ((s.setWait t w).wait u) = pending f (s.wait u) := by
    intro f u
    rcases eq_or_ne u t with rfl | hu
    · rw [hself, pending_eq_zero hold, pending_eq_zero hnew]
    · rw [hother u hu]
  exact { h with
    reaping := fun u p d hu hw => by
      rcases eq_or_ne u t with rfl | hut
      · exact absurd (hself.symm.trans hw) (hnew p d)
      · exact h.reaping u p d hu ((hother u hut).symm.trans hw)
    reporting := fun u p nr status hu hw => by
      rcases eq_or_ne u t with rfl | hut
      · exact hreport p nr status (hself.symm.trans hw)
      · exact h.reporting u p nr status hu ((hother u hut).symm.trans hw)
    sum := fun p hp k => by
      rw [hpending]
      exact h.sum p hp k }

theorem leave (h : Facts s) (hold : ∀ p d, s.wait t ≠ .reaping p d) (v : Word) : Facts (s.leave t v) := by
  have hwait : Facts (s.setWait t .none) := h.setWait hold (fun p d => nofun) fun p nr status => nofun
  exact { hwait with }

theorem logLooked (h : Facts s) {found : Found} {ret : Option Word} {child zombie : Bool}
    (hr : LookedRight found ret child zombie) :
    Facts { s with log := .looked found ret child zombie :: s.log } := by
  have hmem : ∀ parent n d, .reaped parent n d ∈ .looked found ret child zombie :: s.log →
      .reaped parent n d ∈ s.log := by
    intro parent n d he
    simpa using he
  exact { h with
    parents := fun parent n d he => h.parents parent n d (hmem parent n d he)
    code := fun parent n d he => h.code parent n d (hmem parent n d he)
    looked := fun found' ret' child' zombie' he => by
      rcases List.mem_cons.mp he with heq | he
      · cases heq
        exact hr
      · exact h.looked found' ret' child' zombie' he
    sum := fun p hp k => by
      rw [total_looked]
      exact h.sum p hp k }

/-- A dead child has been found: its times are added. -/
theorem reap (h : Facts s) (hold : ∀ p d, s.wait t ≠ .reaping p d) (hc : Child s t p)
    (hz : (s.info p).state = .zombie) (htz : (s.info t).state ≠ .zombie) :
    Facts ((s.setInfo t { s.info t with
        cutime := (s.info t).cutime + (s.info p).utime
        cstime := (s.info t).cstime + (s.info p).stime }).setWait t (.reaping p (lastWords (s.info p)))) := by
  set s' := (s.setInfo t { s.info t with
    cutime := (s.info t).cutime + (s.info p).utime
    cstime := (s.info t).cstime + (s.info p).stime }).setWait t (.reaping p (lastWords (s.info p))) with hs'
  have hinfo : ∀ q, q ≠ t → s'.info q = s.info q := fun q hq => update_of_ne hq ..
  have hself : s'.info t = { s.info t with
    cutime := (s.info t).cutime + (s.info p).utime
    cstime := (s.info t).cstime + (s.info p).stime } := update_self ..
  have hwait : ∀ u, u ≠ t → s'.wait u = s.wait u := fun u hu => update_of_ne hu ..
  have hwself : s'.wait t = .reaping p (lastWords (s.info p)) := update_self ..
  have hstate : ∀ q, (s'.info q).state = (s.info q).state ∧ (s'.info q).exitCode = (s.info q).exitCode := by
    intro q
    rcases eq_or_ne q t with rfl | hq
    · rw [hself]
      exact ⟨rfl, rfl⟩
    · rw [hinfo q hq]
      exact ⟨rfl, rfl⟩
  have hdead : ∀ q, (s.info q).state = .zombie → s'.info q = s.info q :=
    fun q hq => hinfo q fun heq => htz (heq ▸ hq)
  exact { h with
    dead := fun q hq hqz => by
      rw [(hstate q).1] at hqz
      rw [hdead q hqz]
      exact h.dead q hq hqz
    reaping := fun u q d hu hw => by
      rcases eq_or_ne u t with rfl | hut
      · rw [hwself] at hw
        cases hw
        exact ⟨hc, (hstate p).1.trans hz, h.dead p hc.1 hz⟩
      · obtain ⟨hcq, hqz, hd⟩ := h.reaping u q d hu ((hwait u hut).symm.trans hw)
        exact ⟨hcq, (hstate q).1.trans hqz, hd⟩
    reporting := fun u q nr status hu hw => by
      rcases eq_or_ne u t with rfl | hut
      · rw [hwself] at hw
        cases hw
      · exact h.reporting u q nr status hu ((hwait u hut).symm.trans hw)
    sum := fun q hq k => by
      rcases eq_or_ne q t with rfl | hqt
      · have hadd : k.sum (s'.info q) = k.sum (s.info q) + k.left (lastWords (s.info p)) := by
          rw [hself]
          cases k <;> rfl
        rw [hadd, h.sum q hq k, pending_eq_zero hold, add_zero, hwself]
        rfl
      · rw [hinfo q hqt, hwait q hqt]
        exact h.sum q hq k
    unreported := fun q hq hst hcode => by
      rw [(hstate q).1] at hst
      rw [(hstate q).2] at hcode
      exact h.unreported q hq hst hcode }

/-- A dead child is released and returned. -/
theorem finishReap (h : Facts s) (ht : s.links.Live t) (hw : s.wait t = .reaping p d) {links : Tasks}
    (hlive : ∀ q, links.Live q ↔ s.links.Live q ∧ q ≠ p) (hpar : links.pPptr = s.links.pPptr) :
    Facts { s.leave t d.pid with
      links := links, log := .reaped (s.serial t) (s.serial p) d :: s.log } := by
  obtain ⟨hc, hz, hd⟩ := h.reaping t p d ht hw
  have hold : ∀ q, links.Live q → s.links.Live q := fun q hq => ((hlive q).mp hq).1
  have hwait : ∀ u, u ≠ t → (s.leave t d.pid).wait u = s.wait u := fun u hu => update_of_ne hu ..
  have hwself : (s.leave t d.pid).wait t = .none := update_self ..
  have hchild : ∀ u q, u ≠ t → Child s u q → links.Live q ∧ links.pPptr q = some u := by
    intro u q hut hcq
    rw [hpar]
    refine ⟨(hlive q).mpr ⟨hcq.1, ?_⟩, hcq.2⟩
    rintro rfl
    exact hut (Option.some.inj (hcq.2.symm.trans hc.2))
  have htimes : ∀ f q, links.Live q →
      total f (s.serial q) (.reaped (s.serial t) (s.serial p) d :: s.log) +
        pending f ((s.leave t d.pid).wait q) = total f (s.serial q) s.log + pending f (s.wait q) := by
    intro f q hq
    rw [total_reaped]
    rcases eq_or_ne q t with rfl | hqt
    · rw [if_pos rfl, hwself, hw]
      show f d + total f (s.serial q) s.log + 0 = total f (s.serial q) s.log + f d
      rw [add_zero, add_comm]
    · rw [if_neg fun heq => hqt (h.inj q t (hold q hq) ht heq.symm), zero_add, hwait q hqt]
  exact { h with
    young := fun q hq => h.young q (hold q hq)
    inj := fun q r hq hr => h.inj q r (hold q hq) (hold r hr)
    dead := fun q hq => h.dead q (hold q hq)
    reaping := fun u q d' hu huw => by
      have hut : u ≠ t := by
        rintro rfl
        rw [show _ = Wait.none from hwself] at huw
        cases huw
      obtain ⟨hcq, hqz, hqd⟩ := h.reaping u q d' (hold u hu) ((hwait u hut).symm.trans huw)
      exact ⟨hchild u q hut hcq, hqz, hqd⟩
    reporting := fun u q nr status hu huw => by
      have hut : u ≠ t := by
        rintro rfl
        rw [show _ = Wait.none from hwself] at huw
        cases huw
      obtain ⟨hcq, hle, hno⟩ := h.reporting u q nr status (hold u hu) ((hwait u hut).symm.trans huw)
      exact ⟨hchild u q hut hcq, hle, hno⟩
    parents := fun parent child d' he => by
      rcases List.mem_cons.mp he with heq | he
      · cases heq
        exact h.young t ht
      · exact h.parents parent child d' he
    code := fun parent child d' he => by
      rcases List.mem_cons.mp he with heq | he
      · cases heq
        exact hd
      · exact h.code parent child d' he
    looked := fun found ret child zombie he => by
      rcases List.mem_cons.mp he with heq | he
      · cases heq
      · exact h.looked found ret child zombie he
    once := List.nodup_cons.mpr ⟨h.freed p hc.1, h.once⟩
    freed := fun q hq hmem => by
      rcases List.mem_cons.mp hmem with heq | hmem
      · exact ((hlive q).mp hq).2 (h.inj q p (hold q hq) hc.1 heq)
      · exact h.freed q (hold q hq) hmem
    gone := fun n hn => by
      rcases List.mem_cons.mp hn with rfl | hn
      · exact h.young p hc.1
      · exact h.gone n hn
    sum := fun q hq k => (h.sum q (hold q hq) k).trans (htimes k.left q hq).symm
    counted := fun q hq => h.counted q (hold q hq)
    unreported := fun q hq => h.unreported q (hold q hq) }

/-- A stop is reported and cleared. -/
theorem finishReport (h : Facts s) (ht : s.links.Live t) (hw : s.wait t = .reporting p nr status)
    (ho : ¬ Owes (s.info p)) (v : Word) :
    Facts { (s.setInfo p { s.info p with exitCode := 0 }).leave t v with
      log := .reported (s.serial t) (s.serial p) nr status :: s.log } := by
  obtain ⟨hc, hle, hno⟩ := h.reporting t p nr status ht hw
  have hold : ∀ q d, (s.setInfo p { s.info p with exitCode := 0 }).wait t ≠ .reaping q d := by
    intro q d hq
    rw [show (s.setInfo p { s.info p with exitCode := 0 }).wait t = _ from hw] at hq
    cases hq
  have h' := (h.setInfo (mild_clear ho)).leave hold v
  have hwself : ((s.setInfo p { s.info p with exitCode := 0 }).leave t v).wait t = .none := update_self ..
  have hfresh : ∀ q, s.links.Live q → ∀ k, (s.serial q, k) ∉ reported s.log → (q ≠ p ∨ k ≠ nr) →
      (s.serial q, k) ∉ (s.serial p, nr) :: reported s.log := by
    intro q hq k hk hne hmem
    rcases List.mem_cons.mp hmem with heq | hmem
    · obtain ⟨hqp, rfl⟩ := Prod.mk.inj heq
      exact hne.elim (fun hqp' => hqp' (h.inj q p hq hc.1 hqp)) (absurd rfl)
    · exact hk hmem
  exact { h' with
    reporting := fun u q k status' hu huw => by
      obtain ⟨hcq, hleq, hnoq⟩ := h'.reporting u q k status' hu huw
      refine ⟨hcq, hleq, hfresh q hcq.1 k hnoq (.inl ?_)⟩
      rintro rfl
      obtain rfl : u = t := Option.some.inj (hcq.2.symm.trans hc.2)
      rw [show _ = Wait.none from hwself] at huw
      cases huw
    parents := fun parent child d he => by
      rcases List.mem_cons.mp he with heq | he
      · cases heq
      · exact h.parents parent child d he
    code := fun parent child d he => by
      rcases List.mem_cons.mp he with heq | he
      · cases heq
      · exact h.code parent child d he
    looked := fun found ret child zombie he => by
      rcases List.mem_cons.mp he with heq | he
      · cases heq
      · exact h.looked found ret child zombie he
    sum := fun q hq k => by
      rw [total_reported]
      exact h'.sum q hq k
    counted := fun q hq k hk => by
      rcases List.mem_cons.mp hk with heq | hk
      · obtain ⟨hqp, rfl⟩ := Prod.mk.inj heq
        obtain rfl := h.inj q p hq hc.1 hqp
        exact hle
      · exact h.counted q hq k hk
    unreported := fun q hq hst hcode => by
      have hqp : q ≠ p := by
        rintro rfl
        have hzero : (s.setInfo q { s.info q with exitCode := 0 }).info q = { s.info q with exitCode := 0 } :=
          update_self ..
        exact hcode (congrArg Task.exitCode hzero)
      exact hfresh q hq _ (h'.unreported q hq hst hcode) (.inl hqp)
    told := fun x hx => by
      rcases List.mem_cons.mp hx with rfl | hx
      · exact h.young p hc.1
      · exact h.told x hx
    twice := List.nodup_cons.mpr ⟨hno, h.twice⟩ }

/-- The links change, but the children of a task that waits stay. -/
theorem relink (h : Facts s) {links : Tasks} (hlive : ∀ q, links.Live q → s.links.Live q)
    (hchild : ∀ u q, links.Live u → s.wait u ≠ .none → Child s u q → links.Live q ∧ links.pPptr q = some u) :
    Facts { s with links := links } := { h with
  young := fun q hq => h.young q (hlive q hq)
  inj := fun q r hq hr => h.inj q r (hlive q hq) (hlive r hr)
  dead := fun q hq => h.dead q (hlive q hq)
  reaping := fun u q d hu hw => by
    obtain ⟨hc, hz, hd⟩ := h.reaping u q d (hlive u hu) hw
    exact ⟨hchild u q hu (by rw [hw]; simp) hc, hz, hd⟩
  reporting := fun u q nr status hu hw => by
    obtain ⟨hc, hle, hno⟩ := h.reporting u q nr status (hlive u hu) hw
    exact ⟨hchild u q hu (by rw [hw]; simp) hc, hle, hno⟩
  freed := fun q hq => h.freed q (hlive q hq)
  sum := fun q hq => h.sum q (hlive q hq)
  counted := fun q hq => h.counted q (hlive q hq)
  unreported := fun q hq => h.unreported q (hlive q hq) }

/-- A task dies. -/
theorem die (h : Facts s) (ht : s.links.Live t) (htz : (s.info t).state ≠ .zombie) (code : Word) :
    Facts { s.setInfo t { s.info t with state := .zombie, exitCode := code } with
      dead := update s.dead (s.serial t)
        (some ⟨(s.info t).pid, code, (s.info t).utime, (s.info t).stime⟩) } := by
  set s' : Sys := { s.setInfo t { s.info t with state := .zombie, exitCode := code } with
    dead := update s.dead (s.serial t) (some ⟨(s.info t).pid, code, (s.info t).utime, (s.info t).stime⟩) }
  have hinfo : ∀ q, q ≠ t → s'.info q = s.info q := fun q hq => update_of_ne hq ..
  have hself : s'.info t = { s.info t with state := .zombie, exitCode := code } := update_self ..
  have hsum : ∀ k : Clock, k.sum (s'.info t) = k.sum (s.info t) := by
    rw [hself]
    exact Clock.sum_congr rfl rfl
  have hdead : ∀ n, n ≠ s.serial t → s'.dead n = s.dead n := fun n hn => update_of_ne hn ..
  have hdself : s'.dead (s.serial t) = some (lastWords (s'.info t)) := by
    rw [hself]
    exact update_self ..
  exact { h with
    dead := fun q hq hqz => by
      rcases eq_or_ne q t with rfl | hqt
      · exact hdself
      · rw [hinfo q hqt] at hqz ⊢
        exact (hdead _ fun heq => hqt (h.inj q t hq ht heq)).trans (h.dead q hq hqz)
    reaping := fun u q d hu hw => by
      obtain ⟨hc, hz, hd⟩ := h.reaping u q d hu hw
      have hqt : q ≠ t := fun heq => htz (heq ▸ hz)
      rw [hinfo q hqt]
      exact ⟨hc, hz, (hdead _ fun heq => hqt (h.inj q t hc.1 ht heq)).trans hd⟩
    code := fun parent child d he => by
      have hne : child ≠ s.serial t := by
        rintro rfl
        exact h.freed t ht (List.mem_filterMap.mpr ⟨_, he, rfl⟩)
      exact (hdead child hne).trans (h.code parent child d he)
    sum := fun q hq k => by
      rcases eq_or_ne q t with rfl | hqt
      · rw [hsum]
        exact h.sum q hq k
      · rw [hinfo q hqt]
        exact h.sum q hq k
    unreported := fun q hq hst hcode => by
      rcases eq_or_ne q t with rfl | hqt
      · rw [hself] at hst
        cases hst
      · rw [hinfo q hqt] at hst hcode
        exact h.unreported q hq hst hcode }

/-- A task stops. -/
theorem stop (h : Facts s) (ht : s.links.Live t) (htz : (s.info t).state ≠ .zombie) (code : Word) :
    Facts { s.setInfo t { s.info t with state := .stopped, exitCode := code } with
      stops := update s.stops t (s.stops t + 1) } := by
  set s' : Sys := { s.setInfo t { s.info t with state := .stopped, exitCode := code } with
    stops := update s.stops t (s.stops t + 1) }
  have hinfo : ∀ q, q ≠ t → s'.info q = s.info q := fun q hq => update_of_ne hq ..
  have hself : s'.info t = { s.info t with state := .stopped, exitCode := code } := update_self ..
  have hsum : ∀ k : Clock, k.sum (s'.info t) = k.sum (s.info t) := by
    rw [hself]
    exact Clock.sum_congr rfl rfl
  have hstops : ∀ q, q ≠ t → s'.stops q = s.stops q := fun q hq => update_of_ne hq ..
  have hsself : s'.stops t = s.stops t + 1 := update_self ..
  have hle : ∀ q, s.stops q ≤ s'.stops q := by
    intro q
    rcases eq_or_ne q t with rfl | hqt
    · omega
    · rw [hstops q hqt]
  exact { h with
    dead := fun q hq hqz => by
      rcases eq_or_ne q t with rfl | hqt
      · rw [hself] at hqz
        cases hqz
      · rw [hinfo q hqt] at hqz ⊢
        exact h.dead q hq hqz
    reaping := fun u q d hu hw => by
      obtain ⟨hc, hz, hd⟩ := h.reaping u q d hu hw
      have hqt : q ≠ t := fun heq => htz (heq ▸ hz)
      rw [hinfo q hqt]
      exact ⟨hc, hz, hd⟩
    reporting := fun u q nr status hu hw => by
      obtain ⟨hc, hnr, hno⟩ := h.reporting u q nr status hu hw
      exact ⟨hc, hnr.trans (hle q), hno⟩
    sum := fun q hq k => by
      rcases eq_or_ne q t with rfl | hqt
      · rw [hsum]
        exact h.sum q hq k
      · rw [hinfo q hqt]
        exact h.sum q hq k
    counted := fun q hq k hk => (h.counted q hq k hk).trans (hle q)
    unreported := fun q hq hst hcode => by
      rcases eq_or_ne q t with rfl | hqt
      · rw [hsself]
        intro hmem
        have := h.counted q hq _ hmem
        omega
      · rw [hinfo q hqt] at hst hcode
        rw [hstops q hqt]
        exact h.unreported q hq hst hcode }

/-- A task is born at the address `p`. -/
theorem fork (h : Facts s) (hp : ¬ s.links.Live p) {links : Tasks} {x : Task} (hx : x.state = .running)
    (hx0 : ∀ k : Clock, k.sum x = 0) (hlive : ∀ q, links.Live q → q ≠ p → s.links.Live q)
    (hold : ∀ q, s.links.Live q → links.Live q) (hpar : ∀ q, q ≠ p → links.pPptr q = s.links.pPptr q) :
    Facts { s.setInfo p x with
      links := links
      wait := update s.wait p .none
      born := s.born + 1
      serial := update s.serial p s.born
      stops := update s.stops p 0 } := by
  set s' : Sys := { s.setInfo p x with
    links := links
    wait := update s.wait p .none
    born := s.born + 1
    serial := update s.serial p s.born
    stops := update s.stops p 0 }
  have hother : ∀ q, q ≠ p → s'.info q = s.info q ∧ s'.wait q = s.wait q ∧ s'.serial q = s.serial q ∧
      s'.stops q = s.stops q :=
    fun q hq => ⟨update_of_ne hq .., update_of_ne hq .., update_of_ne hq .., update_of_ne hq ..⟩
  have hinfo : s'.info p = x := update_self ..
  have hwait : s'.wait p = .none := update_self ..
  have hserial : s'.serial p = s.born := update_self ..
  have hchild : ∀ u q, Child s u q → q ≠ p ∧ Child s' u q := by
    intro u q hc
    have hqp : q ≠ p := fun heq => hp (heq ▸ hc.1)
    exact ⟨hqp, hold q hc.1, (hpar q hqp).trans hc.2⟩
  exact { h with
    young := fun q hq => by
      rcases eq_or_ne q p with rfl | hqp
      · rw [hserial]
        exact Nat.lt_succ_self _
      · rw [(hother q hqp).2.2.1]
        exact (h.young q (hlive q hq hqp)).trans (Nat.lt_succ_self _)
    inj := fun q r hq hr heq => by
      rcases eq_or_ne q p with rfl | hqp
      · by_contra hrq
        rw [hserial, (hother r (Ne.symm hrq)).2.2.1] at heq
        have := h.young r (hlive r hr (Ne.symm hrq))
        omega
      · rw [(hother q hqp).2.2.1] at heq
        rcases eq_or_ne r p with rfl | hrp
        · rw [hserial] at heq
          have := h.young q (hlive q hq hqp)
          omega
        · rw [(hother r hrp).2.2.1] at heq
          exact h.inj q r (hlive q hq hqp) (hlive r hr hrp) heq
    dead := fun q hq hqz => by
      rcases eq_or_ne q p with rfl | hqp
      · rw [hinfo, hx] at hqz
        cases hqz
      · rw [(hother q hqp).1] at hqz ⊢
        rw [(hother q hqp).2.2.1]
        exact h.dead q (hlive q hq hqp) hqz
    reaping := fun u q d hu hw => by
      have hup : u ≠ p := by
        rintro rfl
        rw [hwait] at hw
        cases hw
      rw [(hother u hup).2.1] at hw
      obtain ⟨hc, hz, hd⟩ := h.reaping u q d (hlive u hu hup) hw
      obtain ⟨hqp, hc'⟩ := hchild u q hc
      rw [(hother q hqp).1, (hother q hqp).2.2.1]
      exact ⟨hc', hz, hd⟩
    reporting := fun u q nr status hu hw => by
      have hup : u ≠ p := by
        rintro rfl
        rw [hwait] at hw
        cases hw
      rw [(hother u hup).2.1] at hw
      obtain ⟨hc, hle, hno⟩ := h.reporting u q nr status (hlive u hu hup) hw
      obtain ⟨hqp, hc'⟩ := hchild u q hc
      rw [(hother q hqp).2.2.1, (hother q hqp).2.2.2]
      exact ⟨hc', hle, hno⟩
    parents := fun parent child d he => (h.parents parent child d he).trans (Nat.lt_succ_self _)
    freed := fun q hq => by
      rcases eq_or_ne q p with rfl | hqp
      · rw [hserial]
        exact fun hmem => lt_irrefl _ (h.gone _ hmem)
      · rw [(hother q hqp).2.2.1]
        exact h.freed q (hlive q hq hqp)
    gone := fun n hn => (h.gone n hn).trans (Nat.lt_succ_self _)
    sum := fun q hq k => by
      rcases eq_or_ne q p with rfl | hqp
      · rw [hinfo, hx0, hserial, hwait]
        show _ = total _ s.born s.log + 0
        rw [total_eq_zero h.parents, add_zero]
      · rw [(hother q hqp).1, (hother q hqp).2.1, (hother q hqp).2.2.1]
        exact h.sum q (hlive q hq hqp) k
    counted := fun q hq k hk => by
      rcases eq_or_ne q p with rfl | hqp
      · rw [hserial] at hk
        exact absurd (h.told _ hk) (lt_irrefl _)
      · rw [(hother q hqp).2.2.1] at hk
        rw [(hother q hqp).2.2.2]
        exact h.counted q (hlive q hq hqp) k hk
    unreported := fun q hq hst hcode => by
      rcases eq_or_ne q p with rfl | hqp
      · rw [hinfo, hx] at hst
        cases hst
      · rw [(hother q hqp).1] at hst hcode
        rw [(hother q hqp).2.2.1, (hother q hqp).2.2.2]
        exact h.unreported q (hlive q hq hqp) hst hcode
    told := fun y hy => (h.told y hy).trans (Nat.lt_succ_self _) }

end Facts

end Linux012.Waitpid
