import Mathlib.Data.BitVec
import Mathlib.Data.Prod.Lex
import Mathlib.Tactic

/-! # The time at the start

`kernel_mktime` turns the date of the real-time clock into the seconds since 1970. Leap years come in by two
roundings of the number of the year, which is right from 1970 up to 2099, as 2000 is a leap year.
-/

namespace Linux012.Mktime

abbrev Word := BitVec 32

def MINUTE : Word := 60
def HOUR : Word := 60 * MINUTE
def DAY : Word := 24 * HOUR
def YEAR : Word := 365 * DAY

/-- The start of each month in a leap year -/
def month : List Word :=
  [0, DAY * 31, DAY * (31 + 29), DAY * (31 + 29 + 31), DAY * (31 + 29 + 31 + 30), DAY * (31 + 29 + 31 + 30 + 31),
    DAY * (31 + 29 + 31 + 30 + 31 + 30), DAY * (31 + 29 + 31 + 30 + 31 + 30 + 31),
    DAY * (31 + 29 + 31 + 30 + 31 + 30 + 31 + 31), DAY * (31 + 29 + 31 + 30 + 31 + 30 + 31 + 31 + 30),
    DAY * (31 + 29 + 31 + 30 + 31 + 30 + 31 + 31 + 30 + 31),
    DAY * (31 + 29 + 31 + 30 + 31 + 30 + 31 + 31 + 30 + 31 + 30)]

structure Tm where
  sec : Word
  min : Word
  hour : Word
  mday : Word
  mon : Word
  year : Word
  deriving DecidableEq

/-- The seconds, and `*tm` with the year that is counted from 1900 -/
def kernelMktime (tm : Tm) : Word × Tm :=
  let tm := if tm.year.slt 70 then { tm with year := tm.year + 100 } else tm
  let year := tm.year - 70
  let res := YEAR * year + DAY * (year + 1).sdiv 4
  let res := res + month.getD tm.mon.toNat 0
  let res := if BitVec.slt 1 tm.mon ∧ (year + 2).srem 4 ≠ 0 then res - DAY else res
  let res := res + DAY * (tm.mday - 1)
  let res := res + HOUR * tm.hour
  let res := res + MINUTE * tm.min
  (res + tm.sec, tm)

/-! ## The calendar -/

/-- Months are counted from 0, as in `struct tm`. -/
structure Date where
  year : ℕ
  month : ℕ
  day : ℕ
  deriving DecidableEq

def leap (year : ℕ) : Prop := year % 4 = 0 ∧ (year % 100 ≠ 0 ∨ year % 400 = 0)

instance (year : ℕ) : Decidable (leap year) := inferInstanceAs (Decidable (_ ∧ _))

def monthDays (year : ℕ) : ℕ → ℕ
  | 1 => if leap year then 29 else 28
  | 3 | 5 | 8 | 10 => 30
  | _ => 31

namespace Date

def epoch : Date := ⟨1970, 0, 1⟩

/-- The day after -/
def next (d : Date) : Date :=
  if d.day < monthDays d.year d.month then { d with day := d.day + 1 }
  else if d.month < 11 then ⟨d.year, d.month + 1, 1⟩
  else ⟨d.year + 1, 0, 1⟩

structure Valid (d : Date) : Prop where
  month : d.month < 12
  pos : 1 ≤ d.day
  day : d.day ≤ monthDays d.year d.month

def key (d : Date) : ℕ ×ₗ ℕ ×ₗ ℕ := toLex (d.year, toLex (d.month, d.day))

/-- The date is `n` days after the start of 1970. -/
def IsDay (n : ℕ) (d : Date) : Prop := next^[n] epoch = d

end Date

/-- A date and a time of the day -/
structure Moment where
  date : Date
  hour : ℕ
  min : ℕ
  sec : ℕ
  deriving DecidableEq

namespace Moment

/-- The moments that a year of two digits stands for -/
structure Valid (m : Moment) : Prop where
  date : m.date.Valid
  first : 1970 ≤ m.date.year
  last : m.date.year ≤ 2069
  hour : m.hour < 24
  min : m.min < 60
  sec : m.sec < 60

def key (m : Moment) : (ℕ ×ₗ ℕ ×ₗ ℕ) ×ₗ ℕ ×ₗ ℕ ×ₗ ℕ :=
  toLex (m.date.key, toLex (m.hour, toLex (m.min, m.sec)))

def tm (m : Moment) : Tm where
  sec := BitVec.ofNat 32 m.sec
  min := BitVec.ofNat 32 m.min
  hour := BitVec.ofNat 32 m.hour
  mday := BitVec.ofNat 32 m.date.day
  mon := BitVec.ofNat 32 m.date.month
  year := BitVec.ofNat 32 (m.date.year % 100)

end Moment

variable {d d' : Date} {m m' : Moment} {n n' : ℕ}

namespace Date

/-! ## The days one after another -/

theorem monthDays_pos (year month : ℕ) : 28 ≤ monthDays year month := by
  unfold monthDays
  split
  · split <;> omega
  · omega
  · omega
  · omega
  · omega
  · omega

theorem next_lt (d : Date) : d.key < d.next.key := by
  unfold next key
  simp only [Prod.Lex.toLex_lt_toLex]
  split
  · exact .inr ⟨rfl, .inr ⟨rfl, Nat.lt_succ_self _⟩⟩
  · split
    · exact .inr ⟨rfl, .inl (Nat.lt_succ_self _)⟩
    · exact .inl (Nat.lt_succ_self _)

theorem Valid.next (h : d.Valid) : d.next.Valid := by
  unfold Date.next
  split
  · exact ⟨h.month, Nat.succ_pos _, by assumption⟩
  · split
    · have := monthDays_pos d.year (d.month + 1)
      exact ⟨by dsimp only; omega, le_rfl, by dsimp only; omega⟩
    · have := monthDays_pos (d.year + 1) 0
      exact ⟨Nat.succ_pos _, le_rfl, by dsimp only; omega⟩

theorem valid_epoch : epoch.Valid := ⟨by decide, by decide, by decide⟩

theorem IsDay.valid (h : IsDay n d) : d.Valid := by
  induction n generalizing d with
  | zero =>
    obtain rfl : epoch = d := h
    exact valid_epoch
  | succ n ih =>
    rw [IsDay, Function.iterate_succ_apply'] at h
    rw [← h]
    exact (ih rfl).next

theorem iterate_strictMono : StrictMono fun n => (next^[n] epoch).key := by
  apply strictMono_nat_of_lt_succ
  intro n
  rw [Function.iterate_succ_apply']
  exact next_lt _

theorem IsDay.lt_iff (h : IsDay n d) (h' : IsDay n' d') : n < n' ↔ d.key < d'.key := by
  rw [← h, ← h']
  exact iterate_strictMono.lt_iff_lt.symm

theorem IsDay.unique (h : IsDay n d) (h' : IsDay n' d) : n = n' := by
  rcases lt_trichotomy n n' with hlt | heq | hlt
  · exact absurd ((h.lt_iff h').mp hlt) (lt_irrefl _)
  · exact heq
  · exact absurd ((h'.lt_iff h).mp hlt) (lt_irrefl _)

/-! ## Every date has its number -/

theorem IsDay.next (h : IsDay n d) : IsDay (n + 1) d.next := by
  rw [IsDay, Function.iterate_succ_apply', h]

theorem exists_day {year month day : ℕ} (h : ∃ n, IsDay n ⟨year, month, 1⟩) (hpos : 1 ≤ day)
    (hday : day ≤ monthDays year month) : ∃ n, IsDay n ⟨year, month, day⟩ := by
  induction day, hpos using Nat.le_induction with
  | base => exact h
  | succ day hpos ih =>
    obtain ⟨n, hn⟩ := ih (by omega)
    refine ⟨n + 1, ?_⟩
    have := hn.next
    rwa [Date.next, if_pos (show day < monthDays year month by omega)] at this

theorem exists_month {year month : ℕ} (h : ∃ n, IsDay n ⟨year, 0, 1⟩) (hmonth : month < 12) :
    ∃ n, IsDay n ⟨year, month, 1⟩ := by
  induction month with
  | zero => exact h
  | succ month ih =>
    have hpos := monthDays_pos year month
    obtain ⟨n, hn⟩ := exists_day (ih (by omega)) (by omega) le_rfl
    refine ⟨n + 1, ?_⟩
    have := hn.next
    rwa [Date.next, if_neg (lt_irrefl _), if_pos (show month < 11 by omega)] at this

theorem exists_year {year : ℕ} (h : 1970 ≤ year) : ∃ n, IsDay n ⟨year, 0, 1⟩ := by
  induction year, h using Nat.le_induction with
  | base => exact ⟨0, rfl⟩
  | succ year _ ih =>
    have hpos := monthDays_pos year 11
    obtain ⟨n, hn⟩ := exists_day (exists_month ih (by decide : 11 < 12)) (by omega) le_rfl
    refine ⟨n + 1, ?_⟩
    have := hn.next
    rwa [Date.next, if_neg (lt_irrefl _), if_neg (lt_irrefl 11)] at this

theorem Valid.exists_isDay (h : d.Valid) (hy : 1970 ≤ d.year) : ∃ n, IsDay n d :=
  exists_day (exists_month (exists_year hy) h.month) h.pos h.day

/-! ## The number of a date -/

/-- The start of each month in a leap year, in days -/
def start : ℕ → ℕ
  | 0 => 0
  | 1 => 31
  | 2 => 60
  | 3 => 91
  | 4 => 121
  | 5 => 152
  | 6 => 182
  | 7 => 213
  | 8 => 244
  | 9 => 274
  | 10 => 305
  | _ => 335

/-- The day that a year without a leap day has less before the month -/
def missing (year month : ℕ) : ℕ := if 1 < month ∧ year % 4 ≠ 2 then 1 else 0

/-- The days before the date, with the year counted from 1970 -/
def number (year month day : ℕ) : ℕ := 365 * year + (year + 1) / 4 + start month - missing year month + (day - 1)

theorem leap_iff {y : ℕ} (h : y ≤ 129) : leap (1970 + y) ↔ y % 4 = 2 := by
  unfold leap
  omega

theorem missing_le (year month : ℕ) : missing year month ≤ start month := by
  unfold missing
  split_ifs with h
  · obtain ⟨hm, -⟩ := h
    unfold start
    split <;> omega
  · exact Nat.zero_le _

/-- The days of a month are those up to the next one. -/
theorem start_succ {year month : ℕ} (hy : year ≤ 129) (hm : month < 11) :
    start (month + 1) + missing year month =
      start month + monthDays (1970 + year) month + missing year (month + 1) := by
  have hleap := leap_iff hy
  unfold missing monthDays
  interval_cases month <;> simp only [start, hleap] <;> split_ifs <;> omega

theorem number_next {y : ℕ} (hd : d.Valid) (hy : d.year = 1970 + y) (hle : y ≤ 129) :
    number (d.next.year - 1970) d.next.month d.next.day = number y d.month d.day + 1 := by
  obtain ⟨year, month, day⟩ := d
  obtain ⟨hmonth, hpos, hday⟩ := hd
  dsimp only at hmonth hpos hday hy ⊢
  subst hy
  have hmiss := missing_le y month
  unfold Date.next
  dsimp only
  split
  · dsimp only
    rw [Nat.add_sub_cancel_left]
    unfold number
    omega
  · split
    · rename_i hlast hm
      have hstart := start_succ hle hm
      have hmiss' := missing_le y (month + 1)
      dsimp only
      rw [Nat.add_sub_cancel_left]
      unfold number
      omega
    · rename_i hlast hm
      obtain rfl : month = 11 := by omega
      have hdays : day = 31 := by
        have : monthDays (1970 + y) 11 = 31 := rfl
        omega
      dsimp only
      rw [show 1970 + y + 1 - 1970 = y + 1 by omega, hdays]
      simp only [number, missing, start]
      split_ifs <;> omega

theorem IsDay.first (h : IsDay n d) : 1970 ≤ d.year := by
  induction n generalizing d with
  | zero =>
    obtain rfl : epoch = d := h
    exact le_rfl
  | succ n ih =>
    rw [IsDay, Function.iterate_succ_apply'] at h
    have hfirst := ih rfl
    rw [← h, Date.next]
    split
    · exact hfirst
    · split
      · exact hfirst
      · exact Nat.le_succ_of_le hfirst

theorem year_le_next (d : Date) : d.year ≤ d.next.year := by
  unfold Date.next
  split
  · exact le_rfl
  · split
    · exact le_rfl
    · exact Nat.le_succ _

theorem IsDay.number_eq (h : IsDay n d) (hy : d.year ≤ 2099) :
    n = number (d.year - 1970) d.month d.day := by
  induction n generalizing d with
  | zero =>
    obtain rfl : epoch = d := h
    rfl
  | succ n ih =>
    have hprev : IsDay n (Date.next^[n] epoch) := rfl
    rw [IsDay, Function.iterate_succ_apply'] at h
    subst h
    have hle := (year_le_next (Date.next^[n] epoch)).trans hy
    have hfirst := hprev.first
    rw [number_next hprev.valid (y := (Date.next^[n] epoch).year - 1970) (by omega) (by omega), ← ih hprev hle]

end Date

/-! ## The seconds -/

section

variable {y : ℕ}

/-- A year of two digits, counted from 1970 -/
theorem two_digits {w : Word} (hy : y ≤ 99) (hw : w = BitVec.ofNat 32 ((1970 + y) % 100)) :
    (if w.slt 70 then w + 100 else w) - 70 = BitVec.ofNat 32 y := by
  subst hw
  interval_cases y <;> rfl

theorem leap_days (hy : y ≤ 99) : (BitVec.ofNat 32 y + 1 : Word).sdiv 4 = BitVec.ofNat 32 ((y + 1) / 4) := by
  interval_cases y <;> rfl

theorem adjusted_iff (hy : y ≤ 99) : (BitVec.ofNat 32 y + 2 : Word).srem 4 ≠ 0 ↔ y % 4 ≠ 2 := by
  interval_cases y <;> decide

theorem after_february {k : ℕ} (hk : k < 12) : BitVec.slt 1 (BitVec.ofNat 32 k : Word) = true ↔ 1 < k := by
  interval_cases k <;> decide

theorem month_start {k : ℕ} (hk : k < 12) :
    month.getD (BitVec.ofNat 32 k : Word).toNat 0 = BitVec.ofNat 32 (86400 * Date.start k) := by
  interval_cases k <;> rfl

/-- A leap year is assumed, and the day that is not there taken away again. -/
theorem months_seconds {k : ℕ} (hy : y ≤ 99) (hk : k < 12) (base : ℕ) :
    (if BitVec.slt 1 (BitVec.ofNat 32 k : Word) ∧ (BitVec.ofNat 32 y + 2 : Word).srem 4 ≠ 0 then
        BitVec.ofNat 32 (base + 86400 * Date.start k) - DAY
      else BitVec.ofNat 32 (base + 86400 * Date.start k)) =
      BitVec.ofNat 32 (base + 86400 * (Date.start k - Date.missing y k)) := by
  have hmiss := Date.missing_le y k
  rw [if_congr (and_congr (after_february hk) (adjusted_iff hy)) rfl rfl]
  unfold Date.missing at hmiss ⊢
  split_ifs at hmiss ⊢ with h
  · have hbase : base + 86400 * Date.start k = base + 86400 * (Date.start k - 1) + 86400 := by omega
    rw [hbase, BitVec.ofNat_add _ 86400]
    exact BitVec.add_sub_cancel _ _
  · rfl

end

/-- The fields beside the year stay as they are. -/
theorem kernelMktime_fst (tm : Tm) : (kernelMktime tm).1 =
    let year := (if tm.year.slt 70 then tm.year + 100 else tm.year) - 70
    let res := YEAR * year + DAY * (year + 1).sdiv 4 + month.getD tm.mon.toNat 0
    (if BitVec.slt 1 tm.mon ∧ (year + 2).srem 4 ≠ 0 then res - DAY else res) + DAY * (tm.mday - 1) +
      HOUR * tm.hour + MINUTE * tm.min + tm.sec := by
  unfold kernelMktime
  by_cases h : tm.year.slt 70
  · simp only [if_pos h]
  · simp only [if_neg h]

theorem monthDays_le (year month : ℕ) : monthDays year month ≤ 31 := by
  unfold monthDays
  split
  · split <;> omega
  all_goals omega

theorem Moment.Valid.seconds (h : m.Valid) : (kernelMktime m.tm).1.toNat =
    Date.number (m.date.year - 1970) m.date.month m.date.day * 86400 + m.hour * 3600 + m.min * 60 + m.sec := by
  obtain ⟨⟨year, month, day⟩, hour, min, sec⟩ := m
  obtain ⟨⟨hmonth, hpos, hday⟩, hfirst, hlast, hhour, hmin, hsec⟩ := h
  dsimp only at *
  obtain ⟨y, rfl⟩ := Nat.exists_eq_add_of_le hfirst
  have hy : y ≤ 99 := by omega
  have hday' := hday.trans (monthDays_le _ _)
  have hmiss := Date.missing_le y month
  have hstart : Date.start month ≤ 335 := by
    unfold Date.start
    split <;> omega
  have hyears : YEAR * BitVec.ofNat 32 y + DAY * BitVec.ofNat 32 ((y + 1) / 4) +
      BitVec.ofNat 32 (86400 * Date.start month) =
        BitVec.ofNat 32 (86400 * (365 * y + (y + 1) / 4) + 86400 * Date.start month) := by
    rw [show YEAR = BitVec.ofNat 32 31536000 from rfl, show DAY = BitVec.ofNat 32 86400 from rfl,
      ← BitVec.ofNat_mul, ← BitVec.ofNat_mul, ← BitVec.ofNat_add, ← BitVec.ofNat_add]
    congr 1
    omega
  have hdays : DAY * (BitVec.ofNat 32 day - 1) = BitVec.ofNat 32 (86400 * (day - 1)) := by
    interval_cases day <;> rfl
  have hhours : HOUR * BitVec.ofNat 32 hour = BitVec.ofNat 32 (3600 * hour) := by
    rw [show HOUR = BitVec.ofNat 32 3600 from rfl, ← BitVec.ofNat_mul]
  have hmins : MINUTE * BitVec.ofNat 32 min = BitVec.ofNat 32 (60 * min) := by
    rw [show MINUTE = BitVec.ofNat 32 60 from rfl, ← BitVec.ofNat_mul]
  set tm := Moment.tm ⟨⟨1970 + y, month, day⟩, hour, min, sec⟩
  have hyear : (if tm.year.slt 70 then tm.year + 100 else tm.year) - 70 = BitVec.ofNat 32 y := two_digits hy rfl
  have hmon : tm.mon = BitVec.ofNat 32 month := rfl
  have hrest : tm.mday = BitVec.ofNat 32 day ∧ tm.hour = BitVec.ofNat 32 hour ∧ tm.min = BitVec.ofNat 32 min ∧
      tm.sec = BitVec.ofNat 32 sec := ⟨rfl, rfl, rfl, rfl⟩
  obtain ⟨hmday, hhour', hmin', hsec'⟩ := hrest
  rw [kernelMktime_fst]
  dsimp only
  rw [hyear, hmon, hmday, hhour', hmin', hsec', leap_days hy, month_start hmonth, hyears,
    months_seconds hy hmonth, hdays, hhours, hmins, ← BitVec.ofNat_add, ← BitVec.ofNat_add,
    ← BitVec.ofNat_add, ← BitVec.ofNat_add, BitVec.toNat_ofNat, Nat.add_sub_cancel_left]
  unfold Date.number
  omega

/-- The seconds are those of the days since 1970 and of the time of the day. -/
theorem Moment.Valid.seconds_isDay (h : m.Valid) (hn : Date.IsDay n m.date) :
    (kernelMktime m.tm).1.toNat = n * 86400 + m.hour * 3600 + m.min * 60 + m.sec := by
  rw [h.seconds, ← hn.number_eq (h.last.trans (by decide))]

theorem Moment.Valid.seconds_lt (h : m.Valid) (h' : m'.Valid) (hlt : m.key < m'.key) :
    (kernelMktime m.tm).1.toNat < (kernelMktime m'.tm).1.toNat := by
  obtain ⟨n, hn⟩ := h.date.exists_isDay h.first
  obtain ⟨n', hn'⟩ := h'.date.exists_isDay h'.first
  rw [h.seconds_isDay hn, h'.seconds_isDay hn']
  have := h.hour
  have := h.min
  have := h.sec
  have := h'.hour
  have := h'.min
  have := h'.sec
  unfold Moment.key at hlt
  simp only [Prod.Lex.toLex_lt_toLex] at hlt
  rcases hlt with hdate | ⟨hdate, htime⟩
  · have := (hn.lt_iff hn').mpr hdate
    omega
  · have hle : n = n' := by
      rcases lt_trichotomy n n' with hnn | hnn | hnn
      · exact absurd hdate ((hn.lt_iff hn').mp hnn).ne
      · exact hnn
      · exact absurd hdate.symm ((hn'.lt_iff hn).mp hnn).ne
    omega

/-- From 1970 to 2069 `kernel_mktime` counts the seconds of the calendar, and later moments have more. -/
theorem kernel_mktime_counts (h : m.Valid) :
    (∃ n, Date.IsDay n m.date ∧
      (kernelMktime m.tm).1.toNat = n * 86400 + m.hour * 3600 + m.min * 60 + m.sec) ∧
    ∀ m' : Moment, m'.Valid → m.key < m'.key →
      (kernelMktime m.tm).1.toNat < (kernelMktime m'.tm).1.toNat := by
  obtain ⟨n, hn⟩ := h.date.exists_isDay h.first
  exact ⟨⟨n, hn, h.seconds_isDay hn⟩, fun m' h' => h.seconds_lt h'⟩

/-- The last second of the leap day of 2000, and the next one -/
theorem kernel_mktime_counts_leapDay :
    (∃ n, Date.IsDay n ⟨2000, 1, 29⟩ ∧
      (kernelMktime (Moment.tm ⟨⟨2000, 1, 29⟩, 23, 59, 59⟩)).1.toNat = n * 86400 + 23 * 3600 + 59 * 60 + 59) ∧
    (kernelMktime (Moment.tm ⟨⟨2000, 1, 29⟩, 23, 59, 59⟩)).1.toNat <
      (kernelMktime (Moment.tm ⟨⟨2000, 2, 1⟩, 0, 0, 0⟩)).1.toNat := by
  have hleap : Moment.Valid ⟨⟨2000, 1, 29⟩, 23, 59, 59⟩ :=
    ⟨⟨by decide, by decide, by decide⟩, by decide, by decide, by decide, by decide, by decide⟩
  have hmarch : Moment.Valid ⟨⟨2000, 2, 1⟩, 0, 0, 0⟩ :=
    ⟨⟨by decide, by decide, by decide⟩, by decide, by decide, by decide, by decide, by decide⟩
  obtain ⟨hcount, hlater⟩ := kernel_mktime_counts hleap
  refine ⟨hcount, hlater _ hmarch ?_⟩
  simp [Moment.key, Date.key, Prod.Lex.toLex_lt_toLex]

end Linux012.Mktime
