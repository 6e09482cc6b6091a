import ChenixOS.Lib.Calendar
import Mathlib.Tactic.IntervalCases

/-!
# Timestamps

Three conversions between a date with a time of day and the seconds since 1970: `self_gmtime` and `mktime` of the libc,
and `Date2timeStamp` of the kernel. The first goes by cycles of four years, the second by a closed formula in which
the year starts with March, the third by loops over the years and months.

**Theorem (`calendar_agree`).** For the timestamps up to `0x7FFFFFFF`, `self_gmtime` yields the date, and the other
two lead back from it; for the dates in that range it leads back from either of them.
-/

namespace ChenixOS.Time

open Calendar

/-- `struct tm` -/
structure Tm where
  sec : Int
  min : Int
  hour : Int
  mday : Int
  mon : Int
  year : Int
  wday : Int
  yday : Int
  isdst : Int
deriving DecidableEq

/-- The value of an `unsigned int`. -/
def u32 (x : Int) : Nat := (x % 2 ^ 32).toNat

/-- An `unsigned int` taken for an `int`. -/
def i32 (x : Nat) : Int := if x < 2 ^ 31 then x else x - 2 ^ 32

/-! ## `self_gmtime` -/

/-- `Days` -/
def daysTable : List Nat := [31, 28, 31, 30, 31, 30, 31, 31, 30, 31, 30, 31]

/-- The loop that finds the year, from the hours since its start; `year` counts from 1900. -/
def yearLoop : (fuel year hours : Nat) → Option (Nat × Nat)
  | 0, _, _ => none
  | fuel + 1, year, hours =>
    let oneYearHours := 8760 + if year &&& 3 = 0 then 24 else 0
    if hours < oneYearHours then some (year, hours) else yearLoop fuel (year + 1) (hours - oneYearHours)

/-- The loop that finds the month, from the day of the year. -/
def monthLoop : (fuel mon days : Nat) → Option (Nat × Nat)
  | 0, _, _ => none
  | fuel + 1, mon, days => do
    let n ← daysTable[mon]?
    if n < days then monthLoop fuel (mon + 1) (days - n) else some (mon, days)

/-- The month and the day, of the day of a year that counts from 1. -/
def monthDay (year days : Nat) : Option (Nat × Nat) :=
  if year &&& 3 = 0 then
    if days > 60 then monthLoop 12 0 (days - 1)
    else if days = 60 then some (1, 29)
    else monthLoop 12 0 days
  else monthLoop 12 0 days

/-- `self_gmtime`, where `tm` is what the structure holds before. -/
def selfGmtime (tm : Tm) (timestamp : Nat) : Option Tm :=
  if timestamp > 0x7FFFFFFF then some tm
  else do
    let minutes := timestamp / 60
    let hours := minutes / 60
    let fourYearNum := hours / 35064
    let (year, left) ← yearLoop 4 (fourYearNum * 4 + 70) (hours % 35064)
    let days := left / 24 + 1
    let (mon, mday) ← monthDay year days
    some
      { isdst := 0
        sec := (timestamp % 60 : Nat)
        min := (minutes % 60 : Nat)
        wday := ((hours / 24 + 4) % 7 : Nat)
        year := year
        hour := (left % 24 : Nat)
        yday := (days - 1 : Nat)
        mon := mon
        mday := mday }

/-! ## `mktime` and `Date2timeStamp` -/

def mktime (tm : Tm) : Nat :=
  let year0 := u32 (tm.year + 1900)
  let mon0 := u32 (tm.mon + 1)
  let day := u32 tm.mday
  let hour := u32 tm.hour
  let min := u32 tm.min
  let sec := u32 tm.sec
  let mon := u32 (mon0 - 2)
  let (mon, year) := if 0 ≥ i32 mon then (u32 (mon + 12), u32 (year0 - 1)) else (mon, year0)
  u32 ((((((year / 4 : Nat) - (year / 100 : Nat) + (year / 400 : Nat) + (u32 (367 * mon) / 12 : Nat) + day
    + year * 365 - 719499) * 24 + hour) * 60 + min) * 60 + sec))

/-- `(i % 4 == 0 && i % 100 != 0) || i % 400 == 0` -/
def LeapTest (i : Int) : Prop := i % 4 = 0 ∧ i % 100 ≠ 0 ∨ i % 400 = 0

instance : DecidablePred LeapTest := fun _ => inferInstanceAs (Decidable (_ ∨ _))

/-- The loop over the years from 1970 on. -/
def yearDays (year : Int) : Int :=
  (List.range' 1970 (year - 1970).toNat).foldl
    (fun (total : Int) (i : Nat) => (if LeapTest i then total + 1 else total) + 365) 0

/-- The loop over the months before `mon`. -/
def monthDays (year mon total : Int) : Int :=
  (List.range' 1 (mon - 1).toNat).foldl (fun (total : Int) (i : Nat) =>
    if i = 2 then if LeapTest year then total + 28 + 1 else total + 28
    else if i = 1 ∨ i = 3 ∨ i = 5 ∨ i = 7 ∨ i = 8 ∨ i = 10 ∨ i = 12 then total + 31
    else total + 30) total

def date2timeStamp (year mon day hour min second : Int) : Nat :=
  let totalDay := monthDays year mon (yearDays year) + day - 1
  let result := u32 (totalDay * 24 + hour)
  let result := u32 (result * 60 + min)
  u32 (result * 60 + second)

/-! ## Dates with a time of day -/

variable {t s n y year' mon days fuel k : Nat} {d d' : Date} {tm : Tm}

/-- The broken-down time of second `s` of a date. -/
def tmOf (d : Date) (s : Nat) : Tm where
  sec := (s % 60 : Nat)
  min := (s / 60 % 60 : Nat)
  hour := (s / 3600 : Nat)
  mday := d.day
  mon := (d.month - 1 : Nat)
  year := (d.year - 1900 : Nat)
  wday := ((d.dayNumber 1970 + 4) % 7 : Nat)
  yday := d.dayOfYear
  isdst := 0

/-- The seconds from the start of 1970 to second `s` of a date. -/
def secondsOf (d : Date) (s : Nat) : Nat := d.dayNumber 1970 * 86400 + s

/-- `Date2timeStamp` of a broken-down time. -/
def kernelTime (tm : Tm) : Nat := date2timeStamp (tm.year + 1900) (tm.mon + 1) tm.mday tm.hour tm.min tm.sec

theorem u32_of_lt {x : Int} (h : 0 ≤ x) (h' : x < 2 ^ 32) : u32 x = x.toNat := by
  rw [u32, Int.emod_eq_of_lt h h']

theorem u32_natCast (hn : n < 2 ^ 32) : u32 n = n := by
  rw [u32_of_lt (by omega) (by omega), Int.toNat_natCast]

/-! ## The months of the table -/

theorem and_three (year : Nat) : year &&& 3 = year % 4 := Nat.and_two_pow_sub_one_eq_mod year 2

/-- The days of the first `k` months of the table. -/
def tableStart (k : Nat) : Nat := (daysTable.take k).sum

theorem tableStart_succ (h : daysTable[k]? = some n) : tableStart (k + 1) = tableStart k + n := by
  obtain ⟨hk, rfl⟩ := List.getElem?_eq_some_iff.1 h
  rw [tableStart, List.take_succ_eq_append_getElem hk, List.sum_append, List.sum_singleton, tableStart]

/-- **The loop over the months** finds the month that the day is in. -/
theorem monthLoop_spec (hfuel : mon + fuel = 12) (hpos : 0 < days) (hle : tableStart mon + days ≤ 365) :
    ∃ m k n, monthLoop fuel mon days = some (m, k) ∧ daysTable[m]? = some n ∧ 1 ≤ k ∧ k ≤ n ∧
      tableStart m + k = tableStart mon + days := by
  induction fuel generalizing mon days with
  | zero =>
    obtain rfl : mon = 12 := hfuel
    have hall : tableStart 12 = 365 := by decide
    omega
  | succ fuel ih =>
    have hmon : mon < daysTable.length := by
      rw [daysTable]
      simp only [List.length_cons, List.length_nil]
      omega
    have hget := List.getElem?_eq_getElem hmon
    rw [monthLoop, hget, Option.bind_eq_bind, Option.bind_some]
    split_ifs with hlt
    · have hsucc := tableStart_succ hget
      obtain ⟨m, k, n, hloop, htable, hk, hkn, hsum⟩ := @ih (mon + 1) (days - daysTable[mon]) (by omega) (by omega)
        (by omega)
      exact ⟨m, k, n, hloop, htable, hk, hkn, by omega⟩
    · exact ⟨mon, days, _, rfl, hget, hpos, Nat.le_of_not_lt hlt, rfl⟩

/-- The table is that of a year without a leap day. -/
theorem monthStart_table (year : Nat) {m : Nat} (hm : m ≤ 12) :
    monthStart year m = tableStart m + if IsLeap year ∧ 2 ≤ m then 1 else 0 := by
  by_cases h : IsLeap year <;> interval_cases m <;> simp [monthStart, daysInMonth, tableStart, daysTable, h]

theorem daysInMonth_table (year : Nat) {m : Nat} (h : daysTable[m]? = some n) :
    daysInMonth year (m + 1) = n + if IsLeap year ∧ m = 1 then 1 else 0 := by
  obtain ⟨hm, rfl⟩ := List.getElem?_eq_some_iff.1 h
  have hlt : m < 12 := hm
  by_cases hleap : IsLeap year <;> interval_cases m <;> simp [daysInMonth, daysTable, hleap]

theorem tableStart_mono : Monotone tableStart := monotone_nat_of_le_succ fun k => by
  cases h : daysTable[k]? with
  | none =>
    have hlen := List.getElem?_eq_none_iff.1 h
    rw [tableStart, tableStart, List.take_of_length_le hlen, List.take_of_length_le (Nat.le_succ_of_le hlen)]
  | some n =>
    rw [tableStart_succ h]
    exact Nat.le_add_right _ _

/-- A month and a day from the table are a date of the year, if the leap day is counted. -/
theorem date_of_table {m : Nat} (htable : daysTable[m]? = some n) (hk : 1 ≤ k)
    (hkn : k ≤ n + if IsLeap y ∧ m = 1 then 1 else 0) :
    (Date.mk y (m + 1) k).Valid ∧ (Date.mk y (m + 1) k).dayOfYear = monthStart y m + (k - 1) := by
  have hm : m < 12 := (List.getElem?_eq_some_iff.1 htable).1
  refine ⟨⟨Nat.le_add_left _ _, hm, hk, ?_⟩, rfl⟩
  rw [daysInMonth_table y htable]
  exact hkn

/-- **The month and the day** of a day of the year, in the years for which four divides exactly the leap years. -/
theorem monthDay_spec (hleap : IsLeap y ↔ year' % 4 = 0) (hdays : 1 ≤ days) (hle : days ≤ daysInYear y) :
    ∃ m k, monthDay year' days = some (m, k) ∧ (Date.mk y (m + 1) k).Valid ∧
      (Date.mk y (m + 1) k).dayOfYear + 1 = days := by
  have hstart2 : tableStart 2 = 59 := by decide
  have hzero : tableStart 0 = 0 := rfl
  rw [monthDay, and_three]
  by_cases h : IsLeap y
  · rw [if_pos (hleap.1 h)]
    rw [daysInYear, if_pos h] at hle
    split_ifs with hgt heq
    · obtain ⟨m, k, n, hloop, htable, hk, hkn, hsum⟩ :=
        @monthLoop_spec 0 (days - 1) 12 rfl (by omega) (by omega)
      have hm : m < 12 := (List.getElem?_eq_some_iff.1 htable).1
      have htwo : 2 ≤ m := by
        by_contra hlt
        have := tableStart_succ htable
        have := tableStart_mono (by omega : m + 1 ≤ 2)
        omega
      obtain ⟨hvalid, hday⟩ := date_of_table (y := y) htable hk (by omega)
      refine ⟨m, k, hloop, hvalid, ?_⟩
      rw [hday, monthStart_table y (by omega), if_pos ⟨h, htwo⟩]
      omega
    · obtain ⟨hvalid, hday⟩ := @date_of_table 28 y 29 1 rfl (by decide) (by rw [if_pos ⟨h, rfl⟩])
      refine ⟨1, 29, rfl, hvalid, ?_⟩
      rw [hday, monthStart_table y (by decide), if_neg (by omega), heq]
      rfl
    · obtain ⟨m, k, n, hloop, htable, hk, hkn, hsum⟩ := @monthLoop_spec 0 days 12 rfl (by omega) (by omega)
      have hm : m < 12 := (List.getElem?_eq_some_iff.1 htable).1
      have htwo : m < 2 := by
        by_contra hge
        have := tableStart_mono (by omega : 2 ≤ m)
        omega
      obtain ⟨hvalid, hday⟩ := date_of_table (y := y) htable hk (by omega)
      refine ⟨m, k, hloop, hvalid, ?_⟩
      rw [hday, monthStart_table y (by omega), if_neg (by omega)]
      omega
  · rw [if_neg fun hfour => h (hleap.2 hfour)]
    rw [daysInYear, if_neg h] at hle
    obtain ⟨m, k, n, hloop, htable, hk, hkn, hsum⟩ := @monthLoop_spec 0 days 12 rfl (by omega) (by omega)
    have hm : m < 12 := (List.getElem?_eq_some_iff.1 htable).1
    obtain ⟨hvalid, hday⟩ := date_of_table (y := y) htable hk (by omega)
    refine ⟨m, k, hloop, hvalid, ?_⟩
    rw [hday, monthStart_table y (by omega), if_neg fun hand => h hand.1]
    omega

/-! ## The years of a cycle -/

theorem yearLoop_stop {year hours : Nat} (h : hours < 8760 + if year % 4 = 0 then 24 else 0) :
    yearLoop (fuel + 1) year hours = some (year, hours) := by
  rw [yearLoop, and_three]
  exact if_pos h

theorem yearLoop_next {year hours : Nat} (h : ¬hours < 8760 + if year % 4 = 0 then 24 else 0) :
    yearLoop (fuel + 1) year hours =
      yearLoop fuel (year + 1) (hours - (8760 + if year % 4 = 0 then 24 else 0)) := by
  rw [yearLoop, and_three]
  exact if_neg h

/-- **The loop over the years** of a cycle of four, which starts two years after a leap year. -/
theorem yearLoop_spec {q hours : Nat} (hlt : hours < 35064) :
    ∃ k < 4, ∃ left, yearLoop 4 (q * 4 + 70) hours = some (q * 4 + 70 + k, left) ∧
      left + 24 * (365 * k + (k + 1) / 4) = hours ∧ left < 24 * (365 + if k = 2 then 1 else 0) := by
  have h0 : ¬(q * 4 + 70) % 4 = 0 := by omega
  have h1 : ¬(q * 4 + 70 + 1) % 4 = 0 := by omega
  have h2 : (q * 4 + 70 + 2) % 4 = 0 := by omega
  have h3 : ¬(q * 4 + 70 + 3) % 4 = 0 := by omega
  by_cases hfirst : hours < 8760
  · exact ⟨0, by decide, hours, yearLoop_stop (by rw [if_neg h0]; exact hfirst), rfl, hfirst⟩
  · rw [yearLoop_next (by rw [if_neg h0]; exact hfirst), if_neg h0, Nat.add_zero]
    by_cases hsecond : hours - 8760 < 8760
    · refine ⟨1, by decide, hours - 8760, yearLoop_stop (by rw [if_neg h1]; exact hsecond), ?_, hsecond⟩
      omega
    · rw [yearLoop_next (by rw [if_neg h1]; exact hsecond), if_neg h1, Nat.add_zero]
      by_cases hthird : hours - 8760 - 8760 < 8784
      · refine ⟨2, by decide, hours - 8760 - 8760, yearLoop_stop (by rw [if_pos h2]; exact hthird), ?_, hthird⟩
        omega
      · have hfourth : hours - 8760 - 8760 - 8784 < 8760 := by omega
        rw [yearLoop_next (by rw [if_pos h2]; exact hthird), if_pos h2]
        refine ⟨3, by decide, hours - 8760 - 8760 - 8784, yearLoop_stop (by rw [if_neg h3]; exact hfourth), ?_,
          hfourth⟩
        omega

/-- **`self_gmtime` yields the date and the time of day.** -/
theorem selfGmtime_spec (tm : Tm) (ht : t ≤ 0x7FFFFFFF) :
    ∃ d s, d.Valid ∧ 1970 ≤ d.year ∧ s < 86400 ∧ secondsOf d s = t ∧ selfGmtime tm t = some (tmOf d s) := by
  have hmod : t / 60 / 60 % 35064 < 35064 := Nat.mod_lt _ (by decide)
  obtain ⟨k, hk, left, hloop, hsum, hleft⟩ := @yearLoop_spec (t / 60 / 60 / 35064) _ hmod
  generalize hq : t / 60 / 60 / 35064 = q at hloop
  have hhours : t / 60 / 60 = 35064 * q + (left + 24 * (365 * k + (k + 1) / 4)) := by
    rw [hsum, ← hq]
    exact (Nat.div_add_mod _ _).symm
  have hyear : IsLeap (1970 + (q * 4 + k)) ↔ (q * 4 + 70 + k) % 4 = 0 := by
    rw [isLeap_iff (by omega) (by omega)]
    omega
  have hdays : left / 24 + 1 ≤ daysInYear (1970 + (q * 4 + k)) := by
    have htwo : IsLeap (1970 + (q * 4 + k)) ↔ k = 2 := hyear.trans (by omega)
    rw [daysInYear]
    by_cases h2 : k = 2
    · rw [if_pos h2] at hleft
      rw [if_pos (htwo.2 h2)]
      omega
    · rw [if_neg h2] at hleft
      rw [if_neg fun h => h2 (htwo.1 h)]
      omega
  obtain ⟨m, day, hmonth, hvalid, hyday⟩ := monthDay_spec hyear (Nat.succ_pos _) hdays
  have hnumber : (Date.mk (1970 + (q * 4 + k)) (m + 1) day).dayNumber 1970 = t / 86400 := by
    rw [Date.dayNumber, Nat.add_sub_cancel_left, yearStart_1970 (by omega)]
    omega
  refine ⟨_, t % 86400, hvalid, Nat.le_add_right _ _, Nat.mod_lt _ (by decide), ?_, ?_⟩
  · rw [secondsOf, hnumber]
    exact Nat.div_add_mod' t 86400
  · rw [selfGmtime, if_neg (by omega)]
    dsimp only
    rw [hq, hloop, Option.bind_eq_bind, Option.bind_some]
    dsimp only
    rw [hmonth, Option.bind_some]
    simp only [tmOf, hnumber, Option.some.injEq, Tm.mk.injEq, Nat.cast_inj, true_and, and_true]
    omega

/-! ## Back to the timestamp -/

/-- The dates whose seconds fit into an `int`. -/
theorem year_lt (hle : secondsOf d s ≤ 0x7FFFFFFF) : d.year < 2039 := by
  by_contra hge
  have hmono := yearStart_mono 1970 (by omega : 69 ≤ d.year - 1970)
  have h69 : yearStart 1970 69 = 25202 := yearStart_1970 (by decide)
  unfold secondsOf Date.dayNumber at hle
  omega

theorem leapsTo_pred (hy : 1 ≤ y) : leapsTo y = leapsTo (y - 1) + if IsLeap y then 1 else 0 := by
  obtain ⟨n, rfl⟩ := Nat.exists_eq_add_of_le' hy
  exact leapsTo_succ n

/-- The number of a date, with the leap years and the months counted. -/
theorem dayNumber_eq (h : d.Valid) (hy : 1970 ≤ d.year) :
    d.dayNumber 1970 + 719528 = 365 * d.year + leapsTo (d.year - 1) + tableStart (d.month - 1) +
      (if IsLeap d.year ∧ 2 ≤ d.month - 1 then 1 else 0) + d.day := by
  have hpos := h.day_pos
  have hle := h.month_le
  have hyears : yearStart 1970 (d.year - 1970) + leapsTo 1969 =
      365 * (d.year - 1970) + leapsTo (1969 + (d.year - 1970)) := yearStart_eq 1969 _
  have h1969 : leapsTo 1969 = 477 := by decide
  have hpred : 1969 + (d.year - 1970) = d.year - 1 := by omega
  rw [hpred] at hyears
  rw [Date.dayNumber, Date.dayOfYear, monthStart_table d.year (by omega)]
  omega

/-- The months that count from March. -/
theorem marchMonths {m : Nat} (h : 3 ≤ m) (h' : m ≤ 12) : 367 * (m - 2) / 12 + 29 = tableStart (m - 1) := by
  interval_cases m <;> rfl

theorem marchMonths_last {m : Nat} (h : 1 ≤ m) (h' : m ≤ 2) : 367 * (m + 10) / 12 = tableStart (m - 1) + 336 := by
  interval_cases m <;> rfl

/-- **The closed formula** of `mktime`, with the year and the month that it counts. -/
theorem mktime_formula (h : d.Valid) (hy : 1970 ≤ d.year) {year mon : Nat}
    (hmon : (year, mon) = if d.month ≤ 2 then (d.year - 1, d.month + 10) else (d.year, d.month - 2)) :
    year / 4 - year / 100 + year / 400 + 367 * mon / 12 + d.day + year * 365 = d.dayNumber 1970 + 719499 := by
  have hnumber := dayNumber_eq h hy
  have hpos := h.month_pos
  split_ifs at hmon with htwo
  · cases hmon
    have hmarch := marchMonths_last hpos htwo
    rw [if_neg (by omega)] at hnumber
    unfold leapsTo at hnumber
    omega
  · cases hmon
    have hmarch := marchMonths (by omega : 3 ≤ d.month) h.month_le
    have hleaps := leapsTo_pred (by omega : 1 ≤ d.year)
    have hiff : (IsLeap d.year ∧ 2 ≤ d.month - 1) ↔ IsLeap d.year := and_iff_left (by omega)
    have hif : (if IsLeap d.year ∧ 2 ≤ d.month - 1 then 1 else 0) = if IsLeap d.year then 1 else 0 :=
      if_congr hiff rfl rfl
    rw [hif] at hnumber
    unfold leapsTo at hnumber hleaps
    omega

/-- The seconds from the days of the formula. -/
theorem u32_seconds {year mon day number hour min sec : Nat} (hmon : mon ≤ 12)
    (hdays : year / 4 - year / 100 + year / 400 + 367 * mon / 12 + day + year * 365 = number + 719499)
    (hlt : ((number * 24 + hour) * 60 + min) * 60 + sec < 2 ^ 32) :
    u32 ((((((year / 4 : Nat) - (year / 100 : Nat) + (year / 400 : Nat) + (u32 (367 * mon) / 12 : Nat) + day
      + year * 365 - 719499 : Int) * 24 + hour) * 60 + min) * 60 + sec)) =
      ((number * 24 + hour) * 60 + min) * 60 + sec := by
  have hcentury : year / 100 ≤ year / 4 := Nat.div_le_div_left (by decide) (by decide)
  have hmonths : u32 (367 * mon) = 367 * mon := u32_natCast (n := 367 * mon) (by omega)
  have hint : ((year / 4 : Nat) - (year / 100 : Nat) + (year / 400 : Nat) + (367 * mon / 12 : Nat) + day
      + year * 365 - 719499 : Int) = number := by omega
  rw [hmonths, hint]
  exact u32_natCast (n := ((number * 24 + hour) * 60 + min) * 60 + sec) hlt

/-- The second of the day is its hours, minutes and seconds. -/
theorem secondsOf_eq (d : Date) (s : Nat) :
    ((d.dayNumber 1970 * 24 + s / 3600) * 60 + s / 60 % 60) * 60 + s % 60 = secondsOf d s := by
  unfold secondsOf
  omega

/-- **`mktime` leads back from a broken-down time.** -/
theorem mktime_tmOf (h : d.Valid) (hy : 1970 ≤ d.year) (hle : secondsOf d s ≤ 0x7FFFFFFF) :
    mktime (tmOf d s) = secondsOf d s := by
  have hyear := year_lt hle
  have hpos := h.month_pos
  have htwelve := h.month_le
  have hday : d.day ≤ 31 := by
    refine Nat.le_trans h.day_le ?_
    unfold daysInMonth
    split_ifs <;> decide
  have hs : s < 2 ^ 32 := by
    unfold secondsOf at hle
    omega
  have hyear0 : u32 ((d.year - 1900 : Nat) + 1900) = d.year := by
    have hcast : ((d.year - 1900 : Nat) + 1900 : Int) = d.year := by omega
    rw [hcast, u32_natCast (by omega)]
  have hmon0 : u32 ((d.month - 1 : Nat) + 1) = d.month := by
    have hcast : ((d.month - 1 : Nat) + 1 : Int) = d.month := by omega
    rw [hcast, u32_natCast (by omega)]
  unfold mktime tmOf
  simp only [hyear0, hmon0, u32_natCast (by omega : d.day < 2 ^ 32), u32_natCast (by omega : s / 3600 < 2 ^ 32),
    u32_natCast (by omega : s / 60 % 60 < 2 ^ 32), u32_natCast (by omega : s % 60 < 2 ^ 32)]
  rw [← secondsOf_eq] at hle ⊢
  by_cases htwo : d.month ≤ 2
  · have hshift : i32 (u32 (d.month - 2)) ≤ 0 ∧ u32 (u32 (d.month - 2) + 12) = d.month + 10 := by
      generalize d.month = m at *
      interval_cases m <;> decide
    have hpred : u32 (d.year - 1) = d.year - 1 := by
      have hcast : (d.year - 1 : Int) = (d.year - 1 : Nat) := by omega
      rw [hcast, u32_natCast (by omega)]
    rw [if_pos hshift.1, hshift.2, hpred]
    exact u32_seconds (by omega) (mktime_formula h hy (by rw [if_pos htwo])) (by omega)
  · have hmon : u32 (d.month - 2) = d.month - 2 := by
      have hcast : (d.month - 2 : Int) = (d.month - 2 : Nat) := by omega
      rw [hcast, u32_natCast (by omega)]
    have hshift : ¬0 ≥ i32 (d.month - 2) := by
      unfold i32
      split_ifs <;> omega
    rw [hmon, if_neg hshift]
    exact u32_seconds (by omega) (mktime_formula h hy (by rw [if_neg htwo])) (by omega)

/-! ## The kernel's loops -/

theorem leapTest_iff (year : Nat) : LeapTest year ↔ IsLeap year := by
  unfold LeapTest IsLeap
  omega

theorem yearDays_eq (hy : 1970 ≤ y) : yearDays y = yearStart 1970 (y - 1970) := by
  obtain ⟨n, rfl⟩ := Nat.exists_eq_add_of_le hy
  have hcount : (((1970 + n : Nat) : Int) - 1970).toNat = n := by omega
  rw [yearDays, hcount, Nat.add_sub_cancel_left]
  clear hy hcount
  induction n with
  | zero => rfl
  | succ n ih =>
    rw [List.range'_1_concat, List.foldl_append, ih, List.foldl_cons, List.foldl_nil, yearStart, daysInYear]
    by_cases h : IsLeap (1970 + n)
    · rw [if_pos ((leapTest_iff _).2 h), if_pos h]
      omega
    · rw [if_neg fun ht => h ((leapTest_iff _).1 ht), if_neg h]
      omega

theorem monthDays_eq (total : Int) {k : Nat} (hk : k ≤ 12) :
    monthDays y (k + 1) total = total + monthStart y k := by
  have hcount : ((k : Int) + 1 - 1).toNat = k := by omega
  rw [monthDays, hcount]
  clear hcount
  induction k with
  | zero => exact (Int.add_zero total).symm
  | succ k ih =>
    rw [List.range'_1_concat, List.foldl_append, ih (by omega), List.foldl_cons, List.foldl_nil, monthStart]
    have hk : k < 12 := hk
    simp only [leapTest_iff]
    by_cases h : IsLeap y <;> interval_cases k <;> simp [daysInMonth, h] <;> omega

/-- **`Date2timeStamp` leads back from a broken-down time.** -/
theorem kernelTime_tmOf (h : d.Valid) (hy : 1970 ≤ d.year) (hle : secondsOf d s ≤ 0x7FFFFFFF) :
    kernelTime (tmOf d s) = secondsOf d s := by
  have hpos := h.month_pos
  have hdpos := h.day_pos
  have htwelve := h.month_le
  have hyear0 : ((d.year - 1900 : Nat) + 1900 : Int) = d.year := by omega
  have hdays : monthDays d.year ((d.month - 1 : Nat) + 1) (yearDays d.year) + d.day - 1 = d.dayNumber 1970 := by
    rw [yearDays_eq hy, monthDays_eq _ (by omega), Date.dayNumber, Date.dayOfYear]
    omega
  rw [← secondsOf_eq] at hle ⊢
  unfold kernelTime tmOf date2timeStamp
  dsimp only
  rw [hyear0, hdays]
  have hhours : u32 (d.dayNumber 1970 * 24 + (s / 3600 : Nat)) = d.dayNumber 1970 * 24 + s / 3600 :=
    u32_natCast (n := d.dayNumber 1970 * 24 + s / 3600) (by omega)
  rw [hhours]
  have hmins : u32 ((d.dayNumber 1970 * 24 + s / 3600 : Nat) * 60 + (s / 60 % 60 : Nat)) =
      (d.dayNumber 1970 * 24 + s / 3600) * 60 + s / 60 % 60 :=
    u32_natCast (n := (d.dayNumber 1970 * 24 + s / 3600) * 60 + s / 60 % 60) (by omega)
  rw [hmins]
  exact u32_natCast (n := ((d.dayNumber 1970 * 24 + s / 3600) * 60 + s / 60 % 60) * 60 + s % 60) (by omega)

/-! ## The three conversions -/

theorem secondsOf_inj {s' : Nat} (h : d.Valid) (h' : d'.Valid) (hy : 1970 ≤ d.year) (hy' : 1970 ≤ d'.year)
    (hs : s < 86400) (hs' : s' < 86400) (heq : secondsOf d s = secondsOf d' s') : d = d' ∧ s = s' := by
  unfold secondsOf at heq
  exact ⟨Date.dayNumber_inj h h' hy hy' (by omega), by omega⟩

/-- `self_gmtime` leads back from the seconds of a date. -/
theorem selfGmtime_secondsOf (tm : Tm) (h : d.Valid) (hy : 1970 ≤ d.year) (hs : s < 86400)
    (hle : secondsOf d s ≤ 0x7FFFFFFF) : selfGmtime tm (secondsOf d s) = some (tmOf d s) := by
  obtain ⟨d', s', h', hy', hs', heq, hgm⟩ := selfGmtime_spec tm hle
  obtain ⟨rfl, rfl⟩ := secondsOf_inj h' h hy' hy hs' hs heq
  exact hgm

/-- **The calendar conversions agree**: `self_gmtime` yields a date and a time of day, with the weekday and the day of
the year, from which the other two lead back; and it leads back from what they give for a date. -/
theorem calendar_agree :
    (∀ t ≤ 0x7FFFFFFF, ∀ tm₀, ∃ d s, d.Valid ∧ 1970 ≤ d.year ∧ s < 86400 ∧ secondsOf d s = t ∧
        selfGmtime tm₀ t = some (tmOf d s) ∧ mktime (tmOf d s) = t ∧ kernelTime (tmOf d s) = t) ∧
      ∀ d s, d.Valid → 1970 ≤ d.year → s < 86400 → secondsOf d s ≤ 0x7FFFFFFF → ∀ tm₀,
        selfGmtime tm₀ (mktime (tmOf d s)) = some (tmOf d s) ∧
          selfGmtime tm₀ (kernelTime (tmOf d s)) = some (tmOf d s) := by
  constructor
  · intro t ht tm₀
    obtain ⟨d, s, h, hy, hs, rfl, hgm⟩ := selfGmtime_spec tm₀ ht
    exact ⟨d, s, h, hy, hs, rfl, hgm, mktime_tmOf h hy ht, kernelTime_tmOf h hy ht⟩
  · intro d s h hy hs hle tm₀
    rw [mktime_tmOf h hy hle, kernelTime_tmOf h hy hle]
    exact ⟨selfGmtime_secondsOf tm₀ h hy hs hle, selfGmtime_secondsOf tm₀ h hy hs hle⟩

/-- Noon of a leap day. -/
theorem calendar_agree_leap_day :
    selfGmtime (tmOf ⟨1970, 1, 1⟩ 0) (mktime (tmOf ⟨2000, 2, 29⟩ 43200)) = some (tmOf ⟨2000, 2, 29⟩ 43200) :=
  (calendar_agree.2 ⟨2000, 2, 29⟩ 43200 ⟨by decide, by decide, by decide, by decide⟩ (by decide) (by decide)
    (by decide +kernel) _).1

/-- The last second of the range. -/
example : selfGmtime (tmOf ⟨1970, 1, 1⟩ 0) 0x7FFFFFFF = some ⟨7, 14, 3, 19, 0, 138, 2, 18, 0⟩ := by decide +kernel

end ChenixOS.Time
