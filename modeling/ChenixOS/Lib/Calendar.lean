import Mathlib.Order.Monotone.Basic
import Mathlib.Order.Nat

/-!
# The Gregorian calendar

Dates, and the number of days from the start of a year `e` to a date. A date has one number, and a number is that of
one date (`Date.dayNumber_inj`). The leap years before a year are counted by divisions (`yearStart_eq`).
-/

namespace ChenixOS.Calendar

def IsLeap (year : Nat) : Prop := year % 4 = 0 ∧ year % 100 ≠ 0 ∨ year % 400 = 0

instance : DecidablePred IsLeap := fun _ => inferInstanceAs (Decidable (_ ∨ _))

def daysInYear (year : Nat) : Nat := if IsLeap year then 366 else 365

/-- The days of a month, where months count from 1. -/
def daysInMonth (year month : Nat) : Nat :=
  if month = 2 then if IsLeap year then 29 else 28
  else if month = 4 ∨ month = 6 ∨ month = 9 ∨ month = 11 then 30 else 31

/-- The days of the first `k` months. -/
def monthStart (year : Nat) : (k : Nat) → Nat
  | 0 => 0
  | k + 1 => monthStart year k + daysInMonth year (k + 1)

/-- The days of `n` years from `e` on. -/
def yearStart (e : Nat) : (n : Nat) → Nat
  | 0 => 0
  | n + 1 => yearStart e n + daysInYear (e + n)

structure Date where
  year : Nat
  month : Nat
  day : Nat
deriving DecidableEq

structure Date.Valid (d : Date) : Prop where
  month_pos : 1 ≤ d.month
  month_le : d.month ≤ 12
  day_pos : 1 ≤ d.day
  day_le : d.day ≤ daysInMonth d.year d.month

/-- The days of the year before a date. -/
def Date.dayOfYear (d : Date) : Nat := monthStart d.year (d.month - 1) + (d.day - 1)

/-- The days from the start of the year `e` to a date. -/
def Date.dayNumber (e : Nat) (d : Date) : Nat := yearStart e (d.year - e) + d.dayOfYear

variable {e n i j x year : Nat} {d d' : Date}

/-! ## Positions in intervals -/

/-- Intervals that lie one after the other contain a number at most once. -/
theorem interval_unique {f : Nat → Nat} (hf : Monotone f) (hi : f i ≤ x) (hi' : x < f (i + 1)) (hj : f j ≤ x)
    (hj' : x < f (j + 1)) : i = j := by
  rcases Nat.lt_trichotomy i j with hlt | heq | hlt
  · have hle : f (i + 1) ≤ f j := hf hlt
    omega
  · exact heq
  · have hle : f (j + 1) ≤ f i := hf hlt
    omega

theorem yearStart_mono (e : Nat) : Monotone (yearStart e) :=
  monotone_nat_of_le_succ fun _ => Nat.le_add_right _ _

theorem monthStart_mono (year : Nat) : Monotone (monthStart year) :=
  monotone_nat_of_le_succ fun _ => Nat.le_add_right _ _

theorem monthStart_twelve (year : Nat) : monthStart year 12 = daysInYear year := by
  by_cases h : IsLeap year <;> simp [monthStart, daysInMonth, daysInYear, h]

/-! ## Dates and day numbers -/

/-- The months before the month of a date, and what is left of the year. -/
theorem Date.Valid.succ_month (h : d.Valid) : ∃ k, d.month = k + 1 ∧ d.day ≤ daysInMonth d.year (k + 1) := by
  have hpos := h.month_pos
  refine ⟨d.month - 1, by omega, ?_⟩
  rw [Nat.sub_add_cancel hpos]
  exact h.day_le

theorem Date.Valid.dayOfYear_lt_succ (h : d.Valid) : d.dayOfYear < monthStart d.year d.month := by
  obtain ⟨k, hk, hday⟩ := h.succ_month
  have hpos := h.day_pos
  rw [Date.dayOfYear, hk, Nat.add_sub_cancel, monthStart]
  omega

theorem Date.Valid.dayOfYear_lt (h : d.Valid) : d.dayOfYear < daysInYear d.year := by
  have hlt := h.dayOfYear_lt_succ
  have hle := monthStart_mono d.year h.month_le
  rw [monthStart_twelve] at hle
  omega

/-- The day of the year tells the month and the day. -/
theorem Date.dayOfYear_inj (h : d.Valid) (h' : d'.Valid) (hyear : d.year = d'.year)
    (heq : d.dayOfYear = d'.dayOfYear) : d = d' := by
  obtain ⟨k, hk, hday⟩ := h.succ_month
  obtain ⟨k', hk', hday'⟩ := h'.succ_month
  have hpos := h.day_pos
  have hpos' := h'.day_pos
  unfold Date.dayOfYear at heq
  rw [hk, hk', ← hyear, Nat.add_sub_cancel, Nat.add_sub_cancel] at heq
  rw [← hyear] at hday'
  have hmonth : k = k' := by
    refine @interval_unique k k' (monthStart d.year k + (d.day - 1)) _ (monthStart_mono d.year) ?_ ?_ ?_ ?_
    · omega
    · rw [monthStart]
      omega
    · omega
    · rw [monthStart]
      omega
  subst hmonth
  have hdays : d.day = d'.day := by omega
  cases d
  cases d'
  simp_all

/-- **A number is that of one date.** -/
theorem Date.dayNumber_inj (h : d.Valid) (h' : d'.Valid) (he : e ≤ d.year) (he' : e ≤ d'.year)
    (heq : d.dayNumber e = d'.dayNumber e) : d = d' := by
  have hlt := h.dayOfYear_lt
  have hlt' := h'.dayOfYear_lt
  unfold Date.dayNumber at heq
  obtain ⟨n, hn⟩ := Nat.exists_eq_add_of_le he
  obtain ⟨n', hn'⟩ := Nat.exists_eq_add_of_le he'
  rw [hn, hn', Nat.add_sub_cancel_left, Nat.add_sub_cancel_left] at heq
  have hyears : n = n' := by
    refine @interval_unique n n' (yearStart e n + d.dayOfYear) _ (yearStart_mono e) ?_ ?_ ?_ ?_
    · omega
    · rw [yearStart, ← hn]
      omega
    · omega
    · rw [yearStart, ← hn']
      omega
  subst hyears
  exact Date.dayOfYear_inj h h' (hn.trans hn'.symm) (by omega)

/-! ## Counting leap years -/

/-- The leap years up to a year. -/
def leapsTo (year : Nat) : Nat := year / 4 - year / 100 + year / 400

theorem leapsTo_succ (year : Nat) : leapsTo (year + 1) = leapsTo year + if IsLeap (year + 1) then 1 else 0 := by
  have hle : year / 100 ≤ year / 4 := Nat.div_le_div_left (by decide) (by decide)
  unfold leapsTo
  by_cases h4 : 4 ∣ year + 1
  · rw [Nat.succ_div_of_dvd h4]
    by_cases h100 : 100 ∣ year + 1
    · rw [Nat.succ_div_of_dvd h100]
      by_cases h400 : 400 ∣ year + 1
      · rw [Nat.succ_div_of_dvd h400, if_pos (.inr (Nat.mod_eq_zero_of_dvd h400))]
        omega
      · have hnot : ¬IsLeap (year + 1) := by
          unfold IsLeap
          omega
        rw [Nat.succ_div_of_not_dvd h400, if_neg hnot]
        omega
    · have hleap : IsLeap (year + 1) := by
        unfold IsLeap
        omega
      have h400 : ¬400 ∣ year + 1 := fun h => h100 (Nat.dvd_trans (by decide) h)
      rw [Nat.succ_div_of_not_dvd h100, Nat.succ_div_of_not_dvd h400, if_pos hleap]
      omega
  · have h100 : ¬100 ∣ year + 1 := fun h => h4 (Nat.dvd_trans (by decide) h)
    have h400 : ¬400 ∣ year + 1 := fun h => h4 (Nat.dvd_trans (by decide) h)
    have hnot : ¬IsLeap (year + 1) := by
      unfold IsLeap
      omega
    rw [Nat.succ_div_of_not_dvd h4, Nat.succ_div_of_not_dvd h100, Nat.succ_div_of_not_dvd h400, if_neg hnot]
    omega

/-- **The days of years, with the leap years counted by divisions.** -/
theorem yearStart_eq (e n : Nat) : yearStart (e + 1) n + leapsTo e = 365 * n + leapsTo (e + n) := by
  induction n with
  | zero => simp [yearStart]
  | succ n ih =>
    have hleap := leapsTo_succ (e + n)
    have hyear : e + 1 + n = e + n + 1 := by omega
    rw [yearStart, daysInYear, hyear, ← Nat.add_assoc, hleap]
    split_ifs <;> omega

/-- In the years for which four divides exactly the leap years. -/
theorem yearStart_1970 (hn : n ≤ 130) : yearStart 1970 n = 365 * n + (n + 1) / 4 := by
  have h : yearStart 1970 n + leapsTo 1969 = 365 * n + leapsTo (1969 + n) := yearStart_eq 1969 n
  have hfour : (1969 + n) / 4 = 492 + (n + 1) / 4 := by omega
  have hcentury : (1969 + n) / 100 = 15 + (1969 + n) / 400 := by omega
  unfold leapsTo at h
  rw [hfour] at h
  omega

theorem isLeap_iff (h : 1970 ≤ year) (h' : year < 2100) : IsLeap year ↔ year % 4 = 0 := by
  unfold IsLeap
  omega

end ChenixOS.Calendar
