import Mathlib.Logic.Function.Iterate
import Mathlib.Tactic.IntervalCases

/-!
# The proleptic Gregorian calendar

A date is followed by the next day of its month, by the first of the next month, or by New Year's
Day (`Date.tomorrow`).  `Date.number` counts the days from the first of March of the year zero, and
grows by one from each day to the next (`number_tomorrow`).

Years that begin in March end with the leap day, and 400 of them are a cycle.  `cycleYear_eq` and
`marchMonth_eq` find the year and the month of a day of the cycle by division.
-/

namespace Gregorian

/-! ## Dates -/

def leap (year : Int) : Bool := year % 4 = 0 && (year % 100 ≠ 0 || year % 400 = 0)

def monthLength (year : Int) : Nat → Nat
  | 2 => if leap year then 29 else 28
  | 4 | 6 | 9 | 11 => 30
  | _ => 31

structure Date where
  year : Int
  month : Nat
  day : Nat
  month_bounds : 1 ≤ month ∧ month ≤ 12
  day_bounds : 1 ≤ day ∧ day ≤ monthLength year month
  deriving DecidableEq, Repr

theorem leap_iff (year : Int) :
    leap year = true ↔ year % 4 = 0 ∧ (year % 100 ≠ 0 ∨ year % 400 = 0) := by
  simp [leap]

theorem one_le_monthLength (year : Int) (month : Nat) : 1 ≤ monthLength year month := by
  unfold monthLength
  split
  · split <;> omega
  all_goals omega

def Date.tomorrow (date : Date) : Date :=
  if hday : date.day < monthLength date.year date.month then
    ⟨date.year, date.month, date.day + 1, date.month_bounds, Nat.le_add_left 1 _, hday⟩
  else if hmonth : date.month < 12 then
    ⟨date.year, date.month + 1, 1, ⟨Nat.le_add_left 1 _, hmonth⟩, Nat.le_refl 1,
      one_le_monthLength _ _⟩
  else ⟨date.year + 1, 1, 1, by omega, Nat.le_refl 1, one_le_monthLength _ _⟩

/-! ## Days -/

/-- The years that begin in March before this one, in days. -/
def daysBefore (year : Int) : Int := 365 * year + year / 4 - year / 100 + year / 400

/-- The days of such a year before its month. -/
def monthStart (month : Nat) : Nat := (153 * month + 2) / 5

/-- The year that begins in March, and the month counted from March. -/
def Date.marchYear (date : Date) : Int := if date.month ≤ 2 then date.year - 1 else date.year

def Date.marchMonth (date : Date) : Nat := (date.month + 9) % 12

def Date.marchDay (date : Date) : Nat := monthStart date.marchMonth + (date.day - 1)

/-- The days since the first of March of the year zero. -/
def Date.number (date : Date) : Int := daysBefore date.marchYear + date.marchDay

theorem daysBefore_succ (year : Int) :
    daysBefore (year + 1) = daysBefore year + if leap (year + 1) then 366 else 365 := by
  unfold daysBefore
  split
  · next hleap =>
    rw [leap_iff] at hleap
    omega
  · next hleap =>
    rw [leap_iff] at hleap
    omega

/-- The last day of a month but February is the eve of the next in the same year. -/
theorem monthStart_succ {year : Int} {month : Nat} (hmonth : month ≤ 12) (hone : 1 ≤ month)
    (hfebruary : month ≠ 2) :
    (month + 1 + 9) % 12 = (month + 9) % 12 + 1 ∧
      monthStart ((month + 9) % 12 + 1) = monthStart ((month + 9) % 12) + monthLength year month := by
  interval_cases month <;> simp_all [monthStart, monthLength]

theorem number_tomorrow (date : Date) : date.tomorrow.number = date.number + 1 := by
  obtain ⟨year, month, day, ⟨hfirst, hlast⟩, hone, hlength⟩ := date
  unfold Date.tomorrow
  dsimp only
  split
  · simp only [Date.number, Date.marchYear, Date.marchDay, Date.marchMonth]
    omega
  · next hday =>
    have hend : day = monthLength year month := Nat.le_antisymm hlength (Nat.le_of_not_lt hday)
    have hpositive := one_le_monthLength year month
    by_cases hfebruary : month = 2
    · subst hfebruary
      have hstep := daysBefore_succ (year - 1)
      have hmarch : monthStart 0 = 0 := rfl
      have hstart : monthStart 11 = 337 := rfl
      rw [Int.sub_add_cancel] at hstep
      simp [Date.number, Date.marchYear, Date.marchDay, Date.marchMonth, hmarch, hstart, hend,
        monthLength, hstep]
      split <;> omega
    · obtain ⟨hnext, hstart⟩ := @monthStart_succ year month hlast hfirst hfebruary
      split
      · have hyear : (if month + 1 ≤ 2 then year - 1 else year) =
            if month ≤ 2 then year - 1 else year := by
          split_ifs <;> omega
        simp only [Date.number, Date.marchYear, Date.marchDay, Date.marchMonth, hnext, hstart, hend,
          hyear]
        omega
      · have hdecember : month = 12 := by omega
        subst hdecember
        simp [Date.number, Date.marchYear, Date.marchDay, Date.marchMonth, hend, monthLength,
          monthStart]
        omega

/-! ## Cycles -/

/-- The year of a cycle, from a day of it. -/
def cycleYear (day : Nat) : Nat := (day - day / 1460 + day / 36524 - day / 146096) / 365

/-- Days before a year of a cycle. -/
def cycleStart (year : Nat) : Nat := 365 * year + year / 4 - year / 100

theorem cycleYear_eq {year day : Nat} (hyear : year < 400) (hday : day ≤ 365)
    (hleap : day = 365 → leap (year + 1) = true) : cycleYear (cycleStart year + day) = year := by
  obtain ⟨c, q, r, hc, hq, hr, rfl⟩ : ∃ c q r, c < 4 ∧ q < 25 ∧ r < 4 ∧ year = 100 * c + 4 * q + r :=
    ⟨year / 100, year % 100 / 4, year % 4, by omega, by omega, by omega, by omega⟩
  have hlast : day = 365 → r = 3 ∧ (q < 24 ∨ c = 3) := by
    intro h
    have hyears := (leap_iff _).mp (hleap h)
    omega
  have hstart : cycleStart (100 * c + 4 * q + r) = 36524 * c + (1461 * q + 365 * r) := by
    unfold cycleStart
    omega
  have hcentury : (36524 * c + (1461 * q + 365 * r + day)) / 36524 =
      c + (36524 * c + (1461 * q + 365 * r + day)) / 146096 := by
    rcases Nat.lt_or_ge (1461 * q + 365 * r + day) 36524 with hless | hmore
    · rw [Nat.mul_add_div (by decide), Nat.div_eq_of_lt hless, Nat.div_eq_of_lt (by omega)]
    · obtain ⟨rfl, rfl, rfl, rfl⟩ : c = 3 ∧ q = 24 ∧ r = 3 ∧ day = 365 := by omega
      rfl
  have hleaps : (36524 * c + (1461 * q + 365 * r + day)) / 1460 =
      25 * c + q + (24 * c + q + 365 * r + day) / 1460 := by
    have hparts : 36524 * c + (1461 * q + 365 * r + day) =
        1460 * (25 * c + q) + (24 * c + q + 365 * r + day) := by omega
    rw [hparts, Nat.mul_add_div (by decide)]
  have hover : (24 * c + q + 365 * r + day) / 1460 ≤ day ∧
      day ≤ 364 + (24 * c + q + 365 * r + day) / 1460 := by
    constructor
    · omega
    · omega
  rw [cycleYear, hstart, Nat.add_assoc, hcentury, hleaps]
  generalize (24 * c + q + 365 * r + day) / 1460 = extra at hover
  generalize (36524 * c + (1461 * q + 365 * r + day)) / 146096 = whole
  clear hleaps hcentury hstart hleap hlast
  apply Nat.div_eq_of_lt_le
  · omega
  · omega

/-- The month from March, from a day of its year. -/
def monthOf (day : Nat) : Nat := (5 * day + 2) / 153

theorem monthOf_eq {month day : Nat} (hday : monthStart month + day < monthStart (month + 1)) :
    monthOf (monthStart month + day) = month := by
  unfold monthOf monthStart at *
  omega

/-! ## The parts of a day -/

section
variable (date : Date)

/-- The day of a year that begins in March is in its month, and February has no thirtieth. -/
theorem marchDay_bounds :
    date.marchDay < monthStart (date.marchMonth + 1) ∧ date.marchDay ≤ 365 := by
  obtain ⟨year, month, day, ⟨hfirst, hlast⟩, hone, hlength⟩ := date
  simp only [Date.marchDay, Date.marchMonth]
  by_cases hfebruary : month = 2
  · subst hfebruary
    have hshort : monthLength year 2 ≤ 29 := by
      simp only [monthLength]
      split <;> omega
    simp only [monthStart]
    omega
  · obtain ⟨hnext, hstart⟩ := @monthStart_succ year month hlast hfirst hfebruary
    have hless : (month + 9) % 12 ≤ 10 := by omega
    have hend : monthStart ((month + 9) % 12 + 1) ≤ 337 := by
      unfold monthStart
      omega
    omega

theorem monthOf_marchDay : monthOf date.marchDay = date.marchMonth :=
  monthOf_eq (marchDay_bounds date).1

/-- Only the leap day is the 366th of a year that begins in March. -/
theorem leap_of_marchDay (h : date.marchDay = 365) : leap (date.marchYear + 1) = true := by
  obtain ⟨year, month, day, ⟨hfirst, hlast⟩, hone, hlength⟩ := date
  simp only [Date.marchDay, Date.marchMonth] at h
  by_cases hfebruary : month = 2
  · subst hfebruary
    have hday : day = 29 := by
      have hstart : monthStart 11 = 337 := rfl
      simp only [Nat.reduceAdd, Nat.reduceMod, hstart] at h
      omega
    subst hday
    simp only [Date.marchYear, Nat.le_refl, if_true, Int.sub_add_cancel]
    simp only [monthLength] at hlength
    by_contra hcommon
    rw [if_neg hcommon] at hlength
    omega
  · obtain ⟨hnext, hstart⟩ := @monthStart_succ year month hlast hfirst hfebruary
    have hless : (month + 9) % 12 + 1 ≤ 11 := by omega
    simp only [monthStart] at h hstart
    omega

/-- A day stands in its cycle of 400 years. -/
theorem number_cycle : date.number = 146097 * (date.marchYear / 400) +
    (cycleStart (date.marchYear % 400).toNat + date.marchDay : Nat) := by
  unfold Date.number daysBefore cycleStart
  omega

theorem cycleYear_number : cycleYear (cycleStart (date.marchYear % 400).toNat + date.marchDay) =
    (date.marchYear % 400).toNat := by
  refine cycleYear_eq (by omega) (marchDay_bounds date).2 fun hlast => ?_
  have hleap := leap_of_marchDay date hlast
  rw [leap_iff] at hleap ⊢
  omega

end

end Gregorian
