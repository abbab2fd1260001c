import Novbot.Lib.Checked
import Novbot.Lib.Gregorian

/-!
# The parts of a UTC time

`utc_parts` and `civil_from_days` of `schedule.rs` in `novbot-core`, in a build that checks
arithmetic or does not.  They give the minute, the hour, the day, the month and the weekday of
every time whose year an `i32` holds (`utcParts_gregorian`).  Only the year, which nothing uses, can
overflow at other times (`utcParts_unchecked`).
-/

namespace Novbot.Cron

open Checked Gregorian

/-! ## The code -/

structure Parts where
  minute : Nat
  hour : Nat
  day : Nat
  month : Nat
  weekday : Nat
  deriving DecidableEq, Repr

section
variable (checks : Bool)

/-- The civil date of a day since the first of March of the year zero. -/
def civilFromDays (z : Int) : Option (Int × Nat × Nat) := do
  let shifted ← if 0 ≤ z then some z else i64 checks (z - 146096)
  let era := shifted.tdiv 146097
  let doe := asU64 (← i64 checks (z - (← i64 checks (era * 146097))))
  let rest ← u64 checks (doe - (doe / 1460 : Nat))
  let rest ← u64 checks (rest + (doe / 36524 : Nat))
  let yoe := (← u64 checks (rest - (doe / 146096 : Nat))) / 365
  let y := asI32 (← i64 checks (asI64 yoe + (← i64 checks (era * 400))))
  let start ← u64 checks ((← u64 checks (365 * yoe)) + (yoe / 4 : Nat))
  let doy ← u64 checks (doe - (← u64 checks (start - (yoe / 100 : Nat))))
  let mp := (← u64 checks ((← u64 checks (5 * doy)) + 2)) / 153
  let start ← u64 checks ((← u64 checks (153 * mp)) + 2)
  let d := asU32 (← u64 checks ((← u64 checks (doy - (start / 5 : Nat))) + 1))
  let m := asU32 (← if mp < 10 then u64 checks (mp + 3) else u64 checks (mp - 9))
  let y ← if m ≤ 2 then i32 checks (y + 1) else some y
  return (y, m, d)

def utcParts (unixSecs : UInt64) : Option Parts := do
  let days := asI64 (unixSecs.toNat / 86400 : Nat)
  let secsOfDay := asU32 (unixSecs.toNat % 86400)
  let weekday := (← i64 checks (days + 4)) % 7
  let (_, month, day) ← civilFromDays checks (← i64 checks (days + 719468))
  return ⟨secsOfDay % 3600 / 60, secsOfDay / 3600, day, month, weekday.toNat⟩

end

/-! ## The calendar -/

/-- The first of January 1970. -/
def epoch : Date := ⟨1970, 1, 1, by decide, by decide⟩

/-- The date so many days after it. -/
def dateOf (days : Nat) : Date := Date.tomorrow^[days] epoch

/-- The weekday so many days after a Thursday, from Sunday on. -/
def weekdayOf (days : Nat) : Fin 7 := (· + 1)^[days] 4

theorem number_dateOf (days : Nat) : (dateOf days).number = days + 719468 := by
  induction days with
  | zero => rfl
  | succ days ih =>
    rw [dateOf, Function.iterate_succ_apply', number_tomorrow]
    rw [dateOf] at ih
    omega

theorem weekdayOf_eq (days : Nat) : (weekdayOf days : Nat) = (days + 4) % 7 := by
  induction days with
  | zero => rfl
  | succ days ih =>
    rw [weekdayOf, Function.iterate_succ_apply']
    rw [weekdayOf] at ih
    rw [Fin.val_add, ih]
    show ((days + 4) % 7 + 1) % 7 = _
    omega

/-! ## No overflow -/

section
variable {checks : Bool} {era : Int} {doe yoe doy mp day : Nat}

theorem yearOfEra (h : doe < 146097) :
    u64 checks (doe - (doe / 1460 : Nat)) = some (doe - doe / 1460) ∧
    u64 checks ((doe - doe / 1460 : Nat) + (doe / 36524 : Nat)) =
      some (doe - doe / 1460 + doe / 36524) ∧
    u64 checks ((doe - doe / 1460 + doe / 36524 : Nat) - (doe / 146096 : Nat)) =
      some (doe - doe / 1460 + doe / 36524 - doe / 146096) :=
  ⟨u64_of (by omega) (by omega), u64_of (by omega) (by omega), u64_of (by omega) (by omega)⟩

theorem daysOfYear (h : yoe < 400) :
    u64 checks (365 * yoe) = some (365 * yoe) ∧
    u64 checks ((365 * yoe : Nat) + (yoe / 4 : Nat)) = some (365 * yoe + yoe / 4) ∧
    u64 checks ((365 * yoe + yoe / 4 : Nat) - (yoe / 100 : Nat)) = some (cycleStart yoe) := by
  have hstart : cycleStart yoe = 365 * yoe + yoe / 4 - yoe / 100 := rfl
  exact ⟨u64_of (by omega) (by omega), u64_of (by omega) (by omega), u64_of (by omega) (by omega)⟩

theorem monthOfYear (h : doy ≤ 365) :
    u64 checks (5 * doy) = some (5 * doy) ∧
    u64 checks ((5 * doy : Nat) + 2) = some (5 * doy + 2) :=
  ⟨u64_of (by omega) (by omega), u64_of (by omega) (by omega)⟩

theorem era_of_cycle (h : doe < 146097) (hera : 0 ≤ era) (hsmall : era < 2 ^ 31) :
    (146097 * era + doe).tdiv 146097 = era ∧ i64 checks (era * 146097) = some (era * 146097) ∧
    i64 checks (146097 * era + doe - era * 146097) = some (doe : Int) ∧ asU64 doe = doe ∧
    i64 checks (era * 400) = some (era * 400) := by
  have hrest : 146097 * era + doe - era * 146097 = doe := by omega
  have hdiv : (146097 * era + doe).tdiv 146097 = era := by
    rw [Int.tdiv_eq_ediv_of_nonneg (by omega)]
    omega
  rw [hrest]
  exact ⟨hdiv, i64_of (by omega) (by omega), i64_of (by omega) (by omega),
    asU64_of rfl (by omega), i64_of (by omega) (by omega)⟩

theorem civilYear (h : yoe < 400) (hera : 0 ≤ era) (hsmall : era < 2 ^ 31) :
    i64 checks (asI64 yoe + era * 400) = some (era * 400 + yoe) := by
  rw [asI64_of (by omega) (by omega), Int.add_comm]
  exact i64_of (by omega) (by omega)

theorem dayOfMonth (h : mp < 12) (hone : 1 ≤ day) (hday : day ≤ 31) :
    u64 checks (153 * mp) = some (153 * mp) ∧
    u64 checks ((153 * mp : Nat) + 2) = some (153 * mp + 2) ∧
    u64 checks ((monthStart mp + (day - 1) : Nat) - ((153 * mp + 2) / 5 : Nat)) = some (day - 1) ∧
    u64 checks ((day - 1 : Nat) + 1) = some day ∧ asU32 day = day := by
  have hstart : (153 * mp + 2) / 5 = monthStart mp := rfl
  rw [hstart]
  exact ⟨u64_of (by omega) (by omega), u64_of (by omega) (by omega), u64_of (by omega) (by omega),
    u64_of (by omega) (by omega), asU32_of (by omega)⟩

/-- The days of a cycle have their dates. -/
theorem civilFromDays_cycle (hera : 0 ≤ era) (hsmall : era < 2 ^ 31) (hyoe : yoe < 400)
    (hmp : mp < 12) (hone : 1 ≤ day) (hday : day ≤ 31) (hdays : monthStart mp + (day - 1) ≤ 365)
    (hyear : cycleYear (cycleStart yoe + (monthStart mp + (day - 1))) = yoe)
    (hmonth : monthOf (monthStart mp + (day - 1)) = mp) :
    civilFromDays checks (146097 * era + (cycleStart yoe + (monthStart mp + (day - 1)) : Nat)) =
      if mp < 10 then some (asI32 (era * 400 + yoe), mp + 3, day)
      else (i32 checks (asI32 (era * 400 + yoe) + 1)).map fun year => (year, mp - 9, day) := by
  have hstart : cycleStart yoe ≤ 145731 := by
    unfold cycleStart
    omega
  obtain ⟨htdiv, hera₁, hera₂, hera₃, hera₄⟩ := @era_of_cycle checks era
    (cycleStart yoe + (monthStart mp + (day - 1))) (by omega) hera hsmall
  obtain ⟨hyoe₁, hyoe₂, hyoe₃⟩ :=
    @yearOfEra checks (cycleStart yoe + (monthStart mp + (day - 1))) (by omega)
  obtain ⟨hdoy₁, hdoy₂, hdoy₃⟩ := @daysOfYear checks yoe hyoe
  obtain ⟨hmp₁, hmp₂⟩ := @monthOfYear checks _ hdays
  obtain ⟨hday₁, hday₂, hday₃, hday₄, hday₅⟩ := @dayOfMonth checks _ _ hmp hone hday
  have hcivil := @civilYear checks era yoe hyoe hera hsmall
  have hdoy : u64 checks ((cycleStart yoe + (monthStart mp + (day - 1)) : Nat) -
      (cycleStart yoe : Nat)) = some (monthStart mp + (day - 1)) := u64_of (by omega) (by omega)
  have hpast : 0 ≤ 146097 * era + (cycleStart yoe + (monthStart mp + (day - 1)) : Nat) := by omega
  unfold cycleYear at hyear
  unfold monthOf at hmonth
  generalize cycleStart yoe + (monthStart mp + (day - 1)) = doe at *
  generalize monthStart mp + (day - 1) = doy at *
  generalize 146097 * era + (doe : Int) = z at *
  unfold civilFromDays
  dsimp only
  rw [if_pos hpast, bind_of rfl, htdiv, bind_of hera₁, bind_of hera₂, hera₃, bind_of hyoe₁,
    bind_of hyoe₂, bind_of hyoe₃, hyear, bind_of hera₄, bind_of hcivil, bind_of hdoy₁,
    bind_of hdoy₂, bind_of hdoy₃, bind_of hdoy, bind_of hmp₁, bind_of hmp₂, hmonth, bind_of hday₁,
    bind_of hday₂, bind_of hday₃, bind_of hday₄, hday₅]
  split
  · have hm : u64 checks (mp + 3) = some (mp + 3) := u64_of (by omega) (by omega)
    have hm' : asU32 (mp + 3) = mp + 3 := asU32_of (by omega)
    rw [bind_of hm, hm', if_neg (by omega)]
    rfl
  · have hm : u64 checks (mp - 9) = some (mp - 9) := u64_of (by omega) (by omega)
    have hm' : asU32 (mp - 9) = mp - 9 := asU32_of (by omega)
    rw [bind_of hm, hm', if_pos (by omega)]
    cases i32 checks (asI32 (era * 400 + yoe) + 1) with
    | none => rfl
    | some year => rfl

theorem day_le (date : Date) : date.day ≤ 31 := by
  have hlength : monthLength date.year date.month ≤ 31 := by
    unfold monthLength
    split
    · split <;> omega
    all_goals omega
  exact Nat.le_trans date.day_bounds.2 hlength

/-- A day has its month and its day in the month, if the year does not overflow. -/
theorem civilFromDays_number (date : Date) (hpast : 0 ≤ date.number)
    (hfar : date.number < 146097 * 2 ^ 31) : civilFromDays checks date.number =
      if date.month ≤ 2 then
        (i32 checks (asI32 (date.year - 1) + 1)).map fun year => (year, date.month, date.day)
      else some (asI32 date.year, date.month, date.day) := by
  obtain ⟨hfirst, hlast⟩ := date.month_bounds
  obtain ⟨-, hdays⟩ := marchDay_bounds date
  have hcycle := number_cycle date
  have hmarch : date.marchMonth = (date.month + 9) % 12 := rfl
  have hmarchYear : date.marchYear = if date.month ≤ 2 then date.year - 1 else date.year := rfl
  have hstart : cycleStart (date.marchYear % 400).toNat ≤ 145731 := by
    unfold cycleStart
    omega
  have hsum : date.marchYear / 400 * 400 + (date.marchYear % 400).toNat = date.marchYear := by omega
  have hcivil := @civilFromDays_cycle checks (date.marchYear / 400) (date.marchYear % 400).toNat
    date.marchMonth date.day (by omega) (by omega) (by omega) (by omega) date.day_bounds.1
    (day_le date) hdays (cycleYear_number date) (monthOf_marchDay date)
  rw [hcycle]
  refine hcivil.trans ?_
  rw [hsum, hmarchYear]
  split
  · have hmonth : date.marchMonth + 3 = date.month := by omega
    rw [if_neg (by omega), if_neg (by omega), hmonth]
  · have hmonth : date.marchMonth - 9 = date.month := by omega
    rw [if_pos (by omega), if_pos (by omega), hmonth]

end

/-! ## Times -/

theorem year_pos {date : Date} (hpast : 0 ≤ date.number) : 0 ≤ date.year := by
  have hcycle := number_cycle date
  obtain ⟨-, hdays⟩ := marchDay_bounds date
  have hmarchYear : date.marchYear = if date.month ≤ 2 then date.year - 1 else date.year := rfl
  have hstart : cycleStart (date.marchYear % 400).toNat ≤ 145731 := by
    unfold cycleStart
    omega
  split at hmarchYear
  · omega
  · omega

/-- The parts of a time by the calendar. -/
def calendarParts (unixSecs : UInt64) : Parts where
  minute := unixSecs.toNat / 60 % 60
  hour := unixSecs.toNat / 3600 % 24
  day := (dateOf (unixSecs.toNat / 86400)).day
  month := (dateOf (unixSecs.toNat / 86400)).month
  weekday := weekdayOf (unixSecs.toNat / 86400)

section
variable {checks : Bool} (unixSecs : UInt64)

theorem utcParts_of_civil {year : Int} (hcivil : civilFromDays checks
    (dateOf (unixSecs.toNat / 86400)).number = some (year, (dateOf (unixSecs.toNat / 86400)).month,
      (dateOf (unixSecs.toNat / 86400)).day)) :
    utcParts checks unixSecs = some (calendarParts unixSecs) := by
  have hsecs := unixSecs.toNat_lt
  have hnumber := number_dateOf (unixSecs.toNat / 86400)
  have hdays : asI64 (unixSecs.toNat / 86400 : Nat) = (unixSecs.toNat / 86400 : Nat) :=
    asI64_of (by omega) (by omega)
  have hsecsOfDay : asU32 (unixSecs.toNat % 86400) = unixSecs.toNat % 86400 := asU32_of (by omega)
  have hweek : i64 checks ((unixSecs.toNat / 86400 : Nat) + 4) =
      some ((unixSecs.toNat / 86400 : Nat) + 4 : Int) := i64_of (by omega) (by omega)
  have hshift : i64 checks ((unixSecs.toNat / 86400 : Nat) + 719468) =
      some (dateOf (unixSecs.toNat / 86400)).number := by
    rw [hnumber]
    exact i64_of (by omega) (by omega)
  have hminute : unixSecs.toNat % 86400 % 3600 / 60 = unixSecs.toNat / 60 % 60 := by omega
  have hhour : unixSecs.toNat % 86400 / 3600 = unixSecs.toNat / 3600 % 24 := by omega
  have hweekday : (((unixSecs.toNat / 86400 : Nat) + 4 : Int) % 7).toNat =
      weekdayOf (unixSecs.toNat / 86400) := by
    rw [weekdayOf_eq]
    omega
  unfold utcParts
  dsimp only
  rw [hdays, hsecsOfDay, bind_of hweek, bind_of hshift, bind_of hcivil]
  dsimp only
  rw [hminute, hhour, hweekday]
  rfl

theorem number_bounds : 0 ≤ (dateOf (unixSecs.toNat / 86400)).number ∧
    (dateOf (unixSecs.toNat / 86400)).number < 146097 * 2 ^ 31 := by
  have hsecs := unixSecs.toNat_lt
  rw [number_dateOf]
  omega

/-- The parts of a time are those of the calendar, and nothing overflows, if an `i32` holds its
year. -/
theorem utcParts_gregorian (hyear : (dateOf (unixSecs.toNat / 86400)).year < 2 ^ 31) :
    utcParts checks unixSecs = some (calendarParts unixSecs) := by
  obtain ⟨hpast, hfar⟩ := number_bounds unixSecs
  have hleast := year_pos hpast
  have hcivil := @civilFromDays_number checks _ hpast hfar
  refine @utcParts_of_civil checks unixSecs (dateOf (unixSecs.toNat / 86400)).year (hcivil.trans ?_)
  split
  · rw [asI32_of (by omega) (by omega), Int.sub_add_cancel, i32_of (by omega) hyear]
    rfl
  · rw [asI32_of (by omega) hyear]

/-- Without checks the parts of every time are those of the calendar. -/
theorem utcParts_unchecked : utcParts false unixSecs = some (calendarParts unixSecs) := by
  obtain ⟨hpast, hfar⟩ := number_bounds unixSecs
  have hcivil := @civilFromDays_number false _ hpast hfar
  split at hcivil
  · obtain ⟨year, hwrapped⟩ := i32_unchecked (asI32 ((dateOf (unixSecs.toNat / 86400)).year - 1) + 1)
    rw [hwrapped] at hcivil
    exact utcParts_of_civil unixSecs hcivil
  · exact utcParts_of_civil unixSecs hcivil

end

/-- Two minutes past one on the first of March 1970, a Sunday. -/
theorem utcParts_gregorian_march : utcParts true 5101320 = some ⟨2, 1, 1, 3, 0⟩ := by
  have hdate : dateOf (UInt64.toNat 5101320 / 86400) = ⟨1970, 3, 1, by decide, by decide⟩ := by
    decide +kernel
  have hweekday : weekdayOf (UInt64.toNat 5101320 / 86400) = 0 := by decide +kernel
  have hparts := @utcParts_gregorian true 5101320 (by rw [hdate]; decide)
  rw [calendarParts, hdate, hweekday] at hparts
  exact hparts

end Novbot.Cron
