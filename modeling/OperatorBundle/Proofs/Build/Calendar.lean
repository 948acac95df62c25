import Mathlib.Tactic.Common
import Mathlib.Tactic.IntervalCases
import OperatorBundle.Build.Calendar

/-!
The minutes of the Gregorian calendar, told by the clock: from the start of 1970 on, one minute
follows the other, and the hour, the day, the month and the year change where the one below them is
full. The years before 1582, and those before the year 1, have months and leap days by the same
rules.

* `Numbered`: the minute with a number, counted in both directions.
* `numbered_ofSeconds`: a second is in the minute whose number is the number of whole minutes.
* `Numbered.unique`, `Numbered.number_unique`: each number has one minute, each minute one number.
-/

namespace OperatorBundle

/-! ### The clock -/

/-- Whether a year has a leap day. -/
def IsLeap (year : Int) : Prop := 4 ∣ year ∧ (100 ∣ year → 400 ∣ year)

instance (year : Int) : Decidable (IsLeap year) :=
  inferInstanceAs (Decidable (4 ∣ year ∧ (100 ∣ year → 400 ∣ year)))

/-- The number of days of a month. -/
def daysIn (year : Int) (month : Nat) : Nat :=
  if month = 2 then if IsLeap year then 29 else 28
  else if month ∈ [4, 6, 9, 11] then 30 else 31

namespace Minute

/-- Whether there is such a minute. -/
structure Valid (m : Minute) : Prop where
  month : 1 ≤ m.month ∧ m.month ≤ 12
  day : 1 ≤ m.day ∧ m.day ≤ daysIn m.year m.month
  hour : m.hour < 24
  minute : m.minute < 60

/-- The minute after a minute. -/
def next (m : Minute) : Minute :=
  if m.minute < 59 then { m with minute := m.minute + 1 }
  else if m.hour < 23 then { m with hour := m.hour + 1, minute := 0 }
  else if m.day < daysIn m.year m.month then { m with day := m.day + 1, hour := 0, minute := 0 }
  else if m.month < 12 then { m with month := m.month + 1, day := 1, hour := 0, minute := 0 }
  else ⟨m.year + 1, 1, 1, 0, 0⟩

end Minute

/-- The minute with a number. The first minute of 1970 has the number 0. -/
inductive Numbered : Int → Minute → Prop
  | epoch : Numbered 0 ⟨1970, 1, 1, 0, 0⟩
  | later {n : Int} {m : Minute} : Numbered n m → Numbered (n + 1) m.next
  | earlier {n : Int} {m : Minute} : m.Valid → Numbered (n + 1) m.next → Numbered n m

namespace Minute

/-! ### Years that start in March -/

/-- The days from the first of March of the year 0 to that of another year. -/
def newYear (year : Int) : Int := 365 * year + year / 4 - year / 100 + year / 400

/-- The number of days from the first of March of a year to the next one. -/
def yearLength (year : Int) : Nat := if IsLeap (year + 1) then 366 else 365

theorem newYear_succ (year : Int) : newYear (year + 1) = newYear year + yearLength year := by
  unfold newYear yearLength
  split_ifs with hleap <;> unfold IsLeap at hleap <;> omega

theorem newYear_le {year later : Int} (h : year ≤ later) : newYear year ≤ newYear later := by
  unfold newYear
  omega

/-- A day is in one year only. -/
theorem year_unique {year other : Int} {day first : Nat} (hday : day < yearLength year)
    (hfirst : first < yearLength other) (h : newYear year + day = newYear other + first) :
    year = other ∧ day = first := by
  -- a later year starts when the earlier one is over
  have hlater {a b : Int} (hlt : a < b) : newYear a + yearLength a ≤ newYear b := by
    rw [← newYear_succ]
    exact newYear_le hlt
  rcases lt_trichotomy year other with hlt | rfl | hlt
  · have := hlater hlt
    omega
  · exact ⟨rfl, by omega⟩
  · have := hlater hlt
    omega

theorem newYear_era (era : Int) {year : Nat} (h : year < 400) :
    newYear (era * 400 + year) = era * daysInEra + yearStart year := by
  unfold newYear yearStart daysInEra
  omega

theorem yearLength_era (era : Int) (year : Nat) :
    yearLength (era * 400 + year) = yearLength year := by
  have hleap : IsLeap (era * 400 + year + 1) ↔ IsLeap ((year : Int) + 1) := by
    unfold IsLeap
    omega
  simp only [yearLength, hleap]

/-- The days of an era are those of its years. -/
theorem exists_year_of_lt {years day : Nat} (hyears : years ≤ 400) (h : day < newYear years) :
    ∃ year < years, ∃ first < yearLength year, day = yearStart year + first := by
  induction years with
  | zero =>
    have hzero : newYear (0 : Nat) = 0 := rfl
    omega
  | succ years ih =>
    by_cases hbefore : day < newYear years
    · obtain ⟨year, hyear, hday⟩ := ih (by omega) hbefore
      exact ⟨year, by omega, hday⟩
    · have hstart := newYear_era 0 (show years < 400 by omega)
      rw [Nat.cast_succ, newYear_succ] at h
      simp only [zero_mul, zero_add] at hstart
      exact ⟨years, by omega, day - yearStart years, by omega, by omega⟩

/-- The year of a day is found. A day in every 1460, save one in a century but not in an era, is
taken off before the days are shared out in years of 365. -/
theorem yearOfEra_add {year day : Nat} (h : year < 400) (hday : day < yearLength year) :
    yearOfEra (yearStart year + day) = year := by
  obtain ⟨century, rest, rfl, hrest⟩ : ∃ century rest, year = 100 * century + rest ∧ rest < 100 :=
    ⟨year / 100, year % 100, by omega, by omega⟩
  obtain ⟨cycle, left, rfl, hleft⟩ : ∃ cycle left, rest = 4 * cycle + left ∧ left < 4 :=
    ⟨rest / 4, rest % 4, by omega, by omega⟩
  have hstart : yearStart (100 * century + (4 * cycle + left)) =
      36524 * century + 1461 * cycle + 365 * left := by
    unfold yearStart
    omega
  -- only the last year of a cycle has a leap day, and at the end of a century only the last one
  have hleap : day ≤ 365 ∧ (day = 365 → left = 3 ∧ (cycle = 24 → century = 3)) := by
    unfold yearLength at hday
    split_ifs at hday with hlong
    · unfold IsLeap at hlong
      omega
    · omega
  clear hday
  rw [hstart, yearOfEra]
  set first := 36524 * century + 1461 * cycle + 365 * left + day with hfirst
  have hcycles : first / 1460 = 25 * century + cycle +
      if 1460 ≤ 24 * century + cycle + 365 * left + day then 1 else 0 := by
    split_ifs <;> omega
  have hcenturies : first / 36524 = century + first / 146096 := by
    by_cases hlast : first = 146096
    · have hcentury : century = 3 := by omega
      rw [hlast, hcentury]
    · have hshort : first < 36524 * (century + 1) := by omega
      have hera : first < 146096 := by omega
      omega
  split_ifs at hcycles <;> omega

/-- Every day is in a year. -/
theorem exists_year (day : Int) :
    ∃ year, ∃ first < yearLength year, day = newYear year + first := by
  have hera : ((day % daysInEra).toNat : Int) < newYear (400 : Nat) := by
    have hlength : newYear (400 : Nat) = 146097 := by decide
    unfold daysInEra
    omega
  obtain ⟨year, hyear, first, hfirst, hday⟩ := exists_year_of_lt le_rfl hera
  refine ⟨day / daysInEra * 400 + year, first, ?_, ?_⟩
  · rw [yearLength_era]
    exact hfirst
  · rw [newYear_era _ hyear]
    unfold daysInEra at *
    omega

/-! ### Months, March being 0 -/

/-- The number of a month in the year that starts in March. -/
def marchMonth (month : Nat) : Nat := if month < 3 then month + 9 else month - 3

/-- The year in which the year of a month started in March. -/
def marchYear (year : Int) (month : Nat) : Int := if month < 3 then year - 1 else year

/-- February lasts as long as the year, each other month till the next one starts. -/
theorem monthStart_add_daysIn (year : Int) {month : Nat} (h : 1 ≤ month ∧ month ≤ 12) :
    monthStart (marchMonth month) + daysIn year month =
      if month = 2 then yearLength (year - 1) else monthStart (marchMonth month + 1) := by
  by_cases hfebruary : month = 2
  · subst hfebruary
    simp only [daysIn, yearLength, sub_add_cancel, if_true]
    split_ifs <;> rfl
  · have hmonth : month = 1 ∨ 3 ≤ month ∧ month ≤ 12 := by omega
    rw [if_neg hfebruary]
    rcases hmonth with rfl | ⟨hlow, hhigh⟩
    · rfl
    · interval_cases month <;> rfl

theorem monthOfYear_add {month day : Nat}
    (hday : day < monthStart (month + 1) - monthStart month) :
    monthOfYear (monthStart month + day) = month := by
  unfold monthOfYear monthStart at *
  omega

theorem monthStart_le (day : Nat) : monthStart (monthOfYear day) ≤ day := by
  unfold monthOfYear monthStart
  omega

theorem lt_monthStart (day : Nat) : day < monthStart (monthOfYear day + 1) := by
  unfold monthOfYear monthStart
  omega

/-! ### The number of a minute -/

/-- The number of days before a date, counted from the start of 1970. -/
def dayNumber (year : Int) (month day : Nat) : Int :=
  newYear (marchYear year month) + monthStart (marchMonth month) + day - 1 - daysBeforeEpoch

/-- The number of minutes before a minute, counted from the start of 1970. -/
def number (m : Minute) : Int :=
  (dayNumber m.year m.month m.day * 24 + m.hour) * 60 + m.minute

theorem daysIn_pos (year : Int) (month : Nat) : 0 < daysIn year month := by
  unfold daysIn
  split_ifs <;> decide

variable {m : Minute}

theorem valid_next (h : m.Valid) : m.next.Valid := by
  obtain ⟨hmonth, hday, hhour, hminute⟩ := h
  unfold next
  split_ifs with hm hh hd hy
  · exact ⟨hmonth, hday, hhour, by simp only; omega⟩
  · exact ⟨hmonth, hday, by simp only; omega, by simp⟩
  · exact ⟨hmonth, ⟨by simp, hd⟩, by simp, by simp⟩
  · exact ⟨by simp only; omega, ⟨le_rfl, daysIn_pos _ _⟩, by simp, by simp⟩
  · exact ⟨by simp, ⟨le_rfl, daysIn_pos _ _⟩, by simp, by simp⟩

example : (⟨2000, 2, 28, 23, 59⟩ : Minute).next = ⟨2000, 2, 29, 0, 0⟩ := by decide

example : (⟨1900, 2, 28, 23, 59⟩ : Minute).next = ⟨1900, 3, 1, 0, 0⟩ := by decide

/-- The first of a month comes after the last day of the month before. -/
theorem dayNumber_month (year : Int) {month : Nat} (hfirst : 1 ≤ month) (hlast : month < 12) :
    dayNumber year (month + 1) 1 = dayNumber year month (daysIn year month) + 1 := by
  have hlength := monthStart_add_daysIn year ⟨hfirst, hlast.le⟩
  by_cases hfebruary : month = 2
  · subst hfebruary
    have hyear := newYear_succ (year - 1)
    rw [sub_add_cancel] at hyear
    rw [if_pos rfl] at hlength
    have hmarch : dayNumber year (2 + 1) 1 = newYear year + 0 + 1 - 1 - daysBeforeEpoch := rfl
    have hends : dayNumber year 2 (daysIn year 2) = newYear (year - 1) +
        monthStart (marchMonth 2) + daysIn year 2 - 1 - daysBeforeEpoch := rfl
    omega
  · have hmarch : marchMonth (month + 1) = marchMonth month + 1 := by
      unfold marchMonth
      split_ifs <;> omega
    have hyear : marchYear year (month + 1) = marchYear year month := by
      unfold marchYear
      split_ifs <;> omega
    rw [if_neg hfebruary] at hlength
    rw [dayNumber, dayNumber, hmarch, hyear]
    omega

theorem dayNumber_first (year : Int) :
    dayNumber year 1 1 = newYear (year - 1) + 306 - daysBeforeEpoch := by
  have hjanuary : dayNumber year 1 1 = newYear (year - 1) + 306 + 1 - 1 - daysBeforeEpoch := rfl
  rw [hjanuary, add_sub_cancel_right]

theorem dayNumber_year (year : Int) : dayNumber (year + 1) 1 1 = dayNumber year 12 31 + 1 := by
  have hdecember : dayNumber year 12 31 = newYear year + 275 + 31 - 1 - daysBeforeEpoch := rfl
  rw [dayNumber_first, add_sub_cancel_right, hdecember]
  omega

theorem number_next (h : m.Valid) : m.next.number = m.number + 1 := by
  obtain ⟨⟨hmonth, hmonth'⟩, ⟨hday, hday'⟩, hhour, hminute⟩ := h
  have hnextDay : dayNumber m.year m.month (m.day + 1) = dayNumber m.year m.month m.day + 1 := by
    unfold dayNumber
    omega
  unfold next number
  split_ifs with hm hh hd hy
  · simp only
    omega
  · simp only
    omega
  · simp only [hnextDay]
    omega
  · have hfull : m.day = daysIn m.year m.month := by omega
    simp only [dayNumber_month m.year hmonth hy, hfull]
    omega
  · have hdecember : m.month = 12 := by omega
    have hfull : m.day = 31 := by
      rw [hdecember] at hd hday'
      have hlength : daysIn m.year 12 = 31 := rfl
      omega
    simp only [dayNumber_year, hdecember, hfull]
    omega

/-- A day of a month is a day of the year that started in March. -/
theorem day_lt_yearLength {year : Int} {month day : Nat} (hmonth : 1 ≤ month ∧ month ≤ 12)
    (hday : 1 ≤ day ∧ day ≤ daysIn year month) :
    monthStart (marchMonth month) + (day - 1) < yearLength (marchYear year month) := by
  have hlength := monthStart_add_daysIn year hmonth
  split_ifs at hlength with hfebruary
  · rw [marchYear, if_pos (by omega)]
    omega
  · have hyear : 365 ≤ yearLength (marchYear year month) := by
      unfold yearLength
      split_ifs <;> omega
    have hstart : monthStart (marchMonth month + 1) ≤ 337 := by
      unfold monthStart marchMonth
      split_ifs <;> omega
    omega

/-- The month of a day is found. -/
theorem monthOfYear_eq {year : Int} {month day : Nat} (hmonth : 1 ≤ month ∧ month ≤ 12)
    (hday : 1 ≤ day ∧ day ≤ daysIn year month) :
    monthOfYear (monthStart (marchMonth month) + (day - 1)) = marchMonth month := by
  apply monthOfYear_add
  have hlength := monthStart_add_daysIn year hmonth
  split_ifs at hlength with hfebruary
  · have hfebruaryLength : monthStart (marchMonth month + 1) = 367 := by
      rw [hfebruary]
      rfl
    have hyear : yearLength (year - 1) ≤ 366 := by
      unfold yearLength
      split_ifs <;> omega
    omega
  · omega

/-- A number has one minute. -/
theorem number_injective {other : Minute} (h : m.Valid) (hother : other.Valid)
    (heq : m.number = other.number) : m = other := by
  have hhour := h.hour
  have hminute := h.minute
  have hhour' := hother.hour
  have hminute' := hother.minute
  unfold number at heq
  have hdate : dayNumber m.year m.month m.day =
      dayNumber other.year other.month other.day := by omega
  have hinside := day_lt_yearLength h.month h.day
  have hinside' := day_lt_yearLength hother.month hother.day
  have hday := h.day
  have hday' := hother.day
  obtain ⟨hyear, hofYear⟩ := year_unique hinside hinside' (by unfold dayNumber at hdate; omega)
  have hmonth : marchMonth m.month = marchMonth other.month := by
    rw [← monthOfYear_eq h.month h.day, hofYear, monthOfYear_eq hother.month hother.day]
  have hrange := h.month
  have hrange' := hother.month
  have hsame : m.month = other.month := by
    unfold marchMonth at hmonth
    split_ifs at hmonth <;> omega
  rw [hsame] at hyear hofYear
  have hyears : m.year = other.year := by
    unfold marchYear at hyear
    split_ifs at hyear <;> omega
  have hdays : m.day = other.day := by omega
  have hhours : m.hour = other.hour := by omega
  have hminutes : m.minute = other.minute := by omega
  cases m
  cases other
  rw [Minute.mk.injEq]
  exact ⟨hyears, hsame, hdays, hhours, hminutes⟩

/-- A date of a year comes after its start, and before that of the next year. -/
theorem dayNumber_bounds (year : Int) {month day : Nat} (hmonth : 1 ≤ month ∧ month ≤ 12)
    (hday : 1 ≤ day ∧ day ≤ daysIn year month) :
    dayNumber year 1 1 ≤ dayNumber year month day ∧
      dayNumber year month day < dayNumber (year + 1) 1 1 := by
  have hlength := monthStart_add_daysIn year hmonth
  have hbefore := newYear_succ (year - 1)
  have hinside := day_lt_yearLength hmonth hday
  have hyear : 365 ≤ yearLength (year - 1) ∧ yearLength (year - 1) ≤ 366 := by
    unfold yearLength
    split_ifs <;> omega
  rw [sub_add_cancel] at hbefore
  rw [dayNumber_first, dayNumber_first, add_sub_cancel_right, dayNumber]
  by_cases hearly : month < 3
  · have hmarch : 306 ≤ monthStart (marchMonth month) := by
      rw [marchMonth, if_pos hearly, monthStart]
      omega
    rw [marchYear, if_pos hearly] at *
    omega
  · have hend : monthStart (marchMonth month + 1) ≤ 306 := by
      rw [marchMonth, if_neg hearly, monthStart]
      omega
    rw [if_neg (by omega)] at hlength
    rw [marchYear, if_neg hearly]
    omega

theorem dayNumber_first_le {year later : Int} (h : year ≤ later) :
    dayNumber year 1 1 ≤ dayNumber later 1 1 := by
  have := newYear_le (show year - 1 ≤ later - 1 by omega)
  rw [dayNumber_first, dayNumber_first]
  omega

/-- The years from one to another are the minutes from the start of the one to the start of the
year after the other. -/
theorem year_mem_iff (h : m.Valid) {first last : Int} :
    first ≤ m.year ∧ m.year ≤ last ↔
      dayNumber first 1 1 * 1440 ≤ m.number ∧ m.number < dayNumber (last + 1) 1 1 * 1440 := by
  obtain ⟨hlow, hhigh⟩ := dayNumber_bounds m.year h.month h.day
  have hhour := h.hour
  have hminute := h.minute
  unfold number
  constructor
  · rintro ⟨hfirst, hlast⟩
    have := dayNumber_first_le hfirst
    have := dayNumber_first_le (show m.year + 1 ≤ last + 1 by omega)
    omega
  · rintro ⟨hfirst, hlast⟩
    constructor
    · by_contra hbefore
      have := dayNumber_first_le (show m.year + 1 ≤ first by omega)
      omega
    · by_contra hafter
      have := dayNumber_first_le (show last + 1 ≤ m.year by omega)
      omega

/-! ### The minute of a second -/

/-- An era is as long as its years. -/
theorem add_lt_daysInEra {year day : Nat} (h : year < 400) (hday : day < yearLength year) :
    yearStart year + day < daysInEra := by
  have hstart := newYear_era 0 h
  have hnext := newYear_succ year
  have hlast : newYear (year + 1) ≤ newYear 400 := newYear_le (by omega)
  have hera : newYear 400 = daysInEra := by decide
  rw [zero_mul, zero_mul, zero_add, zero_add] at hstart
  omega

/-- The minute of a second, by the year that started in March and the day of that year. -/
theorem ofSeconds_eq {seconds year : Int} {day : Nat} (hday : day < yearLength year)
    (h : seconds / 60 / 1440 + daysBeforeEpoch = newYear year + day) :
    ofSeconds seconds =
      { year := year + if monthOfYear day < 10 then 0 else 1
        month := if monthOfYear day < 10 then monthOfYear day + 3 else monthOfYear day - 9
        day := day - monthStart (monthOfYear day) + 1
        hour := (seconds / 60 % 1440).toNat / 60
        minute := (seconds / 60 % 1440).toNat % 60 } := by
  obtain ⟨rest, hrest⟩ : ∃ rest : Nat, year % 400 = rest := ⟨(year % 400).toNat, by omega⟩
  have hyear : year = year / 400 * 400 + rest := by omega
  have hshort : rest < 400 := by omega
  rw [hyear, yearLength_era] at hday
  rw [hyear, newYear_era _ hshort] at h
  have hinside := add_lt_daysInEra hshort hday
  have hera : (seconds / 60 / 1440 + daysBeforeEpoch) / daysInEra = year / 400 := by
    unfold daysInEra at *
    omega
  have hdayOfEra : ((seconds / 60 / 1440 + daysBeforeEpoch) % daysInEra).toNat =
      yearStart rest + day := by
    unfold daysInEra at *
    omega
  have hdiv (n : Int) {d : Int} (hd : 0 ≤ d) : n.fdiv d = n / d := Int.fdiv_eq_ediv_of_nonneg n hd
  have hmod (n : Int) {d : Int} (hd : 0 ≤ d) : n.fmod d = n % d := Int.fmod_eq_emod_of_nonneg n hd
  simp (disch := decide) only [ofSeconds, hdiv, hmod, hera, hdayOfEra, yearOfEra_add hshort hday,
    Nat.add_sub_cancel_left, ← hyear]

theorem marchMonth_eq {month : Nat} (h : month ≤ 11) :
    marchMonth (if month < 10 then month + 3 else month - 9) = month := by
  unfold marchMonth
  split_ifs <;> omega

theorem marchYear_eq (year : Int) {month : Nat} (h : month ≤ 11) :
    marchYear (year + if month < 10 then 0 else 1)
      (if month < 10 then month + 3 else month - 9) = year := by
  unfold marchYear
  split_ifs <;> omega

theorem monthOfYear_le {year : Int} {day : Nat} (hday : day < yearLength year) :
    monthOfYear day ≤ 11 := by
  have hyear : yearLength year ≤ 366 := by
    unfold yearLength
    split_ifs <;> omega
  unfold monthOfYear
  omega

theorem valid_ofSeconds (seconds : Int) : (ofSeconds seconds).Valid := by
  obtain ⟨year, day, hday, h⟩ := exists_year (seconds / 60 / 1440 + daysBeforeEpoch)
  rw [ofSeconds_eq hday h]
  have hmarch := monthOfYear_le hday
  have hstarted := monthStart_le day
  have hover := lt_monthStart day
  set march := monthOfYear day
  have hmonth : 1 ≤ (if march < 10 then march + 3 else march - 9) ∧
      (if march < 10 then march + 3 else march - 9) ≤ 12 := by
    split_ifs <;> omega
  have hlength := monthStart_add_daysIn (year + if march < 10 then 0 else 1) hmonth
  rw [marchMonth_eq hmarch] at hlength
  refine ⟨hmonth, ⟨by simp, ?_⟩, by simp only; omega, by simp only; omega⟩
  simp only
  by_cases hfebruary : march = 11
  · -- February ends with the year
    simp only [hfebruary, reduceIte, Nat.reduceLT, Nat.reduceSub, add_sub_cancel_right] at *
    omega
  · have hother : (if march < 10 then march + 3 else march - 9) ≠ 2 := by
      split_ifs <;> omega
    rw [if_neg hother] at hlength
    omega

theorem number_ofSeconds (seconds : Int) : (ofSeconds seconds).number = seconds / 60 := by
  obtain ⟨year, day, hday, h⟩ := exists_year (seconds / 60 / 1440 + daysBeforeEpoch)
  have hmarch := monthOfYear_le hday
  have hstarted := monthStart_le day
  rw [ofSeconds_eq hday h, number, dayNumber]
  simp only [marchMonth_eq hmarch, marchYear_eq year hmarch]
  omega

/-! ### Numbered minutes -/

theorem ofSeconds_next (seconds : Int) : (ofSeconds seconds).next = ofSeconds (seconds + 60) := by
  apply number_injective (valid_next (valid_ofSeconds _)) (valid_ofSeconds _)
  rw [number_next (valid_ofSeconds _), number_ofSeconds, number_ofSeconds]
  omega

end Minute

namespace Numbered

open Minute

variable {n other : Int} {m : Minute}

/-- A numbered minute is one of the calendar, and its number is computed from its parts. -/
theorem valid_and_number (h : Numbered n m) : m.Valid ∧ m.number = n := by
  induction h with
  | epoch => exact ⟨⟨by decide, by decide, by decide, by decide⟩, by decide⟩
  | later _ ih => exact ⟨valid_next ih.1, by rw [number_next ih.1, ih.2]⟩
  | earlier hvalid _ ih =>
    have hnext := number_next hvalid
    exact ⟨hvalid, by omega⟩

/-- The minute that starts with a second has the number of minutes before it. -/
theorem ofSeconds_mul (n : Int) : Numbered n (ofSeconds (60 * n)) := by
  induction n using Int.induction_on with
  | zero => exact epoch
  | succ n ih =>
    have hnext := ih.later
    rw [ofSeconds_next] at hnext
    rwa [mul_add]
  | pred n ih =>
    apply earlier (valid_ofSeconds _)
    rw [ofSeconds_next]
    have hsame : 60 * (-(n : Int) - 1) + 60 = 60 * -(n : Int) := by omega
    rwa [hsame, sub_add_cancel]

theorem unique {m' : Minute} (h : Numbered n m) (h' : Numbered n m') : m = m' := by
  obtain ⟨hvalid, hnumber⟩ := h.valid_and_number
  obtain ⟨hvalid', hnumber'⟩ := h'.valid_and_number
  exact number_injective hvalid hvalid' (hnumber.trans hnumber'.symm)

theorem number_unique (h : Numbered n m) (h' : Numbered other m) : n = other :=
  h.valid_and_number.2.symm.trans h'.valid_and_number.2

end Numbered

/-- **A second falls in the minute with the number of whole minutes before it.** -/
theorem numbered_ofSeconds (seconds : Int) :
    Numbered (seconds.fdiv 60) (Minute.ofSeconds seconds) := by
  rw [Int.fdiv_eq_ediv_of_nonneg _ (by decide)]
  have hsame : Minute.ofSeconds seconds = Minute.ofSeconds (60 * (seconds / 60)) := by
    apply Minute.number_injective (Minute.valid_ofSeconds _) (Minute.valid_ofSeconds _)
    rw [Minute.number_ofSeconds, Minute.number_ofSeconds]
    omega
  rw [hsame]
  exact .ofSeconds_mul _

end OperatorBundle
