import Mathlib.Data.Int.LeastGreatest
import Mathlib.Data.Prod.Lex
import Mathlib.Tactic.Ring
import Orc.Record

/-!
# Civil dates

Days are counted from 1970-01-01, and dates are those of the Gregorian calendar. The conversions
count days from 0000-03-01, so that the leap day ends the 400-year era and the months in front of it
have the same lengths in every year.

The program converts by a chain of divisions with magic constants. Rather than to verify the chain
division by division, `yearStart` counts the days before the first of March of a year, every day is
shown to lie in one year, and a day is converted to the date at that place of its year
(`daysToYmd_eq_civil`). After that the constants do not come up again: consecutive days have
consecutive dates (`daysToYmd_succ`) and the conversions are inverse to each other
(`ymdToDays_daysToYmd`, `daysToYmd_ymdToDays`).

`daysToYmd?` and `ymdToDays?` are the conversions in 64 bits, with an overflow as `none`: a release
build wraps where these give none, so a result about the program says that they do not. They
overflow at dates that no day number of 64 bits can be converted to, and at no others
(`ymdToDays?_eq_some_iff`).
-/

namespace Orc

def isLeap (year : ℤ) : Bool := year % 4 == 0 && (year % 100 != 0 || year % 400 == 0)

def daysInMonth (year : ℤ) (month : ℕ) : ℕ :=
  if month ∈ [1, 3, 5, 7, 8, 10, 12] then 31
  else if month ∈ [4, 6, 9, 11] then 30
  else if month = 2 then if isLeap year then 29 else 28
  else 0

/-- Days since 1970-01-01 to civil `(year, month, day)`. -/
def daysToYmd (days : ℤ) : ℤ × ℤ × ℤ :=
  let z := days + 719468
  let era := z / 146097
  let doe := z % 146097
  let yoe := (doe - doe / 1460 + doe / 36524 - doe / 146096) / 365
  let y := yoe + era * 400
  let doy := doe - (365 * yoe + yoe / 4 - yoe / 100)
  let mp := (5 * doy + 2) / 153
  let d := doy - (153 * mp + 2) / 5 + 1
  let m := if mp < 10 then mp + 3 else mp - 9
  (if m ≤ 2 then y + 1 else y, m, d)

/-- Civil `(year, month, day)` to days since 1970-01-01. -/
def ymdToDays (y m d : ℤ) : ℤ :=
  let y := if m ≤ 2 then y - 1 else y
  let era := y / 400
  let yoe := y % 400
  let mp := if m > 2 then m - 3 else m + 9
  let doy := (153 * mp + 2) / 5 + d - 1
  let doe := yoe * 365 + yoe / 4 - yoe / 100 + doy
  era * 146097 + doe - 719468

/-! ## The calendar -/

/-- A date of the calendar. -/
structure IsDate (y m d : ℤ) : Prop where
  month : 1 ≤ m ∧ m ≤ 12
  day : 1 ≤ d ∧ d ≤ daysInMonth y m.toNat

/-- The date after a date. -/
def nextDay : ℤ × ℤ × ℤ → ℤ × ℤ × ℤ
  | (y, m, d) =>
    if d < daysInMonth y m.toNat then (y, m, d + 1)
    else if m < 12 then (y, m + 1, 1)
    else (y + 1, 1, 1)

/-- Days from 0000-03-01 to the first of March of a year. -/
def yearStart (y : ℤ) : ℤ := 365 * y + y / 4 - y / 100 + y / 400

theorem isLeap_iff {y : ℤ} : isLeap y = true ↔ y % 4 = 0 ∧ (y % 100 ≠ 0 ∨ y % 400 = 0) := by
  simp [isLeap]

theorem yearStart_succ (y : ℤ) :
    yearStart (y + 1) = yearStart y + if isLeap (y + 1) then 366 else 365 := by
  unfold yearStart
  split_ifs with h
  · rw [isLeap_iff] at h
    omega
  · rw [isLeap_iff] at h
    omega

private theorem yearStart_mono {y y' : ℤ} (h : y ≤ y') : yearStart y ≤ yearStart y' := by
  refine monotone_int_of_le_succ (fun y ↦ ?_) h
  rw [yearStart_succ]
  split_ifs <;> omega

theorem yearStart_succ_le (y : ℤ) : yearStart (y + 1) ≤ yearStart y + 366 := by
  rw [yearStart_succ]
  split_ifs <;> omega

theorem yearStart_era (e y : ℤ) : yearStart (y + e * 400) = yearStart y + e * 146097 := by
  unfold yearStart
  omega

theorem exists_year (z : ℤ) : ∃ y, yearStart y ≤ z ∧ z < yearStart (y + 1) := by
  obtain ⟨y, hy, hmax⟩ := Int.exists_greatest_of_bdd (P := fun y ↦ yearStart y ≤ z)
    ⟨max z 0, fun y hy ↦ by unfold yearStart at hy; omega⟩
    ⟨min z 0, by unfold yearStart; omega⟩
  refine ⟨y, hy, not_le.1 fun hle ↦ ?_⟩
  have := hmax _ hle
  omega

/-! ## From days to dates -/

/-- The year within a 400-year era, from the day within it. -/
private def yearOfEra (doe : ℤ) : ℤ := (doe - doe / 1460 + doe / 36524 - doe / 146096) / 365

private theorem yearOfEra_eq {yoe doe : ℤ} (h0 : 0 ≤ yoe) (h1 : yoe < 400)
    (hlo : yearStart yoe ≤ doe) (hhi : doe < yearStart (yoe + 1)) : yearOfEra doe = yoe := by
  -- centuries, cycles of four years, and years
  obtain ⟨c, q, r, hc, hq, hr, rfl⟩ : ∃ c q r, (0 ≤ c ∧ c ≤ 3) ∧ (0 ≤ q ∧ q ≤ 24) ∧
      (0 ≤ r ∧ r ≤ 3) ∧ yoe = 100 * c + 4 * q + r :=
    ⟨yoe / 100, yoe % 100 / 4, yoe % 4, by omega, by omega, by omega, by omega⟩
  obtain ⟨doy, rfl⟩ : ∃ doy, doe = 36524 * c + 1461 * q + 365 * r + doy :=
    ⟨_, (add_sub_cancel _ _).symm⟩
  have hdoy : 0 ≤ doy ∧ doy ≤ 365 := by
    unfold yearStart at hlo hhi
    omega
  have hlast : doy = 365 → r = 3 ∧ (q < 24 ∨ c = 3) := by
    unfold yearStart at hlo hhi
    omega
  -- the last day of an era counts as a fifth century, and is taken back by the last quotient
  have hcent : (36524 * c + 1461 * q + 365 * r + doy) / 36524 -
      (36524 * c + 1461 * q + 365 * r + doy) / 146096 = c := by
    obtain rfl | rfl | rfl | rfl : c = 0 ∨ c = 1 ∨ c = 2 ∨ c = 3 := by omega
    all_goals omega
  unfold yearOfEra
  omega

/-- The date of a day of a year, both counted from March. -/
def civil (y doy : ℤ) : ℤ × ℤ × ℤ :=
  let mp := (5 * doy + 2) / 153
  let m := if mp < 10 then mp + 3 else mp - 9
  (if m ≤ 2 then y + 1 else y, m, doy - (153 * mp + 2) / 5 + 1)

private theorem era_of_year {z y : ℤ} (hlo : yearStart y ≤ z) (hhi : z < yearStart (y + 1)) :
    z / 146097 = y / 400 ∧ yearOfEra (z % 146097) = y % 400 ∧
      z % 146097 - (365 * (y % 400) + y % 400 / 4 - y % 400 / 100) = z - yearStart y := by
  have hera := yearStart_era (y / 400) (y % 400)
  have hera' := yearStart_era (y / 400) (y % 400 + 1)
  have hy : y % 400 + y / 400 * 400 = y := by omega
  have hy' : y % 400 + 1 + y / 400 * 400 = y + 1 := by omega
  rw [hy] at hera
  rw [hy'] at hera'
  have h0 : 0 ≤ y % 400 := Int.emod_nonneg _ (by decide)
  have h1 : y % 400 < 400 := Int.emod_lt_of_pos _ (by decide)
  -- the era is 146097 days long, and the year lies within it
  have hfirst : 0 ≤ yearStart (y % 400) := yearStart_mono h0
  have hlast : yearStart (y % 400 + 1) ≤ 146097 :=
    yearStart_mono (show y % 400 + 1 ≤ 400 by omega)
  have hdiv : z / 146097 = y / 400 := by omega
  refine ⟨hdiv, yearOfEra_eq h0 h1 (by omega) (by omega), ?_⟩
  have hstart : yearStart (y % 400) = 365 * (y % 400) + y % 400 / 4 - y % 400 / 100 := by
    unfold yearStart
    omega
  omega

/-- **The date of a day** is the one at its place in its year. -/
theorem daysToYmd_eq_civil {days y : ℤ} (hlo : yearStart y ≤ days + 719468)
    (hhi : days + 719468 < yearStart (y + 1)) :
    daysToYmd days = civil y (days + 719468 - yearStart y) := by
  obtain ⟨hdiv, hyear, hdoy⟩ := era_of_year hlo hhi
  have hy : y % 400 + y / 400 * 400 = y := by omega
  unfold yearOfEra at hyear
  simp only [daysToYmd, civil, hyear, hdiv, hy, hdoy]

/-! ## Months

Counted from March, month `mp` begins after `(153 * mp + 2) / 5` days of the year. -/

/-- The year of a date, counted from March. -/
private def marchYear (y m : ℤ) : ℤ := if m ≤ 2 then y - 1 else y

/-- The month of a date, counted from March. -/
private def marchMonth (m : ℤ) : ℤ := if m > 2 then m - 3 else m + 9

/-- The day of the year of a date, counted from March. -/
private def dayOfYear (m d : ℤ) : ℤ := (153 * marchMonth m + 2) / 5 + d - 1

private theorem daysInMonth_eq (y : ℤ) {m : ℤ} (hm : 1 ≤ m ∧ m ≤ 12) (hne : m ≠ 2) :
    (daysInMonth y m.toNat : ℤ) =
      (153 * (marchMonth m + 1) + 2) / 5 - (153 * marchMonth m + 2) / 5 := by
  obtain rfl | rfl | rfl | rfl | rfl | rfl | rfl | rfl | rfl | rfl | rfl : m = 1 ∨ m = 3 ∨ m = 4 ∨
    m = 5 ∨ m = 6 ∨ m = 7 ∨ m = 8 ∨ m = 9 ∨ m = 10 ∨ m = 11 ∨ m = 12 := by omega
  all_goals rfl

private theorem daysInMonth_february (y : ℤ) :
    (daysInMonth y (2 : ℤ).toNat : ℤ) = if isLeap y then 29 else 28 := by
  cases h : isLeap y <;> simp [daysInMonth, h]

private theorem dayOfYear_bounds {y m d : ℤ} (h : IsDate y m d) :
    0 ≤ dayOfYear m d ∧
      yearStart (marchYear y m) + dayOfYear m d < yearStart (marchYear y m + 1) := by
  obtain ⟨hmonth, hlo, hhi⟩ := h
  rw [yearStart_succ]
  by_cases hm : m = 2
  · subst hm
    have hyear : marchYear y 2 + 1 = y := sub_add_cancel y 1
    have hstart : dayOfYear 2 d = 337 + d - 1 := rfl
    rw [daysInMonth_february] at hhi
    rw [hyear, hstart]
    split_ifs at hhi ⊢ <;> omega
  · -- all other months end before February begins
    rw [daysInMonth_eq y hmonth hm] at hhi
    have hmp : 0 ≤ marchMonth m ∧ marchMonth m ≤ 10 := by
      unfold marchMonth
      omega
    unfold dayOfYear
    split_ifs <;> omega

private theorem civil_dayOfYear {y m d : ℤ} (h : IsDate y m d) :
    civil (marchYear y m) (dayOfYear m d) = (y, m, d) := by
  obtain ⟨hmonth, hlo, hhi⟩ := h
  have hlen : (daysInMonth y m.toNat : ℤ) ≤
      (153 * (marchMonth m + 1) + 2) / 5 - (153 * marchMonth m + 2) / 5 := by
    by_cases hm : m = 2
    · subst hm
      rw [daysInMonth_february]
      have hmp : marchMonth 2 = 11 := rfl
      split_ifs <;> omega
    · exact (daysInMonth_eq y hmonth hm).le
  have hmp : (5 * dayOfYear m d + 2) / 153 = marchMonth m := by
    unfold dayOfYear
    omega
  have hback : (if marchMonth m < 10 then marchMonth m + 3 else marchMonth m - 9) = m := by
    unfold marchMonth
    split_ifs <;> omega
  have hyear : (if m ≤ 2 then marchYear y m + 1 else marchYear y m) = y := by
    unfold marchYear
    split_ifs <;> omega
  have hday : dayOfYear m d - (153 * marchMonth m + 2) / 5 + 1 = d := by
    unfold dayOfYear
    omega
  simp only [civil, hmp, hback, hyear, hday]

private theorem marchMonth_month {mp : ℤ} (h0 : 0 ≤ mp) (h1 : mp < 12) :
    marchMonth (if mp < 10 then mp + 3 else mp - 9) = mp := by
  unfold marchMonth
  split_ifs <;> omega

private theorem isDate_civil {y doy : ℤ} (h0 : 0 ≤ doy)
    (h1 : yearStart y + doy < yearStart (y + 1)) :
    IsDate (civil y doy).1 (civil y doy).2.1 (civil y doy).2.2 := by
  rw [yearStart_succ] at h1
  have hdoy : doy < 366 := by
    split_ifs at h1 <;> omega
  by_cases hfeb : (5 * doy + 2) / 153 = 11
  · have hciv : civil y doy = (y + 1, 2, doy - 337 + 1) := by
      simp only [civil, hfeb]
      rfl
    rw [hciv]
    dsimp only
    refine ⟨by decide, ?_⟩
    rw [daysInMonth_february]
    split_ifs at h1 ⊢ <;> omega
  · generalize hmp : (5 * doy + 2) / 153 = mp at hfeb
    have hm : 1 ≤ (if mp < 10 then mp + 3 else mp - 9) ∧
        (if mp < 10 then mp + 3 else mp - 9) ≤ 12 := by
      split_ifs <;> omega
    have hne : (if mp < 10 then mp + 3 else mp - 9) ≠ 2 := by
      split_ifs <;> omega
    simp only [civil, hmp]
    refine ⟨hm, ?_⟩
    rw [daysInMonth_eq _ hm hne, marchMonth_month (by omega) (by omega)]
    omega

private theorem dayOfYear_civil {y doy : ℤ} (h0 : 0 ≤ doy) (h1 : doy < 366) :
    marchYear (civil y doy).1 (civil y doy).2.1 = y ∧
      dayOfYear (civil y doy).2.1 (civil y doy).2.2 = doy := by
  generalize hmp : (5 * doy + 2) / 153 = mp
  simp only [civil, hmp]
  constructor
  · unfold marchYear
    split_ifs <;> omega
  · unfold dayOfYear
    rw [marchMonth_month (by omega) (by omega)]
    omega

/-! ## The conversions -/

theorem ymdToDays_eq (y m d : ℤ) :
    ymdToDays y m d = yearStart (marchYear y m) + dayOfYear m d - 719468 := by
  have hera := yearStart_era (marchYear y m / 400) (marchYear y m % 400)
  have hy : marchYear y m % 400 + marchYear y m / 400 * 400 = marchYear y m := by omega
  rw [hy] at hera
  have hstart : yearStart (marchYear y m % 400) = marchYear y m % 400 * 365 +
      marchYear y m % 400 / 4 - marchYear y m % 400 / 100 := by
    unfold yearStart
    omega
  rw [hera, hstart]
  simp only [ymdToDays, marchYear, dayOfYear, marchMonth]
  omega

/-- **A date is converted to its day and back.** -/
theorem daysToYmd_ymdToDays {y m d : ℤ} (h : IsDate y m d) :
    daysToYmd (ymdToDays y m d) = (y, m, d) := by
  obtain ⟨hlo, hhi⟩ := dayOfYear_bounds h
  have hdays := ymdToDays_eq y m d
  rw [daysToYmd_eq_civil (y := marchYear y m) (by omega) (by omega)]
  have hdoy : ymdToDays y m d + 719468 - yearStart (marchYear y m) = dayOfYear m d := by omega
  rw [hdoy, civil_dayOfYear h]

/-- What a day is converted to is a date. -/
theorem isDate_daysToYmd (days : ℤ) :
    IsDate (daysToYmd days).1 (daysToYmd days).2.1 (daysToYmd days).2.2 := by
  obtain ⟨y, hlo, hhi⟩ := exists_year (days + 719468)
  rw [daysToYmd_eq_civil hlo hhi]
  exact isDate_civil (by omega) (by omega)

/-- **A day is converted to its date and back.** -/
theorem ymdToDays_daysToYmd (days : ℤ) :
    ymdToDays (daysToYmd days).1 (daysToYmd days).2.1 (daysToYmd days).2.2 = days := by
  obtain ⟨y, hlo, hhi⟩ := exists_year (days + 719468)
  rw [daysToYmd_eq_civil hlo hhi, ymdToDays_eq]
  have hlen := yearStart_succ_le y
  obtain ⟨hyear, hday⟩ := dayOfYear_civil (y := y) (sub_nonneg.2 hlo) (by omega)
  rw [hyear, hday]
  omega

private theorem isDate_nextDay {y m d : ℤ} (h : IsDate y m d) :
    IsDate (nextDay (y, m, d)).1 (nextDay (y, m, d)).2.1 (nextDay (y, m, d)).2.2 := by
  obtain ⟨hmonth, hlo, hhi⟩ := h
  have hfirst : ∀ y m, 1 ≤ m → m ≤ 12 → IsDate y m 1 := by
    intro y m h1 h12
    refine ⟨⟨h1, h12⟩, le_rfl, ?_⟩
    by_cases hm : m = 2
    · subst hm
      rw [daysInMonth_february]
      split_ifs <;> decide
    · rw [daysInMonth_eq y ⟨h1, h12⟩ hm]
      omega
  simp only [nextDay]
  split_ifs with hd hm
  · dsimp only
    exact ⟨hmonth, by omega, by omega⟩
  · exact hfirst y (m + 1) (by omega) (by omega)
  · exact hfirst (y + 1) 1 le_rfl (by decide)

private theorem ymdToDays_nextDay {y m d : ℤ} (h : IsDate y m d) :
    ymdToDays (nextDay (y, m, d)).1 (nextDay (y, m, d)).2.1 (nextDay (y, m, d)).2.2 =
      ymdToDays y m d + 1 := by
  obtain ⟨hmonth, hlo, hhi⟩ := h
  have hlast : ¬ d < daysInMonth y m.toNat → d = daysInMonth y m.toNat := fun hd ↦ by omega
  simp only [nextDay]
  split_ifs with hd hm
  · simp only [ymdToDays_eq, dayOfYear]
    omega
  · simp only [ymdToDays_eq]
    by_cases hfeb : m = 2
    · -- the year counted from March ends with February
      subst hfeb
      have hstart := yearStart_succ (y - 1)
      rw [sub_add_cancel] at hstart
      have hd := hlast hd
      rw [daysInMonth_february] at hd
      have hfeb : yearStart (marchYear y 2) + dayOfYear 2 d =
          yearStart (y - 1) + (337 + d - 1) := rfl
      have hmarch : yearStart (marchYear y (2 + 1)) + dayOfYear (2 + 1) 1 = yearStart y + 0 := rfl
      rw [hfeb, hmarch]
      split_ifs at hstart hd <;> omega
    · have hd := hlast hd
      rw [daysInMonth_eq y hmonth hfeb] at hd
      have hyear : marchYear y (m + 1) = marchYear y m := by
        unfold marchYear
        split_ifs <;> omega
      have hnext : marchMonth (m + 1) = marchMonth m + 1 := by
        unfold marchMonth
        split_ifs <;> omega
      rw [hyear, dayOfYear, dayOfYear, hnext]
      omega
  · obtain rfl : m = 12 := by omega
    have hd : d = 31 := hlast hd
    have hyear : marchYear (y + 1) 1 = y := add_sub_cancel_right y 1
    rw [ymdToDays_eq, ymdToDays_eq, hd, hyear]
    have hdec : yearStart (marchYear y 12) + dayOfYear 12 31 = yearStart y + 305 := rfl
    have hjan : dayOfYear 1 1 = 306 := rfl
    dsimp only
    omega

/-- **Consecutive days have consecutive dates.** -/
theorem daysToYmd_succ (days : ℤ) : daysToYmd (days + 1) = nextDay (daysToYmd days) := by
  have hdate := isDate_daysToYmd days
  have hdays := ymdToDays_daysToYmd days
  generalize daysToYmd days = date at hdate hdays ⊢
  obtain ⟨y, m, d⟩ := date
  rw [← hdays, ← ymdToDays_nextDay hdate, daysToYmd_ymdToDays (isDate_nextDay hdate)]

/-! ## The order of dates -/

/-- Dates as they are ordered. -/
def dateOrd (date : ℤ × ℤ × ℤ) : ℤ ×ₗ ℤ ×ₗ ℤ := toLex (date.1, toLex date.2)

private theorem dateOrd_lt_nextDay (date : ℤ × ℤ × ℤ) : dateOrd date < dateOrd (nextDay date) := by
  obtain ⟨y, m, d⟩ := date
  simp only [nextDay, dateOrd]
  split_ifs
  · exact Prod.Lex.toLex_lt_toLex.2
      (.inr ⟨rfl, Prod.Lex.toLex_lt_toLex.2 (.inr ⟨rfl, lt_add_one d⟩)⟩)
  · exact Prod.Lex.toLex_lt_toLex.2 (.inr ⟨rfl, Prod.Lex.toLex_lt_toLex.2 (.inl (lt_add_one m))⟩)
  · exact Prod.Lex.toLex_lt_toLex.2 (.inl (lt_add_one y))

/-- **Later days have later dates.** -/
theorem dateOrd_daysToYmd_lt {days days' : ℤ} (h : days < days') :
    dateOrd (daysToYmd days) < dateOrd (daysToYmd days') := by
  have hstrict : StrictMono fun days ↦ dateOrd (daysToYmd days) :=
    strictMono_int_of_lt_succ fun days ↦ by
      rw [daysToYmd_succ]
      exact dateOrd_lt_nextDay _
  exact hstrict h

theorem daysToYmd_year_mono {days days' : ℤ} (h : days ≤ days') :
    (daysToYmd days).1 ≤ (daysToYmd days').1 := by
  rcases h.eq_or_lt with rfl | h
  · exact le_rfl
  · rcases Prod.Lex.toLex_lt_toLex.1 (dateOrd_daysToYmd_lt h) with hlt | ⟨heq, -⟩
    · exact hlt.le
    · exact heq.le

/-- No date of an unsigned timestamp lies before the epoch year. -/
theorem daysToYmd_year_ge {days : ℤ} (h : 0 ≤ days) : 1970 ≤ (daysToYmd days).1 :=
  daysToYmd_year_mono h

theorem IsDate.day_le {y m d : ℤ} (h : IsDate y m d) : d ≤ 31 := by
  have hle := h.day.2
  by_cases hm : m = 2
  · subst hm
    rw [daysInMonth_february] at hle
    split_ifs at hle <;> omega
  · rw [daysInMonth_eq y h.month hm] at hle
    omega

/-! ## In 64 bits -/

/-- A value of an `i64`; `none` is an overflow. -/
def i64 (x : ℤ) : Option ℤ := if -2 ^ 63 ≤ x ∧ x < 2 ^ 63 then some x else none

/-- `daysToYmd` with every operation checked. A quotient by a positive number cannot overflow. -/
def daysToYmd? (days : ℤ) : Option (ℤ × ℤ × ℤ) := do
  let z ← i64 (days + 719468)
  let era := z / 146097
  let doe := z % 146097
  let leaps ← i64 (doe - doe / 1460)
  let leaps ← i64 (leaps + doe / 36524)
  let leaps ← i64 (leaps - doe / 146096)
  let yoe := leaps / 365
  let y ← i64 (yoe + (← i64 (era * 400)))
  let start ← i64 ((← i64 (365 * yoe)) + yoe / 4)
  let start ← i64 (start - yoe / 100)
  let doy ← i64 (doe - start)
  let mp := (← i64 ((← i64 (5 * doy)) + 2)) / 153
  let d ← i64 (doy - (← i64 ((← i64 (153 * mp)) + 2)) / 5)
  let d ← i64 (d + 1)
  let m ← i64 (if mp < 10 then mp + 3 else mp - 9)
  let y ← i64 (y + if m ≤ 2 then 1 else 0)
  return (y, m, d)

/-- `ymdToDays` with every operation checked. -/
def ymdToDays? (y m d : ℤ) : Option ℤ := do
  let y ← i64 (y - if m ≤ 2 then 1 else 0)
  let era := y / 400
  let yoe := y % 400
  let mp := if m > 2 then m - 3 else m + 9
  let doy ← i64 ((← i64 ((← i64 (153 * mp)) + 2)) / 5 + d)
  let doy ← i64 (doy - 1)
  let doe ← i64 ((← i64 (yoe * 365)) + yoe / 4)
  let doe ← i64 (doe - yoe / 100)
  let doe ← i64 (doe + doy)
  let days ← i64 ((← i64 (era * 146097)) + doe)
  i64 (days - 719468)

private theorem i64_eq_some {x : ℤ} (h : -2 ^ 63 ≤ x ∧ x < 2 ^ 63) : i64 x = some x := if_pos h

theorem i64_bind {α : Type} {x : ℤ} (h : -2 ^ 63 ≤ x ∧ x < 2 ^ 63) (f : ℤ → Option α) :
    (i64 x >>= f) = f x := by
  rw [i64_eq_some h]
  rfl

/-- The days that can be converted: the shift to 0000-03-01 must not overflow. -/
theorem daysToYmd?_eq {days : ℤ} (h : -2 ^ 63 ≤ days) :
    daysToYmd? days = if days + 719468 < 2 ^ 63 then some (daysToYmd days) else none := by
  split_ifs with hmax
  · obtain ⟨y, hlo, hhi⟩ := exists_year (days + 719468)
    obtain ⟨-, hyear, hdoy⟩ := era_of_year hlo hhi
    have hfirst : 0 ≤ days + 719468 - yearStart y := sub_nonneg.2 hlo
    have hlast : days + 719468 - yearStart y < 366 := by
      have := yearStart_succ_le y
      omega
    have h0 : 0 ≤ (days + 719468) % 146097 := Int.emod_nonneg _ (by decide)
    have h1 : (days + 719468) % 146097 < 146097 := Int.emod_lt_of_pos _ (by decide)
    have hera : -2 ^ 62 < (days + 719468) / 146097 * 400 ∧
        (days + 719468) / 146097 * 400 < 2 ^ 62 := by omega
    have hyoe0 : 0 ≤ y % 400 := Int.emod_nonneg _ (by decide)
    have hyoe1 : y % 400 < 400 := Int.emod_lt_of_pos _ (by decide)
    unfold yearOfEra at hyear
    rw [daysToYmd?, daysToYmd]
    refine (i64_bind ⟨by omega, hmax⟩ _).trans ?_
    dsimp only
    generalize (days + 719468) / 146097 = era at *
    generalize (days + 719468) % 146097 = doe at *
    iterate 3 refine (i64_bind (by omega) _).trans ?_
    rw [hyear, hdoy]
    generalize y % 400 = yoe at *
    generalize days + 719468 - yearStart y = doy at *
    iterate 6 refine (i64_bind (by omega) _).trans ?_
    rw [hdoy]
    iterate 2 refine (i64_bind (by omega) _).trans ?_
    have hmp : 0 ≤ (5 * doy + 2) / 153 ∧ (5 * doy + 2) / 153 ≤ 11 := by omega
    generalize (5 * doy + 2) / 153 = mp at *
    iterate 4 refine (i64_bind (by omega) _).trans ?_
    generalize hmonth : (if mp < 10 then mp + 3 else mp - 9) = m
    refine (i64_bind (by split_ifs at hmonth <;> omega) _).trans ?_
    refine (i64_bind (by split_ifs <;> omega) _).trans ?_
    split_ifs
    · rfl
    · rw [add_zero]
      rfl
  · have hz : i64 (days + 719468) = none := if_neg fun hmem ↦ hmax hmem.2
    rw [daysToYmd?, hz]
    rfl

theorem daysToYmd?_eq_some {days : ℤ} {date : ℤ × ℤ × ℤ} (h : -2 ^ 63 ≤ days)
    (hsome : daysToYmd? days = some date) : days + 719468 < 2 ^ 63 ∧ daysToYmd days = date := by
  rw [daysToYmd?_eq h] at hsome
  split_ifs at hsome with hmax
  exact ⟨hmax, Option.some.inj hsome⟩

theorem i64_eq_some_iff {x n : ℤ} : i64 x = some n ↔ (-2 ^ 63 ≤ x ∧ x < 2 ^ 63) ∧ x = n := by
  unfold i64
  split_ifs with h
  · rw [Option.some.injEq]
    exact ⟨fun heq ↦ ⟨h, heq⟩, And.right⟩
  · exact ⟨nofun, fun hn ↦ absurd hn.1 h⟩

/-- The dates that can be converted are those of the days that can. -/
theorem ymdToDays?_eq_some_iff {y m d n : ℤ} (h : IsDate y m d) :
    ymdToDays? y m d = some n ↔
      (-2 ^ 63 ≤ n ∧ n + 719468 < 2 ^ 63) ∧ ymdToDays y m d = n := by
  have hyear : (y - if m ≤ 2 then 1 else 0) = if m ≤ 2 then y - 1 else y := by
    split_ifs <;> omega
  constructor
  · intro hsome
    simp only [ymdToDays?, Option.bind_eq_bind, Option.bind_eq_some_iff, i64_eq_some_iff, hyear]
      at hsome
    obtain ⟨_, ⟨-, rfl⟩, _, ⟨-, rfl⟩, _, ⟨-, rfl⟩, _, ⟨-, rfl⟩, _, ⟨-, rfl⟩, _, ⟨-, rfl⟩, _,
      ⟨-, rfl⟩, _, ⟨-, rfl⟩, _, ⟨-, rfl⟩, _, ⟨-, rfl⟩, _, ⟨hdays, rfl⟩, hlast, rfl⟩ := hsome
    exact ⟨⟨hlast.1, by omega⟩, rfl⟩
  · rintro ⟨hrange, hn⟩
    obtain ⟨hdoy0, hdoy1⟩ := dayOfYear_bounds h
    have hlen : dayOfYear m d < 366 := by
      have := yearStart_succ_le (marchYear y m)
      omega
    simp only [ymdToDays] at hn
    unfold dayOfYear marchMonth at hdoy0 hlen
    have hmonth := h.month
    have hday := h.day.1
    rw [ymdToDays?, hyear]
    generalize (if m ≤ 2 then y - 1 else y) = y' at *
    have hmp : 0 ≤ (if m > 2 then m - 3 else m + 9) ∧ (if m > 2 then m - 3 else m + 9) ≤ 11 := by
      split_ifs <;> omega
    generalize (if m > 2 then m - 3 else m + 9) = mp at *
    have h0 : 0 ≤ y' % 400 := Int.emod_nonneg _ (by decide)
    have h1 : y' % 400 < 400 := Int.emod_lt_of_pos _ (by decide)
    refine (i64_bind (by omega) _).trans ?_
    dsimp only
    generalize y' / 400 = era at *
    generalize y' % 400 = yoe at *
    iterate 10 refine (i64_bind (by omega) _).trans ?_
    exact i64_eq_some_iff.2 ⟨by omega, hn⟩

end Orc
