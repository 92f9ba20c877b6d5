import Orc.Bytes.Text
import Orc.Calendar

/-!
# Hour partitions

Timestamps are epoch microseconds, UTC. `hourPartition` names the directory of the hour a timestamp
falls in: one name for one hour, and up to the year 9999 names in the order of the hours.

The order is what a reader relies on who selects partitions by name. It ends at the year 9999, where
a year gets a fifth digit and would sort before; the names stay distinct beyond it. The calendar is
in `Orc.Calendar`, and what the parser of timestamps accepts is the subject of `Orc.Timestamp`; the
config gives the lower end of the accept window as such a text.
-/

namespace Orc

open Text Bytes

def usPerSec : ℕ := 1000000

/-- Also the width of one `hour=` partition. -/
def usPerHour : ℕ := 3600 * usPerSec

def usPerDay : ℕ := 24 * usPerHour

def minYear : ℕ := 1970

def maxYear : ℕ := 250000

/-- The characters of `hour=YYYY-MM-DDTHH`. -/
def partitionText (y m d h : ℕ) : List Char :=
  "hour=".toList ++ (pad 4 y ++ ('-' :: pad 2 m ++ ('-' :: pad 2 d ++ 'T' :: pad 2 h)))

/-- Hive partition directory name. The year of an unsigned timestamp is not negative, so it prints
as a natural number. -/
def hourPartition (ts : ℕ) : String :=
  let (y, m, d) := daysToYmd (ts / usPerDay : ℕ)
  String.ofList (partitionText y.toNat m.toNat d.toNat (ts % usPerDay / usPerHour))

/-! ## Parsing timestamps -/

/-- The next field of a date or time, as an `i64`. -/
def nextNum (parts : List (List Char)) (what whole : String) :
    Except Error (ℕ × List (List Char)) :=
  match parts with
  | [] => .error (.config (.timestamp whole ("missing " ++ what)))
  | raw :: rest =>
    match parseDec raw with
    | none => .error (.config (.notANumber whole what (String.ofList raw)))
    | some n =>
      if n < 2 ^ 63 then .ok (n, rest)
      else .error (.config (.timestamp whole (what ++ " out of range")))

/-- The fraction of a second, in microseconds. -/
def parseFraction (whole : String) (frac : List Char) : Except Error ℕ :=
  match parseDec frac with
  | some n =>
    if frac.length ≤ 6 then .ok (n * 10 ^ (6 - frac.length))
    else .error (.config (.timestamp whole "fractional seconds must be 1-6 digits"))
  | none => .error (.config (.timestamp whole "fractional seconds must be 1-6 digits"))

/-- Parse `YYYY-MM-DDTHH:MM:SS[.ffffff]Z` into epoch microseconds. -/
def parseRfc3339Utc (s : String) : Except Error ℕ := do
  let bad (why : String) : Error := .config (.timestamp s why)
  let some rest := stripSuffix ['Z'] s.toList
    | throw (bad "must end with 'Z'; only UTC is accepted")
  let some (date, rest) := splitOnce 'T' rest
    | throw (bad "expected YYYY-MM-DDTHH:MM:SSZ")
  let (y, dparts) ← nextNum (date.splitOn '-') "year" s
  let (mo, dparts) ← nextNum dparts "month" s
  let (d, dparts) ← nextNum dparts "day" s
  if !dparts.isEmpty then
    throw (bad "too many '-' separated fields in the date")
  if y < minYear ∨ maxYear < y then
    throw (bad ("year out of range; must be 1970..=250000 (timestamps are unsigned " ++
      "epoch microseconds, so there is nothing before 1970 to represent)"))
  if mo < 1 ∨ 12 < mo then
    throw (bad "month out of range")
  if d < 1 ∨ daysInMonth y mo < d then
    throw (bad ("day " ++ toString d ++ " is out of range for month " ++ toString mo ++ " of " ++
      toString y))
  let (time, frac) ← match splitOnce '.' rest with
    | none => pure (rest, 0)
    | some (t, frac) => do
      let us ← parseFraction s frac
      pure (t, us)
  let (h, tparts) ← nextNum (time.splitOn ':') "hour" s
  let (mi, tparts) ← nextNum tparts "minute" s
  let (sec, tparts) ← nextNum tparts "second" s
  if !tparts.isEmpty then
    throw (bad "too many ':' separated fields in the time")
  if 23 < h ∨ 59 < mi ∨ 59 < sec then
    throw (bad "hour, minute or second out of range")
  let days := (ymdToDays y mo d).toNat
  return days * usPerDay + h * usPerHour + mi * 60 * usPerSec + sec * usPerSec + frac

example : parseRfc3339Utc "2000-01-01T00:00:00.5Z" = .ok 946684800500000 := by decide +kernel

example : hourPartition 1786194000000000 = "hour=2026-08-08T13" := by decide +kernel

/-! ## Hours and partitions -/

private theorem hourPartition_eq (ts : ℕ) {y m d : ℤ}
    (h : daysToYmd (ts / usPerDay : ℕ) = (y, m, d)) :
    hourPartition ts =
      String.ofList (partitionText y.toNat m.toNat d.toNat (ts % usPerDay / usPerHour)) := by
  unfold hourPartition
  rw [h]

/-- The fields of a partition name are determined by its text: the three short fields have a fixed
width, and the year is what is left in front. -/
private theorem partitionText_inj {y y' m m' d d' h h' : ℕ} (hm : m < 100) (hm' : m' < 100)
    (hd : d < 100) (hd' : d' < 100) (hh : h < 100) (hh' : h' < 100)
    (heq : partitionText y m d h = partitionText y' m' d' h') :
    y = y' ∧ m = m' ∧ d = d' ∧ h = h' := by
  have hlen : ∀ {n : ℕ}, n < 100 → (pad 2 n).length = 2 := fun hn ↦ length_pad (by decide) hn
  obtain ⟨hy, hrest⟩ := List.append_inj' (List.append_cancel_left heq) (by
    simp only [List.length_append, List.length_cons, hlen hm, hlen hm', hlen hd, hlen hd', hlen hh,
      hlen hh'])
  obtain ⟨hmeq, hrest⟩ := List.append_inj hrest (by
    simp only [List.length_cons, hlen hm, hlen hm'])
  obtain ⟨hdeq, hrest⟩ := List.append_inj hrest (by
    simp only [List.length_cons, hlen hd, hlen hd'])
  exact ⟨pad_injective 4 hy, pad_injective 2 (List.cons.inj hmeq).2,
    pad_injective 2 (List.cons.inj hdeq).2, pad_injective 2 (List.cons.inj hrest).2⟩

private theorem day_and_hour (ts : ℕ) :
    ts / usPerDay = ts / usPerHour / 24 ∧ ts % usPerDay / usPerHour = ts / usPerHour % 24 := by
  have hday : usPerDay = usPerHour * 24 := rfl
  rw [hday, Nat.div_div_eq_div_mul, Nat.mod_mul_right_div_self]
  exact ⟨rfl, rfl⟩

private theorem fields_of_ts (ts : ℕ) : ∃ y m d : ℤ, daysToYmd (ts / usPerDay : ℕ) = (y, m, d) ∧
    hourPartition ts =
      String.ofList (partitionText y.toNat m.toNat d.toNat (ts % usPerDay / usPerHour)) ∧
    1970 ≤ y ∧ (1 ≤ m ∧ m ≤ 12) ∧ (1 ≤ d ∧ d ≤ 31) ∧ ts % usPerDay / usPerHour < 24 := by
  -- the fields of a partition name: the civil date and the hour of the day
  have hdate := isDate_daysToYmd (ts / usPerDay : ℕ)
  have hyear := daysToYmd_year_ge (Int.natCast_nonneg (ts / usPerDay))
  rcases hymd : daysToYmd (ts / usPerDay : ℕ) with ⟨y, m, d⟩
  rw [hymd] at hdate hyear
  refine ⟨y, m, d, rfl, hourPartition_eq ts hymd, hyear, hdate.month,
    ⟨hdate.day.1, hdate.day_le⟩, ?_⟩
  rw [(day_and_hour ts).2]
  exact Nat.mod_lt _ (by decide)

/-- **Distinct hours have distinct partitions.** -/
theorem hourPartition_inj {ts ts' : ℕ} :
    hourPartition ts = hourPartition ts' ↔ ts / usPerHour = ts' / usPerHour := by
  obtain ⟨hday, hhour⟩ := day_and_hour ts
  obtain ⟨hday', hhour'⟩ := day_and_hour ts'
  constructor
  · intro heq
    obtain ⟨y, m, d, hymd, hname, hy, hm, hd, hh⟩ := fields_of_ts ts
    obtain ⟨y', m', d', hymd', hname', hy', hm', hd', hh'⟩ := fields_of_ts ts'
    rw [hname, hname', String.ofList_inj] at heq
    obtain ⟨heqy, heqm, heqd, heqh⟩ := partitionText_inj (by omega) (by omega) (by omega) (by omega)
      (by omega) (by omega) heq
    obtain rfl : y = y' := by omega
    obtain rfl : m = m' := by omega
    obtain rfl : d = d' := by omega
    have hdays := ymdToDays_daysToYmd (ts / usPerDay : ℕ)
    rw [hymd, ← hymd', ymdToDays_daysToYmd] at hdays
    omega
  · intro heq
    rw [hourPartition, hourPartition, hday, hday', hhour, hhour', heq]

private theorem partitionText_lt {y y' m m' d d' h h' : ℕ} (hy : y < 10 ^ 4) (hy' : y' < 10 ^ 4)
    (hm : m < 10 ^ 2) (hm' : m' < 10 ^ 2) (hd : d < 10 ^ 2) (hd' : d' < 10 ^ 2) (hh' : h' < 10 ^ 2)
    (hlt : y < y' ∨ y = y' ∧ (m < m' ∨ m = m' ∧ (d < d' ∨ d = d' ∧ h < h'))) :
    partitionText y m d h < partitionText y' m' d' h' := by
  have hlen : ∀ {w a b : ℕ}, 0 < w → a < 10 ^ w → b < 10 ^ w →
    (pad w a).length = (pad w b).length :=
    fun hw ha hb ↦ (length_pad hw ha).trans (length_pad hw hb).symm
  refine List.append_left_lt ?_
  rcases hlt with hlt | ⟨rfl, hlt⟩
  · exact lt_append_of_length_eq (pad_lt_pad (by decide) hy' hlt) (hlen (by decide) hy hy') _ _
  refine List.append_left_lt (List.cons_lt_cons_iff.2 (.inr ⟨rfl, ?_⟩))
  rcases hlt with hlt | ⟨rfl, hlt⟩
  · exact lt_append_of_length_eq (pad_lt_pad (by decide) hm' hlt) (hlen (by decide) hm hm') _ _
  refine List.append_left_lt (List.cons_lt_cons_iff.2 (.inr ⟨rfl, ?_⟩))
  rcases hlt with hlt | ⟨rfl, hlt⟩
  · exact lt_append_of_length_eq (pad_lt_pad (by decide) hd' hlt) (hlen (by decide) hd hd') _ _
  exact List.append_left_lt (List.cons_lt_cons_iff.2 (.inr ⟨rfl, pad_lt_pad (by decide) hh' hlt⟩))

private theorem partitionText_ascii {y m d h : ℕ} : ∀ c ∈ partitionText y m d h, c.toNat < 128 := by
  have hpad : ∀ w n, ∀ c ∈ pad w n, c.toNat < 128 := fun w n c hc ↦ by
    have hle := (digit_bounds (isDigit_of_mem_pad hc)).2
    omega
  have hword : ∀ c ∈ "hour=".toList, c.toNat < 128 := by
    have hall : "hour=".toList.all (fun c ↦ decide (c.toNat < 128)) = true := by decide
    exact fun c hc ↦ of_decide_eq_true (List.all_eq_true.1 hall c hc)
  unfold partitionText
  simp only [List.mem_append, List.mem_cons]
  rintro c (hc | hc | (rfl | hc) | (rfl | hc) | rfl | hc)
  · exact hword c hc
  · exact hpad _ _ c hc
  · decide
  · exact hpad _ _ c hc
  · decide
  · exact hpad _ _ c hc
  · decide
  · exact hpad _ _ c hc

private theorem hourPartition_lt {ts ts' : ℕ} (hyear : (daysToYmd (ts' / usPerDay : ℕ)).1 < 10000)
    (h : ts / usPerHour < ts' / usPerHour) :
    utf8 (hourPartition ts) < utf8 (hourPartition ts') := by
  obtain ⟨hday, hhour⟩ := day_and_hour ts
  obtain ⟨hday', hhour'⟩ := day_and_hour ts'
  obtain ⟨y, m, d, hymd, hname, hy, hm, hd, hh⟩ := fields_of_ts ts
  obtain ⟨y', m', d', hymd', hname', hy', hm', hd', hh'⟩ := fields_of_ts ts'
  rw [hymd'] at hyear
  -- the date is an earlier one, or the same with an earlier hour
  have hfields : y < y' ∨ y = y' ∧ (m < m' ∨ m = m' ∧ (d < d' ∨ d = d' ∧
      ts % usPerDay / usPerHour < ts' % usPerDay / usPerHour)) := by
    by_cases heq : ts / usPerDay = ts' / usPerDay
    · rw [heq, hymd', Prod.mk.injEq, Prod.mk.injEq] at hymd
      obtain ⟨rfl, rfl, rfl⟩ := hymd
      exact .inr ⟨rfl, .inr ⟨rfl, .inr ⟨rfl, by omega⟩⟩⟩
    · have hlt : ((ts / usPerDay : ℕ) : ℤ) < (ts' / usPerDay : ℕ) := by omega
      have hord := dateOrd_daysToYmd_lt hlt
      simp only [hymd, hymd', dateOrd, Prod.Lex.toLex_lt_toLex] at hord
      rcases hord with hord | ⟨rfl, hord | ⟨rfl, hord⟩⟩
      · exact .inl hord
      · exact .inr ⟨rfl, .inl hord⟩
      · exact .inr ⟨rfl, .inr ⟨rfl, .inl hord⟩⟩
  have hle : y ≤ y' := by omega
  rw [hname, hname']
  refine utf8_lt_of_ascii partitionText_ascii partitionText_ascii (partitionText_lt (by omega)
    (by omega) (by omega) (by omega) (by omega) (by omega) (by omega) ?_)
  omega

private theorem daysToYmd?_ts (ts : UInt64) :
    daysToYmd? (ts.toNat / usPerDay : ℕ) = some (daysToYmd (ts.toNat / usPerDay : ℕ)) := by
  have hlt : ts.toNat / usPerDay < 2 ^ 32 :=
    (Nat.div_le_div_right ts.toNat_lt.le).trans_lt (by decide : 2 ^ 64 / usPerDay < 2 ^ 32)
  generalize ts.toNat / usPerDay = days at hlt ⊢
  rw [daysToYmd?_eq (by omega), if_pos (by omega)]

/-- **Civil dates.** Day 0 is 1970-01-01, consecutive days have consecutive dates of the calendar,
and the conversions are inverse to each other: from a date to a day there is an overflow only where
no day is converted to the date. Timestamps have the same partition exactly when they lie in the
same hour, and before the year 10000 the partitions are ordered as the hours. -/
theorem civil_dates :
    daysToYmd? 0 = some (1970, 1, 1) ∧
    (∀ days date date', -2 ^ 63 ≤ days → daysToYmd? days = some date →
      daysToYmd? (days + 1) = some date' → date' = nextDay date) ∧
    (∀ days y m d, -2 ^ 63 ≤ days → daysToYmd? days = some (y, m, d) →
      IsDate y m d ∧ ymdToDays? y m d = some days) ∧
    (∀ y m d days, IsDate y m d →
      (ymdToDays? y m d = some days ↔ -2 ^ 63 ≤ days ∧ daysToYmd? days = some (y, m, d))) ∧
    (∀ ts ts' : UInt64, hourPartition ts.toNat = hourPartition ts'.toNat ↔
      ts.toNat / usPerHour = ts'.toNat / usPerHour) ∧
    ∀ ts ts' : UInt64, ∀ date date', daysToYmd? (ts.toNat / usPerDay : ℕ) = some date →
      daysToYmd? (ts'.toNat / usPerDay : ℕ) = some date' → date.1 < 10000 → date'.1 < 10000 →
      (utf8 (hourPartition ts.toNat) < utf8 (hourPartition ts'.toNat) ↔
        ts.toNat / usPerHour < ts'.toNat / usPerHour) := by
  have hback : ∀ y m d days, IsDate y m d →
      (ymdToDays? y m d = some days ↔ -2 ^ 63 ≤ days ∧ daysToYmd? days = some (y, m, d)) := by
    intro y m d days hdate
    rw [ymdToDays?_eq_some_iff hdate]
    constructor
    · rintro ⟨⟨hmin, hmax⟩, rfl⟩
      rw [daysToYmd?_eq hmin, if_pos hmax, daysToYmd_ymdToDays hdate]
      exact ⟨hmin, rfl⟩
    · rintro ⟨hmin, hsome⟩
      obtain ⟨hmax, hymd⟩ := daysToYmd?_eq_some hmin hsome
      refine ⟨⟨hmin, hmax⟩, ?_⟩
      have hdays := ymdToDays_daysToYmd days
      rwa [hymd] at hdays
  refine ⟨by decide +kernel, ?_, ?_, hback, fun _ _ ↦ hourPartition_inj, ?_⟩
  · intro days date date' hmin hsome hsome'
    rw [← (daysToYmd?_eq_some hmin hsome).2, ← (daysToYmd?_eq_some (by omega) hsome').2,
      daysToYmd_succ]
  · intro days y m d hmin hsome
    have hdate := isDate_daysToYmd days
    rw [(daysToYmd?_eq_some hmin hsome).2] at hdate
    exact ⟨hdate, (hback y m d days hdate).2 ⟨hmin, hsome⟩⟩
  · intro ts ts' date date' hdate hdate' hyear hyear'
    rw [daysToYmd?_ts, Option.some.injEq] at hdate hdate'
    subst hdate hdate'
    refine ⟨fun hlt ↦ ?_, hourPartition_lt hyear'⟩
    -- the same hour has the same name, and a later one a greater name
    by_contra hnot
    rcases (not_lt.1 hnot).lt_or_eq with hlater | heq
    · exact lt_asymm hlt (hourPartition_lt hyear hlater)
    · rw [hourPartition_inj.2 heq] at hlt
      exact lt_irrefl _ hlt

/-- The last hour of 1999 and the first of 2000. -/
theorem civil_dates_millennium :
    utf8 (hourPartition (946684799999999 : UInt64).toNat) <
        utf8 (hourPartition (946684800000000 : UInt64).toNat) ↔
      (946684799999999 : UInt64).toNat / usPerHour < (946684800000000 : UInt64).toNat / usPerHour :=
  civil_dates.2.2.2.2.2 946684799999999 946684800000000 (1999, 12, 31) (2000, 1, 1)
    (by decide +kernel) (by decide +kernel) (by decide) (by decide)

end Orc
