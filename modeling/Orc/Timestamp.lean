import Orc.Bytes.Cursor
import Orc.Time

/-!
# Timestamps as text

`parseRfc3339Utc` splits a text at its separators one after the other. `Spells` is the grammar it
accepts: six groups of digits with separators between them, then possibly a fraction of one to six
digits, then `Z`. A group may have any number of digits.

A text is read exactly when it spells fields that are valid, and then as the number of microseconds
that have passed since 1970-01-01T00:00:00Z, days counted on the calendar one by one
(`parseRfc3339Utc_eq_ok_iff`). What `formatRfc3339Utc` writes is read back up to the year 250000.

The calendar enters through `Orc.Calendar` only. The last section follows the arithmetic in 64 bits
and shows that no operation of the source overflows, for any text.
-/

namespace Orc

open Text

/-- Format epoch microseconds as `YYYY-MM-DDTHH:MM:SS.ffffffZ`. -/
def formatRfc3339Utc (ts : ℕ) : String :=
  let rem := ts % usPerDay
  let (y, mo, d) := daysToYmd (ts / usPerDay : ℕ)
  let h := rem / usPerHour
  let mi := rem % usPerHour / (60 * usPerSec)
  let s := rem % (60 * usPerSec) / usPerSec
  let us := rem % usPerSec
  String.ofList (pad 4 y.toNat ++ '-' :: (pad 2 mo.toNat ++ '-' :: (pad 2 d.toNat ++ 'T' ::
    (pad 2 h ++ ':' :: (pad 2 mi ++ ':' :: (pad 2 s ++ '.' :: pad 6 us ++ ['Z']))))))

example : formatRfc3339Utc 946684800500000 = "2000-01-01T00:00:00.500000Z" := by decide +kernel

/-! ## The grammar -/

/-- The fields of a timestamp. -/
structure Fields where
  year : ℕ
  month : ℕ
  day : ℕ
  hour : ℕ
  minute : ℕ
  second : ℕ
  micros : ℕ

/-- A fraction of a second and the microseconds it stands for: `.5` is half a second. -/
inductive SpellsFraction : List Char → ℕ → Prop
  | none : SpellsFraction [] 0
  | some {digits : List Char} {n : ℕ} (hdigits : parseDec digits = some n)
      (hlen : digits.length ≤ 6) : SpellsFraction ('.' :: digits) (n * 10 ^ (6 - digits.length))

/-- A text spells fields: groups of digits, their separators, and nothing else. -/
def Spells (s : String) (f : Fields) : Prop :=
  ∃ ys ms ds hs mins ss frac : List Char,
    s.toList = ys ++ '-' :: (ms ++ '-' :: (ds ++ 'T' ::
      (hs ++ ':' :: (mins ++ ':' :: (ss ++ (frac ++ ['Z'])))))) ∧
    (parseDec ys = some f.year ∧ parseDec ms = some f.month ∧ parseDec ds = some f.day) ∧
    (parseDec hs = some f.hour ∧ parseDec mins = some f.minute ∧ parseDec ss = some f.second) ∧
    SpellsFraction frac f.micros

/-- A date that exists, of a year that is admitted, and a time of the day. -/
structure Fields.Valid (f : Fields) : Prop where
  date : IsDate f.year f.month f.day
  years : minYear ≤ f.year ∧ f.year ≤ maxYear
  time : f.hour ≤ 23 ∧ f.minute ≤ 59 ∧ f.second ≤ 59

/-- The microseconds from the epoch, with the days counted on the calendar. -/
def Fields.IsTime (f : Fields) (t : ℕ) : Prop :=
  ∃ days : ℕ, nextDay^[days] (1970, 1, 1) = ((f.year : ℤ), (f.month : ℤ), (f.day : ℤ)) ∧
    t = (((days * 24 + f.hour) * 60 + f.minute) * 60 + f.second) * 1000000 + f.micros

/-! ## Reading fields -/

theorem nextNum_eq_ok_iff {parts rest : List (List Char)} {what whole : String} {n : ℕ} :
    nextNum parts what whole = .ok (n, rest) ↔
      ∃ raw, parts = raw :: rest ∧ parseDec raw = some n ∧ n < 2 ^ 63 := by
  cases parts with
  | nil => simp [nextNum]
  | cons raw parts =>
    cases hraw : parseDec raw with
    | none => simp [nextNum, hraw]
    | some k =>
      by_cases hk : k < 2 ^ 63
      · simp only [nextNum, hraw, if_pos hk, Except.ok.injEq, Prod.mk.injEq, List.cons.injEq]
        constructor
        · rintro ⟨rfl, rfl⟩
          exact ⟨raw, ⟨rfl, rfl⟩, hraw, hk⟩
        · rintro ⟨_, ⟨rfl, rfl⟩, hn, -⟩
          rw [hraw] at hn
          exact ⟨Option.some.inj hn, rfl⟩
      · simp only [nextNum, hraw, if_neg hk, List.cons.injEq]
        refine ⟨nofun, ?_⟩
        rintro ⟨_, ⟨rfl, rfl⟩, hn, hlt⟩
        rw [hraw] at hn
        cases hn
        exact absurd hlt hk

theorem not_mem_of_parseDec {cs : List Char} {n : ℕ} (h : parseDec cs = some n) {c : Char}
    (hc : c.isDigit = false) : c ∉ cs := fun hmem ↦ by
  have hdigit := (isDigits_iff.1 (parseDec_eq_some_iff.1 h).1).2 c hmem
  rw [hc] at hdigit
  cases hdigit

theorem threeNums_iff {cs : List Char} {sep : Char} (hsep : sep.isDigit = false)
    {what₁ what₂ what₃ whole : String} {a b c : ℕ} :
    (∃ p₁ p₂, nextNum (cs.splitOn sep) what₁ whole = .ok (a, p₁) ∧
        nextNum p₁ what₂ whole = .ok (b, p₂) ∧ nextNum p₂ what₃ whole = .ok (c, [])) ↔
      ∃ as bs ds, cs = as ++ sep :: (bs ++ sep :: ds) ∧
        (parseDec as = some a ∧ parseDec bs = some b ∧ parseDec ds = some c) ∧
        a < 2 ^ 63 ∧ b < 2 ^ 63 ∧ c < 2 ^ 63 := by
  constructor
  · rintro ⟨p₁, p₂, h₁, h₂, h₃⟩
    obtain ⟨as, has, ha, ha'⟩ := nextNum_eq_ok_iff.1 h₁
    obtain ⟨bs, rfl, hb, hb'⟩ := nextNum_eq_ok_iff.1 h₂
    obtain ⟨ds, rfl, hd, hd'⟩ := nextNum_eq_ok_iff.1 h₃
    refine ⟨as, bs, ds, ?_, ⟨ha, hb, hd⟩, ha', hb', hd'⟩
    have hjoin : [sep].intercalate (cs.splitOn sep) = cs := List.intercalate_splitOn sep
    rw [← hjoin, has]
    simp
  · rintro ⟨as, bs, ds, rfl, ⟨ha, hb, hd⟩, ha', hb', hd'⟩
    refine ⟨[bs, ds], [ds], ?_, nextNum_eq_ok_iff.2 ⟨bs, rfl, hb, hb'⟩,
      nextNum_eq_ok_iff.2 ⟨ds, rfl, hd, hd'⟩⟩
    rw [List.splitOn_append_cons_self_of_not_mem (not_mem_of_parseDec ha hsep),
      List.splitOn_append_cons_self_of_not_mem (not_mem_of_parseDec hb hsep),
      List.splitOn_eq_singleton (not_mem_of_parseDec hd hsep)]
    exact nextNum_eq_ok_iff.2 ⟨as, rfl, ha, ha'⟩

theorem parseFraction_eq_ok_iff {s : String} {digits : List Char} {us : ℕ} :
    parseFraction s digits = .ok us ↔ SpellsFraction ('.' :: digits) us := by
  constructor
  · intro h
    unfold parseFraction at h
    cases hdigits : parseDec digits with
    | none =>
      rw [hdigits] at h
      cases h
    | some n =>
      simp only [hdigits] at h
      split_ifs at h with hlen
      cases h
      exact .some hdigits hlen
  · rintro (_ | ⟨hdigits, hlen⟩)
    simp only [parseFraction, hdigits, if_pos hlen]

/-! ## The parser -/

theorem guard_bind_eq_ok {ε α : Type} {c : Prop} [Decidable c] {e : ε} {f : PUnit → Except ε α}
    {x : Except ε α} {b : α} : (if c then throw e >>= f else x) = .ok b ↔ ¬ c ∧ x = .ok b := by
  split_ifs with hc
  · refine ⟨fun h ↦ ?_, fun h ↦ absurd hc h.1⟩
    cases h
  · exact ⟨fun h ↦ ⟨hc, h⟩, And.right⟩

/-- What is left of the parser once the date and the fraction have been read. -/
private def parseClock (s : String) (days : ℕ) (clock : List Char) (frac : ℕ) : Except Error ℕ := do
  let (h, tparts) ← nextNum (clock.splitOn ':') "hour" s
  let (mi, tparts) ← nextNum tparts "minute" s
  let (sec, tparts) ← nextNum tparts "second" s
  if !tparts.isEmpty then
    throw (.config (.timestamp s "too many ':' separated fields in the time"))
  if 23 < h ∨ 59 < mi ∨ 59 < sec then
    throw (.config (.timestamp s "hour, minute or second out of range"))
  return days * usPerDay + h * usPerHour + mi * 60 * usPerSec + sec * usPerSec + frac

private theorem parseClock_eq_ok_iff {s : String} {days : ℕ} {clock : List Char} {frac t : ℕ} :
    parseClock s days clock frac = .ok t ↔
      ∃ hs mins ss h mi sec, clock = hs ++ ':' :: (mins ++ ':' :: ss) ∧
        (parseDec hs = some h ∧ parseDec mins = some mi ∧ parseDec ss = some sec) ∧
        (h ≤ 23 ∧ mi ≤ 59 ∧ sec ≤ 59) ∧
        t = days * usPerDay + h * usPerHour + mi * 60 * usPerSec + sec * usPerSec + frac := by
  simp only [parseClock, Except.bind_eq_ok, Prod.exists, ↓guard_bind_eq_ok]
  constructor
  · rintro ⟨h, p₁, h₁, mi, p₂, h₂, sec, p₃, h₃, hp₃, hrange, heq⟩
    obtain rfl : p₃ = [] := by simpa using hp₃
    obtain ⟨hs, mins, ss, rfl, hdec, -⟩ := (threeNums_iff (by decide)).1 ⟨p₁, p₂, h₁, h₂, h₃⟩
    exact ⟨hs, mins, ss, h, mi, sec, rfl, hdec, by omega, (Except.ok.inj heq).symm⟩
  · rintro ⟨hs, mins, ss, h, mi, sec, hclock, hdec, hrange, rfl⟩
    obtain ⟨p₁, p₂, h₁, h₂, h₃⟩ := (threeNums_iff (by decide)).2
      ⟨hs, mins, ss, hclock, hdec, by omega, by omega, by omega⟩
    exact ⟨h, p₁, h₁, mi, p₂, h₂, sec, [], h₃, by simp, by omega, rfl⟩

theorem isDate_iff {y mo d : ℕ} : IsDate y mo d ↔
    ¬ (mo < 1 ∨ 12 < mo) ∧ ¬ (d < 1 ∨ daysInMonth y mo < d) := by
  constructor
  · rintro ⟨hmonth, hday⟩
    rw [Int.toNat_natCast] at hday
    omega
  · rintro ⟨hmonth, hday⟩
    refine ⟨by omega, ?_⟩
    rw [Int.toNat_natCast]
    omega

private theorem parse_eq_ok {s : String} {t : ℕ} : parseRfc3339Utc s = .ok t ↔
    ∃ date time, s.toList = date ++ 'T' :: time ++ ['Z'] ∧ 'T' ∉ date ∧
      ∃ ys ms ds y mo d, date = ys ++ '-' :: (ms ++ '-' :: ds) ∧
        (parseDec ys = some y ∧ parseDec ms = some mo ∧ parseDec ds = some d) ∧
        (minYear ≤ y ∧ y ≤ maxYear) ∧ IsDate y mo d ∧
        ∃ clock frac us, time = clock ++ frac ∧ '.' ∉ clock ∧ SpellsFraction frac us ∧
          parseClock s (ymdToDays y mo d).toNat clock us = .ok t := by
  constructor
  · intro h
    rw [parseRfc3339Utc] at h
    cases hz : stripSuffix ['Z'] s.toList with
    | none =>
      rw [hz] at h
      cases h
    | some rest =>
    rw [hz] at h
    dsimp only at h
    cases hT : splitOnce 'T' rest with
    | none =>
      rw [hT] at h
      cases h
    | some r =>
    obtain ⟨date, time⟩ := r
    simp only [hT, Except.bind_eq_ok, Prod.exists, ↓guard_bind_eq_ok] at h
    obtain ⟨y, p₁, h₁, mo, p₂, h₂, d, p₃, h₃, hp₃, hyear, hmonth, hday, h⟩ := h
    obtain rfl : p₃ = [] := by simpa using hp₃
    obtain ⟨ys, ms, ds, rfl, hdec, -⟩ := (threeNums_iff (by decide)).1 ⟨p₁, p₂, h₁, h₂, h₃⟩
    obtain ⟨rfl, hnot⟩ := splitOnce_eq_some hT
    refine ⟨_, time, stripSuffix_eq_some.1 hz, hnot, ys, ms, ds, y, mo, d, rfl, hdec, by omega,
      isDate_iff.2 ⟨hmonth, hday⟩, ?_⟩
    cases hdot : splitOnce '.' time with
    | none =>
      rw [hdot] at h
      exact ⟨time, [], 0, (List.append_nil _).symm, splitOnce_eq_none.1 hdot, .none, h⟩
    | some r =>
      obtain ⟨clock, digits⟩ := r
      rw [hdot] at h
      obtain ⟨us, hus, h⟩ := Except.bind_eq_ok.1 h
      obtain ⟨heq, hnodot⟩ := splitOnce_eq_some hdot
      exact ⟨clock, '.' :: digits, us, heq, hnodot, parseFraction_eq_ok_iff.1 hus, h⟩
  · rintro ⟨date, time, hs, hnot, ys, ms, ds, y, mo, d, hdate, hdec, hyear, hday, clock, frac, us,
      rfl, hnodot, hfrac, hclock⟩
    obtain ⟨hmonth, hday⟩ := isDate_iff.1 hday
    have hmax : daysInMonth y mo ≤ 31 := by
      unfold daysInMonth
      split_ifs <;> decide
    have hyears : y ≤ 250000 := hyear.2
    have hnums : ∃ p₁ p₂, nextNum (date.splitOn '-') "year" s = .ok (y, p₁) ∧
        nextNum p₁ "month" s = .ok (mo, p₂) ∧ nextNum p₂ "day" s = .ok (d, []) :=
      (threeNums_iff (by decide)).2 ⟨ys, ms, ds, hdate, hdec, by omega, by omega, by omega⟩
    obtain ⟨p₁, p₂, h₁, h₂, h₃⟩ := hnums
    rw [parseRfc3339Utc, stripSuffix_eq_some.2 hs]
    dsimp only
    rw [splitOnce_append hnot]
    simp only [Except.bind_eq_ok, Prod.exists, ↓guard_bind_eq_ok]
    refine ⟨y, p₁, h₁, mo, p₂, h₂, d, [], h₃, by simp, by omega, hmonth, hday, ?_⟩
    cases hfrac with
    | none =>
      rw [List.append_nil, splitOnce_eq_none.2 hnodot]
      exact hclock
    | some hdigits hlen =>
      rw [splitOnce_append hnodot]
      exact Except.bind_eq_ok.2 ⟨_, parseFraction_eq_ok_iff.2 (.some hdigits hlen), hclock⟩

/-! ## The time of a text -/

theorem iterate_nextDay (n : ℕ) : nextDay^[n] (1970, 1, 1) = daysToYmd n := by
  induction n with
  | zero => decide +kernel
  | succ n ih => rw [Function.iterate_succ_apply', ih, Nat.cast_succ, daysToYmd_succ]

theorem ymdToDays_nonneg {y m d : ℤ} (h : IsDate y m d) (hyear : 1970 ≤ y) :
    0 ≤ ymdToDays y m d := by
  by_contra hneg
  have hle := daysToYmd_year_mono (show ymdToDays y m d ≤ -1 by omega)
  rw [daysToYmd_ymdToDays h] at hle
  have hlast : (daysToYmd (-1)).1 = 1969 := by decide +kernel
  omega

theorem Fields.isTime_iff {f : Fields} (hf : f.Valid) {t : ℕ} :
    f.IsTime t ↔ t = (ymdToDays f.year f.month f.day).toNat * usPerDay + f.hour * usPerHour +
      f.minute * 60 * usPerSec + f.second * usPerSec + f.micros := by
  have hnonneg := ymdToDays_nonneg hf.date (Int.ofNat_le.2 hf.years.1)
  have hdays : ∀ days : ℕ,
      nextDay^[days] (1970, 1, 1) = ((f.year : ℤ), (f.month : ℤ), (f.day : ℤ)) ↔
        days = (ymdToDays f.year f.month f.day).toNat := by
    intro days
    rw [iterate_nextDay]
    constructor
    · intro heq
      have hback := ymdToDays_daysToYmd days
      rw [heq] at hback
      rw [hback, Int.toNat_natCast]
    · rintro rfl
      rw [Int.toNat_of_nonneg hnonneg, daysToYmd_ymdToDays hf.date]
  simp only [Fields.IsTime, hdays, exists_eq_left]
  generalize (ymdToDays f.year f.month f.day).toNat = days
  unfold usPerDay usPerHour usPerSec
  constructor <;> (rintro rfl; ring)

/-- **The grammar of timestamps.** A text is read as a time exactly when it spells valid fields that
stand for this time. -/
theorem parseRfc3339Utc_eq_ok_iff {s : String} {t : ℕ} :
    parseRfc3339Utc s = .ok t ↔ ∃ f, Spells s f ∧ f.Valid ∧ f.IsTime t := by
  rw [parse_eq_ok]
  constructor
  · rintro ⟨date, time, hs, -, ys, ms, ds, y, mo, d, rfl, hdec, hyear, hdate, clock, frac, us,
      rfl, -, hfrac, hclock⟩
    obtain ⟨hs', mins, ss, h, mi, sec, rfl, hdec', htime, ht⟩ := parseClock_eq_ok_iff.1 hclock
    have hvalid : Fields.Valid ⟨y, mo, d, h, mi, sec, us⟩ := ⟨hdate, hyear, htime⟩
    refine ⟨⟨y, mo, d, h, mi, sec, us⟩, ⟨ys, ms, ds, hs', mins, ss, frac, ?_, hdec, hdec', hfrac⟩,
      hvalid, (Fields.isTime_iff hvalid).2 ht⟩
    rw [hs]
    simp only [List.append_assoc, List.cons_append]
  · rintro ⟨f, ⟨ys, ms, ds, hs, mins, ss, frac, htext, hdec, hdec', hfrac⟩, hvalid, ht⟩
    have hnot : ∀ c : Char, c.isDigit = false → ∀ {cs n}, parseDec cs = some n → c ∉ cs :=
      fun c hc cs n hcs ↦ not_mem_of_parseDec hcs hc
    refine ⟨ys ++ '-' :: (ms ++ '-' :: ds), hs ++ ':' :: (mins ++ ':' :: ss) ++ frac, ?_,
      ?_, ys, ms,
      ds, f.year, f.month, f.day, rfl, hdec, hvalid.years, hvalid.date, _, frac, f.micros, rfl, ?_,
      hfrac, ?_⟩
    · rw [htext]
      simp only [List.append_assoc, List.cons_append]
    · simp only [List.mem_append, List.mem_cons, not_or]
      exact ⟨hnot _ (by decide) hdec.1, by decide, hnot _ (by decide) hdec.2.1, by decide,
        hnot _ (by decide) hdec.2.2⟩
    · simp only [List.mem_append, List.mem_cons, not_or]
      exact ⟨hnot _ (by decide) hdec'.1, by decide, hnot _ (by decide) hdec'.2.1, by decide,
        hnot _ (by decide) hdec'.2.2⟩
    · exact parseClock_eq_ok_iff.2 ⟨hs, mins, ss, f.hour, f.minute, f.second, rfl, hdec',
        hvalid.time, (Fields.isTime_iff hvalid).1 ht⟩

/-! ## What is written -/

/-- The fields of a timestamp, as they are written. -/
def fieldsOf (ts : ℕ) : Fields where
  year := (daysToYmd (ts / usPerDay : ℕ)).1.toNat
  month := (daysToYmd (ts / usPerDay : ℕ)).2.1.toNat
  day := (daysToYmd (ts / usPerDay : ℕ)).2.2.toNat
  hour := ts % usPerDay / usPerHour
  minute := ts % usPerDay % usPerHour / (60 * usPerSec)
  second := ts % usPerDay % (60 * usPerSec) / usPerSec
  micros := ts % usPerDay % usPerSec

private theorem spells_formatRfc3339Utc (ts : ℕ) : Spells (formatRfc3339Utc ts) (fieldsOf ts) := by
  have hus : ts % usPerDay % usPerSec < 10 ^ 6 := Nat.mod_lt _ (by decide)
  have hlen := length_pad (by decide) hus
  have hfrac : SpellsFraction ('.' :: pad 6 (ts % usPerDay % usPerSec))
      (ts % usPerDay % usPerSec) := by
    have hsome := SpellsFraction.some (parseDec_pad 6 (ts % usPerDay % usPerSec)) hlen.le
    rwa [hlen, Nat.sub_self, Nat.pow_zero, Nat.mul_one] at hsome
  refine ⟨_, _, _, _, _, _, _, ?_, ⟨parseDec_pad 4 _, parseDec_pad 2 _, parseDec_pad 2 _⟩,
    ⟨parseDec_pad 2 _, parseDec_pad 2 _, parseDec_pad 2 _⟩, hfrac⟩
  simp only [formatRfc3339Utc, fieldsOf, String.toList_ofList, List.append_assoc, List.cons_append]

theorem date_fieldsOf (ts : ℕ) : daysToYmd (ts / usPerDay : ℕ) =
    (((fieldsOf ts).year : ℤ), ((fieldsOf ts).month : ℤ), ((fieldsOf ts).day : ℤ)) := by
  have hdate := isDate_daysToYmd (ts / usPerDay : ℕ)
  have hyear := daysToYmd_year_ge (Int.natCast_nonneg (ts / usPerDay))
  have hmonth := hdate.month.1
  have hday := hdate.day.1
  simp only [fieldsOf]
  refine Prod.ext ?_ (Prod.ext ?_ ?_)
  · exact (Int.toNat_of_nonneg (by omega)).symm
  · exact (Int.toNat_of_nonneg (by omega)).symm
  · exact (Int.toNat_of_nonneg (by omega)).symm

private theorem isTime_fieldsOf (ts : ℕ) : (fieldsOf ts).IsTime ts := by
  refine ⟨ts / usPerDay, (iterate_nextDay _).trans (date_fieldsOf ts), ?_⟩
  simp only [fieldsOf, usPerDay, usPerHour, usPerSec]
  omega

private theorem valid_fieldsOf {ts : ℕ} (h : (daysToYmd (ts / usPerDay : ℕ)).1 ≤ maxYear) :
    (fieldsOf ts).Valid := by
  have hdate := isDate_daysToYmd (ts / usPerDay : ℕ)
  have hyear := daysToYmd_year_ge (Int.natCast_nonneg (ts / usPerDay))
  rw [date_fieldsOf] at hdate hyear h
  refine ⟨hdate, ⟨Int.ofNat_le.1 hyear, Int.ofNat_le.1 h⟩, ?_⟩
  simp only [fieldsOf, usPerDay, usPerHour, usPerSec]
  omega

theorem Spells.year_eq {s : String} {f f' : Fields} (h : Spells s f) (h' : Spells s f') :
    f.year = f'.year := by
  obtain ⟨ys, _, _, _, _, _, _, htext, hdec, -⟩ := h
  obtain ⟨ys', _, _, _, _, _, _, htext', hdec', -⟩ := h'
  have hdash : ∀ {cs n}, parseDec cs = some n → '-' ∉ cs := fun hcs ↦
    not_mem_of_parseDec hcs (by decide)
  have hsplit := congrArg (splitOnce '-') (htext.symm.trans htext')
  rw [splitOnce_append (hdash hdec.1), splitOnce_append (hdash hdec'.1)] at hsplit
  obtain rfl : ys = ys' := congrArg Prod.fst (Option.some.inj hsplit)
  exact Option.some.inj (hdec.1.symm.trans hdec'.1)

/-! ## In 64 bits -/

/-- A value of a `u64`; `none` is an overflow. -/
def u64 (x : ℕ) : Option ℕ := if x ≤ u64Max then some x else none

/-- The cast of an `i64` to a `u64`. -/
def asU64 (x : ℤ) : ℕ := (x % 2 ^ 64).toNat

/-- The arithmetic of the parser, with every operation checked. -/
def Fields.micros? (f : Fields) : Option ℕ := do
  let days ← ymdToDays? f.year f.month f.day
  let t ← u64 (asU64 days * usPerDay)
  let t ← u64 (t + (← u64 (f.hour * usPerHour)))
  let t ← u64 (t + (← u64 ((← u64 (f.minute * 60)) * usPerSec)))
  let t ← u64 (t + (← u64 (f.second * usPerSec)))
  u64 (t + f.micros)

private theorem u64_eq_some {x : ℕ} (h : x ≤ u64Max) : u64 x = some x := if_pos h

private theorem bind_of_eq_some {α β : Type} {x : Option α} {a : α} (h : x = some a)
    (f : α → Option β) : (x >>= f) = f a := by
  rw [h]
  rfl

private theorem ymdToDays_lt {y m d : ℤ} (h : IsDate y m d) (hyear : y ≤ maxYear) :
    ymdToDays y m d < 90600000 := by
  by_contra hge
  have hle := daysToYmd_year_mono (not_lt.1 hge)
  rw [daysToYmd_ymdToDays h] at hle
  have hlast : (daysToYmd 90600000).1 = 250024 := by decide +kernel
  have hmax : (maxYear : ℤ) = 250000 := rfl
  dsimp only at hle
  omega

/-- No operation of the parser overflows. -/
theorem Fields.micros?_eq {f : Fields} (hf : f.Valid) (hus : f.micros < 10 ^ 6) {t : ℕ}
    (ht : f.IsTime t) : f.micros? = some t := by
  rw [Fields.isTime_iff hf] at ht
  have hlo := ymdToDays_nonneg hf.date (Int.ofNat_le.2 hf.years.1)
  have hhi := ymdToDays_lt hf.date (Int.ofNat_le.2 hf.years.2)
  have hdays : ymdToDays? f.year f.month f.day = some (ymdToDays f.year f.month f.day) :=
    (ymdToDays?_eq_some_iff hf.date).2 ⟨by omega, rfl⟩
  have hcast : asU64 (ymdToDays f.year f.month f.day) = (ymdToDays f.year f.month f.day).toNat := by
    rw [asU64, Int.emod_eq_of_lt hlo (by omega)]
  obtain ⟨hh, hmi, hs⟩ := hf.time
  refine (bind_of_eq_some hdays _).trans ?_
  rw [hcast]
  have hbound : (ymdToDays f.year f.month f.day).toNat < 90600000 := by omega
  generalize (ymdToDays f.year f.month f.day).toNat = days at *
  unfold usPerDay usPerHour usPerSec at *
  have hmax : u64Max = 18446744073709551615 := rfl
  iterate 8 refine (bind_of_eq_some (u64_eq_some (by omega)) _).trans ?_
  rw [u64_eq_some (by omega), ht]

theorem SpellsFraction.lt {frac : List Char} {us : ℕ} (h : SpellsFraction frac us) :
    us < 10 ^ 6 := by
  cases h with
  | none => decide
  | @some digits n hdigits hlen =>
    obtain ⟨hall, rfl⟩ := parseDec_eq_some_iff.1 hdigits
    calc Nat.ofDigitChars 10 digits 0 * 10 ^ (6 - digits.length)
        < 10 ^ digits.length * 10 ^ (6 - digits.length) :=
          Nat.mul_lt_mul_of_pos_right (ofDigitChars_lt (isDigits_iff.1 hall).2)
            (Nat.pow_pos (by decide))
      _ = 10 ^ 6 := by rw [← Nat.pow_add, Nat.add_sub_cancel' hlen]

/-- **Timestamps as text.** What is written is read back if the year is at most 250000, and is an
error if not. A text is read as a time exactly when it spells valid fields of that time, and no
operation overflows on the way. -/
theorem timestamp_text :
    (∀ ts : UInt64, (daysToYmd (ts.toNat / usPerDay : ℕ)).1 ≤ maxYear →
      parseRfc3339Utc (formatRfc3339Utc ts.toNat) = .ok ts.toNat) ∧
    (∀ ts : UInt64, maxYear < (daysToYmd (ts.toNat / usPerDay : ℕ)).1 →
      ∃ e, parseRfc3339Utc (formatRfc3339Utc ts.toNat) = .error e) ∧
    (∀ s t, parseRfc3339Utc s = .ok t ↔ ∃ f, Spells s f ∧ f.Valid ∧ f.IsTime t) ∧
    ∀ s f t, Spells s f → f.Valid → f.IsTime t → f.micros? = some t ∧ f.micros < 10 ^ 6 := by
  refine ⟨fun ts hyear ↦ ?_, fun ts hyear ↦ ?_, fun s t ↦ parseRfc3339Utc_eq_ok_iff, ?_⟩
  · exact parseRfc3339Utc_eq_ok_iff.2
      ⟨fieldsOf ts.toNat, spells_formatRfc3339Utc _, valid_fieldsOf hyear, isTime_fieldsOf _⟩
  · cases hparse : parseRfc3339Utc (formatRfc3339Utc ts.toNat) with
    | error e => exact ⟨e, rfl⟩
    | ok t =>
      obtain ⟨f, hspells, hvalid, -⟩ := parseRfc3339Utc_eq_ok_iff.1 hparse
      have hsame := hspells.year_eq (spells_formatRfc3339Utc _)
      have hle := hvalid.years.2
      rw [date_fieldsOf] at hyear
      dsimp only at hyear
      omega
  · intro s f t hspells hvalid ht
    obtain ⟨_, _, _, _, _, _, _, -, -, -, hfrac⟩ := hspells
    exact ⟨Fields.micros?_eq hvalid hfrac.lt ht, hfrac.lt⟩

/-- The first microsecond of the year 250000. -/
theorem timestamp_text_last_year :
    parseRfc3339Utc (formatRfc3339Utc (7827038668800000000 : UInt64).toNat) =
      .ok (7827038668800000000 : UInt64).toNat :=
  timestamp_text.1 7827038668800000000 (by decide +kernel)

end Orc
