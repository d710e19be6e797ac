import Cleonos.Lib.Calendar
import Mathlib.Tactic.IntervalCases

/-!
# Broken-down time

`gmtime_r` and `mktime`.
-/

namespace Cleonos.Libc

open Option

open Calendar

/-- `cleonos_time_is_leap`. -/
def timeIsLeap (yearFull : ℤ) : Bool :=
  if yearFull.tmod 400 = 0 then true
  else if yearFull.tmod 100 = 0 then false
  else decide (yearFull.tmod 4 = 0)

/-- `cleonos_time_days_in_year`. -/
def timeDaysInYear (yearFull : ℤ) : ℤ := if timeIsLeap yearFull then 366 else 365

/-- The table of `cleonos_time_days_in_month`. -/
def timeDays : List ℤ := [31, 28, 31, 30, 31, 30, 31, 31, 30, 31, 30, 31]

/-- `cleonos_time_days_in_month`; `none` for a read behind the table. -/
def timeDaysInMonth (yearFull : ℤ) (monthZeroBased : ℕ) : Option ℤ :=
  if monthZeroBased = 1 ∧ timeIsLeap yearFull = true then some 29 else timeDays[monthZeroBased]?

structure Tm where
  sec : ℤ
  min : ℤ
  hour : ℤ
  mday : ℤ
  mon : ℤ
  year : ℤ
  wday : ℤ
  yday : ℤ
  isdst : ℤ
  deriving DecidableEq, Repr

variable (year : ℤ) {month : ℕ}

theorem timeDaysInYear_eq : timeDaysInYear year = yearLength year := by
  simp only [timeDaysInYear, timeIsLeap, yearLength, IsLeap, ← Int.dvd_iff_tmod_eq_zero]
  by_cases h400 : (400 : ℤ) ∣ year
  · have h4 : (4 : ℤ) ∣ year := by omega
    simp [h400, h4]
  · by_cases h100 : (100 : ℤ) ∣ year <;> simp [h400, h100]

theorem timeIsLeap_eq_true_iff : timeIsLeap year = true ↔ IsLeap year := by
  have h := timeDaysInYear_eq year
  rw [timeDaysInYear, yearLength] at h
  by_cases hleap : IsLeap year
  · cases htime : timeIsLeap year <;> simp_all
  · cases htime : timeIsLeap year <;> simp_all

/-- The loop of `gmtime_r` through the years that are over. -/
def yearsUp (days year : ℤ) : ℤ × ℤ :=
  if days ≥ timeDaysInYear year then yearsUp (days - timeDaysInYear year) (year + 1)
  else (days, year)
termination_by days.toNat
decreasing_by
  have hpos := yearLength_pos year
  rw [timeDaysInYear_eq] at *
  omega

/-- The loop of `gmtime_r` through the years before 1970. -/
def yearsDown (days year : ℤ) : ℤ × ℤ :=
  if days < 0 then yearsDown (days + timeDaysInYear (year - 1)) (year - 1) else (days, year)
termination_by (-days).toNat
decreasing_by
  have hpos := yearLength_pos (year - 1)
  rw [timeDaysInYear_eq] at *
  omega

/-- The loop of `gmtime_r` through the months of a year. -/
def months (year : ℤ) (month : ℕ) (days : ℤ) : ℕ × ℤ :=
  if month < 12 then
    if days < (timeDaysInMonth year month).getD 0 then (month, days)
    else months year (month + 1) (days - (timeDaysInMonth year month).getD 0)
  else (month, days)
termination_by 12 - month

def gmtimeR (timer : ℤ) : Tm :=
  let rem := timer.tmod 86400
  let days := if rem < 0 then timer.tdiv 86400 - 1 else timer.tdiv 86400
  let rem := if rem < 0 then rem + 86400 else rem
  let wday := (days + 4).tmod 7
  let up := yearsUp days 1970
  let y := yearsDown up.1 up.2
  let m := months y.2 0 y.1
  { sec := (rem.tmod 3600).tmod 60
    min := (rem.tmod 3600).tdiv 60
    hour := rem.tdiv 3600
    mday := m.2 + 1
    mon := m.1
    year := y.2 - 1900
    wday := if wday < 0 then wday + 7 else wday
    yday := y.1
    isdst := 0 }

/-- The loop of `mktime` through the years from 1970 on. -/
def yearsFrom1970 : ℕ → ℤ
  | 0 => 0
  | n + 1 => yearsFrom1970 n + timeDaysInYear (1970 + n)

/-- The loop of `mktime` through the months. -/
def monthsBefore (year : ℤ) : ℕ → Option ℤ
  | 0 => some 0
  | n + 1 => do
      let days ← monthsBefore year n
      let dim ← timeDaysInMonth year n
      some (days + dim)

def mktime (tm : Tm) : Option ℤ := do
  let days ← monthsBefore (tm.year + 1900) tm.mon.toNat
  let days := yearsFrom1970 (tm.year + 1900 - 1970).toNat + days + (tm.mday - 1)
  some (days * 86400 + tm.hour * 3600 + tm.min * 60 + tm.sec)

/-! ## The calendar -/

/-- The number of a day, counted from the first of January 1970. -/
def dayNumber (year : ℤ) (month : ℕ) (mday : ℤ) : ℤ :=
  firstDay year - firstDay 1970 + monthStart year month + (mday - 1)

/-- `tm` is the date and the clock of the time `t`. The first day of 1970 was a Thursday. -/
structure Canonical (t : ℤ) (tm : Tm) : Prop where
  sec : 0 ≤ tm.sec ∧ tm.sec < 60
  min : 0 ≤ tm.min ∧ tm.min < 60
  hour : 0 ≤ tm.hour ∧ tm.hour < 24
  mon : 0 ≤ tm.mon ∧ tm.mon ≤ 11
  mday : 1 ≤ tm.mday ∧ tm.mday ≤ monthLength (tm.year + 1900) tm.mon.toNat
  instant : t = dayNumber (tm.year + 1900) tm.mon.toNat tm.mday * 86400 + tm.hour * 3600 +
    tm.min * 60 + tm.sec
  yday : tm.yday = monthStart (tm.year + 1900) tm.mon.toNat + (tm.mday - 1)
  wday : 0 ≤ tm.wday ∧ tm.wday ≤ 6 ∧
    7 ∣ dayNumber (tm.year + 1900) tm.mon.toNat tm.mday + 4 - tm.wday
  isdst : tm.isdst = 0

theorem timeDaysInMonth_eq (h : month < 12) :
    timeDaysInMonth year month = some (monthLength year month) := by
  simp only [timeDaysInMonth, timeIsLeap_eq_true_iff]
  interval_cases month <;> simp [timeDays, monthLength]
  split <;> rfl

theorem timeDaysInMonth_eq_none (h : 12 ≤ month) : timeDaysInMonth year month = none := by
  rw [timeDaysInMonth, if_neg (by omega), List.getElem?_eq_none_iff]
  exact h

theorem yearsUp_spec (days year : ℤ) :
    firstDay (yearsUp days year).2 + (yearsUp days year).1 = firstDay year + days ∧
      (yearsUp days year).1 < yearLength (yearsUp days year).2 := by
  fun_induction yearsUp days year with
  | case1 days year h ih =>
    have hlen := timeDaysInYear_eq year
    rw [firstDay_succ] at ih
    exact ⟨by omega, ih.2⟩
  | case2 days year h =>
    rw [timeDaysInYear_eq] at h
    exact ⟨rfl, Int.not_le.1 h⟩

theorem yearsDown_spec (days year : ℤ) (h : days < yearLength year) :
    firstDay (yearsDown days year).2 + (yearsDown days year).1 = firstDay year + days ∧
      0 ≤ (yearsDown days year).1 ∧
      (yearsDown days year).1 < yearLength (yearsDown days year).2 := by
  fun_induction yearsDown days year with
  | case1 days year hneg ih =>
    have hyear := firstDay_succ (year - 1)
    have hlen := timeDaysInYear_eq (year - 1)
    rw [Int.sub_add_cancel] at hyear
    have hspec := ih (by omega)
    exact ⟨by omega, hspec.2⟩
  | case2 days year hneg => exact ⟨rfl, by omega, h⟩

theorem months_spec (year : ℤ) (month : ℕ) (days : ℤ) (hmonth : month ≤ 12) (hdays : 0 ≤ days)
    (h : monthStart year month + days < yearLength year) :
    (months year month days).1 ≤ 11 ∧
      monthStart year (months year month days).1 + (months year month days).2 =
        monthStart year month + days ∧
      0 ≤ (months year month days).2 ∧
      (months year month days).2 < monthLength year (months year month days).1 := by
  fun_induction months year month days with
  | case1 month days hlt hin =>
    rw [timeDaysInMonth_eq year hlt, getD_some] at hin
    exact ⟨by omega, rfl, hdays, hin⟩
  | case2 month days hlt hin ih =>
    have hlen : (timeDaysInMonth year month).getD 0 = monthLength year month := by
      rw [timeDaysInMonth_eq year hlt, getD_some]
    rw [monthStart] at ih
    have hspec := ih hlt (by omega) (by omega)
    exact ⟨hspec.1, by omega, hspec.2.2⟩
  | case3 month days hge =>
    have htwelve : month = 12 := by omega
    rw [htwelve, monthStart_twelve] at h
    omega

theorem yearsFrom1970_eq (n : ℕ) : yearsFrom1970 n = firstDay (1970 + n) - firstDay 1970 := by
  induction n with
  | zero => rfl
  | succ n ih =>
    have hyear : (1970 : ℤ) + ((n + 1 : ℕ) : ℤ) = 1970 + n + 1 := by omega
    rw [yearsFrom1970, ih, timeDaysInYear_eq, hyear, firstDay_succ]
    omega

theorem monthsBefore_eq (year : ℤ) {n : ℕ} (h : n ≤ 12) :
    monthsBefore year n = some (monthStart year n) := by
  induction n with
  | zero => rfl
  | succ n ih =>
    rw [monthsBefore, ih (by omega), timeDaysInMonth_eq year (by omega)]
    rfl

theorem monthsBefore_eq_none (year : ℤ) {n : ℕ} (h : 12 < n) : monthsBefore year n = none := by
  induction n with
  | zero => omega
  | succ n ih =>
    rw [monthsBefore]
    by_cases hn : 12 < n
    · rw [ih hn]
      rfl
    · rw [timeDaysInMonth_eq_none year (by omega)]
      cases monthsBefore year n <;> rfl

theorem tmod_corrected (a : ℤ) {b : ℤ} (hb : 0 < b) :
    (if a.tmod b < 0 then a.tmod b + b else a.tmod b) = a % b ∧
      (if a.tmod b < 0 then a.tdiv b - 1 else a.tdiv b) = a / b := by
  have hlow := Int.emod_nonneg a hb.ne'
  have hhigh := Int.emod_lt_of_pos a hb
  rw [Int.tmod_eq_emod, Int.tdiv_eq_ediv, Int.sign_eq_one_of_pos hb]
  by_cases h : 0 ≤ a ∨ b ∣ a
  · rw [if_pos h, if_pos h, if_neg (by omega), if_neg (by omega)]
    omega
  · rw [if_neg h, if_neg h, if_pos (by omega), if_pos (by omega)]
    omega

theorem canonical_gmtimeR (t : ℤ) : Canonical t (gmtimeR t) := by
  obtain ⟨hrem, hdays⟩ := tmod_corrected t (by omega : (0 : ℤ) < 86400)
  have hwday := (tmod_corrected (t / 86400 + 4) (by omega : (0 : ℤ) < 7)).1
  have hclock : 0 ≤ t % 86400 := by omega
  have hhour : 0 ≤ t % 86400 % 3600 := by omega
  have hup := yearsUp_spec (t / 86400) 1970
  have hdown := yearsDown_spec (yearsUp (t / 86400) 1970).1 (yearsUp (t / 86400) 1970).2 hup.2
  simp only [gmtimeR, hrem, hdays, hwday, Int.tmod_eq_emod_of_nonneg hclock,
    Int.tdiv_eq_ediv_of_nonneg hclock, Int.tmod_eq_emod_of_nonneg hhour,
    Int.tdiv_eq_ediv_of_nonneg hhour]
  generalize yearsDown (yearsUp (t / 86400) 1970).1 (yearsUp (t / 86400) 1970).2 = y at *
  have hmonth := months_spec y.2 0 y.1 (by omega) hdown.2.1 (by rw [monthStart]; omega)
  generalize months y.2 0 y.1 = m at *
  have hday : dayNumber y.2 m.1 (m.2 + 1) = t / 86400 := by
    rw [dayNumber]
    rw [monthStart] at hmonth
    omega
  have hyear : y.2 - 1900 + 1900 = y.2 := by omega
  constructor
  all_goals simp only [hyear, Int.toNat_natCast, hday]
  · omega
  · omega
  · omega
  · omega
  · omega
  · omega
  · rw [monthStart] at hmonth
    omega
  · omega

theorem yearsFrom1970_toNat : yearsFrom1970 (year - 1970).toNat =
      if 1970 ≤ year then firstDay year - firstDay 1970 else 0 := by
  rw [yearsFrom1970_eq]
  split
  case isTrue h =>
    have hyear : (1970 : ℤ) + ((year - 1970).toNat : ℤ) = year := by omega
    rw [hyear]
  case isFalse h =>
    have hzero : (year - 1970).toNat = 0 := by omega
    rw [hzero]
    rfl

theorem dayNumber_nonneg_iff {year mday : ℤ} (hmonth : month < 12) (hlow : 1 ≤ mday)
    (hhigh : mday ≤ monthLength year month) : 0 ≤ dayNumber year month mday ↔ 1970 ≤ year := by
  have hstart := monthStart_nonneg year month
  have hend := monthStart_le year (Nat.succ_le_of_lt hmonth)
  have hnext := firstDay_succ year
  rw [Nat.succ_eq_add_one, monthStart] at hend
  rw [dayNumber]
  constructor
  · intro h
    by_contra hyear
    have hle : firstDay (year + 1) ≤ firstDay 1970 := by
      by_cases heq : year + 1 = 1970
      · rw [heq]
      · exact Int.le_of_lt (firstDay_lt (by omega))
    omega
  · intro h
    have hle : firstDay 1970 ≤ firstDay year := by
      by_cases heq : 1970 = year
      · rw [heq]
      · exact Int.le_of_lt (firstDay_lt (by omega))
    omega

theorem mktime_of_canonical {t : ℤ} {tm : Tm} (h : Canonical t tm) :
    mktime tm = some t ↔ 0 ≤ t := by
  obtain ⟨hsec, hmin, hhour, hmon, hmday, hinstant, -, -, -⟩ := h
  have hday := dayNumber_nonneg_iff (by omega : tm.mon.toNat < 12) hmday.1 hmday.2
  rw [mktime, monthsBefore_eq _ (by omega), yearsFrom1970_toNat]
  simp only [bind_eq_bind, bind_some, Option.some.injEq]
  rw [dayNumber] at hday hinstant
  split
  case isTrue h1970 => omega
  case isFalse h1970 =>
    have hstart := monthStart_nonneg (tm.year + 1900) tm.mon.toNat
    omega

theorem isSome_mktime_iff (tm : Tm) : (mktime tm).isSome ↔ tm.mon ≤ 12 := by
  rw [mktime]
  by_cases h : tm.mon ≤ 12
  · rw [monthsBefore_eq _ (by omega)]
    simp [h]
  · rw [monthsBefore_eq_none _ (by omega)]
    simp [h]

/-- `mktime` goes back to the time that `gmtime_r` was given, which it broke down into its date
and its clock, and for no broken-down time it reads behind its table. -/
structure Inverts (t : ℤ) (tm : Tm) : Prop where
  back : mktime (gmtimeR t) = some t
  canonical : Canonical t (gmtimeR t)
  inside : (mktime tm).isSome

/-- The way back works from 1970 on, and the table is long enough up to the month 12. -/
theorem inverts_iff (t : ℤ) (tm : Tm) : Inverts t tm ↔ 0 ≤ t ∧ tm.mon ≤ 12 := by
  rw [← isSome_mktime_iff, ← mktime_of_canonical (canonical_gmtimeR t)]
  constructor
  · intro h
    exact ⟨h.back, h.inside⟩
  · intro h
    exact ⟨h.1, canonical_gmtimeR t, h.2⟩

/-- The last second of 1969. -/
theorem not_inverts : ¬ Inverts (-1) ⟨0, 0, 0, 1, 0, 70, 4, 0, 0⟩ := by
  intro h
  exact absurd ((mktime_of_canonical h.canonical).1 h.back) (by decide)

end Cleonos.Libc
