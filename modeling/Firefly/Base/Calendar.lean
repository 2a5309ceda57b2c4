import Firefly.Lib.Gregorian

/-!
# Firefly.Base.Calendar

`fd_calendar.c`: the seconds since the first of January 1970 as a date and a time of day, and back. One
direction takes the years and the months away one by one, the other has a formula for the leap years and
a table for the months. Numbers are of 32 bits, except for the seconds; where a sum or a product does not
fit, C defines nothing, and neither is there a result here.
-/

namespace Firefly

/-- `fd_calendar_t`, the year counted from 1900. -/
structure Calendar where
  year : Int
  wday : Int
  month : Int
  mday : Int
  hour : Int
  min : Int
  sec : Int
  deriving DecidableEq

namespace Calendar

/-- The result of an operation on numbers of 32 bits. -/
def int32 (x : Int) : Option Int := if -2 ^ 31 ≤ x ∧ x < 2 ^ 31 then some x else none

def leap (y : Int) : Bool := y.tmod 4 == 0 && y.tmod 100 != 0 || y.tmod 400 == 0

def nleap (y : Int) : Option Int := do
  let four ← int32 (y - 1969)
  let hundred ← int32 (y - 1901)
  let fourHundred ← int32 (y - 1601)
  let difference ← int32 (four.tdiv 4 - hundred.tdiv 100)
  int32 (difference + fourHundred.tdiv 400)

def ydays (m : Int) : Int :=
  match m with
  | 0 => 0
  | 1 => 31
  | 2 => 59
  | 3 => 90
  | 4 => 120
  | 5 => 151
  | 6 => 181
  | 7 => 212
  | 8 => 243
  | 9 => 273
  | 10 => 304
  | 11 => 334
  | 12 => 365
  | _ => 0

/-- `fd_calendar_to_time`. -/
def toTime (calendar : Calendar) : Option Int := do
  let years ← int32 (calendar.year + 1900)
  let days ← int32 (calendar.mday - 1)
  let days ← int32 (days + ydays calendar.month)
  let days ← int32 (if calendar.month > 1 && leap years then days + 1 else days)
  let since ← int32 (years - 1970)
  let common ← int32 (365 * since)
  let days ← int32 (days + common)
  let leaps ← nleap years
  let days ← int32 (days + leaps)
  let time := 86400 * days
  let hour ← int32 (3600 * calendar.hour)
  let time := time + hour
  let min ← int32 (60 * calendar.min)
  let time := time + min
  some (time + calendar.sec)

def yearsize (year : Int) : Int := if leap year then 366 else 365

def ymdays (ym : Int) : Int :=
  match ym with
  | 0 => 31
  | 1 => 28
  | 2 => 31
  | 3 => 30
  | 4 => 31
  | 5 => 30
  | 6 => 31
  | 7 => 31
  | 8 => 30
  | 9 => 31
  | 10 => 30
  | 11 => 31
  | 12 => 31
  | 13 => 29
  | 14 => 31
  | 15 => 30
  | 16 => 31
  | 17 => 30
  | 18 => 31
  | 19 => 31
  | 20 => 30
  | 21 => 31
  | 22 => 30
  | 23 => 31
  | _ => 31

theorem yearsize_pos (year : Int) : 0 < yearsize year := by
  rw [yearsize]
  split <;> decide

theorem ymdays_pos (ym : Int) : 0 < ymdays ym := by
  unfold ymdays
  split <;> decide

/-- The loop over the years: the days that are left, and the year. -/
def yearLoop (dayno year : Int) : Option (Int × Int) :=
  if dayno ≥ yearsize year then do
    let next ← int32 (year + 1)
    yearLoop (dayno - yearsize year) next
  else some (dayno, year)
termination_by dayno.toNat
decreasing_by
  have hpos := yearsize_pos year
  omega

/-- The loop over the months. -/
def monthLoop (offset dayno month : Int) : Option (Int × Int) :=
  if dayno ≥ ymdays (offset + month) then do
    let next ← int32 (month + 1)
    monthLoop offset (dayno - ymdays (offset + month)) next
  else some (dayno, month)
termination_by dayno.toNat
decreasing_by
  have hpos := ymdays_pos (offset + month)
  omega

/-- The conversion of a number of 64 bits to one of 32. -/
def cast32 (x : Int) : Int := x.bmod (2 ^ 32)

/-- `fd_calendar_from_time`. -/
def fromTime (time : Int) : Option Calendar := do
  let dayclock := cast32 (time.tmod 86400)
  let dayno := cast32 (time.tdiv 86400)
  let weekday ← int32 (dayno + 4)
  let (dayno, year) ← yearLoop dayno 1970
  let since ← int32 (year - 1900)
  let (dayno, month) ← monthLoop (if leap year then 12 else 0) dayno 0
  let mday ← int32 (dayno + 1)
  some {
    sec := dayclock.tmod 60
    min := (dayclock.tmod 3600).tdiv 60
    hour := dayclock.tdiv 3600
    wday := weekday.tmod 7
    year := since
    month := month
    mday := mday }

/-! ## Tables and formulas -/

open Gregorian

theorem int32_eq {x : Int} (h : -2 ^ 31 ≤ x ∧ x < 2 ^ 31) : int32 x = some x := if_pos h

theorem int32_bind {α : Type} {x : Int} (h : -2 ^ 31 ≤ x ∧ x < 2 ^ 31) (f : Int → Option α) :
    (int32 x >>= f) = f x := by
  rw [int32_eq h]
  rfl

theorem leap_iff {y : Int} (h : 0 ≤ y) : leap y = true ↔ IsLeap y := by
  simp only [leap, IsLeap, Int.tmod_eq_emod_of_nonneg h, Bool.or_eq_true, Bool.and_eq_true, beq_iff_eq, bne_iff_ne]

theorem yearsize_eq {y : Int} (h : 0 ≤ y) : yearsize y = yearLength y := by
  simp only [yearsize, yearLength, leap_iff h]

theorem ymdays_eq {y : Int} (h : 0 ≤ y) {m : Nat} (hm : m < 12) :
    ymdays ((if leap y then 12 else 0) + m) = monthLength y m := by
  simp only [leap_iff h]
  by_cases hleap : IsLeap y
  · simp only [monthLength, if_pos hleap]
    revert m
    decide
  · simp only [monthLength, if_neg hleap]
    revert m
    decide

/-- The table of the days in front of a month, with the leap day. -/
theorem ydays_eq {y : Int} (h : 0 ≤ y) {m : Nat} (hm : m < 12) :
    ydays m + (if (m : Int) > 1 && leap y then 1 else 0) = monthStart y m := by
  have hiff := leap_iff h
  induction m with
  | zero => simp [ydays, monthStart]
  | succ m ih =>
    have hlt : m < 11 := by omega
    rw [monthStart_succ, ← ih (by omega)]
    clear ih hm
    by_cases hleap : IsLeap y
    · rw [hiff.mpr hleap]
      simp only [monthLength, if_pos hleap, Bool.and_true]
      revert m
      decide
    · rw [Bool.eq_false_iff.mpr (mt hiff.mp hleap)]
      simp only [monthLength, if_neg hleap, Bool.and_false]
      revert m
      decide

/-- The formula of `nleap` counts one more year at a time. -/
theorem leaps_succ (y : Int) : (y + 1 - 1969) / 4 - (y + 1 - 1901) / 100 + (y + 1 - 1601) / 400 =
    (y - 1969) / 4 - (y - 1901) / 100 + (y - 1601) / 400 + if IsLeap y then 1 else 0 := by
  have hfour : (y + 1 - 1969) / 4 = (y - 1969) / 4 + if y % 4 = 0 then 1 else 0 := by
    split <;> omega
  have hhundred : (y + 1 - 1901) / 100 = (y - 1901) / 100 + if y % 100 = 0 then 1 else 0 := by
    split <;> omega
  have hfourHundred : (y + 1 - 1601) / 400 = (y - 1601) / 400 + if y % 400 = 0 then 1 else 0 := by
    split <;> omega
  have hleap : (if IsLeap y then 1 else 0 : Int) =
      (if y % 4 = 0 then 1 else 0) - (if y % 100 = 0 then 1 else 0) + if y % 400 = 0 then 1 else 0 := by
    by_cases h400 : y % 400 = 0
    · have h100 : y % 100 = 0 := by omega
      have h4 : y % 4 = 0 := by omega
      simp [IsLeap, h400, h100, h4]
    · by_cases h100 : y % 100 = 0
      · have h4 : y % 4 = 0 := by omega
        simp [IsLeap, h400, h100, h4]
      · simp [IsLeap, h400, h100]
  rw [hfour, hhundred, hfourHundred, hleap]
  omega

theorem leaps_eq (k : Nat) : ((1970 + k : Int) - 1969) / 4 - ((1970 + k : Int) - 1901) / 100 +
    ((1970 + k : Int) - 1601) / 400 = yearStart 1970 k - 365 * k := by
  induction k with
  | zero => rfl
  | succ k ih =>
    have hyear : 1970 + ((k + 1 : Nat) : Int) = 1970 + k + 1 := by omega
    rw [hyear, leaps_succ, ih, yearStart_succ, yearLength]
    split <;> omega

theorem nleap_bind {α : Type} {k : Nat} (h : 1970 + (k : Int) < 2 ^ 31) (f : Int → Option α) :
    (nleap (1970 + k) >>= f) = f (yearStart 1970 k - 365 * k) := by
  have hnleap : nleap (1970 + k) = some (yearStart 1970 k - 365 * k) := by
    rw [nleap, ← leaps_eq, int32_bind (by omega), int32_bind (by omega), int32_bind (by omega),
      Int.tdiv_eq_ediv_of_nonneg (by omega), Int.tdiv_eq_ediv_of_nonneg (by omega),
      Int.tdiv_eq_ediv_of_nonneg (by omega), int32_bind (by omega), int32_eq (by omega)]
  rw [hnleap]
  rfl

/-! ## Loops -/

/-- The days in front of the year and those that are left stay the same together. -/
theorem yearLoop_eq (n k : Nat) (h : 365 * (1970 + (k : Int)) + n < 365 * 2 ^ 31) : ∃ k' r : Nat,
    yearLoop n (1970 + k) = some ((r : Int), (1970 : Int) + k') ∧ (r : Int) < yearLength (1970 + k') ∧
      yearStart 1970 k + n = yearStart 1970 k' + r := by
  induction n using Nat.strong_induction_on generalizing k with
  | _ n ih =>
    have hlength := yearLength_cases (1970 + k)
    have hsize := yearsize_eq (y := 1970 + k) (by omega)
    rw [yearLoop, hsize]
    by_cases hmore : (n : Int) ≥ yearLength (1970 + k)
    · have hyear : (1970 : Int) + k + 1 = 1970 + (k + 1 : Nat) := by omega
      obtain ⟨m, hm⟩ := Int.eq_ofNat_of_zero_le (show 0 ≤ (n : Int) - yearLength (1970 + k) by omega)
      obtain ⟨k', r, hloop, hlast, hsum⟩ := ih m (by omega) (k + 1) (by omega)
      rw [if_pos hmore, int32_eq (by omega), hm, hyear]
      rw [yearStart_succ] at hsum
      exact ⟨k', r, hloop, hlast, by omega⟩
    · rw [if_neg hmore]
      exact ⟨k, n, rfl, by omega, rfl⟩

theorem monthLoop_eq {y : Int} (hy : 0 ≤ y) (n m : Nat) (h : monthStart y m + n < yearLength y) :
    ∃ m' r : Nat, monthLoop (if leap y then 12 else 0) n m = some ((r : Int), (m' : Int)) ∧ m' < 12 ∧
      (r : Int) < monthLength y m' ∧ monthStart y m + n = monthStart y m' + r := by
  have hnonneg (i : Nat) : 0 ≤ monthLength y i := Int.le_trans (by decide) (monthLength_pos y i)
  induction n using Nat.strong_induction_on generalizing m with
  | _ n ih =>
    have hm : m < 12 := by
      by_contra hge
      have hmono : monthStart y 12 ≤ monthStart y m := start_mono hnonneg (Nat.le_of_not_lt hge)
      rw [monthStart_twelve] at hmono
      omega
    have hlength := monthLength_pos y m
    have hsucc := monthStart_succ y m
    rw [monthLoop, ymdays_eq hy hm]
    by_cases hmore : (n : Int) ≥ monthLength y m
    · have hmonth : (m : Int) + 1 = (m + 1 : Nat) := rfl
      obtain ⟨n', hn'⟩ := Int.eq_ofNat_of_zero_le (show 0 ≤ (n : Int) - monthLength y m by omega)
      obtain ⟨m', r, hloop, hlast, hshort, hsum⟩ := ih n' (by omega) (m + 1) (by omega)
      rw [if_pos hmore, int32_eq (by omega), hn', hmonth]
      exact ⟨m', r, hloop, hlast, hshort, by omega⟩
    · rw [if_neg hmore]
      exact ⟨m, n, rfl, hm, by omega, rfl⟩

/-! ## Both directions -/

def date (c : Calendar) : Date := ⟨c.year + 1900, c.month, c.mday⟩

/-- A date of the calendar and a time of day. -/
structure Valid (c : Calendar) : Prop where
  date : c.date.Valid
  hour : 0 ≤ c.hour ∧ c.hour < 24
  min : 0 ≤ c.min ∧ c.min < 60
  sec : 0 ≤ c.sec ∧ c.sec < 60

/-- The days from the first of January 1970 on. -/
def days (c : Calendar) : Int := c.date.number 1970

theorem toTime_eq {c : Calendar} (h : c.Valid) (hepoch : 1970 ≤ c.date.year) (hrange : c.days < 2 ^ 31 - 4) :
    c.toTime = some (86400 * c.days + 3600 * c.hour + 60 * c.min + c.sec) := by
  obtain ⟨hdate, hhour, hmin, hsec⟩ := h
  obtain ⟨k, hk⟩ := Int.eq_ofNat_of_zero_le (show 0 ≤ c.year + 1900 - 1970 from Int.sub_nonneg.mpr hepoch)
  obtain ⟨m, hm⟩ := Int.eq_ofNat_of_zero_le hdate.month.1
  have hyear : c.year + 1900 = 1970 + (k : Int) := by omega
  have hmonth : c.month = m := hm
  have hlt : m < 12 := by
    have hle := hdate.month.2
    omega
  have hday := hdate.dayOfYear
  have hlength := yearLength_cases (c.year + 1900)
  have hstart := le_yearStart 1970 k
  have hdays : c.days = yearStart 1970 k + c.date.dayOfYear := by
    have hnat : (c.year + 1900 - 1970).toNat = k := by omega
    rw [days, Date.number, ← hnat]
    rfl
  have hmday : 1 ≤ c.mday ∧ c.mday ≤ 31 := ⟨hdate.mday.1, Int.le_trans hdate.mday.2 (monthLength_le ..)⟩
  have hfront : c.date.dayOfYear = monthStart (1970 + k) m + (c.mday - 1) := by
    rw [← hyear, ← Int.toNat_natCast m, ← hmonth]
    rfl
  have htable := ydays_eq (y := 1970 + k) (by omega) hlt
  have hsince : (1970 : Int) + k - 1970 = k := by omega
  have hbound : ∀ m : Nat, m < 12 → 0 ≤ ydays m ∧ ydays m ≤ 334 := by decide
  have hydays := hbound m hlt
  have hleap : (if (m : Int) > 1 && leap (1970 + k) then c.mday - 1 + ydays m + 1 else c.mday - 1 + ydays m) =
      c.date.dayOfYear := by
    rw [hfront, ← htable]
    split <;> omega
  rw [toTime, hyear, hmonth, int32_bind (by omega), int32_bind (by omega), int32_bind (by omega), hleap,
    int32_bind (by omega), hsince, int32_bind (by omega), int32_bind (by omega), int32_bind (by omega),
    nleap_bind (by omega), int32_bind (by omega), int32_bind (by omega), int32_bind (by omega),
    Option.some.injEq]
  omega

/-- A time of the range as a date, with the weekday of its day. -/
theorem fromTime_eq {t : Int} (h : 0 ≤ t) (hrange : t < 86400 * (2 ^ 31 - 4)) : ∃ c : Calendar,
    fromTime t = some c ∧ c.Valid ∧ 1970 ≤ c.date.year ∧ c.days = t / 86400 ∧
      c.wday = (t / 86400 + 4) % 7 ∧ 3600 * c.hour + 60 * c.min + c.sec = t % 86400 := by
  obtain ⟨n, hn⟩ := Int.eq_ofNat_of_zero_le (show 0 ≤ t / 86400 by omega)
  obtain ⟨s, hs⟩ := Int.eq_ofNat_of_zero_le (show 0 ≤ t % 86400 by omega)
  have hdayno : cast32 (t.tdiv 86400) = n := by
    rw [cast32, Int.tdiv_eq_ediv_of_nonneg h, hn]
    exact Int.bmod_eq_of_le (by omega) (by omega)
  have hdayclock : cast32 (t.tmod 86400) = s := by
    rw [cast32, Int.tmod_eq_emod_of_nonneg h, hs]
    exact Int.bmod_eq_of_le (by omega) (by omega)
  obtain ⟨k, r, hyears, hr, hsum⟩ := yearLoop_eq n 0 (by omega)
  have hlength := yearLength_cases (1970 + k)
  have hstart := le_yearStart 1970 k
  have hzero : yearStart 1970 0 = 0 := rfl
  have hfirst : monthStart (1970 + k) 0 = 0 := rfl
  obtain ⟨m, d, hmonths, hm, hd, hsum'⟩ := monthLoop_eq (y := 1970 + k) (by omega) r 0 (by omega)
  have hmday := monthLength_le (1970 + k) m
  have hyear : (1970 : Int) + k - 1900 + 1900 = 1970 + k := by omega
  have hnat : ((1970 : Int) + k - 1970).toNat = k := by omega
  have hhour : (s : Int).tdiv 3600 = s / 3600 := Int.tdiv_eq_ediv_of_nonneg (by omega)
  have hmin : ((s : Int).tmod 3600).tdiv 60 = s % 3600 / 60 := by
    rw [Int.tmod_eq_emod_of_nonneg (by omega), Int.tdiv_eq_ediv_of_nonneg (by omega)]
  have hsec : (s : Int).tmod 60 = s % 60 := Int.tmod_eq_emod_of_nonneg (by omega)
  have hwday : (n + 4 : Int).tmod 7 = (n + 4) % 7 := Int.tmod_eq_emod_of_nonneg (by omega)
  rw [Int.natCast_zero, Int.add_zero] at hyears
  rw [Int.natCast_zero] at hmonths
  refine ⟨⟨1970 + k - 1900, (n + 4) % 7, m, d + 1, s / 3600, s % 3600 / 60, s % 60⟩, ?_, ⟨⟨?_, ?_⟩, ?_, ?_, ?_⟩,
    ?_, ?_, ?_, ?_⟩
  · have hweekday : int32 (n + 4) = some (n + 4 : Int) := int32_eq (by omega)
    have hsince : int32 (1970 + k - 1900) = some (1970 + k - 1900 : Int) := int32_eq (by omega)
    have hday : int32 (d + 1) = some (d + 1 : Int) := int32_eq (by omega)
    rw [fromTime, hdayclock, hdayno, hweekday, hhour, hmin, hsec]
    rw [Option.bind_eq_bind, Option.bind_some, hwday, hyears, Option.bind_eq_bind, Option.bind_some]
    dsimp only
    rw [hsince, Option.bind_some, hmonths, Option.bind_some]
    dsimp only
    rw [hday, Option.bind_some]
  · simp only [date]
    omega
  · simp only [date, hyear]
    omega
  · simp only
    omega
  · simp only
    omega
  · simp only
    omega
  · simp only [date]
    omega
  · simp only [days, date, Date.number, Date.dayOfYear, hyear, hnat, Int.toNat_natCast]
    omega
  · rw [hn]
  · simp only
    omega

/-- Times of the range and valid dates and times of day are the same. The date is the one that the days since the
first of January 1970 count to, which was a Thursday. -/
theorem fromTime_toTime :
    (∀ t, 0 ≤ t → t < 86400 * (2 ^ 31 - 4) → ∃ c : Calendar, fromTime t = some c ∧ c.Valid ∧
      c.date = Gregorian.date 1970 (t / 86400).toNat ∧ c.wday = weekday 4 (t / 86400).toNat ∧
      c.toTime = some t) ∧
    ∀ c : Calendar, c.Valid → 1970 ≤ c.date.year → c.days < 2 ^ 31 - 4 →
      ∃ t wday, c.toTime = some t ∧ fromTime t = some { c with wday } := by
  constructor
  · intro t h hrange
    obtain ⟨c, hfrom, hvalid, hepoch, hdays, hwday, hclock⟩ := fromTime_eq h hrange
    refine ⟨c, hfrom, hvalid, ?_, ?_, ?_⟩
    · rw [← hdays]
      exact hvalid.date.eq_date hepoch
    · rw [weekday_eq (by decide), hwday]
      omega
    · rw [toTime_eq hvalid hepoch (by omega), hdays]
      congr 1
      omega
  · intro c hvalid hepoch hrange
    have hto := toTime_eq hvalid hepoch hrange
    have hnonneg : 0 ≤ c.days := hvalid.date.number_nonneg 1970
    have hhour := hvalid.hour
    have hmin := hvalid.min
    have hsec := hvalid.sec
    refine ⟨_, (c.days + 4) % 7, hto, ?_⟩
    generalize ht : 86400 * c.days + 3600 * c.hour + 60 * c.min + c.sec = t
    obtain ⟨c', hfrom, hvalid', hepoch', hdays, hwday, hclock⟩ := fromTime_eq (t := t) (by omega) (by omega)
    have hsame : c'.days = c.days := by omega
    have hdate := hvalid'.date.eq_of_number hvalid.date hepoch' hepoch hsame
    have hhour' := hvalid'.hour
    have hmin' := hvalid'.min
    have hsec' := hvalid'.sec
    rw [hfrom, Option.some.injEq]
    obtain ⟨year, wday, month, mday, hour, min, sec⟩ := c
    obtain ⟨year', wday', month', mday', hour', min', sec'⟩ := c'
    simp only [date, Date.mk.injEq] at hdate
    simp only at *
    rw [Calendar.mk.injEq]
    omega

/-- The first leap day, at 12:34:56. -/
def leapDay : Calendar := ⟨72, 0, 1, 29, 12, 34, 56⟩

theorem fromTime_toTime_sample :
    (∃ c : Calendar, fromTime 68214896 = some c ∧ c.Valid ∧
      c.date = Gregorian.date 1970 (68214896 / 86400 : Int).toNat ∧
      c.wday = weekday 4 (68214896 / 86400 : Int).toNat ∧ c.toTime = some 68214896) ∧
    ∃ t wday, leapDay.toTime = some t ∧ fromTime t = some { leapDay with wday } := by
  have hvalid : leapDay.Valid := ⟨⟨by decide, by decide⟩, by decide, by decide, by decide⟩
  have hdays : leapDay.days = 789 := by decide
  refine ⟨fromTime_toTime.1 68214896 (by decide) (by decide), ?_⟩
  exact fromTime_toTime.2 leapDay hvalid (by decide) (by rw [hdays]; decide)

end Calendar
end Firefly
