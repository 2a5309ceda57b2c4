import Mathlib.Algebra.BigOperators.Intervals
import Mathlib.Algebra.Order.BigOperators.Group.Finset

/-!
# Firefly.Lib.Gregorian

The days of the Gregorian calendar, one after the other (`next`). The number of a day counts from the
first day of an epoch year; it is the sum of the years and of the months in front, and it goes up by one
from day to day. Months are counted from 0 and days from 1.

Years and months are both segments of different lengths, laid one behind the other: a number lies in
exactly one of them (`segment_unique`).
-/

namespace Gregorian

open Finset

/-! ## Segments -/

/-- Where the segment of the given index begins. -/
def start (f : Nat → Int) (k : Nat) : Int := ∑ i ∈ range k, f i

variable {f : Nat → Int} {k k' : Nat} {r r' : Int}

@[simp] theorem start_zero (f : Nat → Int) : start f 0 = 0 := rfl

theorem start_succ (f : Nat → Int) (k : Nat) : start f (k + 1) = start f k + f k := sum_range_succ f k

theorem start_mono (hf : ∀ i, 0 ≤ f i) (h : k ≤ k') : start f k ≤ start f k' :=
  sum_le_sum_of_subset_of_nonneg (range_subset_range.mpr h) fun i _ _ => hf i

theorem segment_le (hf : ∀ i, 0 ≤ f i) (h : start f k + r = start f k' + r') (hr : 0 ≤ r) (hr' : r' < f k') :
    k ≤ k' := by
  by_contra hlt
  have hmono := start_mono hf (Nat.succ_le_of_lt (Nat.lt_of_not_le hlt))
  rw [Nat.succ_eq_add_one, start_succ] at hmono
  omega

/-- A number is in one segment, at one place. -/
theorem segment_unique (hf : ∀ i, 0 ≤ f i) (h : start f k + r = start f k' + r') (hr : 0 ≤ r) (hk : r < f k)
    (hr' : 0 ≤ r') (hk' : r' < f k') : k = k' ∧ r = r' := by
  obtain rfl := Nat.le_antisymm (segment_le hf h hr hk') (segment_le hf h.symm hr' hk)
  exact ⟨rfl, Int.add_left_cancel h⟩

/-! ## Days -/

structure Date where
  year : Int
  month : Int
  mday : Int
  deriving DecidableEq

def IsLeap (y : Int) : Prop := y % 4 = 0 ∧ y % 100 ≠ 0 ∨ y % 400 = 0

instance (y : Int) : Decidable (IsLeap y) := instDecidableOr

def yearLength (y : Int) : Int := if IsLeap y then 366 else 365

def monthLength (y m : Int) : Int :=
  if m = 1 then (if IsLeap y then 29 else 28) else if m = 3 ∨ m = 5 ∨ m = 8 ∨ m = 10 then 30 else 31

structure Date.Valid (d : Date) : Prop where
  month : 0 ≤ d.month ∧ d.month ≤ 11
  mday : 1 ≤ d.mday ∧ d.mday ≤ monthLength d.year d.month

/-- The day after. -/
def Date.next (d : Date) : Date :=
  if d.mday < monthLength d.year d.month then { d with mday := d.mday + 1 }
  else if d.month < 11 then ⟨d.year, d.month + 1, 1⟩
  else ⟨d.year + 1, 0, 1⟩

/-- The `n`-th day from the first day of the epoch year on. -/
def date (epoch : Int) (n : Nat) : Date := Date.next^[n] ⟨epoch, 0, 1⟩

/-- The day of the week of the `n`-th day, if that of the first day is `first`. -/
def weekday (first : Nat) : Nat → Nat
  | 0 => first
  | n + 1 => if weekday first n = 6 then 0 else weekday first n + 1

/-- The first day of a year, and of a month in its year. -/
def yearStart (epoch : Int) (k : Nat) : Int := start (fun i => yearLength (epoch + i)) k

def monthStart (y : Int) (m : Nat) : Int := start (fun i => monthLength y i) m

def Date.dayOfYear (d : Date) : Int := monthStart d.year d.month.toNat + (d.mday - 1)

def Date.number (epoch : Int) (d : Date) : Int := yearStart epoch (d.year - epoch).toNat + d.dayOfYear

theorem yearLength_cases (y : Int) : yearLength y = 365 ∨ yearLength y = 366 := by
  rw [yearLength]
  split
  · exact Or.inr rfl
  · exact Or.inl rfl

theorem monthLength_pos (y m : Int) : 28 ≤ monthLength y m := by
  rw [monthLength]
  split
  · split <;> decide
  · split <;> decide

theorem monthLength_le (y m : Int) : monthLength y m ≤ 31 := by
  rw [monthLength]
  split
  · split <;> decide
  · split <;> decide

theorem monthStart_twelve (y : Int) : monthStart y 12 = yearLength y := by
  by_cases h : IsLeap y
  · simp [monthStart, start, sum_range_succ, monthLength, yearLength, h]
  · simp [monthStart, start, sum_range_succ, monthLength, yearLength, h]

theorem monthStart_succ (y : Int) (m : Nat) : monthStart y (m + 1) = monthStart y m + monthLength y m :=
  start_succ ..

theorem yearStart_succ (epoch : Int) (k : Nat) :
    yearStart epoch (k + 1) = yearStart epoch k + yearLength (epoch + k) := start_succ ..

theorem le_yearStart (epoch : Int) (k : Nat) : 365 * k ≤ yearStart epoch k := by
  induction k with
  | zero => exact Int.le_refl 0
  | succ k ih =>
    have hlength := yearLength_cases (epoch + k)
    rw [yearStart_succ]
    omega

theorem yearStart_nonneg (epoch : Int) (k : Nat) : 0 ≤ yearStart epoch k := by
  have hle := le_yearStart epoch k
  omega

variable {d d' : Date} {epoch : Int}

theorem Date.Valid.dayOfYear (h : d.Valid) : 0 ≤ d.dayOfYear ∧ d.dayOfYear < yearLength d.year := by
  have hnonneg (i : Nat) : 0 ≤ monthLength d.year i := Int.le_trans (by decide) (monthLength_pos d.year i)
  have hmonth := h.month
  have hmday := h.mday
  have hfirst : start (fun i => monthLength d.year i) 0 ≤ _ := start_mono hnonneg (Nat.zero_le d.month.toNat)
  have hlast : start (fun i => monthLength d.year i) (d.month.toNat + 1) ≤ start (fun i => monthLength d.year i) 12 :=
    start_mono hnonneg (by omega)
  have hsucc := monthStart_succ d.year d.month.toNat
  rw [Int.toNat_of_nonneg hmonth.1] at hsucc
  have htwelve := monthStart_twelve d.year
  rw [start_zero] at hfirst
  rw [Date.dayOfYear]
  simp only [monthStart] at hsucc htwelve ⊢
  omega

theorem Date.Valid.number_nonneg (h : d.Valid) (epoch : Int) : 0 ≤ d.number epoch :=
  Int.add_nonneg (yearStart_nonneg epoch _) h.dayOfYear.1

theorem valid_first (y : Int) {m : Int} (h : 0 ≤ m ∧ m ≤ 11) : Date.Valid ⟨y, m, 1⟩ :=
  ⟨h, Int.le_refl 1, Int.le_trans (show (1 : Int) ≤ 28 by decide) (monthLength_pos y m)⟩

theorem Date.Valid.next (h : d.Valid) : d.next.Valid := by
  have hmonth := h.month
  have hmday := h.mday
  rw [Date.next]
  split
  · rename_i hmore
    refine ⟨hmonth, ?_⟩
    simp only
    omega
  · split
    · exact valid_first d.year (by omega)
    · exact valid_first (d.year + 1) (by decide)

theorem Date.year_next (d : Date) : d.year ≤ d.next.year := by
  rw [Date.next]
  split
  · exact Int.le_refl _
  · split
    · exact Int.le_refl _
    · simp only
      omega

/-- The day after has the next number. -/
theorem Date.Valid.number_next (h : d.Valid) (hepoch : epoch ≤ d.year) :
    d.next.number epoch = d.number epoch + 1 := by
  have hmonth := h.month
  have hmday := h.mday
  have hsucc := monthStart_succ d.year d.month.toNat
  rw [Int.toNat_of_nonneg hmonth.1] at hsucc
  rw [Date.next]
  split
  · simp only [Date.number, Date.dayOfYear]
    omega
  · by_cases hlast : d.month < 11
    · have hnat : (d.month + 1).toNat = d.month.toNat + 1 := by omega
      rw [if_pos hlast]
      simp only [Date.number, Date.dayOfYear, hnat, hsucc]
      omega
    · have hnat : (d.year + 1 - epoch).toNat = (d.year - epoch).toNat + 1 := by omega
      have hback : epoch + ((d.year - epoch).toNat : Int) = d.year := by omega
      have htwelve := monthStart_twelve d.year
      have hdecember : d.month.toNat + 1 = 12 := by omega
      rw [hdecember, htwelve] at hsucc
      have hfirst : monthStart (d.year + 1) (0 : Int).toNat = 0 := rfl
      rw [if_neg hlast]
      simp only [Date.number, Date.dayOfYear, hnat, yearStart_succ, hback, hfirst]
      omega

/-- Different days have different numbers. -/
theorem Date.Valid.eq_of_number (h : d.Valid) (h' : d'.Valid) (hepoch : epoch ≤ d.year)
    (hepoch' : epoch ≤ d'.year) (hnumber : d.number epoch = d'.number epoch) : d = d' := by
  have hyears (i : Nat) : 0 ≤ yearLength (epoch + i) := by
    have hlength := yearLength_cases (epoch + i)
    omega
  have hmonths (i : Nat) : 0 ≤ monthLength d.year i := Int.le_trans (by decide) (monthLength_pos d.year i)
  have hback : epoch + ((d.year - epoch).toNat : Int) = d.year := by omega
  have hback' : epoch + ((d'.year - epoch).toNat : Int) = d'.year := by omega
  obtain ⟨hyear, hday⟩ := segment_unique hyears hnumber h.dayOfYear.1 (by rw [hback]; exact h.dayOfYear.2)
    h'.dayOfYear.1 (by rw [hback']; exact h'.dayOfYear.2)
  have hsame : d'.year = d.year := by omega
  have hmonth := h.month
  have hmonth' := h'.month
  have hmday := h.mday
  have hmday' := h'.mday
  rw [Date.dayOfYear, Date.dayOfYear, hsame] at hday
  rw [hsame] at hmday'
  obtain ⟨hm, hd⟩ := segment_unique hmonths hday (by omega)
    (by rw [Int.toNat_of_nonneg hmonth.1]; omega) (by omega) (by rw [Int.toNat_of_nonneg hmonth'.1]; omega)
  obtain ⟨year, month, mday⟩ := d
  obtain ⟨year', month', mday'⟩ := d'
  rw [Date.mk.injEq]
  simp only at hsame hmonth hmonth' hm hd
  omega

theorem date_spec (epoch : Int) (n : Nat) :
    (date epoch n).Valid ∧ epoch ≤ (date epoch n).year ∧ (date epoch n).number epoch = n := by
  induction n with
  | zero =>
    refine ⟨valid_first epoch (by decide), Int.le_refl _, ?_⟩
    simp [date, Date.number, Date.dayOfYear, yearStart, monthStart]
  | succ n ih =>
    obtain ⟨hvalid, hepoch, hnumber⟩ := ih
    have hnext : date epoch (n + 1) = (date epoch n).next := Function.iterate_succ_apply' ..
    rw [hnext, hvalid.number_next hepoch, hnumber]
    exact ⟨hvalid.next, Int.le_trans hepoch (Date.year_next _), rfl⟩

/-- A valid day is the one that its number counts to. -/
theorem Date.Valid.eq_date (h : d.Valid) (hepoch : epoch ≤ d.year) :
    d = date epoch (d.number epoch).toNat := by
  obtain ⟨hvalid, hepoch', hnumber⟩ := date_spec epoch (d.number epoch).toNat
  refine h.eq_of_number hvalid hepoch hepoch' ?_
  rw [hnumber, Int.toNat_of_nonneg (h.number_nonneg epoch)]

theorem weekday_eq {first : Nat} (h : first < 7) (n : Nat) : weekday first n = (n + first) % 7 := by
  induction n with
  | zero => rw [weekday, Nat.zero_add, Nat.mod_eq_of_lt h]
  | succ n ih =>
    rw [weekday, ih]
    split <;> omega

end Gregorian
