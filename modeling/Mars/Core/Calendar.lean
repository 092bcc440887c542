import Mathlib.Algebra.BigOperators.Intervals
import Mathlib.Algebra.Order.BigOperators.Group.Finset
import Mathlib.Order.Interval.Finset.Nat
import Mathlib.Tactic.IntervalCases

/-! # The proleptic Gregorian calendar

Years and months have their lengths, and a date its number of days since the first
of January 1970, counted over whole years and months.
-/

namespace Calendar

def isLeap (year : Int) : Bool := year % 4 = 0 && (year % 100 ≠ 0 || year % 400 = 0)

def yearLength (year : Int) : Int := if isLeap year then 366 else 365

def monthLength (year : Int) : Nat → Nat
  | 2 => if isLeap year then 29 else 28
  | 4 | 6 | 9 | 11 => 30
  | _ => 31

/-- A day that the calendar has. -/
structure Date where
  year : Int
  month : Nat
  day : Nat
  month_pos : 1 ≤ month
  month_le : month ≤ 12
  day_pos : 1 ≤ day
  day_le : day ≤ monthLength year month

/-- Days from the beginning of 1970 to that of the year, negative for earlier ones. -/
def yearStart (year : Int) : Int :=
  ∑ i ∈ Finset.range (year - 1970).toNat, yearLength (1970 + i) -
    ∑ i ∈ Finset.range (1970 - year).toNat, yearLength (year + i)

/-- Days from the beginning of the year to that of the month. -/
def monthStart (year : Int) (month : Nat) : Int :=
  ∑ m ∈ Finset.Ico 1 month, (monthLength year m : Int)

def Date.dayNumber (date : Date) : Int :=
  yearStart date.year + monthStart date.year date.month + (date.day - 1)

/-! ## Years -/

theorem isLeap_iff {year : Int} :
    isLeap year = true ↔ year % 4 = 0 ∧ (year % 100 ≠ 0 ∨ year % 400 = 0) := by
  simp [isLeap]

theorem yearLength_pos (year : Int) : 0 < yearLength year := by
  unfold yearLength
  split <;> decide

theorem yearStart_succ (year : Int) : yearStart (year + 1) = yearStart year + yearLength year := by
  unfold yearStart
  rcases le_or_gt 1970 year with hlate | hearly
  · have hup : (year + 1 - 1970).toNat = (year - 1970).toNat + 1 := by omega
    have hlast : 1970 + ((year - 1970).toNat : Int) = year := by omega
    have hnone : (1970 - (year + 1)).toNat = 0 := by omega
    have hnone' : (1970 - year).toNat = 0 := by omega
    rw [hup, Finset.sum_range_succ, hlast, hnone, hnone']
    simp only [Finset.range_zero, Finset.sum_empty, sub_zero]
  · have hdown : (1970 - year).toNat = (1970 - (year + 1)).toNat + 1 := by omega
    have hshift : ∀ i : Nat, year + ((i + 1 : Nat) : Int) = year + 1 + i := by
      intro i
      omega
    have hnone : (year + 1 - 1970).toNat = 0 := by omega
    have hnone' : (year - 1970).toNat = 0 := by omega
    rw [hdown, Finset.sum_range_succ', hnone, hnone']
    simp only [hshift, Finset.range_zero, Finset.sum_empty, Nat.cast_zero, add_zero]
    omega

theorem yearStart_1970 : yearStart 1970 = 0 := by simp [yearStart]

/-- Days up to a year: 365 for each, and one for each leap year. -/
def yearCount (year : Int) : Int :=
  365 * (year - 1970) + (year - 1) / 4 - (year - 1) / 100 + (year - 1) / 400 - 477

theorem yearCount_succ (year : Int) :
    yearCount (year + 1) = yearCount year + yearLength year := by
  unfold yearCount yearLength
  cases hleap : isLeap year with
  | true =>
      rw [isLeap_iff] at hleap
      rw [if_pos rfl]
      omega
  | false =>
      have hnot : ¬ (year % 4 = 0 ∧ (year % 100 ≠ 0 ∨ year % 400 = 0)) := by
        rw [← isLeap_iff, hleap]
        exact Bool.false_ne_true
      rw [if_neg Bool.false_ne_true]
      omega

theorem yearStart_eq (year : Int) : yearStart year = yearCount year := by
  refine Int.inductionOn' year 1970 ?_ ?_ ?_
  · rw [yearStart_1970]
    rfl
  · intro y _ ih
    rw [yearStart_succ, yearCount_succ, ih]
  · intro y _ ih
    have hstart := yearStart_succ (y - 1)
    have hcount := yearCount_succ (y - 1)
    rw [sub_add_cancel] at hstart hcount
    omega

theorem yearStart_mono {year later : Int} (h : year ≤ later) :
    yearStart year ≤ yearStart later := by
  induction later, h using Int.leInduction with
  | base => exact le_rfl
  | succ y hy ih =>
      rw [yearStart_succ]
      have := yearLength_pos y
      omega

/-! ## Months -/

theorem monthLength_le (year : Int) (month : Nat) : monthLength year month ≤ 31 := by
  unfold monthLength
  split
  · split <;> decide
  all_goals decide

theorem monthStart_succ {year : Int} {month : Nat} (h : 1 ≤ month) :
    monthStart year (month + 1) = monthStart year month + monthLength year month :=
  Finset.sum_Ico_succ_top h _

theorem monthStart_mono {year : Int} {month later : Nat} (h : 1 ≤ month) (hlater : month ≤ later) :
    monthStart year month ≤ monthStart year later := by
  induction later, hlater using Nat.le_induction with
  | base => exact le_rfl
  | succ m hm ih =>
      rw [monthStart_succ (h.trans hm)]
      omega

theorem monthStart_nonneg (year : Int) (month : Nat) : 0 ≤ monthStart year month :=
  Finset.sum_nonneg fun _ _ => Int.natCast_nonneg _

/-- The months of a year make up the year. -/
theorem monthStart_end (year : Int) : monthStart year 13 = yearLength year := by
  unfold monthStart yearLength
  cases hleap : isLeap year <;> simp [Finset.sum_Ico_succ_top, monthLength, hleap]

/-! ## Days -/

theorem Date.dayNumber_lt (date : Date) : date.dayNumber <
    yearStart date.year + monthStart date.year (date.month + 1) := by
  rw [monthStart_succ date.month_pos, Date.dayNumber]
  have := date.day_le
  omega

theorem Date.le_dayNumber (date : Date) :
    yearStart date.year + monthStart date.year date.month ≤ date.dayNumber := by
  have := date.day_pos
  unfold Date.dayNumber
  omega

theorem Date.dayNumber_lt_year (date : Date) : date.dayNumber < yearStart (date.year + 1) := by
  have hmonths : monthStart date.year (date.month + 1) ≤ monthStart date.year 13 :=
    monthStart_mono (Nat.le_add_left 1 _) (Nat.succ_le_succ date.month_le)
  have hlt := date.dayNumber_lt
  rw [monthStart_end] at hmonths
  rw [yearStart_succ]
  omega

theorem Date.year_le_dayNumber (date : Date) : yearStart date.year ≤ date.dayNumber :=
  (le_add_of_nonneg_right (monthStart_nonneg _ _)).trans date.le_dayNumber

/-- By year, then by month, then by day. -/
def Date.Before (a b : Date) : Prop :=
  a.year < b.year ∨ a.year = b.year ∧ (a.month < b.month ∨ a.month = b.month ∧ a.day < b.day)

theorem Date.dayNumber_strictMono {a b : Date} (h : a.Before b) : a.dayNumber < b.dayNumber := by
  rcases h with hyear | ⟨hyear, hmonth | ⟨hmonth, hday⟩⟩
  · calc a.dayNumber < yearStart (a.year + 1) := a.dayNumber_lt_year
      _ ≤ yearStart b.year := yearStart_mono (Int.add_one_le_iff.mpr hyear)
      _ ≤ b.dayNumber := b.year_le_dayNumber
  · have hmono : monthStart b.year (a.month + 1) ≤ monthStart b.year b.month :=
      monthStart_mono (Nat.le_add_left 1 _) hmonth
    have hlt := a.dayNumber_lt
    have hle := b.le_dayNumber
    rw [hyear] at hlt
    omega
  · unfold Date.dayNumber
    rw [hyear, hmonth]
    omega

theorem Date.before_trichotomy (a b : Date) :
    a.Before b ∨ (a.year = b.year ∧ a.month = b.month ∧ a.day = b.day) ∨ b.Before a := by
  unfold Date.Before
  omega

/-- A day with a smaller number is an earlier one. -/
theorem Date.before_of_dayNumber_lt {a b : Date} (h : a.dayNumber < b.dayNumber) : a.Before b := by
  rcases a.before_trichotomy b with hbefore | ⟨hyear, hmonth, hday⟩ | hafter
  · exact hbefore
  · simp [Date.dayNumber, hyear, hmonth, hday] at h
  · exact absurd (Date.dayNumber_strictMono hafter) (not_lt.mpr h.le)

theorem Date.dayNumber_injective {a b : Date} (h : a.dayNumber = b.dayNumber) :
    a.year = b.year ∧ a.month = b.month ∧ a.day = b.day := by
  rcases a.before_trichotomy b with hbefore | hsame | hafter
  · exact absurd h (Date.dayNumber_strictMono hbefore).ne
  · exact hsame
  · exact absurd h (Date.dayNumber_strictMono hafter).ne'

/-! ## Years that begin in March -/

/-- The month that is `mp` months behind March, and its year. -/
def fromMarch (year : Int) (mp : Nat) : Int × Nat :=
  if mp < 10 then (year, mp + 3) else (year + 1, mp - 9)

theorem fromMarch_month (year : Int) {mp : Nat} (h : mp < 12) :
    1 ≤ (fromMarch year mp).2 ∧ (fromMarch year mp).2 ≤ 12 := by
  unfold fromMarch
  split <;> omega

theorem yearLength_eq_february (year : Int) : yearLength year = 337 + (monthLength year 2 : Int) := by
  simp only [yearLength, monthLength]
  split <;> rfl

/-- The days up to the first of March, which is 306 days before the year ends;
a leap day is the last day of its year. -/
theorem marchStart_eq (year : Int) : yearStart year + monthStart year 3 =
    365 * (year - 1970) + year / 4 - year / 100 + year / 400 - 418 := by
  have hmarch : monthStart year 3 = 31 + (monthLength year 2 : Int) := by
    simp [monthStart, Finset.sum_Ico_succ_top, monthLength]
  have hnext := yearCount_succ year
  rw [yearLength_eq_february] at hnext
  have hcount : yearCount (year + 1) =
      365 * (year - 1970) + year / 4 - year / 100 + year / 400 - 112 := by
    rw [yearCount, add_sub_cancel_right]
    omega
  rw [yearStart_eq, hmarch]
  omega

theorem fromMarch_start (year : Int) {mp : Nat} (h : mp < 12) :
    yearStart (fromMarch year mp).1 + monthStart (fromMarch year mp).1 (fromMarch year mp).2 =
      yearStart year + monthStart year 3 + (153 * mp + 2) / 5 := by
  have hyear := yearStart_succ year
  have hmonths := monthStart_end year
  have hstart : ∀ y m, monthStart y (m + 1 + 1) = monthStart y (m + 1) + monthLength y (m + 1) :=
    fun y m => monthStart_succ (Nat.le_add_left 1 m)
  have hfirst : monthStart (year + 1) 1 = 0 := by simp [monthStart]
  interval_cases mp <;>
    simp only [fromMarch, hstart, monthLength, Nat.reduceLT, if_true, if_false, Nat.reduceAdd,
      Nat.reduceSub] at * <;>
    omega

/-- Each month has the days up to the next, the last of the year those of February. -/
theorem fromMarch_length (year : Int) {mp : Nat} (h : mp < 12) :
    monthLength (fromMarch year mp).1 (fromMarch year mp).2 =
      if mp = 11 then (if isLeap (year + 1) then 29 else 28)
      else (153 * (mp + 1) + 2) / 5 - (153 * mp + 2) / 5 := by
  interval_cases mp <;> simp [fromMarch, monthLength]

/-- A day of a cycle of 400 years by its century, its four years, its year and its day
in a year that begins in March. -/
theorem exists_cycle {doe : Int} (hmin : 0 ≤ doe) (hmax : doe < 146097) :
    ∃ c q k t : Int, doe = 36524 * c + 1461 * q + 365 * k + t ∧ (0 ≤ c ∧ c ≤ 3) ∧
      (0 ≤ q ∧ q ≤ 24) ∧ (0 ≤ k ∧ k ≤ 3) ∧ (0 ≤ t ∧ t ≤ 365) ∧
        (t = 365 → k = 3 ∧ (q = 24 → c = 3)) := by
  obtain ⟨c, r, hdoe, hc, hr, hlast⟩ : ∃ c r : Int, doe = 36524 * c + r ∧ (0 ≤ c ∧ c ≤ 3) ∧
      (0 ≤ r ∧ r ≤ 36524) ∧ (r = 36524 → c = 3) := by
    by_cases hend : doe = 146096
    · exact ⟨3, 36524, by omega, by omega, by omega, fun _ => rfl⟩
    · exact ⟨doe / 36524, doe % 36524, by omega, by omega, by omega, by omega⟩
  obtain ⟨k, t, hs, hk, ht, hleap⟩ : ∃ k t : Int, r % 1461 = 365 * k + t ∧ (0 ≤ k ∧ k ≤ 3) ∧
      (0 ≤ t ∧ t ≤ 365) ∧ (t = 365 → k = 3) := by
    by_cases hend : r % 1461 = 1460
    · exact ⟨3, 365, by omega, by omega, by omega, fun _ => rfl⟩
    · exact ⟨r % 1461 / 365, r % 1461 % 365, by omega, by omega, by omega, by omega⟩
  refine ⟨c, r / 1461, k, t, by omega, hc, by omega, hk, ht, fun hday => ⟨hleap hday, ?_⟩⟩
  intro hquad
  exact hlast (by omega)

end Calendar
