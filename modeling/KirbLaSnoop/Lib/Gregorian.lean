import Mathlib

/-!
# The Gregorian calendar

The days of the proleptic calendar and their numbers, counted from the first
of January 1970: the days of the years before, those of the months before and
those of the month. Later dates have larger numbers.
-/

namespace Gregorian

open Finset

def IsLeap (y : ℤ) : Prop := y % 4 = 0 ∧ (y % 100 = 0 → y % 400 = 0)

instance : DecidablePred IsLeap := fun y =>
  inferInstanceAs (Decidable (y % 4 = 0 ∧ (y % 100 = 0 → y % 400 = 0)))

def monthLength (y : ℤ) (m : ℕ) : ℕ :=
  if m = 2 then if IsLeap y then 29 else 28
  else if m = 4 ∨ m = 6 ∨ m = 9 ∨ m = 11 then 30
  else 31

def yearLength (y : ℤ) : ℕ := ∑ m ∈ Ico 1 13, monthLength y m

/-- The days from 1970 to the first of January of a year. -/
noncomputable def daysBeforeYear (y : ℤ) : ℤ :=
  ∑ n ∈ Ico 1970 y, (yearLength n : ℤ) - ∑ n ∈ Ico y 1970, (yearLength n : ℤ)

def daysBeforeMonth (y : ℤ) (m : ℕ) : ℕ := ∑ k ∈ Ico 1 m, monthLength y k

noncomputable def daysSinceEpoch (y : ℤ) (m d : ℕ) : ℤ :=
  daysBeforeYear y + daysBeforeMonth y m + d - 1

structure IsDate (y : ℤ) (m d : ℕ) : Prop where
  month_pos : 1 ≤ m
  month_le : m ≤ 12
  day_pos : 1 ≤ d
  day_le : d ≤ monthLength y m

example : daysSinceEpoch 2000 3 1 = 11017 := by decide +kernel

/-! ## Years -/

theorem yearLength_eq (y : ℤ) : yearLength y = if IsLeap y then 366 else 365 := by
  have hmonths : Ico 1 13 = ({1, 2, 3, 4, 5, 6, 7, 8, 9, 10, 11, 12} : Finset ℕ) := by decide
  rw [yearLength, hmonths]
  split_ifs with hy <;> simp [monthLength, hy]

theorem daysBeforeYear_add_one (y : ℤ) :
    daysBeforeYear (y + 1) = daysBeforeYear y + yearLength y := by
  unfold daysBeforeYear
  rcases le_or_gt 1970 y with hy | hy
  · rw [← insert_Ico_right_eq_Ico_add_one hy, sum_insert right_notMem_Ico,
      Ico_eq_empty (by omega : ¬y < 1970), Ico_eq_empty (by omega : ¬y + 1 < 1970)]
    ring
  · rw [← insert_Ico_add_one_left_eq_Ico hy, sum_insert (by simp),
      Ico_eq_empty (by omega : ¬(1970 : ℤ) < y), Ico_eq_empty (by omega : ¬(1970 : ℤ) < y + 1)]
    ring

/-- A leap year is one where the leap years so far become one more. -/
theorem yearLength_cast (y : ℤ) :
    (yearLength y : ℤ) = 365 + (y / 4 - (y - 1) / 4) - (y / 100 - (y - 1) / 100) +
      (y / 400 - (y - 1) / 400) := by
  rw [yearLength_eq]
  split_ifs with hy
  · obtain ⟨hfour, hhundred⟩ := hy
    push_cast
    omega
  · have hnot : y % 4 ≠ 0 ∨ (y % 100 = 0 ∧ y % 400 ≠ 0) := by
      unfold IsLeap at hy
      omega
    push_cast
    omega

theorem daysBeforeYear_eq (y : ℤ) :
    daysBeforeYear y = 365 * y + (y - 1) / 4 - (y - 1) / 100 + (y - 1) / 400 - 719527 := by
  induction y using Int.inductionOn' with
  | b => exact 1970
  | zero => simp [daysBeforeYear]
  | succ y hy ih =>
      have hstep := daysBeforeYear_add_one y
      rw [yearLength_cast] at hstep
      omega
  | pred y hy ih =>
      have hstep := daysBeforeYear_add_one (y - 1)
      rw [yearLength_cast, Int.sub_add_cancel] at hstep
      omega

theorem daysBeforeYear_mono {y z : ℤ} (h : y ≤ z) : daysBeforeYear y ≤ daysBeforeYear z := by
  rw [daysBeforeYear_eq, daysBeforeYear_eq]
  omega

/-! ## Months -/

theorem daysBeforeMonth_add_one (y : ℤ) {m : ℕ} (hm : 1 ≤ m) :
    daysBeforeMonth y (m + 1) = daysBeforeMonth y m + monthLength y m := by
  rw [daysBeforeMonth, daysBeforeMonth, Finset.sum_Ico_succ_top hm]

theorem daysBeforeMonth_mono (y : ℤ) {m n : ℕ} (h : m ≤ n) :
    daysBeforeMonth y m ≤ daysBeforeMonth y n :=
  Finset.sum_le_sum_of_subset (Finset.Ico_subset_Ico_right h)

theorem monthLength_february (y : ℤ) :
    (monthLength y 2 : ℤ) = 28 + (y / 4 - (y - 1) / 4) - (y / 100 - (y - 1) / 100) +
      (y / 400 - (y - 1) / 400) := by
  have hyear := yearLength_cast y
  rw [yearLength_eq] at hyear
  rw [monthLength, if_pos rfl]
  split_ifs at hyear ⊢ <;> push_cast at hyear ⊢ <;> omega

theorem daysBeforeMonth_one (y : ℤ) : daysBeforeMonth y 1 = 0 := by
  rw [daysBeforeMonth, Finset.Ico_self, Finset.sum_empty]

theorem daysBeforeMonth_two (y : ℤ) : daysBeforeMonth y 2 = 31 := by
  rw [daysBeforeMonth_add_one y le_rfl, daysBeforeMonth_one]
  simp [monthLength]

/-- From March on the months are of 31, 30, 31, 30, 31 days and again. -/
theorem monthLength_from_march (y : ℤ) {k : ℕ} (h : k ≤ 9) :
    (153 * k + 2) / 5 + monthLength y (k + 3) = (153 * (k + 1) + 2) / 5 := by
  have hlength : ∀ k < 10, (153 * k + 2) / 5 +
      (if k + 3 = 4 ∨ k + 3 = 6 ∨ k + 3 = 9 ∨ k + 3 = 11 then 30 else 31) =
        (153 * (k + 1) + 2) / 5 := by decide
  rw [monthLength, if_neg (by omega), hlength k (by omega)]

theorem daysBeforeMonth_from_march (y : ℤ) {k : ℕ} (h : k ≤ 9) :
    daysBeforeMonth y (k + 3) = 31 + monthLength y 2 + (153 * k + 2) / 5 := by
  induction k with
  | zero =>
      rw [daysBeforeMonth_add_one y (by decide), daysBeforeMonth_two]
      rfl
  | succ k ih =>
      rw [daysBeforeMonth_add_one y (by omega), ih (by omega),
        ← monthLength_from_march y (Nat.le_of_succ_le h), Nat.add_assoc]

/-! ## Dates -/

variable {y z : ℤ} {m n d e : ℕ}

theorem IsDate.before_next_month (h : IsDate y m d) :
    daysBeforeMonth y m + d ≤ daysBeforeMonth y (m + 1) := by
  rw [daysBeforeMonth_add_one y h.month_pos]
  have hday := h.day_le
  omega

theorem IsDate.before_next_year (h : IsDate y m d) :
    daysSinceEpoch y m d < daysBeforeYear (y + 1) := by
  have hnext := h.before_next_month
  have hmonth := daysBeforeMonth_mono y (Nat.succ_le_succ h.month_le)
  rw [daysBeforeYear_add_one, daysSinceEpoch]
  change daysBeforeMonth y (m + 1) ≤ yearLength y at hmonth
  omega

/-- Days are numbered in the order of their dates. -/
theorem daysSinceEpoch_lt (h : IsDate y m d) (h' : IsDate z n e)
    (hlt : y < z ∨ y = z ∧ (m < n ∨ m = n ∧ d < e)) :
    daysSinceEpoch y m d < daysSinceEpoch z n e := by
  have hpos := h'.day_pos
  rcases hlt with hyear | ⟨rfl, hmonth | ⟨rfl, hday⟩⟩
  · have hnext := h.before_next_year
    have hmono := daysBeforeYear_mono (show y + 1 ≤ z from hyear)
    rw [daysSinceEpoch.eq_1 z]
    omega
  · have hnext := h.before_next_month
    have hmono := daysBeforeMonth_mono y (show m + 1 ≤ n from hmonth)
    rw [daysSinceEpoch, daysSinceEpoch]
    omega
  · rw [daysSinceEpoch, daysSinceEpoch]
    omega

theorem lt_or_eq_of_daysSinceEpoch_le (h : IsDate y m d) (h' : IsDate z n e)
    (hle : daysSinceEpoch y m d ≤ daysSinceEpoch z n e) :
    (y < z ∨ y = z ∧ (m < n ∨ m = n ∧ d < e)) ∨ (y = z ∧ m = n ∧ d = e) := by
  by_contra hnot
  have hlt : z < y ∨ z = y ∧ (n < m ∨ n = m ∧ e < d) := by omega
  exact absurd hle (not_le.mpr (daysSinceEpoch_lt h' h hlt))

end Gregorian
