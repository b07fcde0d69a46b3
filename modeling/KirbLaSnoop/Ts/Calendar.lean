import Mathlib
import KirbLaSnoop.Lib.Checked
import KirbLaSnoop.Lib.Gregorian
import KirbLaSnoop.Ts

/-!
# Timestamps in the calendar

The parts of a timestamp are a date of the Gregorian calendar and a time of
that day, they are those of the timestamp, and nothing overflows on the way.
-/

namespace KirbLaSnoop

namespace Ts

open Gregorian

theorem Place.isDate_date (p : Place) (era : ℤ) :
    IsDate (p.date era).1 (p.date era).2.1 (p.date era).2.2 := by
  obtain ⟨mp, hmp⟩ : ∃ mp, mp = (5 * p.day + 2) / 153 := ⟨_, rfl⟩
  have hday := p.day_le
  unfold Place.date
  dsimp only
  rw [← hmp]
  by_cases hm : mp < 10
  · rw [if_pos hm, if_neg (by omega)]
    have hlength := monthLength_from_march ((p.yoe : ℤ) + era * 400) (Nat.le_of_lt_succ hm)
    exact ⟨by omega, by omega, by omega, by omega⟩
  · rw [if_neg hm, if_pos (by omega)]
    obtain rfl | rfl : mp = 10 ∨ mp = 11 := by omega
    · refine ⟨by omega, by omega, by omega, ?_⟩
      change p.day - 306 + 1 ≤ 31
      omega
    · refine ⟨by omega, by omega, by omega, ?_⟩
      -- only a leap year has a day 365 from March on
      have hleap : p.day = 365 → IsLeap ((p.yoe : ℤ) + era * 400 + 1) := by
        intro hlast
        obtain ⟨hyear, hcentury⟩ := p.leap hlast
        have hle := p.olympiad_le
        unfold IsLeap yoe
        omega
      change p.day - 337 + 1 ≤ if IsLeap _ then 29 else 28
      split_ifs with hy
      · omega
      · have hlt : p.day ≠ 365 := fun hlast => hy (hleap hlast)
        omega

theorem Place.daysSinceEpoch_date (p : Place) (era : ℤ) :
    daysSinceEpoch (p.date era).1 (p.date era).2.1 (p.date era).2.2 =
      era * 146097 + p.doe - 719468 := by
  obtain ⟨mp, hmp⟩ : ∃ mp, mp = (5 * p.day + 2) / 153 := ⟨_, rfl⟩
  have hday := p.day_le
  have hdoe := p.doe_eq
  have hyoe := p.yoe_lt
  unfold Place.date
  dsimp only
  rw [← hmp, daysSinceEpoch, daysBeforeYear_eq]
  by_cases hm : mp < 10
  · have hfebruary := monthLength_february ((p.yoe : ℤ) + era * 400)
    have hfirst : (153 * mp + 2) / 5 ≤ p.day := by omega
    rw [if_pos hm, if_neg (by omega), daysBeforeMonth_from_march _ (Nat.le_of_lt_succ hm)]
    push_cast
    omega
  · rw [if_neg hm, if_pos (by omega)]
    obtain rfl | rfl : mp = 10 ∨ mp = 11 := by omega
    · rw [daysBeforeMonth_one]
      omega
    · rw [daysBeforeMonth_two]
      omega

theorem isDate_civilFromDays {z : ℤ} (hz : 0 ≤ z) :
    IsDate (civilFromDays z).1 (civilFromDays z).2.1 (civilFromDays z).2.2 := by
  obtain ⟨p, era, -, hdate⟩ := civilFromDays_eq hz
  rw [hdate]
  exact p.isDate_date era

theorem daysSinceEpoch_civilFromDays {z : ℤ} (hz : 0 ≤ z) :
    daysSinceEpoch (civilFromDays z).1 (civilFromDays z).2.1 (civilFromDays z).2.2 = z := by
  obtain ⟨p, era, hp, hdate⟩ := civilFromDays_eq hz
  rw [hdate, p.daysSinceEpoch_date]
  omega

/-- The parts are a date and a time of a day. -/
structure Parts.IsDateTime (p : Parts) : Prop where
  date : IsDate p.year p.month p.day
  hour_lt : p.hour < 24
  minute_lt : p.minute < 60
  second_lt : p.second < 60
  milli_lt : p.milli < 1000

/-- The milliseconds since 1970 at a date and time. -/
noncomputable def Parts.millis (p : Parts) : ℤ :=
  daysSinceEpoch p.year p.month p.day * 86400000 +
    ((p.hour * 60 + p.minute) * 60 + p.second) * 1000 + p.milli

theorem isDateTime_parts (ms : ℕ) : (parts ms).IsDateTime where
  date := isDate_civilFromDays (Int.natCast_nonneg _)
  hour_lt := by
    change ms / 1000 % 86400 / 3600 < 24
    omega
  minute_lt := by
    change ms / 1000 % 86400 % 3600 / 60 < 60
    omega
  second_lt := Nat.mod_lt _ (by decide)
  milli_lt := Nat.mod_lt _ (by decide)

theorem daysSinceEpoch_parts (ms : ℕ) :
    daysSinceEpoch (parts ms).year (parts ms).month (parts ms).day = (ms / 1000 / 86400 : ℕ) :=
  daysSinceEpoch_civilFromDays (Int.natCast_nonneg _)

theorem millis_parts (ms : ℕ) : (parts ms).millis = ms := by
  rw [Parts.millis, daysSinceEpoch_parts]
  dsimp only [parts]
  omega

/-! ## The operations one by one -/

section Operations

open Checked

def civilFromDaysChecked (z : ℤ) : Option (ℤ × ℤ × ℤ) := do
  let z ← i64.add z 719468
  let era ← i64.div (← if z ≥ 0 then some z else i64.sub z 146096) 146097
  let doe ← u64.cast (← i64.sub z (← i64.mul era 146097))
  let yoe ← u64.div (← u64.sub (← u64.add (← u64.sub doe (← u64.div doe 1460))
    (← u64.div doe 36524)) (← u64.div doe 146096)) 365
  let y ← i64.add (← i64.cast yoe) (← i64.mul era 400)
  let doy ← u64.sub doe (← u64.sub (← u64.add (← u64.mul 365 yoe) (← u64.div yoe 4))
    (← u64.div yoe 100))
  let mp ← u64.div (← u64.add (← u64.mul 5 doy) 2) 153
  let d ← u32.cast (← u64.add (← u64.sub doy (← u64.div (← u64.add (← u64.mul 153 mp) 2) 5)) 1)
  let m ← u32.cast (← if mp < 10 then u64.add mp 3 else u64.sub mp 9)
  let y ← if m ≤ 2 then i64.add y 1 else some y
  return (y, m, d)

def partsChecked (ms : ℤ) : Option (ℤ × ℤ × ℤ × ℤ × ℤ × ℤ × ℤ) := do
  let secs ← i64.cast (← u64.div ms 1000)
  let sub ← u32.cast (← u64.rem ms 1000)
  let days ← i64.divEuclid secs 86400
  let rem ← u32.cast (← i64.remEuclid secs 86400)
  let (y, mo, d) ← civilFromDaysChecked days
  return (y, mo, d, ← u32.div rem 3600, ← u32.div (← u32.rem rem 3600) 60, ← u32.rem rem 60, sub)

theorem civilFromDaysChecked_eq {z : ℤ} (hz : 0 ≤ z) (hhi : z < 2 ^ 48) :
    civilFromDaysChecked z =
      some ((civilFromDays z).1, ((civilFromDays z).2.1 : ℤ), ((civilFromDays z).2.2 : ℤ)) := by
  obtain ⟨p, era, hp, hdate⟩ := civilFromDays_eq hz
  have hbounds := bounds
  have hyoe := p.yoe_eq
  have hlt := p.yoe_lt
  have hday := p.day_le
  have hdoe := p.doe_eq
  have hyoe' : ((p.doe : ℤ) - p.doe / 1460 + p.doe / 36524 - p.doe / 146096) / 365 = p.yoe := by
    omega
  have hera : (z + 719468) / 146097 = era := by omega
  have hdoe' : z + 719468 - era * 146097 = p.doe := by omega
  have hdoy : (p.doe : ℤ) - (365 * p.yoe + p.yoe / 4 - p.yoe / 100) = p.day := by omega
  obtain ⟨mp, hmp⟩ : ∃ mp, mp = (5 * p.day + 2) / 153 := ⟨_, rfl⟩
  have hmp' : (5 * (p.day : ℤ) + 2) / 153 = mp := by omega
  have hfirst : (153 * mp + 2) / 5 ≤ p.day := by omega
  unfold civilFromDaysChecked
  -- one rewrite for each operation in its turn; what it asks for comes after the result
  rw [add_bind, if_pos, some_bind]
  dsimp only
  rw [div_bind, hera, mul_bind, sub_bind, hdoe', cast_bind,
    div_bind, sub_bind, div_bind, add_bind, div_bind, sub_bind, div_bind, hyoe', cast_bind,
    mul_bind, add_bind, mul_bind, div_bind, add_bind, div_bind, sub_bind, sub_bind, hdoy,
    mul_bind, add_bind, div_bind, hmp', mul_bind, add_bind, div_bind, sub_bind, add_bind,
    cast_bind]
  · rw [hdate]
    unfold Place.date
    dsimp only
    rw [← hmp]
    by_cases hm : mp < 10
    · rw [if_pos (by omega), add_bind, cast_bind, if_neg, some_bind, if_pos hm, if_neg (by omega)]
      · refine congrArg some (Prod.ext rfl (Prod.ext ?_ ?_))
        · exact (Nat.cast_add mp 3).symm
        · dsimp only
          omega
      all_goals omega
    · rw [if_neg (by omega), sub_bind, cast_bind, if_pos, add_bind, if_neg hm, if_pos (by omega)]
      · refine congrArg some (Prod.ext rfl (Prod.ext ?_ ?_))
        · dsimp only
          omega
        · dsimp only
          omega
      all_goals omega
  all_goals omega

theorem partsChecked_eq {ms : ℕ} (h : ms < 2 ^ 64) :
    partsChecked ms = some ((parts ms).year, ((parts ms).month : ℤ), ((parts ms).day : ℤ),
      ((parts ms).hour : ℤ), ((parts ms).minute : ℤ), ((parts ms).second : ℤ),
      ((parts ms).milli : ℤ)) := by
  have hbounds := bounds
  have hdays : (ms : ℤ) / 1000 / 86400 = ((ms / 1000 / 86400 : ℕ) : ℤ) := by omega
  unfold partsChecked
  rw [div_bind, cast_bind, rem_bind, cast_bind, divEuclid_bind, remEuclid_bind, cast_bind, hdays,
    civilFromDaysChecked_eq (by omega) (by omega)]
  · change (u32.div _ _ >>= _) = _
    rw [div_bind, rem_bind, div_bind, rem_bind]
    · refine congrArg some ?_
      simp only [parts, Prod.mk.injEq, true_and]
      omega
    all_goals omega
  all_goals omega

/-- The parts of a timestamp are the date and time that it is of, and no
operation on the way to them leaves its type. -/
theorem parts_exact (ms : UInt64) :
    (parts ms.toNat).IsDateTime ∧ (parts ms.toNat).millis = ms.toNat ∧
      partsChecked ms.toNat = some ((parts ms.toNat).year, ((parts ms.toNat).month : ℤ),
        ((parts ms.toNat).day : ℤ), ((parts ms.toNat).hour : ℤ), ((parts ms.toNat).minute : ℤ),
        ((parts ms.toNat).second : ℤ), ((parts ms.toNat).milli : ℤ)) :=
  ⟨isDateTime_parts _, millis_parts _, partsChecked_eq ms.toNat_lt⟩

end Operations

end Ts

end KirbLaSnoop
