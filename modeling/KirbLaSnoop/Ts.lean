import Mathlib

/-!
# Timestamps

The civil date of a number of milliseconds since 1970, as events have it and
as the name of a run's directory has it, to the second. A second has one name.
-/

namespace KirbLaSnoop

namespace Ts

/-- Days since 1970-01-01 to year, month and day. Eras of 400 years begin on
the first of March. -/
def civilFromDays (z : ℤ) : ℤ × ℕ × ℕ :=
  let z := z + 719468
  let era := (if z ≥ 0 then z else z - 146096).tdiv 146097
  let doe := (z - era * 146097).toNat
  let yoe := (doe - doe / 1460 + doe / 36524 - doe / 146096) / 365
  let y := (yoe : ℤ) + era * 400
  let doy := doe - (365 * yoe + yoe / 4 - yoe / 100)
  let mp := (5 * doy + 2) / 153
  let d := doy - (153 * mp + 2) / 5 + 1
  let m := if mp < 10 then mp + 3 else mp - 9
  (if m ≤ 2 then y + 1 else y, m, d)

structure Parts where
  year : ℤ
  month : ℕ
  day : ℕ
  hour : ℕ
  minute : ℕ
  second : ℕ
  milli : ℕ
  deriving DecidableEq

def parts (ms : ℕ) : Parts :=
  let secs := ms / 1000
  let sub := ms % 1000
  let days := secs / 86400
  let rem := secs % 86400
  let (y, mo, d) := civilFromDays days
  ⟨y, mo, d, rem / 3600, rem % 3600 / 60, rem % 60, sub⟩

/-- `{n:0width}`. -/
def pad (width n : ℕ) : String :=
  let digits := toString n
  String.ofList (List.replicate (width - digits.length) '0') ++ digits

/-- `{n:0width}` of a signed number; the sign takes up a place. -/
def padInt (width : ℕ) : ℤ → String
  | .ofNat n => pad width n
  | .negSucc n => "-" ++ pad (width - 1) (n + 1)

def iso8601 (ms : ℕ) : String :=
  let p := parts ms
  padInt 4 p.year ++ "-" ++ pad 2 p.month ++ "-" ++ pad 2 p.day ++ "T" ++ pad 2 p.hour ++ ":" ++
    pad 2 p.minute ++ ":" ++ pad 2 p.second ++ "." ++ pad 3 p.milli ++ "Z"

def clock (ms : ℕ) : String :=
  let p := parts ms
  pad 2 p.hour ++ ":" ++ pad 2 p.minute ++ ":" ++ pad 2 p.second ++ "." ++ pad 3 p.milli

def stamp (ms : ℕ) : String :=
  let p := parts ms
  padInt 4 p.year ++ pad 2 p.month ++ pad 2 p.day ++ "-" ++ pad 2 p.hour ++ pad 2 p.minute ++
    pad 2 p.second

example : stamp 1786646412345 = "20260813-184012" := by decide +kernel

/-! ## The date determines the day -/

/-- The first of March of a year of an era, and a day of that year: a year is
a century of the era, four years of the century and a year of the four. -/
structure Place where
  century : ℕ
  olympiad : ℕ
  year : ℕ
  day : ℕ
  century_le : century ≤ 3
  olympiad_le : olympiad ≤ 24
  year_le : year ≤ 3
  day_le : day ≤ 365
  leap : day = 365 → year = 3 ∧ (olympiad = 24 → century = 3)

namespace Place

def yoe (p : Place) : ℕ := 100 * p.century + 4 * p.olympiad + p.year

def doe (p : Place) : ℕ := 36524 * p.century + 1461 * p.olympiad + 365 * p.year + p.day

/-- Every day of an era has its place. -/
theorem exists_doe_eq {doe : ℕ} (h : doe < 146097) : ∃ p : Place, p.doe = doe := by
  obtain ⟨c, hc⟩ : ∃ c, c = min 3 (doe / 36524) := ⟨_, rfl⟩
  obtain ⟨q, hq⟩ : ∃ q, q = (doe - 36524 * c) / 1461 := ⟨_, rfl⟩
  obtain ⟨r, hr⟩ : ∃ r, r = min 3 ((doe - 36524 * c - 1461 * q) / 365) := ⟨_, rfl⟩
  refine ⟨⟨c, q, r, doe - 36524 * c - 1461 * q - 365 * r, by omega, by omega, by omega, by omega,
    by omega⟩, ?_⟩
  change 36524 * c + 1461 * q + 365 * r + (doe - 36524 * c - 1461 * q - 365 * r) = doe
  omega

theorem yoe_lt (p : Place) : p.yoe < 400 := by
  have hc := p.century_le
  have hq := p.olympiad_le
  have hr := p.year_le
  unfold yoe
  omega

theorem yoe_eq (p : Place) :
    (p.doe - p.doe / 1460 + p.doe / 36524 - p.doe / 146096) / 365 = p.yoe := by
  obtain ⟨c, q, r, t, hc, hq, hr, ht, hleap⟩ := p
  simp only [doe, yoe]
  obtain ⟨n, hn⟩ : ∃ n, n = 36524 * c + 1461 * q + 365 * r + t := ⟨_, rfl⟩
  rw [← hn]
  have h1460 : n / 1460 = 25 * c + q + (24 * c + q + 365 * r + t) / 1460 := by omega
  rcases Nat.lt_or_ge n 146096 with hlt | hge
  · have h36524 : n / 36524 = c := by omega
    have h146096 : n / 146096 = 0 := by omega
    rw [h36524, h146096, h1460]
    omega
  · -- the last day of an era is the only one for which the last division counts
    have hlast : n = 146096 ∧ 100 * c + 4 * q + r = 399 := by omega
    rw [hlast.1, hlast.2]

theorem doe_eq (p : Place) : p.doe = 365 * p.yoe + p.yoe / 4 - p.yoe / 100 + p.day := by
  obtain ⟨c, q, r, t, hc, hq, hr, ht, hleap⟩ := p
  simp only [doe, yoe]
  have hfour : (100 * c + 4 * q + r) / 4 = 25 * c + q := by omega
  have hhundred : (100 * c + 4 * q + r) / 100 = c := by omega
  rw [hfour, hhundred]
  omega

theorem doy_eq (p : Place) : p.doe - (365 * p.yoe + p.yoe / 4 - p.yoe / 100) = p.day := by
  rw [p.doe_eq, Nat.add_sub_cancel_left]

end Place

def daysFromCivil (date : ℤ × ℕ × ℕ) : ℤ :=
  let (y, m, d) := date
  let y := if m ≤ 2 then y - 1 else y
  let yoe := y % 400
  let doy := (153 * (if m ≤ 2 then m + 9 else m - 3) + 2) / 5 + d - 1
  y / 400 * 146097 + (365 * yoe + yoe / 4 - yoe / 100 + doy) - 719468

/-- The date of a place in an era: months are counted from March on. -/
def Place.date (p : Place) (era : ℤ) : ℤ × ℕ × ℕ :=
  let mp := (5 * p.day + 2) / 153
  let m := if mp < 10 then mp + 3 else mp - 9
  (if m ≤ 2 then (p.yoe : ℤ) + era * 400 + 1 else (p.yoe : ℤ) + era * 400, m,
    p.day - (153 * mp + 2) / 5 + 1)

theorem civilFromDays_eq {z : ℤ} (hz : 0 ≤ z) :
    ∃ (p : Place) (era : ℤ), z + 719468 = era * 146097 + p.doe ∧ civilFromDays z = p.date era := by
  obtain ⟨era, hera⟩ : ∃ era, era = (z + 719468) / 146097 := ⟨_, rfl⟩
  have htdiv : (if z + 719468 ≥ 0 then z + 719468 else z + 719468 - 146096).tdiv 146097 = era := by
    rw [if_pos (by omega), Int.tdiv_eq_ediv_of_nonneg (by omega), hera]
  obtain ⟨p, hp⟩ := Place.exists_doe_eq
    (show (z + 719468 - era * 146097).toNat < 146097 by omega)
  refine ⟨p, era, by omega, ?_⟩
  unfold civilFromDays Place.date
  dsimp only
  rw [htdiv, ← hp, p.yoe_eq, p.doy_eq]

theorem daysFromCivil_date (p : Place) (era : ℤ) :
    daysFromCivil (p.date era) = era * 146097 + p.doe - 719468 := by
  have hyoe := p.yoe_lt
  have hday := p.day_le
  have hdoe := p.doe_eq
  obtain ⟨mp, hmp⟩ : ∃ mp, mp = (5 * p.day + 2) / 153 := ⟨_, rfl⟩
  unfold daysFromCivil Place.date
  dsimp only
  rw [← hmp]
  by_cases hm : mp < 10
  · simp only [if_pos hm, if_neg (show ¬mp + 3 ≤ 2 by omega)]
    omega
  · simp only [if_neg hm, if_pos (show mp - 9 ≤ 2 by omega)]
    omega

theorem civilFromDays_inj {y z : ℤ} (hy : 0 ≤ y) (hz : 0 ≤ z)
    (h : civilFromDays y = civilFromDays z) : y = z := by
  obtain ⟨p, era, hp, hdate⟩ := civilFromDays_eq hy
  obtain ⟨p', era', hp', hdate'⟩ := civilFromDays_eq hz
  have hdays := congrArg daysFromCivil h
  rw [hdate, hdate', daysFromCivil_date, daysFromCivil_date] at hdays
  omega

theorem civilFromDays_bounds {z : ℤ} (hz : 0 ≤ z) :
    0 ≤ (civilFromDays z).1 ∧ (civilFromDays z).2.1 < 100 ∧ (civilFromDays z).2.2 < 100 := by
  obtain ⟨p, era, hp, hdate⟩ := civilFromDays_eq hz
  have hdoe := p.doe_eq
  have hyoe := p.yoe_lt
  have hday := p.day_le
  rw [hdate]
  refine ⟨?_, ?_, ?_⟩
  · dsimp only [Place.date]
    split_ifs <;> omega
  · dsimp only [Place.date]
    split_ifs <;> omega
  · dsimp only [Place.date]
    omega

/-! ## Padded numbers -/

theorem toList_pad (width n : ℕ) :
    (pad width n).toList =
      List.replicate (width - (Nat.toDigits 10 n).length) '0' ++ Nat.toDigits 10 n := by
  rw [pad, Nat.toString_eq_repr, String.toList_append, String.toList_ofList, Nat.toList_repr,
    ← String.length_toList, Nat.toList_repr]

theorem pad_inj {width m n : ℕ} (h : pad width m = pad width n) : m = n := by
  have hvalue := congrArg (fun s => Nat.ofDigitChars 10 s.toList 0) h
  simpa [toList_pad, Nat.ofDigitChars_append] using hvalue

theorem length_pad {width n : ℕ} (hwidth : 0 < width) (hn : n < 10 ^ width) :
    (pad width n).toList.length = width := by
  have hle := (Nat.length_toDigits_le_iff (by decide) hwidth).mpr hn
  rw [toList_pad, List.length_append, List.length_replicate]
  omega

/-- Numbers of two digits can be read off the end of a text. -/
theorem append_pad_inj {s t : String} {m n : ℕ} (hm : m < 100) (hn : n < 100)
    (h : s ++ pad 2 m = t ++ pad 2 n) : s = t ∧ m = n := by
  have hlist := congrArg String.toList h
  rw [String.toList_append, String.toList_append] at hlist
  obtain ⟨hs, hpad⟩ := List.append_inj' hlist
    ((length_pad (by decide) hm).trans (length_pad (by decide) hn).symm)
  exact ⟨String.toList_inj.mp hs, pad_inj (String.toList_inj.mp hpad)⟩

theorem padInt_inj {width : ℕ} {y z : ℤ} (hy : 0 ≤ y) (hz : 0 ≤ z)
    (h : padInt width y = padInt width z) : y = z := by
  obtain ⟨m, rfl⟩ := Int.eq_ofNat_of_zero_le hy
  obtain ⟨n, rfl⟩ := Int.eq_ofNat_of_zero_le hz
  exact congrArg Int.ofNat (pad_inj h)

/-- Two stamps are the same if and only if they are of the same second. -/
theorem stamp_eq_stamp_iff {t u : ℕ} : stamp t = stamp u ↔ t / 1000 = u / 1000 := by
  constructor
  · intro h
    have hdays (ms : ℕ) : (0 : ℤ) ≤ ((ms / 1000 / 86400 : ℕ) : ℤ) := Int.natCast_nonneg _
    obtain ⟨hty, htm, htd⟩ := civilFromDays_bounds (hdays t)
    obtain ⟨huy, hum, hud⟩ := civilFromDays_bounds (hdays u)
    simp only [stamp, parts] at h
    obtain ⟨h, hsecond⟩ := append_pad_inj (by omega) (by omega) h
    obtain ⟨h, hminute⟩ := append_pad_inj (by omega) (by omega) h
    obtain ⟨h, hhour⟩ := append_pad_inj (by omega) (by omega) h
    obtain ⟨h, hday⟩ := append_pad_inj htd hud ((String.append_left_inj _).mp h)
    obtain ⟨h, hmonth⟩ := append_pad_inj htm hum h
    have hyear := padInt_inj hty huy h
    have hdate := civilFromDays_inj (hdays t) (hdays u)
      (Prod.ext hyear (Prod.ext hmonth hday))
    omega
  · intro h
    simp only [stamp, parts, h]

end Ts

end KirbLaSnoop
