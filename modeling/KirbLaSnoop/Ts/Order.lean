import Mathlib
import KirbLaSnoop.Lib.Layout
import KirbLaSnoop.Ts.Calendar

/-!
# Timestamps in order

Up to the year 9999 each field of a timestamp has its width, and timestamps
compare as texts as they do in time.
-/

namespace KirbLaSnoop

namespace Ts

open Gregorian

/-! ## Numbers of a fixed width -/

/-- A padded number is another one and a digit. -/
theorem toList_pad_succ {width : ℕ} (hwidth : 0 < width) (n : ℕ) :
    (pad (width + 1) n).toList = (pad width (n / 10)).toList ++ [(n % 10).digitChar] := by
  rw [toList_pad, toList_pad]
  rcases Nat.lt_or_ge n 10 with hn | hn
  · obtain ⟨w, rfl⟩ := Nat.exists_eq_add_of_lt hwidth
    rw [Nat.div_eq_of_lt hn, Nat.mod_eq_of_lt hn, Nat.toDigits_of_lt_base hn, Nat.toDigits_zero]
    simp [List.replicate_succ']
  · rw [Nat.toDigits_of_base_le (by decide) hn]
    simp

theorem pad_lt_pad {width m n : ℕ} (hwidth : 0 < width) (hlt : m < n) (hn : n < 10 ^ width) :
    (pad width m).toList < (pad width n).toList := by
  have hdigit : ∀ n < 10, ∀ m < n, [Nat.digitChar m] < [Nat.digitChar n] := by decide
  induction width, hwidth using Nat.le_induction generalizing m n with
  | base =>
      rw [Nat.pow_one] at hn
      have hm : m < 10 := hlt.trans hn
      simpa [toList_pad, Nat.toDigits_of_lt_base hm, Nat.toDigits_of_lt_base hn] using
        hdigit n hn m hlt
  | succ width hwidth ih =>
      have hlength : (pad width (m / 10)).toList.length = (pad width (n / 10)).toList.length := by
        rw [length_pad hwidth (by omega), length_pad hwidth (by omega)]
      rw [toList_pad_succ hwidth, toList_pad_succ hwidth, Layout.append_lt_append_iff hlength]
      rcases Nat.lt_or_ge (m / 10) (n / 10) with hfront | hfront
      · exact .inl (ih hfront (by omega))
      · have heq : m / 10 = n / 10 := by omega
        exact .inr ⟨by rw [heq], hdigit _ (Nat.mod_lt n (by decide)) _ (by omega)⟩

/-- A padded number and a separator after it. -/
def field (width : ℕ) (hwidth : 0 < width) (sep : String) : Layout.Field Char ℕ where
  text n := (pad width n ++ sep).toList
  width := width + sep.length
  dom := {n | n < 10 ^ width}
  length_text n hn := by
    rw [String.toList_append, List.length_append, length_pad hwidth hn, String.length_toList]
  text_lt m hm n hn hlt := by
    rw [String.toList_append, String.toList_append]
    have hlength := (length_pad hwidth hm).trans (length_pad hwidth hn).symm
    exact (Layout.append_lt_append_iff hlength).mpr (.inl (pad_lt_pad hwidth hlt hn))

/-! ## The fields of a timestamp -/

/-- The parts down to the second. -/
def secondFields (ms : ℕ) : List ℕ :=
  let p := parts ms
  [p.year.toNat, p.month, p.day, p.hour, p.minute, p.second]

def isoFields (ms : ℕ) : List ℕ := secondFields ms ++ [(parts ms).milli]

def stampLayout : List (Layout.Field Char ℕ) :=
  [field 4 (by decide) "", field 2 (by decide) "", field 2 (by decide) "-",
    field 2 (by decide) "", field 2 (by decide) "", field 2 (by decide) ""]

def isoLayout : List (Layout.Field Char ℕ) :=
  [field 4 (by decide) "-", field 2 (by decide) "-", field 2 (by decide) "T",
    field 2 (by decide) ":", field 2 (by decide) ":", field 2 (by decide) ".",
    field 3 (by decide) "Z"]

theorem year_nonneg (ms : ℕ) : 0 ≤ (parts ms).year :=
  (civilFromDays_bounds (Int.natCast_nonneg _)).1

theorem padInt_of_nonneg {y : ℤ} (width : ℕ) (hy : 0 ≤ y) : padInt width y = pad width y.toNat := by
  obtain ⟨n, rfl⟩ := Int.eq_ofNat_of_zero_le hy
  rfl

theorem toList_stamp (ms : ℕ) :
    (stamp ms).toList = Layout.render stampLayout (secondFields ms) := by
  unfold stamp
  dsimp only
  rw [padInt_of_nonneg 4 (year_nonneg ms)]
  simp only [stampLayout, secondFields, field, Layout.render, String.toList_append,
    String.append_empty, List.append_assoc, List.append_nil]

theorem toList_iso8601 (ms : ℕ) :
    (iso8601 ms).toList = Layout.render isoLayout (isoFields ms) := by
  unfold iso8601 isoFields
  dsimp only
  rw [padInt_of_nonneg 4 (year_nonneg ms)]
  simp only [isoLayout, secondFields, field, Layout.render, String.toList_append,
    List.cons_append, List.nil_append, List.append_assoc, List.append_nil]

theorem parts_lt {ms : ℕ} (hyear : (parts ms).year ≤ 9999) :
    (parts ms).year.toNat < 10 ^ 4 ∧ (parts ms).month < 10 ^ 2 ∧ (parts ms).day < 10 ^ 2 := by
  obtain ⟨-, hmonth, -, hday⟩ := (isDateTime_parts ms).date
  have hlength : monthLength (parts ms).year (parts ms).month ≤ 31 := by
    unfold monthLength
    split_ifs <;> omega
  generalize parts ms = p at *
  omega

theorem fits_stampLayout {ms : ℕ} (hyear : (parts ms).year ≤ 9999) :
    Layout.Fits stampLayout (secondFields ms) := by
  obtain ⟨hyear, hmonth, hday⟩ := parts_lt hyear
  obtain ⟨-, hhour, hminute, hsecond, -⟩ := isDateTime_parts ms
  exact .cons hyear (.cons hmonth (.cons hday (.cons (hhour.trans (by decide))
    (.cons (hminute.trans (by decide)) (.cons (hsecond.trans (by decide)) .nil)))))

theorem fits_isoLayout {ms : ℕ} (hyear : (parts ms).year ≤ 9999) :
    Layout.Fits isoLayout (isoFields ms) := by
  obtain ⟨hyear, hmonth, hday⟩ := parts_lt hyear
  obtain ⟨-, hhour, hminute, hsecond, hmilli⟩ := isDateTime_parts ms
  exact .cons hyear (.cons hmonth (.cons hday (.cons (hhour.trans (by decide))
    (.cons (hminute.trans (by decide)) (.cons (hsecond.trans (by decide)) (.cons hmilli .nil))))))

theorem time_parts (ms : ℕ) :
    ((parts ms).hour * 60 + (parts ms).minute) * 60 + (parts ms).second = ms / 1000 % 86400 := by
  dsimp only [parts]
  omega

/-- An earlier second has smaller fields. -/
theorem secondFields_lt {s t : ℕ} (h : s / 1000 < t / 1000) : secondFields s < secondFields t := by
  have hds := daysSinceEpoch_parts s
  have hdt := daysSinceEpoch_parts t
  have hts := time_parts s
  have htt := time_parts t
  obtain ⟨hs, -, hms, hss, -⟩ := isDateTime_parts s
  obtain ⟨ht, -, hmt, hst, -⟩ := isDateTime_parts t
  have hys := year_nonneg s
  have hyt := year_nonneg t
  have hdate := lt_or_eq_of_daysSinceEpoch_le hs ht (by omega)
  unfold secondFields
  generalize parts s = p at *
  generalize parts t = q at *
  simp only [List.cons_lt_cons_iff]
  rcases hdate with hlt | heq
  · omega
  · rw [heq.1, heq.2.1, heq.2.2, hdt] at hds
    omega

theorem secondFields_eq {s t : ℕ} (h : s / 1000 = t / 1000) : secondFields s = secondFields t := by
  simp only [secondFields, parts, h]

@[simp] theorem length_secondFields (ms : ℕ) : (secondFields ms).length = 6 := by
  rw [secondFields]
  rfl

theorem milli_parts (ms : ℕ) : (parts ms).milli = ms % 1000 := rfl

theorem isoFields_strictMono : StrictMono isoFields := by
  intro s t hlt
  have hlength : (secondFields s).length = (secondFields t).length := by simp
  rw [isoFields, isoFields, Layout.append_lt_append_iff hlength, milli_parts, milli_parts]
  rcases Nat.lt_or_eq_of_le (Nat.div_le_div_right (c := 1000) hlt.le) with hsecond | hsecond
  · exact .inl (secondFields_lt hsecond)
  · refine .inr ⟨secondFields_eq hsecond, List.cons_lt_cons_iff.mpr (.inl ?_)⟩
    omega

/-! ## The texts in order -/

theorem year_mono {s t : ℕ} (h : s ≤ t) : (parts s).year ≤ (parts t).year := by
  have hdays : s / 1000 / 86400 ≤ t / 1000 / 86400 :=
    Nat.div_le_div_right (Nat.div_le_div_right h)
  have hdate := lt_or_eq_of_daysSinceEpoch_le (isDateTime_parts s).date (isDateTime_parts t).date
    (by rw [daysSinceEpoch_parts, daysSinceEpoch_parts]; exact Int.ofNat_le.mpr hdays)
  rcases hdate with (hlt | ⟨heq, -⟩) | ⟨heq, -⟩
  · exact hlt.le
  · exact heq.le
  · exact heq.le

theorem iso8601_le_iso8601_iff {s t : ℕ} (hs : (parts s).year ≤ 9999)
    (ht : (parts t).year ≤ 9999) : iso8601 s ≤ iso8601 t ↔ s ≤ t := by
  rw [String.le_iff_toList_le, toList_iso8601, toList_iso8601,
    Layout.render_le_render_iff (fits_isoLayout hs) (fits_isoLayout ht),
    isoFields_strictMono.le_iff_le]

theorem stamp_le_stamp {s t : ℕ} (h : s ≤ t) (ht : (parts t).year ≤ 9999) :
    stamp s ≤ stamp t := by
  have hs := (year_mono h).trans ht
  rw [String.le_iff_toList_le, toList_stamp, toList_stamp,
    Layout.render_le_render_iff (fits_stampLayout hs) (fits_stampLayout ht)]
  rcases Nat.lt_or_eq_of_le (Nat.div_le_div_right (c := 1000) h) with hsecond | hsecond
  · exact (secondFields_lt hsecond).le
  · exact (secondFields_eq hsecond).le

/-- Timestamps of years up to 9999 sort as texts in the order of time. -/
theorem timestamps_sorted {s t : ℕ} (h : s ≤ t) (hyear : (parts t).year ≤ 9999) :
    (iso8601 s ≤ iso8601 t ∧ (iso8601 s = iso8601 t ↔ s = t)) ∧
      stamp s ≤ stamp t ∧ (stamp s = stamp t ↔ s / 1000 = t / 1000) := by
  have hyear' := (year_mono h).trans hyear
  refine ⟨⟨(iso8601_le_iso8601_iff hyear' hyear).mpr h, ?_⟩, stamp_le_stamp h hyear,
    stamp_eq_stamp_iff⟩
  rw [← String.toList_inj, toList_iso8601, toList_iso8601,
    Layout.render_eq_render_iff (fits_isoLayout hyear') (fits_isoLayout hyear),
    isoFields_strictMono.injective.eq_iff]

/-- Two moments of one second. -/
theorem timestamps_sorted_second : iso8601 0 ≤ iso8601 999 ∧ stamp 0 = stamp 999 := by
  have hsorted := timestamps_sorted (Nat.zero_le 999) (by decide)
  exact ⟨hsorted.1.1, hsorted.2.2.mpr rfl⟩

end Ts

end KirbLaSnoop
