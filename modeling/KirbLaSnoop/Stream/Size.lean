import Mathlib
import KirbLaSnoop.Lib.Numeral

/-!
# Sizes on the command line

The caps of a capture are given as sizes: a number, a unit and a `b` behind it
if one likes, in either case. A size is what it says, or it is refused.
-/

namespace KirbLaSnoop

open Text (Blank Tight)

/-- `str::parse::<u64>`: digits, and a plus in front of them if there is one. -/
def parseU64 (cs : List Char) : Option UInt64 :=
  let ds := if cs.head? = some '+' then cs.tail else cs
  if ds.isEmpty || !ds.all Char.isDigit then none
  else if Numeral.value ds < 2 ^ 64 then some (UInt64.ofNat (Numeral.value ds))
  else none

def checkedMul (m n : UInt64) : Option UInt64 :=
  if m.toNat * n.toNat < 2 ^ 64 then some (m * n) else none

/-- `strip_suffix(['b', 'B'])`, or the text as it is. -/
def stripB (t : List Char) : List Char :=
  if t.getLast? = some 'b' ∨ t.getLast? = some 'B' then t.dropLast else t

def scaleOf (c : Char) : Option UInt64 :=
  if c = 'k' ∨ c = 'K' then some ((1 : UInt64) <<< 10)
  else if c = 'm' ∨ c = 'M' then some ((1 : UInt64) <<< 20)
  else if c = 'g' ∨ c = 'G' then some ((1 : UInt64) <<< 30)
  else none

def splitUnit (t : List Char) : List Char × UInt64 :=
  match t.getLast?.bind scaleOf with
  | some mult => (t.dropLast, mult)
  | none => (t, 1)

/-- `debug` renders a text as `{:?}` does. -/
def parseSize (debug : String → String) (s : String) : Except String UInt64 :=
  let t := Text.trim s.toList
  if t.isEmpty then .error "empty size"
  else
    let (digits, mult) := splitUnit (stripB t)
    match parseU64 (Text.trim digits) with
    | none => .error ("bad size " ++ debug s ++ ", want something like 8M or 512K")
    | some n =>
        match checkedMul n mult with
        | some v => .ok v
        | none => .error ("size " ++ debug s ++ " overflows")

example : parseSize id "1GB" = .ok ((1 : UInt64) <<< 30) := by decide +kernel

/-! ## What a size looks like -/

inductive SizeUnit where
  | byte
  | kilo
  | mega
  | giga
  deriving DecidableEq

def SizeUnit.scale : SizeUnit → ℕ
  | .byte => 1
  | .kilo => 2 ^ 10
  | .mega => 2 ^ 20
  | .giga => 2 ^ 30

def SizeUnit.spellings : SizeUnit → List (List Char)
  | .byte => [[]]
  | .kilo => [['k'], ['K']]
  | .mega => [['m'], ['M']]
  | .giga => [['g'], ['G']]

def sign (plus : Bool) : List Char := if plus then ['+'] else []

/-- A size in its parts: a number in decimal with any zeros in front, a unit,
a `b` or none, and whitespace. -/
structure SizeText where
  before : List Char
  plus : Bool
  zeros : ℕ
  number : ℕ
  gap : List Char
  unit : SizeUnit
  letter : List Char
  b : List Char
  behind : List Char
  before_blank : Blank before
  gap_blank : Blank gap
  behind_blank : Blank behind
  letter_mem : letter ∈ unit.spellings
  b_mem : b ∈ [[], ['b'], ['B']]

namespace SizeText

def numeral (t : SizeText) : List Char := sign t.plus ++ Numeral.digits t.zeros t.number

def text (t : SizeText) : String :=
  String.ofList (t.before ++ (t.numeral ++ t.gap ++ t.letter ++ t.b) ++ t.behind)

def value (t : SizeText) : ℕ := t.number * t.unit.scale

end SizeText

/-! ## Numbers -/

theorem parseU64_numeral (plus : Bool) (zeros n : ℕ) :
    parseU64 (sign plus ++ Numeral.digits zeros n) =
      if n < 2 ^ 64 then some (UInt64.ofNat n) else none := by
  have hall : (Numeral.digits zeros n).all Char.isDigit = true :=
    List.all_eq_true.mpr fun c hc => Numeral.isDigit_of_mem hc
  have hempty : (Numeral.digits zeros n).isEmpty = false :=
    List.isEmpty_eq_false_iff.mpr (Numeral.digits_ne_nil zeros n)
  have hplus : (Numeral.digits zeros n).head? ≠ some '+' := by
    intro h
    exact absurd (Numeral.isDigit_of_mem (List.mem_of_mem_head? h)) (by decide)
  cases plus with
  | false => simp [parseU64, sign, hplus, hall, hempty]
  | true => simp [parseU64, sign, hall, hempty]

theorem exists_numeral_of_parseU64 {cs : List Char} {v : UInt64} (h : parseU64 cs = some v) :
    ∃ plus zeros, cs = sign plus ++ Numeral.digits zeros v.toNat := by
  obtain ⟨plus, ds, rfl, hds⟩ : ∃ plus ds, cs = sign plus ++ ds ∧
      (if cs.head? = some '+' then cs.tail else cs) = ds := by
    by_cases hplus : cs.head? = some '+'
    · obtain ⟨ds, rfl⟩ := List.head?_eq_some_iff.mp hplus
      exact ⟨true, ds, rfl, by simp⟩
    · exact ⟨false, cs, rfl, by simp [hplus]⟩
  rw [parseU64, hds] at h
  split_ifs at h with hbad hlt
  obtain ⟨hempty, hall⟩ : ds ≠ [] ∧ ∀ c ∈ ds, c.isDigit = true := by
    simpa using hbad
  obtain ⟨zeros, n, rfl⟩ := Numeral.exists_eq_digits hempty hall
  rw [Numeral.value_digits] at h hlt
  obtain rfl := Option.some.inj h
  refine ⟨plus, zeros, ?_⟩
  rw [UInt64.toNat_ofNat_of_lt' hlt]

theorem checkedMul_eq (m n : UInt64) :
    checkedMul m n =
      if m.toNat * n.toNat < 2 ^ 64 then some (UInt64.ofNat (m.toNat * n.toNat)) else none := by
  rw [checkedMul, UInt64.ofNat_mul, UInt64.ofNat_toNat, UInt64.ofNat_toNat]

/-! ## Suffixes -/

theorem stripB_append {b : List Char} (t : List Char) (hb : b ∈ [[], ['b'], ['B']]) (hne : b ≠ []) :
    stripB (t ++ b) = t := by
  have hb' : b = ['b'] ∨ b = ['B'] := by simpa [hne] using hb
  rcases hb' with rfl | rfl <;> simp [stripB]

theorem stripB_of_last {t : List Char} (h : ∀ c ∈ t.getLast?, c ≠ 'b' ∧ c ≠ 'B') :
    stripB t = t := by
  refine if_neg ?_
  rintro (hlast | hlast)
  · exact (h _ hlast).1 rfl
  · exact (h _ hlast).2 rfl

theorem exists_stripB (t : List Char) : ∃ b ∈ [[], ['b'], ['B']], t = stripB t ++ b := by
  have hsplit {c : Char} (h : t.getLast? = some c) : t = t.dropLast ++ [c] :=
    (List.dropLast_append_getLast? c h).symm
  by_cases hlast : t.getLast? = some 'b' ∨ t.getLast? = some 'B'
  · rw [stripB, if_pos hlast]
    rcases hlast with h | h
    · exact ⟨['b'], by simp, hsplit h⟩
    · exact ⟨['B'], by simp, hsplit h⟩
  · exact ⟨[], by simp, by rw [stripB, if_neg hlast, List.append_nil]⟩

theorem scaleOf_of_spelling {unit : SizeUnit} {letter : List Char} (h : letter ∈ unit.spellings)
    (hne : letter ≠ []) :
    ∃ c mult, letter = [c] ∧ scaleOf c = some mult ∧ mult.toNat = unit.scale ∧
      c ≠ 'b' ∧ c ≠ 'B' ∧ Text.isWhitespace c = false := by
  cases unit with
  | byte => exact absurd (List.mem_singleton.mp h) hne
  | kilo =>
      rcases List.mem_pair.mp h with rfl | rfl <;>
        exact ⟨_, (1 : UInt64) <<< 10, rfl, rfl, rfl, by decide, by decide, by decide⟩
  | mega =>
      rcases List.mem_pair.mp h with rfl | rfl <;>
        exact ⟨_, (1 : UInt64) <<< 20, rfl, rfl, rfl, by decide, by decide, by decide⟩
  | giga =>
      rcases List.mem_pair.mp h with rfl | rfl <;>
        exact ⟨_, (1 : UInt64) <<< 30, rfl, rfl, rfl, by decide, by decide, by decide⟩

theorem exists_spelling {c : Char} {mult : UInt64} (h : scaleOf c = some mult) :
    ∃ unit : SizeUnit, [c] ∈ unit.spellings ∧ mult.toNat = unit.scale := by
  unfold scaleOf at h
  split_ifs at h with hk hm hg
  · obtain rfl := Option.some.inj h
    exact ⟨.kilo, by simpa [SizeUnit.spellings] using hk, by decide⟩
  · obtain rfl := Option.some.inj h
    exact ⟨.mega, by simpa [SizeUnit.spellings] using hm, by decide⟩
  · obtain rfl := Option.some.inj h
    exact ⟨.giga, by simpa [SizeUnit.spellings] using hg, by decide⟩

theorem exists_splitUnit (t : List Char) :
    ∃ unit : SizeUnit, ∃ letter ∈ unit.spellings,
      t = (splitUnit t).1 ++ letter ∧ (splitUnit t).2.toNat = unit.scale := by
  cases hlast : t.getLast?.bind scaleOf with
  | none =>
      refine ⟨.byte, [], by simp [SizeUnit.spellings], ?_, ?_⟩
      · rw [splitUnit, hlast, List.append_nil]
      · rw [splitUnit, hlast]
        rfl
  | some mult =>
      obtain ⟨c, hc, hmult⟩ := Option.bind_eq_some_iff.mp hlast
      obtain ⟨unit, hletter, hscale⟩ := exists_spelling hmult
      refine ⟨unit, [c], hletter, ?_, ?_⟩
      · rw [splitUnit, hlast]
        exact (List.dropLast_append_getLast? c hc).symm
      · rw [splitUnit, hlast, hscale]

theorem scaleOf_eq_none {c : Char} (h : c = '+' ∨ c.isDigit = true ∨ Text.isWhitespace c = true) :
    c ≠ 'b' ∧ c ≠ 'B' ∧ scaleOf c = none := by
  have hall : ['b', 'B', 'k', 'K', 'm', 'M', 'g', 'G'].all
      (fun d => d != '+' && !d.isDigit && !Text.isWhitespace d) = true := by decide
  have hne : ∀ d ∈ ['b', 'B', 'k', 'K', 'm', 'M', 'g', 'G'], c ≠ d := by
    rintro d hd rfl
    have hc := List.all_eq_true.mp hall c hd
    rcases h with h | h | h <;> simp [h] at hc
  simp only [List.forall_mem_cons] at hne
  simp [scaleOf, hne]

/-! ## Every rendering is read -/

namespace SizeText

theorem numeral_ne_nil (t : SizeText) : t.numeral ≠ [] :=
  List.append_ne_nil_of_right_ne_nil _ (Numeral.digits_ne_nil t.zeros t.number)

theorem of_mem_numeral (t : SizeText) {c : Char} (h : c ∈ t.numeral) :
    c = '+' ∨ c.isDigit = true := by
  rcases List.mem_append.mp h with hsign | hdigit
  · unfold sign at hsign
    split at hsign
    · exact .inl (List.mem_singleton.mp hsign)
    · cases hsign
  · exact .inr (Numeral.isDigit_of_mem hdigit)

theorem not_blank_numeral (t : SizeText) {c : Char} (h : c ∈ t.numeral) :
    Text.isWhitespace c = false := by
  rcases t.of_mem_numeral h with rfl | hdigit
  · decide
  · obtain ⟨d, hd, rfl⟩ := Numeral.exists_digitChar hdigit
    have hall : ∀ d < 10, Text.isWhitespace (Nat.digitChar d) = false := by decide
    exact hall d hd

theorem tight_numeral (t : SizeText) : Tight t.numeral :=
  ⟨fun _ hc => t.not_blank_numeral (List.mem_of_mem_head? hc),
    fun _ hc => t.not_blank_numeral (List.mem_of_mem_getLast? hc)⟩

theorem tight_append (t : SizeText) (rest : List Char) {c : Char}
    (hc : Text.isWhitespace c = false) : Tight (t.numeral ++ rest ++ [c]) := by
  constructor
  · rw [List.append_assoc, List.head?_append_of_ne_nil _ t.numeral_ne_nil]
    exact t.tight_numeral.head
  · rw [List.getLast?_concat]
    rintro _ ⟨⟩
    exact hc

/-- The last character of a number, or of the gap behind it, is no suffix. -/
theorem last_plain (t : SizeText) {gap : List Char} (hgap : Blank gap) {c : Char}
    (hc : c ∈ (t.numeral ++ gap).getLast?) : c ≠ 'b' ∧ c ≠ 'B' ∧ scaleOf c = none := by
  refine scaleOf_eq_none ?_
  rcases List.mem_append.mp (List.mem_of_mem_getLast? hc) with hnumeral | hblank
  · rcases t.of_mem_numeral hnumeral with hplus | hdigit
    · exact .inl hplus
    · exact .inr (.inl hdigit)
  · exact .inr (.inr (hgap c hblank))

/-- Trimming stops at the unit or the `b`, if there is one. -/
theorem trim_text (t : SizeText) {rest : List Char} {c : Char} (hc : Text.isWhitespace c = false)
    (hrest : t.gap ++ t.letter ++ t.b = rest ++ [c]) :
    Text.trim t.text.toList = t.numeral ++ t.gap ++ t.letter ++ t.b := by
  have hcore : t.numeral ++ t.gap ++ t.letter ++ t.b = t.numeral ++ rest ++ [c] := by
    rw [List.append_assoc, List.append_assoc, ← List.append_assoc t.gap, hrest, List.append_assoc]
  rw [text, String.toList_ofList, hcore]
  exact Text.trim_around t.before_blank t.behind_blank (t.tight_append rest hc)

/-- Without either, the gap is trimmed with what is behind it. -/
theorem trim_text_of_number (t : SizeText) (hletter : t.letter = []) (hb : t.b = []) :
    Text.trim t.text.toList = t.numeral := by
  rw [text, String.toList_ofList, hb, hletter, List.append_nil, List.append_nil,
    ← List.append_assoc, List.append_assoc _ t.gap]
  exact Text.trim_around t.before_blank (t.gap_blank.append t.behind_blank) t.tight_numeral

theorem exists_stripB_trim (t : SizeText) :
    ∃ gap, Blank gap ∧ Text.trim t.text.toList ≠ [] ∧
      stripB (Text.trim t.text.toList) = t.numeral ++ gap ++ t.letter := by
  have hne : t.numeral ++ t.gap ++ t.letter ++ t.b ≠ [] := by
    simp [t.numeral_ne_nil]
  by_cases hb : t.b = []
  · by_cases hletter : t.letter = []
    · refine ⟨[], Text.blank_nil, ?_, ?_⟩
      · rw [t.trim_text_of_number hletter hb]
        exact t.numeral_ne_nil
      · rw [t.trim_text_of_number hletter hb, hletter, List.append_nil, List.append_nil]
        refine stripB_of_last fun c hc => ?_
        rw [← List.append_nil t.numeral] at hc
        have hplain := t.last_plain Text.blank_nil hc
        exact ⟨hplain.1, hplain.2.1⟩
    · obtain ⟨c, mult, hc, -, -, hnb, hnB, hsolid⟩ := scaleOf_of_spelling t.letter_mem hletter
      have htrim := @trim_text t t.gap c hsolid (by rw [hb, hc, List.append_nil])
      refine ⟨t.gap, t.gap_blank, htrim ▸ hne, ?_⟩
      rw [htrim, hb, List.append_nil]
      refine stripB_of_last ?_
      rw [hc, List.getLast?_concat]
      rintro _ ⟨⟩
      exact ⟨hnb, hnB⟩
  · obtain ⟨c, hc, hsolid⟩ : ∃ c, t.b = [c] ∧ Text.isWhitespace c = false := by
      have hmem : t.b = ['b'] ∨ t.b = ['B'] := by simpa [hb] using t.b_mem
      rcases hmem with h | h
      · exact ⟨'b', h, by decide⟩
      · exact ⟨'B', h, by decide⟩
    have htrim := @trim_text t (t.gap ++ t.letter) c hsolid (by rw [hc])
    refine ⟨t.gap, t.gap_blank, htrim ▸ hne, ?_⟩
    rw [htrim]
    exact stripB_append _ t.b_mem hb

theorem splitUnit_letter (t : SizeText) {gap : List Char} (hgap : Blank gap) :
    (splitUnit (t.numeral ++ gap ++ t.letter)).1 = t.numeral ++ gap ∧
      (splitUnit (t.numeral ++ gap ++ t.letter)).2.toNat = t.unit.scale := by
  by_cases hletter : t.letter = []
  · have hunit : t.unit = .byte := by
      have hmem := t.letter_mem
      rw [hletter] at hmem
      revert hmem
      cases t.unit <;> decide
    have hnone : (t.numeral ++ gap).getLast?.bind scaleOf = none :=
      Option.bind_eq_none_iff.mpr fun c hc => (t.last_plain hgap hc).2.2
    rw [hletter, List.append_nil, hunit, splitUnit, hnone]
    exact ⟨rfl, rfl⟩
  · obtain ⟨c, mult, hc, hmult, hscale, -⟩ := scaleOf_of_spelling t.letter_mem hletter
    have hsome : (t.numeral ++ gap ++ [c]).getLast?.bind scaleOf = some mult := by
      rw [List.getLast?_concat, Option.bind_some, hmult]
    rw [hc, splitUnit, hsome, List.dropLast_concat]
    exact ⟨rfl, hscale⟩

theorem parseSize_text (debug : String → String) (t : SizeText) :
    parseSize debug t.text =
      if t.number < 2 ^ 64 then
        if t.value < 2 ^ 64 then .ok (UInt64.ofNat t.value)
        else .error ("size " ++ debug t.text ++ " overflows")
      else .error ("bad size " ++ debug t.text ++ ", want something like 8M or 512K") := by
  obtain ⟨gap, hgap, hne, hstrip⟩ := t.exists_stripB_trim
  obtain ⟨hdigits, hscale⟩ := t.splitUnit_letter hgap
  have htrim : Text.trim (t.numeral ++ gap) = t.numeral :=
    Text.trim_around Text.blank_nil hgap t.tight_numeral
  have hempty : (Text.trim t.text.toList).isEmpty = false := List.isEmpty_eq_false_iff.mpr hne
  have hnumber : parseU64 t.numeral =
      if t.number < 2 ^ 64 then some (UInt64.ofNat t.number) else none :=
    parseU64_numeral t.plus t.zeros t.number
  unfold parseSize
  simp only [hempty, Bool.false_eq_true, if_false, hstrip, hdigits, htrim, hnumber]
  by_cases hlt : t.number < 2 ^ 64
  · simp only [if_pos hlt, checkedMul_eq, hscale, UInt64.toNat_ofNat_of_lt' hlt]
    change (match (if t.value < 2 ^ 64 then some (UInt64.ofNat t.value) else none) with
      | some v => Except.ok v
      | none => _) = _
    by_cases hfits : t.value < 2 ^ 64
    · rw [if_pos hfits, if_pos hfits]
    · rw [if_neg hfits, if_neg hfits]
  · rw [if_neg hlt, if_neg hlt]

end SizeText

/-! ## What is read is a rendering -/

theorem exists_sizeText {debug : String → String} {s : String} {v : UInt64}
    (h : parseSize debug s = .ok v) : ∃ t : SizeText, t.text = s ∧ t.value = v.toNat := by
  obtain ⟨before, behind, hbefore, hbehind, haround⟩ := Text.exists_around s.toList
  obtain ⟨b, hb, hstrip⟩ := exists_stripB (Text.trim s.toList)
  obtain ⟨unit, letter, hletter, hsplit, hscale⟩ :=
    exists_splitUnit (stripB (Text.trim s.toList))
  unfold parseSize at h
  dsimp only at h
  split_ifs at h with hempty
  cases hnumber : parseU64 (Text.trim (splitUnit (stripB (Text.trim s.toList))).1) with
  | none =>
      rw [hnumber] at h
      cases h
  | some n =>
      simp only [hnumber, checkedMul_eq, hscale] at h
      by_cases hfits : n.toNat * unit.scale < 2 ^ 64
      · rw [if_pos hfits] at h
        obtain rfl := Except.ok.inj h
        obtain ⟨lead, gap, hlead, hgap, hdigits⟩ :=
          Text.exists_around (splitUnit (stripB (Text.trim s.toList))).1
        obtain ⟨plus, zeros, hnumeral⟩ := exists_numeral_of_parseU64 hnumber
        refine ⟨⟨before ++ lead, plus, zeros, n.toNat, gap, unit, letter, b, behind,
          hbefore.append hlead, hgap, hbehind, hletter, hb⟩, ?_, ?_⟩
        · apply String.toList_inj.mp
          rw [SizeText.text, String.toList_ofList]
          conv_rhs => rw [haround, hstrip, hsplit, hdigits, hnumeral]
          simp only [SizeText.numeral, List.append_assoc]
        · exact (UInt64.toNat_ofNat_of_lt' hfits).symm
      · rw [if_neg hfits] at h
        cases h

/-- Every size is the text of a limit, so every limit can be asked for. -/
theorem exists_parseSize_eq (debug : String → String) (v : UInt64) :
    ∃ s, parseSize debug s = .ok v := by
  obtain ⟨t, hnumber, hunit⟩ : ∃ t : SizeText, t.number = v.toNat ∧ t.unit = .byte :=
    ⟨⟨[], false, 0, v.toNat, [], .byte, [], [], [], Text.blank_nil, Text.blank_nil, Text.blank_nil,
      by simp [SizeUnit.spellings], by simp⟩, rfl, rfl⟩
  have hvalue : t.value = v.toNat := by
    rw [SizeText.value, hnumber, hunit, SizeUnit.scale, Nat.mul_one]
  refine ⟨t.text, ?_⟩
  rw [SizeText.parseSize_text, hnumber, hvalue, if_pos v.toNat_lt, if_pos v.toNat_lt,
    UInt64.ofNat_toNat]

/-- A size is read as what it says or refused when that does not fit, and
nothing else is read. -/
theorem parseSize_exact (debug : String → String) :
    (∀ t : SizeText,
      (t.number < 2 ^ 64 ∧ t.value < 2 ^ 64 →
        parseSize debug t.text = .ok (UInt64.ofNat t.value)) ∧
      (¬(t.number < 2 ^ 64 ∧ t.value < 2 ^ 64) → ∃ e, parseSize debug t.text = .error e)) ∧
    ∀ s v, parseSize debug s = .ok v → ∃ t : SizeText, t.text = s ∧ t.value = v.toNat := by
  refine ⟨fun t => ⟨?_, ?_⟩, fun s v h => exists_sizeText h⟩
  · rintro ⟨hnumber, hvalue⟩
    rw [t.parseSize_text, if_pos hnumber, if_pos hvalue]
  · intro hbig
    rw [t.parseSize_text]
    split_ifs with hnumber hvalue
    · exact absurd ⟨hnumber, hvalue⟩ hbig
    · exact ⟨_, rfl⟩
    · exact ⟨_, rfl⟩

end KirbLaSnoop
