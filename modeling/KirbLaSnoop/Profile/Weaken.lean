import Mathlib
import KirbLaSnoop.Lib.Text
import KirbLaSnoop.Profile.Matching

/-!
# Weaker matchers

A matcher that asks for less holds for more messages. Dropping a condition and
ignoring case are always such a step. Asking for a text anywhere instead of at
an end is one only if there is text: an empty one is at both ends of every
message and in none.
-/

namespace KirbLaSnoop

/-- The conditions of a matcher. -/
inductive Condition where
  | any
  | startsWith
  | contains
  | endsWith
  | prefixHex
  | containsHex
  | minLen
  | maxLen
  | len
  | firstOnly
  deriving DecidableEq

namespace Match

def remove (m : Match) : Condition → Match
  | .any => { m with any := none }
  | .startsWith => { m with startsWith := none }
  | .contains => { m with contains := none }
  | .endsWith => { m with endsWith := none }
  | .prefixHex => { m with prefixHex := none }
  | .containsHex => { m with containsHex := none }
  | .minLen => { m with minLen := none }
  | .maxLen => { m with maxLen := none }
  | .len => { m with len := none }
  | .firstOnly => { m with firstOnly := none }

/-- The conditions of the first matcher are among those of the second. -/
structure Among (m' m : Match) : Prop where
  any : ∀ b, m'.any = some b → m.any = some b
  startsWith : ∀ s, m'.startsWith = some s → m.startsWith = some s
  contains : ∀ s, m'.contains = some s → m.contains = some s
  endsWith : ∀ s, m'.endsWith = some s → m.endsWith = some s
  prefixHex : ∀ h, m'.prefixHex = some h → m.prefixHex = some h
  containsHex : ∀ h, m'.containsHex = some h → m.containsHex = some h
  minLen : ∀ n, m'.minLen = some n → m.minLen = some n
  maxLen : ∀ n, m'.maxLen = some n → m.maxLen = some n
  len : ∀ n, m'.len = some n → m.len = some n
  firstOnly : ∀ b, m'.firstOnly = some b → m.firstOnly = some b
  ignoreCase : m'.ignoreCase = m.ignoreCase

theorem remove_among (m : Match) (c : Condition) : (m.remove c).Among m := by
  cases c <;> constructor <;> simp [remove]

variable {m m' : Match} {data : List UInt8} {first : Bool}

theorem Among.folded (h : m'.Among m) : m'.folded = m.folded := by
  funext bs
  unfold Match.folded
  rw [h.ignoreCase]

/-- Fewer conditions hold for more messages. -/
theorem Among.holds (h : m'.Among m) (hm : m.Holds data first) : m'.Holds data first where
  any hany := hm.any (h.any _ hany)
  firstOnly honly := hm.firstOnly (h.firstOnly _ honly)
  len n hn := hm.len n (h.len n hn)
  minLen n hn := hm.minLen n (h.minLen n hn)
  maxLen n hn := hm.maxLen n (h.maxLen n hn)
  startsWith s hs := h.folded ▸ hm.startsWith s (h.startsWith s hs)
  endsWith s hs := h.folded ▸ hm.endsWith s (h.endsWith s hs)
  contains s hs := h.folded ▸ hm.contains s (h.contains s hs)
  prefixHex s hs := hm.prefixHex s (h.prefixHex s hs)
  containsHex s hs := hm.containsHex s (h.containsHex s hs)

theorem Holds.remove (hm : m.Holds data first) (c : Condition) : (m.remove c).Holds data first :=
  (m.remove_among c).holds hm

theorem Holds.hexParses (hm : m.Holds data first) : m.HexParses := by
  refine ⟨fun h hh => ?_, fun h hh => ?_⟩
  · obtain ⟨v, hv, -⟩ := hm.prefixHex h hh
    exact ⟨v, hv⟩
  · obtain ⟨v, hv, -⟩ := hm.containsHex h hh
    exact ⟨v, hv⟩

/-! ## Ignoring case -/

/-- The lower case of one byte. -/
def lower (b : UInt8) : UInt8 := if 65 ≤ b ∧ b ≤ 90 then b + 32 else b

theorem lower_lower (b : UInt8) : lower (lower b) = lower b := by
  have hall : ∀ n < 256, lower (lower (UInt8.ofNat n)) = lower (UInt8.ofNat n) := by
    decide +kernel
  have hb := hall b.toNat b.toNat_lt
  rwa [UInt8.ofNat_toNat] at hb

def ignoringCase (m : Match) : Match := { m with ignoreCase := true }

/-- What was folded already folds to the same. -/
theorem ignoringCase_folded (m : Match) (bs : List UInt8) :
    m.ignoringCase.folded bs = (m.folded bs).map lower := by
  have hlower : m.ignoringCase.folded bs = bs.map lower := rfl
  rw [hlower, Match.folded]
  split
  · rw [toAsciiLowercase, List.map_map]
    exact List.map_congr_left fun b _ => (lower_lower b).symm
  · rfl

theorem folded_eq_nil {bs : List UInt8} : m.folded bs = [] ↔ bs = [] := by
  unfold Match.folded toAsciiLowercase
  split
  · exact List.map_eq_nil_iff
  · exact Iff.rfl

theorem Holds.ignoringCase (hm : m.Holds data first) : m.ignoringCase.Holds data first where
  any := hm.any
  firstOnly := hm.firstOnly
  len := hm.len
  minLen := hm.minLen
  maxLen := hm.maxLen
  startsWith s hs := by
    rw [m.ignoringCase_folded, m.ignoringCase_folded]
    exact (hm.startsWith s hs).map lower
  endsWith s hs := by
    rw [m.ignoringCase_folded, m.ignoringCase_folded]
    exact (hm.endsWith s hs).map lower
  contains s hs := by
    rw [m.ignoringCase_folded, m.ignoringCase_folded]
    obtain ⟨hne, hin⟩ := hm.contains s hs
    exact ⟨fun hnil => hne (List.map_eq_nil_iff.mp hnil), hin.map lower⟩
  prefixHex := hm.prefixHex
  containsHex := hm.containsHex

/-! ## Anywhere instead of at an end -/

def containing (m : Match) (s : String) : Match := { m with contains := some s }

def containingHex (m : Match) (h : String) : Match := { m with containsHex := some h }

theorem asBytes_eq_nil {s : String} : asBytes s = [] ↔ s = "" := by
  rw [asBytes, Text.toUTF8_eq_encode]
  constructor
  · intro h
    have hlossy := congrArg Text.lossy h
    rw [Text.lossy_encode] at hlossy
    exact String.toList_eq_nil_iff.mp hlossy
  · rintro rfl
    rfl

/-- A text that is somewhere in the message can be asked for, if there is any
text. -/
theorem Holds.containing (hm : m.Holds data first) {s : String}
    (hin : m.folded (asBytes s) <:+: m.folded data) :
    (m.containing s).Holds data first ↔ s ≠ "" := by
  constructor
  · intro h hs
    exact (h.contains s rfl).1 (folded_eq_nil.mpr (asBytes_eq_nil.mpr hs))
  · intro hs
    refine { hm with contains := ?_ }
    rintro _ ⟨⟩
    exact ⟨fun hnil => hs (asBytes_eq_nil.mp (folded_eq_nil.mp hnil)), hin⟩

theorem Holds.containingHex (hm : m.Holds data first) {h : String} {v : List UInt8}
    (hv : parseHex h = .ok v) (hin : v <:+: data) :
    (m.containingHex h).Holds data first ↔ v ≠ [] := by
  constructor
  · intro hholds
    obtain ⟨v', hv', hne, -⟩ := hholds.containsHex h rfl
    cases hv.symm.trans hv'
    exact hne
  · intro hne
    refine { hm with containsHex := ?_ }
    rintro _ ⟨⟩
    exact ⟨v, hv, hne, hin⟩

theorem matchesData_eq_decide (hm : m.HexParses) {p : Prop} [Decidable p]
    (h : m.Holds data first ↔ p) : m.matchesData data first = .ok (decide p) := by
  obtain ⟨b, hb⟩ := matchesData_ok hm.whole data first
  have hholds := matchesData_eq_true_iff m data first
  rw [hb, h, Except.ok.injEq] at hholds
  rw [hb, Except.ok.injEq, Bool.eq_iff_iff, hholds, decide_eq_true_iff]

/-- The empty text is nowhere, in whatever message. -/
theorem containing_empty (m : Match) (data : List UInt8) (first : Bool) :
    (m.containing "").matchesData data first ≠ .ok true := by
  rw [ne_eq, matchesData_eq_true_iff]
  intro h
  refine (h.contains "" rfl).1 ?_
  unfold folded
  split_ifs <;> rfl

theorem containingHex_empty (m : Match) {h : String} (hempty : parseHex h = .ok [])
    (data : List UInt8) (first : Bool) : (m.containingHex h).matchesData data first ≠ .ok true := by
  rw [ne_eq, matchesData_eq_true_iff]
  intro hholds
  obtain ⟨v, hv, hne, -⟩ := hholds.containsHex h rfl
  cases hempty.symm.trans hv
  exact hne rfl

/-! ## The law -/

/-- The matcher with its prefix, or its suffix, asked for anywhere. -/
def startsToContains (m : Match) (s : String) : Match := (m.remove .startsWith).containing s

def endsToContains (m : Match) (s : String) : Match := (m.remove .endsWith).containing s

def prefixToContainsHex (m : Match) (h : String) : Match :=
  (m.remove .prefixHex).containingHex h

/-- A matcher that holds still does with a condition less and with case
ignored. With a text asked for anywhere instead of at an end it does exactly
when that text is not empty, and with the empty text it holds for no message. -/
theorem weaker_matches (m : Match) (data : List UInt8) (first : Bool)
    (hm : m.matchesData data first = .ok true) :
    (∀ c, (m.remove c).matchesData data first = .ok true) ∧
      m.ignoringCase.matchesData data first = .ok true ∧
      (∀ s, m.startsWith = some s →
        (m.startsToContains s).matchesData data first = .ok (decide (s ≠ ""))) ∧
      (∀ s, m.endsWith = some s →
        (m.endsToContains s).matchesData data first = .ok (decide (s ≠ ""))) ∧
      (∀ h, m.prefixHex = some h → ∃ v, parseHex h = .ok v ∧
        (m.prefixToContainsHex h).matchesData data first = .ok (decide (v ≠ []))) ∧
      ∀ data' first', (m.startsToContains "").matchesData data' first' ≠ .ok true ∧
        (m.endsToContains "").matchesData data' first' ≠ .ok true ∧
        ∀ h, parseHex h = .ok [] →
          (m.prefixToContainsHex h).matchesData data' first' ≠ .ok true := by
  rw [matchesData_eq_true_iff] at hm
  refine ⟨fun c => ?_, ?_, fun s hs => ?_, fun s hs => ?_, fun h hh => ?_, fun data' first' =>
    ⟨containing_empty _ data' first', containing_empty _ data' first',
      fun h hempty => containingHex_empty _ hempty data' first'⟩⟩
  · rw [matchesData_eq_true_iff]
    exact hm.remove c
  · rw [matchesData_eq_true_iff]
    exact hm.ignoringCase
  · have hstarts := hm.remove .startsWith
    have hparses : (m.startsToContains s).HexParses := hstarts.hexParses
    exact matchesData_eq_decide hparses (hstarts.containing (hm.startsWith s hs).isInfix)
  · have hends := hm.remove .endsWith
    have hparses : (m.endsToContains s).HexParses := hends.hexParses
    exact matchesData_eq_decide hparses (hends.containing (hm.endsWith s hs).isInfix)
  · obtain ⟨v, hv, hprefix⟩ := hm.prefixHex h hh
    have hstarts := hm.remove .prefixHex
    refine ⟨v, hv, matchesData_eq_decide ?_ (hstarts.containingHex hv hprefix.isInfix)⟩
    refine ⟨hstarts.hexParses.1, ?_⟩
    rintro _ ⟨⟩
    exact ⟨v, hv⟩

/-- A prefix in another case, asked for anywhere and in hex. -/
theorem weaker_matches_get :
    ({ startsWith := some "get", ignoreCase := true } : Match).matchesData [71, 69, 84, 32] true =
        .ok true ∧
      ({ contains := some "get", ignoreCase := true } : Match).matchesData [71, 69, 84, 32] true =
        .ok true := by
  have hm : ({ startsWith := some "get", ignoreCase := true } : Match).matchesData
      [71, 69, 84, 32] true = .ok true := by
    decide +kernel
  exact ⟨hm, (weaker_matches _ _ _ hm).2.2.1 "get" rfl⟩

/-- Every message starts with the empty text, and none contains it. -/
theorem not_weaker_matches :
    ¬∀ (m : Match) (data : List UInt8) (first : Bool), m.matchesData data first = .ok true →
      ∀ s, m.startsWith = some s → m.contains = none →
        (m.startsToContains s).matchesData data first = .ok true := by
  intro hall
  have hempty := hall { startsWith := some "" } [97] true (by decide +kernel) "" rfl rfl
  have hnone : ({ startsWith := some "" } : Match).startsToContains "" =
      { contains := some "" } := rfl
  rw [hnone] at hempty
  revert hempty
  decide +kernel

end Match

end KirbLaSnoop
