import Mathlib
import KirbLaSnoop.Profile.Hex
import KirbLaSnoop.Profile.NoPanic

/-!
# What a matcher decides

A matcher holds for a message when each of its conditions does. The texts are
compared in lower case if the matcher ignores case, the bytes given in hex
always as they are. Of a list of rules the first that holds is the answer.
-/

namespace KirbLaSnoop

namespace Match

/-- The bytes as the matcher compares them. -/
def folded (m : Match) (bs : List UInt8) : List UInt8 :=
  if m.ignoreCase then toAsciiLowercase bs else bs

/-- The conditions of the matcher, together. -/
structure Holds (m : Match) (data : List UInt8) (first : Bool) : Prop where
  any : m.any ≠ some false
  firstOnly : m.firstOnly = some true → first
  len : ∀ n, m.len = some n → data.length = n
  minLen : ∀ n, m.minLen = some n → n ≤ data.length
  maxLen : ∀ n, m.maxLen = some n → data.length ≤ n
  startsWith : ∀ s, m.startsWith = some s → m.folded (asBytes s) <+: m.folded data
  endsWith : ∀ s, m.endsWith = some s → m.folded (asBytes s) <:+ m.folded data
  contains : ∀ s, m.contains = some s →
    m.folded (asBytes s) ≠ [] ∧ m.folded (asBytes s) <:+: m.folded data
  prefixHex : ∀ h, m.prefixHex = some h → ∃ v, parseHex h = .ok v ∧ v <+: data
  containsHex : ∀ h, m.containsHex = some h →
    ∃ v, parseHex h = .ok v ∧ v ≠ [] ∧ v <:+: data

/-- The hex fields parse. -/
def HexParses (m : Match) : Prop :=
  (∀ h, m.prefixHex = some h → ∃ v, parseHex h = .ok v) ∧
    ∀ h, m.containsHex = some h → ∃ v, parseHex h = .ok v

/-- No hex field is cut inside a character. -/
def HexWhole (m : Match) : Prop :=
  (∀ h, m.prefixHex = some h → ¬Torn h) ∧ ∀ h, m.containsHex = some h → ¬Torn h

end Match

theorem find_isSome_iff {hay needle : List UInt8} :
    (find hay needle).isSome ↔ needle ≠ [] ∧ needle <:+: hay := by
  unfold find
  constructor
  · intro h
    split_ifs at h with hshort
    · cases h
    · simp only [Bool.or_eq_true, List.isEmpty_iff, decide_eq_true_eq, not_or] at hshort
      refine ⟨hshort.1, ?_⟩
      obtain ⟨i, -, hi⟩ := List.find?_isSome.mp h
      rw [beq_iff_eq] at hi
      rw [← hi]
      exact ((List.take_prefix _ _).isInfix).trans (List.drop_suffix _ _).isInfix
  · rintro ⟨hne, before, after, rfl⟩
    have hlong : needle.length ≤ (before ++ needle ++ after).length := by
      simp only [List.length_append]
      omega
    have hshort :
        ¬(needle.isEmpty || needle.length > (before ++ needle ++ after).length) = true := by
      rw [List.isEmpty_eq_false_iff.mpr hne, Bool.false_or, decide_eq_true_eq]
      exact Nat.not_lt.mpr hlong
    rw [if_neg hshort]
    apply List.find?_isSome.mpr
    refine ⟨before.length, ?_, ?_⟩
    · simp
      omega
    · simp

theorem refuse_eq_true_iff {c : Prop} [Decidable c] {x : Except Panic Bool} :
    (if c then .ok false else x) = .ok true ↔ ¬c ∧ x = .ok true := by
  split_ifs with h <;> simp [h]

theorem any_eq_true_iff {α : Type} {o : Option α} {p : α → Bool} :
    ¬o.any p = true ↔ ∀ a, o = some a → p a = false := by
  cases o <;> simp

theorem hexHolds_eq_true_iff {h : Option String} {holds : List UInt8 → Bool} :
    hexHolds h holds = .ok true ↔ ∀ s, h = some s → ∃ v, parseHex s = .ok v ∧ holds v := by
  cases h with
  | none => simp [hexHolds]
  | some s =>
      cases hs : parseHex s with
      | ok v => simp [hexHolds, hs]
      | error e => cases e <;> simp [hexHolds, hs]

theorem matchesData_eq_true_iff (m : Match) (data : List UInt8) (first : Bool) :
    m.matchesData data first = .ok true ↔ m.Holds data first := by
  have hfold (bs : List UInt8) :
      (if m.ignoreCase then toAsciiLowercase bs else bs) = m.folded bs := rfl
  have hpre := @hexHolds_eq_true_iff m.prefixHex fun needle => needle.isPrefixOf data
  have hin := @hexHolds_eq_true_iff m.containsHex fun needle => (find data needle).isSome
  simp only [List.isPrefixOf_iff_prefix] at hpre
  simp only [find_isSome_iff] at hin
  unfold Match.matchesData
  simp only [refuse_eq_true_iff, any_eq_true_iff, hfold, find_isSome_iff,
    decide_eq_false_iff_not, not_not, not_lt, Bool.not_eq_false', List.isPrefixOf_iff_prefix,
    List.isSuffixOf_iff_suffix, Option.isNone_eq_false_iff]
  constructor
  · rintro ⟨hany, hfirst, hlen, hmin, hmax, hstarts, hends, hcontains, hhex⟩
    split at hhex
    · cases hhex
    · cases hhex
    · next hprefix =>
        refine ⟨hany, fun honly => ?_, hlen, hmin, hmax, hstarts, hends, hcontains,
          hpre.mp hprefix, hin.mp hhex⟩
        simpa [honly] using hfirst
  · rintro ⟨hany, hfirst, hlen, hmin, hmax, hstarts, hends, hcontains, hprefix, hhex⟩
    refine ⟨hany, fun honly => ?_, hlen, hmin, hmax, hstarts, hends, hcontains, ?_⟩
    · simp [hfirst honly.1] at honly
    · rw [hpre.mpr hprefix]
      exact hin.mpr hhex

/-! ## Matchers that do not panic -/

theorem Match.HexWhole.safe {m : Match} (h : m.HexWhole) (data : List UInt8) (first : Bool) :
    m.Safe data first := by
  simp only [Match.HexWhole, torn_iff_hexTears] at h
  exact ⟨fun _ => h.1, fun _ => h.2⟩

theorem matchesData_ok {m : Match} (hwhole : m.HexWhole) (data : List UInt8) (first : Bool) :
    ∃ b, m.matchesData data first = .ok b := by
  have hpanics := m.matchesData_panics_iff data first
  cases hm : m.matchesData data first with
  | ok b => exact ⟨b, rfl⟩
  | error p => exact absurd (hwhole.safe data first) (hpanics.mp ⟨p, hm⟩)

theorem Match.HexParses.whole {m : Match} (h : m.HexParses) : m.HexWhole := by
  have hparsed {s : String} (hs : ∃ v, parseHex s = .ok v) : ¬Torn s := by
    intro htorn
    obtain ⟨v, hv⟩ := hs
    obtain ⟨p, hp⟩ := (parseHex_panic_iff s).mpr ((torn_iff_hexTears s).mp htorn)
    rw [hv] at hp
    cases hp
  exact ⟨fun s hs => hparsed (h.1 s hs), fun s hs => hparsed (h.2 s hs)⟩

theorem eval_ok {p : Compiled} (hwhole : ∀ r ∈ p.rules, r.matcher.HexWhole) (data : List UInt8)
    (first : Bool) : ∃ found, p.eval data first = .ok found := by
  have hpanics := eval_panics_iff p data first
  have hsafe : RulesSafe (p.rules.map CompiledRule.matcher) data first := by
    apply InTurn.of_forall
    rw [List.forall_mem_map]
    exact fun r hr => (hwhole r hr).safe data first
  cases heval : p.eval data first with
  | ok found => exact ⟨found, rfl⟩
  | error e => exact absurd hsafe (hpanics.mp ⟨e, heval⟩)

/-! ## The first rule -/

/-- The rule of index `i` is the first that holds. -/
def IsFirst (rules : List CompiledRule) (data : List UInt8) (first : Bool) (i : ℕ) : Prop :=
  IsLeast {i | ∃ r, rules[i]? = some r ∧ r.matcher.Holds data first} i

theorem isFirst_zero {r : CompiledRule} {rules : List CompiledRule} {data : List UInt8}
    {first : Bool} (h : r.matcher.Holds data first) : IsFirst (r :: rules) data first 0 :=
  ⟨⟨r, rfl, h⟩, fun _ _ => Nat.zero_le _⟩

theorem isFirst_succ {r : CompiledRule} {rules : List CompiledRule} {data : List UInt8}
    {first : Bool} {i : ℕ} (hr : ¬r.matcher.Holds data first)
    (h : IsFirst (r :: rules) data first i) : ∃ j, i = j + 1 ∧ IsFirst rules data first j := by
  obtain ⟨⟨r', hr', hholds⟩, hleast⟩ := h
  cases i with
  | zero =>
      cases hr'
      exact absurd hholds hr
  | succ j =>
      refine ⟨j, rfl, ⟨r', hr', hholds⟩, fun k hk => ?_⟩
      exact Nat.le_of_succ_le_succ (hleast (a := k + 1) hk)

/-- What is found is the first rule that holds. -/
theorem firstMatch_spec {rules : List CompiledRule} {data : List UInt8} {first : Bool}
    {found : Option CompiledRule} (h : firstMatch data first rules = .ok found) :
    (∀ i r, IsFirst rules data first i → rules[i]? = some r → found = some r) ∧
      (found = none ↔ ∀ r ∈ rules, ¬r.matcher.Holds data first) := by
  induction rules with
  | nil =>
      cases h
      refine ⟨fun i r _ hr => ?_, iff_of_true rfl (List.forall_mem_nil _)⟩
      cases hr
  | cons r rules ih =>
      have hholds := matchesData_eq_true_iff r.matcher data first
      cases hb : r.matcher.matchesData data first with
      | error p => simp [firstMatch, hb] at h
      | ok b =>
          cases b with
          | true =>
              have hr := hholds.mp hb
              simp only [firstMatch, hb, Except.ok.injEq] at h
              subst h
              refine ⟨fun i r' hi hr' => ?_, iff_of_false (by simp) fun hall => ?_⟩
              · rw [hi.unique (isFirst_zero hr)] at hr'
                exact hr'
              · exact hall r List.mem_cons_self hr
          | false =>
              have hr : ¬r.matcher.Holds data first := by
                rw [← hholds, hb]
                simp
              simp only [firstMatch, hb] at h
              obtain ⟨hfirst, hnone⟩ := ih h
              refine ⟨fun i r' hi hr' => ?_, ?_⟩
              · obtain ⟨j, rfl, hj⟩ := isFirst_succ hr hi
                exact hfirst j r' hj hr'
              · rw [hnone, List.forall_mem_cons]
                exact (and_iff_right hr).symm

/-- Matching decides the conditions of a matcher, and evaluating finds the
first rule that holds. Both return unless a hex field is cut inside a
character. -/
theorem matching_decides :
    (∀ (m : Match) (data : List UInt8) (first : Bool), m.HexParses →
      ∃ b, m.matchesData data first = .ok b ∧ (b = true ↔ m.Holds data first)) ∧
        (∀ (p : Compiled) (data : List UInt8) (first : Bool),
          (∀ r ∈ p.rules, r.matcher.HexWhole) → ∃ found, p.eval data first = .ok found) ∧
            ∀ (p : Compiled) (data : List UInt8) (first : Bool) (found : Option (String × Action)),
              p.eval data first = .ok found →
                (∀ i r, IsFirst p.rules data first i → p.rules[i]? = some r →
                  found = some (r.name, r.action)) ∧
                  (found = none ↔ ∀ r ∈ p.rules, ¬r.matcher.Holds data first) := by
  refine ⟨?_, ?_, ?_⟩
  · intro m data first hparses
    obtain ⟨b, hb⟩ := matchesData_ok hparses.whole data first
    refine ⟨b, hb, ?_⟩
    rw [← matchesData_eq_true_iff, hb, Except.ok.injEq]
  · intro p data first hwhole
    exact eval_ok hwhole data first
  · intro p data first found heval
    unfold Compiled.eval at heval
    cases hfound : firstMatch data first p.rules with
    | error e =>
        rw [hfound] at heval
        cases heval
    | ok rule =>
        rw [hfound] at heval
        cases heval
        obtain ⟨hfirst, hnone⟩ := firstMatch_spec hfound
        refine ⟨fun i r hi hr => ?_, ?_⟩
        · rw [hfirst i r hi hr]
          rfl
        · rw [Option.map_eq_none_iff, hnone]

end KirbLaSnoop
