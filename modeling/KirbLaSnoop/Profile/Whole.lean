import Mathlib
import KirbLaSnoop.Profile.Meaning

/-!
# Profiles that cannot panic

What panics is hex that is cut inside a character, where it is reached, and a
payload that is repeated beyond what a vector can hold. What is reached goes by
what the profile means: a response by those before it, its hex by its text, and
a condition in hex by the conditions before it.
-/

namespace KirbLaSnoop

/-- What compiling reaches of a response is whole, and fits. -/
structure Respond.Whole (L : Loader) (r : Respond) : Prop where
  hex : ∀ text h, StandsFor (fun t => Escaped True t.toList) r.text text → r.hex = some h →
    ¬Torn h
  fits : ∀ v n, r.Spells L v → r.repeats = some n → v.length * n ≤ isizeMax

theorem Respond.safe_iff_whole {L : Loader} {r : Respond} : r.Safe L ↔ r.Whole L := by
  unfold Safe
  simp only [textBytes_eq_ok_iff, hexBytes_eq_ok_iff, fileBytes_eq_ok_iff, ← torn_iff_hexTears]
  constructor
  · intro h
    refine ⟨fun text t htext => (h text htext).1 t, ?_⟩
    rintro _ n ⟨text, hex, file, htext, hhex, hfile, rfl⟩ hn
    exact (h text htext).2 hex file n hhex hfile hn
  · intro h text htext
    refine ⟨fun t => h.hex text t htext, ?_⟩
    intro hex file n hhex hfile hn
    exact h.fits _ n ⟨text, hex, file, htext, hhex, hfile, rfl⟩ hn

/-- What a message reaches of a matcher's hex is whole. -/
structure Match.WholeFor (m : Match) (data : List UInt8) (first : Bool) : Prop where
  prefixHex : m.plain.Holds data first → ∀ h, m.prefixHex = some h → ¬Torn h
  containsHex : m.upToPrefix.Holds data first → ∀ h, m.containsHex = some h → ¬Torn h

theorem Match.safe_iff_wholeFor {m : Match} {data : List UInt8} {first : Bool} :
    m.Safe data first ↔ m.WholeFor data first := by
  unfold Safe
  simp only [matchesData_eq_true_iff, ← torn_iff_hexTears]
  exact ⟨fun h => ⟨h.1, h.2⟩, fun h => ⟨h.prefixHex, h.containsHex⟩⟩

theorem safeInTurn_iff_whole {L : Loader} {rs : List Respond} :
    SafeInTurn L rs ↔ InTurn (fun r => ∃ a, r.Means L a) (Respond.Whole L) rs := by
  refine InTurn.congr (fun r => Respond.safe_iff_whole) (fun r _ => ?_) rs
  simp only [Respond.Compiles, compileRespond_eq_ok_iff]

theorem rulesSafe_iff_wholeFor {ms : List Match} {data : List UInt8} {first : Bool} :
    RulesSafe ms data first ↔
      InTurn (fun m => ¬m.Holds data first) (fun m => m.WholeFor data first) ms := by
  refine InTurn.congr (fun m => Match.safe_iff_wholeFor) (fun m hsafe => ?_) ms
  have hpanics := m.matchesData_panics_iff data first
  rw [← matchesData_eq_true_iff]
  cases hm : m.matchesData data first with
  | error p => exact absurd hsafe (hpanics.mp ⟨p, hm⟩)
  | ok b => simp

/-- A profile cannot panic if and only if every response that compiling
reaches, because all before it stand for something, is whole and, should all
stand for something, every matcher that a message reaches, because none before
it holds, is whole for that message. -/
theorem no_panic_iff (L : Loader) (p : Profile) :
    ((∀ e, load L p ≠ .error (.panic e)) ∧
      ∀ c, load L p = .ok c → ∀ data first e, c.eval data first ≠ .error e) ↔
        InTurn (fun r => ∃ a, r.Means L a) (Respond.Whole L) p.responds ∧
          ((∀ r ∈ p.responds, ∃ a, r.Means L a) → ∀ data first,
            InTurn (fun m => ¬m.Holds data first) (fun m => m.WholeFor data first)
              (p.rules.map Rule.matcher)) := by
  rw [no_panic_iff_reached, safeInTurn_iff_whole]
  simp only [rulesSafe_iff_wholeFor, Respond.Compiles, compileRespond_eq_ok_iff]

/-- A rule whose prefix is no hex, with a character of two bytes after one of
one byte. The profile loads, and the first message panics. -/
theorem not_no_panic :
    ¬∀ (L : Loader) (p : Profile), (∀ path, (L.read path).isSome) →
      (∀ e, load L p ≠ .error (.panic e)) ∧
        ∀ c, load L p = .ok c → ∀ data first e, c.eval data first ≠ .error e := by
  intro hall
  refine (hall ⟨"", fun _ => some [], fun _ => none, fun _ => none⟩
    ⟨"trap", none, [⟨none, { prefixHex := some "aéb" }, none⟩]⟩ fun _ => rfl).2
    ⟨"trap", none, [⟨"rule[0]", { prefixHex := some "aéb" }, .silent⟩]⟩ ?_ [0] true
    .charBoundary ?_
  · rfl
  · decide +kernel

end KirbLaSnoop
