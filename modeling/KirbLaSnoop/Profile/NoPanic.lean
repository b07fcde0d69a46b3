import Mathlib
import KirbLaSnoop.Lib.InTurn
import KirbLaSnoop.Profile.Load

/-!
# When a profile cannot panic

Compiling stops at the first response that fails, and matching at the first
rule that holds, so what panics is settled by what is reached.
-/

namespace KirbLaSnoop

/-- The computation ends in a panic, not in an error that is reported. -/
def Panics {α : Type} (x : Except LoadFault α) : Prop := ∃ p, x = .error (.panic p)

theorem not_panics_ok {α : Type} (a : α) : ¬Panics (.ok a : Except LoadFault α) := by
  rintro ⟨p, hp⟩
  cases hp

theorem not_panics_error {α : Type} (e : LoadError) :
    ¬Panics (.error (.error e) : Except LoadFault α) := by
  rintro ⟨p, hp⟩
  cases hp

theorem panics_bind {α β : Type} {x : Except LoadFault α} {f : α → Except LoadFault β} :
    Panics (x >>= f) ↔ Panics x ∨ ∃ a, x = .ok a ∧ Panics (f a) := by
  cases x with
  | error e => simp [Panics, bind, Except.bind]
  | ok a => simp [Panics, bind, Except.bind]

theorem bind_eq_ok {α β : Type} {x : Except LoadFault α} {f : α → Except LoadFault β} {b : β} :
    x >>= f = .ok b ↔ ∃ a, x = .ok a ∧ f a = .ok b := by
  cases x with
  | error e => simp [bind, Except.bind]
  | ok a => simp [bind, Except.bind]

theorem panics_map {α β : Type} {x : Except LoadFault α} {f : α → β} :
    Panics (x.map f) ↔ Panics x := by
  cases x with
  | error e => simp [Panics, Except.map]
  | ok a => simp [Panics, Except.map]

theorem map_eq_ok {α β : Type} {x : Except LoadFault α} {f : α → β} {b : β} :
    x.map f = .ok b ↔ ∃ a, x = .ok a ∧ f a = b := by
  cases x with
  | error e => simp [Except.map]
  | ok a => simp [Except.map]

/-! ## One response -/

namespace Respond

/-- Nothing in the response that compiling reaches can panic. -/
def Safe (L : Loader) (r : Respond) : Prop :=
  ∀ text, r.textBytes = .ok text → (∀ h, r.hex = some h → ¬HexTears h) ∧
    ∀ hex file n, r.hexBytes = .ok hex → r.fileBytes L = .ok file → r.repeats = some n →
      (text ++ hex ++ file).length * n ≤ isizeMax

theorem not_panics_textBytes (r : Respond) : ¬Panics r.textBytes := by
  unfold textBytes
  split
  · exact not_panics_ok _
  · next t _ =>
      cases unescape t with
      | ok bs => exact not_panics_ok bs
      | error e => exact not_panics_error e

theorem not_panics_fileBytes (L : Loader) (r : Respond) : ¬Panics (r.fileBytes L) := by
  unfold fileBytes
  split
  · exact not_panics_ok _
  · split
    · exact not_panics_ok _
    · exact not_panics_error _

theorem panics_hexBytes (r : Respond) : Panics r.hexBytes ↔ ∃ h, r.hex = some h ∧ HexTears h := by
  unfold hexBytes
  cases hhex : r.hex with
  | none => simp [not_panics_ok]
  | some h =>
      simp only [Option.some.injEq, exists_eq_left', ← parseHex_panic_iff]
      split
      · next bs hbs => simp [hbs, not_panics_ok]
      · next hodd => simp [hodd, not_panics_error]
      · next hbad => simp [hbad, not_panics_error]
      · next p hp => exact iff_of_true ⟨_, rfl⟩ ⟨p, hp⟩

theorem panics_repeated (r : Respond) (payload : List UInt8) :
    Panics (r.repeated payload) ↔
      ∃ n, r.repeats = some n ∧ isizeMax < payload.length * n := by
  unfold repeated
  cases hn : r.repeats with
  | none => simp [not_panics_ok]
  | some n =>
      simp only [Option.some.injEq, exists_eq_left']
      unfold repeatBytes
      by_cases hle : payload.length * n ≤ isizeMax
      · rw [if_pos hle]
        exact iff_of_false (not_panics_ok _) (Nat.not_lt.mpr hle)
      · rw [if_neg hle]
        exact iff_of_true ⟨_, rfl⟩ (Nat.not_le.mp hle)

end Respond

theorem not_panics_parseAddr {α : Type} (parse : String → Option α) (e : String → LoadError)
    (s : Option String) : ¬Panics (parseAddr parse e s) := by
  unfold parseAddr
  split
  · exact not_panics_ok _
  · split
    · exact not_panics_ok _
    · exact not_panics_error _

theorem not_panics_compileDns (L : Loader) (d : Option DnsRespond) :
    ¬Panics (compileDns L d) := by
  unfold compileDns
  split
  · exact not_panics_ok _
  · simp [panics_bind, not_panics_parseAddr, not_panics_ok]

theorem panics_compileRespond (L : Loader) (r : Respond) :
    Panics (compileRespond L r) ↔ ¬r.Safe L := by
  simp only [compileRespond, panics_bind, r.not_panics_textBytes, r.panics_hexBytes,
    r.not_panics_fileBytes L, r.panics_repeated, not_panics_compileDns, not_panics_ok, and_false,
    exists_false, or_false, false_or]
  unfold Respond.Safe
  push Not
  constructor
  · rintro ⟨text, htext, ⟨h, hh, htears⟩ | ⟨hex, hhex, file, hfile, n, hn, hover⟩⟩
    · exact ⟨text, htext, fun hno => absurd htears (hno h hh)⟩
    · exact ⟨text, htext, fun _ => ⟨hex, file, n, hhex, hfile, hn, hover⟩⟩
  · rintro ⟨text, htext, hbad⟩
    refine ⟨text, htext, ?_⟩
    by_cases hhex : ∀ h, r.hex = some h → ¬HexTears h
    · obtain ⟨hex, file, n, hhex, hfile, hn, hover⟩ := hbad hhex
      exact Or.inr ⟨hex, hhex, file, hfile, n, hn, hover⟩
    · push Not at hhex
      exact Or.inl hhex

/-! ## A whole profile -/

def Respond.Compiles (L : Loader) (r : Respond) : Prop := ∃ a, compileRespond L r = .ok a

/-- The responses of a profile, in the order in which they are compiled. -/
def Profile.responds (p : Profile) : List Respond :=
  p.onConnect.toList ++ p.rules.filterMap Rule.respond

/-- Every response that is reached, because all before it compile, is safe. -/
def SafeInTurn (L : Loader) (rs : List Respond) : Prop :=
  InTurn (Respond.Compiles L) (Respond.Safe L) rs

theorem safeInTurn_cons {L : Loader} {r : Respond} {rs : List Respond} :
    SafeInTurn L (r :: rs) ↔ r.Safe L ∧ (r.Compiles L → SafeInTurn L rs) := InTurn.cons_iff

theorem panics_compileRules (L : Loader) (i : ℕ) (rs : List Rule) :
    Panics (compileRules L i rs) ↔ ¬SafeInTurn L (rs.filterMap Rule.respond) := by
  induction rs generalizing i with
  | nil => exact iff_of_false (not_panics_ok _) (not_not_intro (InTurn.nil _ _))
  | cons r rs ih =>
      simp only [compileRules, compileRule, panics_bind, panics_map, map_eq_ok, not_panics_ok,
        and_false, exists_false, or_false, ih]
      cases hr : r.respond with
      | none =>
          rw [List.filterMap_cons_none hr]
          simp [ruleAction, not_panics_ok]
      | some resp =>
          rw [List.filterMap_cons_some hr, safeInTurn_cons, not_and_or, Classical.not_imp]
          simp [ruleAction, panics_compileRespond, Respond.Compiles]

theorem compileRules_ok {L : Loader} {i : ℕ} {rs : List Rule} :
    (∃ cs, compileRules L i rs = .ok cs) ↔ ∀ r ∈ rs.filterMap Rule.respond, r.Compiles L := by
  induction rs generalizing i with
  | nil => exact iff_of_true ⟨[], rfl⟩ (List.forall_mem_nil _)
  | cons r rs ih =>
      have hcons : (∃ cs, compileRules L i (r :: rs) = .ok cs) ↔
          (∃ c, compileRule L i r = .ok c) ∧ ∃ cs, compileRules L (i + 1) rs = .ok cs := by
        simp only [compileRules, bind_eq_ok]
        constructor
        · rintro ⟨_, c, hc, cs, hcs, -⟩
          exact ⟨⟨c, hc⟩, cs, hcs⟩
        · rintro ⟨⟨c, hc⟩, cs, hcs⟩
          exact ⟨_, c, hc, cs, hcs, rfl⟩
      rw [hcons, ih]
      cases hr : r.respond with
      | none =>
          rw [List.filterMap_cons_none hr]
          simp [compileRule, ruleAction, hr, Except.map]
      | some resp =>
          rw [List.filterMap_cons_some hr, List.forall_mem_cons]
          simp [compileRule, ruleAction, hr, map_eq_ok, Respond.Compiles]

theorem matchers_compileRules {L : Loader} {i : ℕ} {rs : List Rule} {cs : List CompiledRule}
    (h : compileRules L i rs = .ok cs) : cs.map CompiledRule.matcher = rs.map Rule.matcher := by
  induction rs generalizing i cs with
  | nil =>
      cases h
      rfl
  | cons r rs ih =>
      simp only [compileRules, compileRule, bind_eq_ok, map_eq_ok] at h
      obtain ⟨c, ⟨action, -, rfl⟩, cs', hcs', hcs⟩ := h
      cases hcs
      rw [List.map_cons, List.map_cons, ih hcs']

theorem panics_load (L : Loader) (p : Profile) :
    Panics (load L p) ↔ ¬SafeInTurn L p.responds := by
  simp only [load, panics_bind, not_panics_ok, and_false, exists_false, or_false,
    panics_compileRules, Profile.responds]
  cases p.onConnect with
  | none => simp [compileOnConnect, not_panics_ok]
  | some r =>
      rw [Option.toList_some, List.singleton_append, safeInTurn_cons, not_and_or,
        Classical.not_imp]
      simp [compileOnConnect, panics_map, map_eq_ok, panics_compileRespond, Respond.Compiles]

theorem load_ok_iff {L : Loader} {p : Profile} :
    (∃ c, load L p = .ok c) ↔ ∀ r ∈ p.responds, r.Compiles L := by
  have hload : (∃ c, load L p = .ok c) ↔ (∃ a, compileOnConnect L p.onConnect = .ok a) ∧
      ∃ cs, compileRules L 0 p.rules = .ok cs := by
    simp only [load, bind_eq_ok]
    constructor
    · rintro ⟨_, a, ha, cs, hcs, -⟩
      exact ⟨⟨a, ha⟩, cs, hcs⟩
    · rintro ⟨⟨a, ha⟩, cs, hcs⟩
      exact ⟨_, a, ha, cs, hcs, rfl⟩
  rw [hload, compileRules_ok, Profile.responds, List.forall_mem_append]
  cases p.onConnect with
  | none => simp [compileOnConnect]
  | some r => simp [compileOnConnect, map_eq_ok, Respond.Compiles]

theorem matchers_load {L : Loader} {p : Profile} {c : Compiled} (h : load L p = .ok c) :
    c.rules.map CompiledRule.matcher = p.rules.map Rule.matcher := by
  simp only [load, bind_eq_ok] at h
  obtain ⟨onConnect, -, rules, hrules, hc⟩ := h
  cases hc
  exact matchers_compileRules hrules

/-! ## Matching -/

namespace Match

/-- The conditions that come before the two in hex. -/
def plain (m : Match) : Match := { m with prefixHex := none, containsHex := none }

def upToPrefix (m : Match) : Match := { m with containsHex := none }

/-- Neither of the two hex texts panics if it is reached. -/
def Safe (m : Match) (data : List UInt8) (first : Bool) : Prop :=
  (m.plain.matchesData data first = .ok true → ∀ h, m.prefixHex = some h → ¬HexTears h) ∧
    (m.upToPrefix.matchesData data first = .ok true → ∀ h, m.containsHex = some h → ¬HexTears h)

/-- The two conditions in hex, one after the other. -/
def hexesHold (m : Match) (data : List UInt8) : Except Panic Bool :=
  match hexHolds m.prefixHex fun needle => needle.isPrefixOf data with
  | .error p => .error p
  | .ok false => .ok false
  | .ok true => hexHolds m.containsHex fun needle => (find data needle).isSome

theorem guard_eq {c : Prop} [Decidable c] {x y z : Except Panic Bool}
    (h : x = if y = .ok true then z else .ok false) :
    (if c then .ok false else x) =
      if (if c then .ok false else y) = .ok true then z else .ok false := by
  by_cases hc : c
  · simp [hc]
  · rw [if_neg hc, if_neg hc, h]

theorem matchesData_eq (m : Match) (data : List UInt8) (first : Bool) :
    m.matchesData data first =
      if m.plain.matchesData data first = .ok true then m.hexesHold data else .ok false := by
  unfold matchesData
  exact guard_eq (guard_eq (guard_eq (guard_eq (guard_eq (guard_eq (guard_eq (guard_eq
    (if_pos rfl).symm)))))))

theorem upToPrefix_eq (m : Match) (data : List UInt8) (first : Bool) :
    m.upToPrefix.matchesData data first = .ok true ↔
      m.plain.matchesData data first = .ok true ∧
        hexHolds m.prefixHex (fun needle => needle.isPrefixOf data) = .ok true := by
  have hplain : m.upToPrefix.plain = m.plain := rfl
  have hhexes : m.upToPrefix.hexesHold data =
      hexHolds m.prefixHex fun needle => needle.isPrefixOf data := by
    unfold hexesHold upToPrefix
    cases hexHolds m.prefixHex fun needle => needle.isPrefixOf data with
    | error p => rfl
    | ok b => cases b <;> rfl
  rw [matchesData_eq, hplain, hhexes]
  by_cases h : m.plain.matchesData data first = .ok true
  · simp [h]
  · simp [h]

end Match

theorem hexHolds_panics (h : Option String) (holds : List UInt8 → Bool) :
    (∃ p, hexHolds h holds = .error p) ↔ ∃ s, h = some s ∧ HexTears s := by
  unfold hexHolds
  cases h with
  | none => simp
  | some s =>
      simp only [Option.some.injEq, exists_eq_left', ← parseHex_panic_iff]
      split
      · next bs hbs => simp [hbs]
      · next p hp => exact iff_of_true ⟨_, rfl⟩ ⟨p, hp⟩
      · next e hno he =>
          refine iff_of_false (by simp) ?_
          rintro ⟨p, hp⟩
          exact hno p (Except.error.inj (he.symm.trans hp))

theorem Match.matchesData_panics_iff (m : Match) (data : List UInt8) (first : Bool) :
    (∃ p, m.matchesData data first = .error p) ↔ ¬m.Safe data first := by
  rw [m.matchesData_eq, Safe, m.upToPrefix_eq]
  by_cases hplain : m.plain.matchesData data first = .ok true
  · rw [if_pos hplain]
    unfold hexesHold
    have hprefix := hexHolds_panics m.prefixHex fun needle => needle.isPrefixOf data
    have hcontains := hexHolds_panics m.containsHex fun needle => (find data needle).isSome
    simp only [hplain, true_and, true_imp_iff]
    cases hholds : hexHolds m.prefixHex fun needle => needle.isPrefixOf data with
    | error p =>
        obtain ⟨s, hs, htears⟩ := hprefix.mp ⟨p, hholds⟩
        exact iff_of_true ⟨p, rfl⟩ fun hsafe => hsafe.1 s hs htears
    | ok b =>
        have hno : ∀ s, m.prefixHex = some s → ¬HexTears s := by
          intro s hs htears
          obtain ⟨p, hp⟩ := hprefix.mpr ⟨s, hs, htears⟩
          rw [hholds] at hp
          cases hp
        cases b with
        | false => exact iff_of_false (by simp) (not_not_intro ⟨hno, by simp⟩)
        | true =>
            dsimp only
            rw [hcontains]
            simp only [true_imp_iff]
            constructor
            · rintro ⟨s, hs, htears⟩ hsafe
              exact hsafe.2 s hs htears
            · intro hunsafe
              by_contra hnone
              push Not at hnone
              exact hunsafe ⟨hno, hnone⟩
  · rw [if_neg hplain]
    simp [hplain]

/-- Every rule that is reached, because none before it holds, is safe. -/
def RulesSafe (ms : List Match) (data : List UInt8) (first : Bool) : Prop :=
  InTurn (fun m => m.matchesData data first = .ok false) (fun m => m.Safe data first) ms

theorem rulesSafe_cons {m : Match} {ms : List Match} {data : List UInt8} {first : Bool} :
    RulesSafe (m :: ms) data first ↔
      m.Safe data first ∧ (m.matchesData data first = .ok false → RulesSafe ms data first) :=
  InTurn.cons_iff

theorem firstMatch_panics_iff (rs : List CompiledRule) (data : List UInt8) (first : Bool) :
    (∃ p, firstMatch data first rs = .error p) ↔
      ¬RulesSafe (rs.map CompiledRule.matcher) data first := by
  induction rs with
  | nil => exact iff_of_false (by simp [firstMatch]) (not_not_intro (InTurn.nil _ _))
  | cons r rs ih =>
      have hpanics := r.matcher.matchesData_panics_iff data first
      rw [List.map_cons, rulesSafe_cons, not_and_or, Classical.not_imp, ← hpanics, ← ih, firstMatch]
      cases r.matcher.matchesData data first with
      | error p => simp
      | ok b => cases b <;> simp

theorem eval_panics_iff (c : Compiled) (data : List UInt8) (first : Bool) :
    (∃ p, c.eval data first = .error p) ↔
      ¬RulesSafe (c.rules.map CompiledRule.matcher) data first := by
  rw [← firstMatch_panics_iff, Compiled.eval]
  cases firstMatch data first c.rules <;> simp [Except.map]

/-- A profile cannot panic if and only if no response that compiling reaches
does and, should it load, no rule that a message reaches does. -/
theorem no_panic_iff_reached (L : Loader) (p : Profile) :
    ((∀ e, load L p ≠ .error (.panic e)) ∧
      ∀ c, load L p = .ok c → ∀ data first e, c.eval data first ≠ .error e) ↔
        SafeInTurn L p.responds ∧
          ((∀ r ∈ p.responds, r.Compiles L) →
            ∀ data first, RulesSafe (p.rules.map Rule.matcher) data first) := by
  have hload : (∀ e, load L p ≠ .error (.panic e)) ↔ SafeInTurn L p.responds := by
    rw [← not_iff_not, ← panics_load, Panics]
    push Not
    rfl
  have hmatch : (∀ c, load L p = .ok c → ∀ data first e, c.eval data first ≠ .error e) ↔
      ((∀ r ∈ p.responds, r.Compiles L) →
        ∀ data first, RulesSafe (p.rules.map Rule.matcher) data first) := by
    rw [← load_ok_iff]
    constructor
    · rintro heval ⟨c, hc⟩ data first
      by_contra hunsafe
      rw [← matchers_load hc, ← eval_panics_iff] at hunsafe
      obtain ⟨e, he⟩ := hunsafe
      exact heval c hc data first e he
    · intro hsafe c hc data first e he
      have hrules := hsafe ⟨c, hc⟩ data first
      rw [← matchers_load hc] at hrules
      exact (eval_panics_iff c data first).mp ⟨e, he⟩ hrules
  rw [hload, hmatch]

end KirbLaSnoop
