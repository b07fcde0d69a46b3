import Mathlib
import KirbLaSnoop.Profile.DeadHex
import KirbLaSnoop.Profile.Escape

/-!
# What a profile means

The meaning of a profile, told without its compiler: which bytes its responses
stand for, and which rule answers a message. Compiling and evaluating keep
that meaning.
-/

namespace KirbLaSnoop

/-- A part of a response that is absent stands for no bytes. -/
def StandsFor {α : Type} (R : α → List UInt8 → Prop) (part : Option α) (v : List UInt8) : Prop :=
  part.elim (v = []) fun s => R s v

/-- The answer that a dns response stands for. -/
structure DnsRespond.Means (L : Loader) (d : DnsRespond) (ans : Dns.Answer) : Prop where
  a : Option.Rel (fun s ip => L.parseV4 s = some ip) d.a ans.a
  aaaa : Option.Rel (fun s ip => L.parseV6 s = some ip) d.aaaa ans.aaaa
  ttl : ans.ttl = d.ttl

namespace Respond

/-- The bytes of a response, before they are repeated. -/
def Spells (L : Loader) (r : Respond) (v : List UInt8) : Prop :=
  ∃ text hex file, StandsFor (fun t => Escaped True t.toList) r.text text ∧
    StandsFor (fun h => HexBytes True (hexText h)) r.hex hex ∧
    StandsFor (fun p bs => L.read (resolveFile L.base p) = some bs) r.file file ∧
    v = text ++ hex ++ file

/-- What a response stands for. A payload that is repeated has to fit into a
vector. -/
structure Means (L : Loader) (r : Respond) (a : Action) : Prop where
  payload : ∃ v, r.Spells L v ∧ a.payload = (List.replicate (r.repeats.getD 1) v).flatten
  fits : r.repeats ≠ none → a.payload.length ≤ isizeMax
  echo : a.echo = r.echo
  close : a.close = r.close
  dns : Option.Rel (DnsRespond.Means L) r.dns a.dns

end Respond

/-- What a rule does; one without a response stays silent. -/
def Rule.Does (L : Loader) (r : Rule) (a : Action) : Prop :=
  r.respond.elim (a = .silent) fun resp => resp.Means L a

/-- What the rule of index `i` is called. -/
def Rule.title (r : Rule) (i : ℕ) : String := r.name.getD s!"rule[{i}]"

/-- The rule of index `i` is the first whose conditions hold. -/
def Profile.Wins (p : Profile) (data : List UInt8) (first : Bool) (i : ℕ) : Prop :=
  IsLeast {i | ∃ r, p.rules[i]? = some r ∧ r.matcher.Holds data first} i

/-! ## Compiling keeps the meaning -/

namespace Respond

variable {L : Loader} {r : Respond}

theorem textBytes_eq_ok_iff {v : List UInt8} :
    r.textBytes = .ok v ↔ StandsFor (fun t => Escaped True t.toList) r.text v := by
  unfold textBytes StandsFor
  cases r.text with
  | none => simp [eq_comm]
  | some t =>
      change (unescapeChars t.toList).mapError LoadFault.error = .ok v ↔ Escaped True t.toList v
      rw [← unescapeChars_eq_ok_iff]
      cases unescapeChars t.toList <;> simp [Except.mapError]

theorem hexBytes_eq_ok_iff {v : List UInt8} :
    r.hexBytes = .ok v ↔ StandsFor (fun h => HexBytes True (hexText h)) r.hex v := by
  unfold hexBytes StandsFor
  cases r.hex with
  | none => simp [eq_comm]
  | some h =>
      dsimp only [Option.elim_some]
      rw [← parseHex_eq_ok_iff]
      split
      · next bs hbs => simp [hbs]
      · next hodd => simp [hodd]
      · next hbad => simp [hbad]
      · next p hp => simp [hp]

theorem fileBytes_eq_ok_iff {v : List UInt8} :
    r.fileBytes L = .ok v ↔
      StandsFor (fun p bs => L.read (resolveFile L.base p) = some bs) r.file v := by
  unfold fileBytes StandsFor
  cases r.file with
  | none => simp [eq_comm]
  | some p =>
      dsimp only [Option.elim_some]
      cases L.read (resolveFile L.base p) <;> simp

theorem repeated_eq_ok_iff {v payload : List UInt8} :
    r.repeated v = .ok payload ↔
      payload = (List.replicate (r.repeats.getD 1) v).flatten ∧
        (r.repeats ≠ none → payload.length ≤ isizeMax) := by
  unfold repeated repeatBytes
  cases r.repeats with
  | none => simp [eq_comm]
  | some n =>
      have hlength : ((List.replicate n v).flatten).length = v.length * n := by
        rw [List.length_flatten, List.map_replicate, List.sum_replicate, smul_eq_mul, mul_comm]
      simp only [Option.getD_some, ne_eq, reduceCtorEq, not_false_eq_true, forall_const]
      split_ifs with hfits
      · rw [Except.ok.injEq]
        constructor
        · rintro rfl
          exact ⟨rfl, hlength ▸ hfits⟩
        · exact fun h => h.1.symm
      · refine iff_of_false nofun ?_
        rintro ⟨rfl, h⟩
        exact hfits (hlength ▸ h)

end Respond

theorem parseAddr_eq_ok_iff {α : Type} {parse : String → Option α} {e : String → LoadError}
    {o : Option String} {ip : Option α} :
    parseAddr parse e o = .ok ip ↔ Option.Rel (fun s ip => parse s = some ip) o ip := by
  unfold parseAddr
  cases o with
  | none => cases ip <;> simp
  | some s => cases hs : parse s <;> cases ip <;> simp [hs]

theorem compileDns_eq_ok_iff {L : Loader} {dns : Option DnsRespond} {ans : Option Dns.Answer} :
    compileDns L dns = .ok ans ↔ Option.Rel (DnsRespond.Means L) dns ans := by
  cases dns with
  | none => cases ans <;> simp [compileDns]
  | some d =>
      simp only [compileDns, bind_eq_ok, parseAddr_eq_ok_iff, Except.ok.injEq]
      constructor
      · rintro ⟨a, ha, aaaa, haaaa, rfl⟩
        exact .some ⟨ha, haaaa, rfl⟩
      · intro h
        cases h with
        | some hd => exact ⟨_, hd.a, _, hd.aaaa, by rw [← hd.ttl]⟩

theorem compileRespond_eq_ok_iff {L : Loader} {r : Respond} {a : Action} :
    compileRespond L r = .ok a ↔ r.Means L a := by
  simp only [compileRespond, bind_eq_ok, Respond.textBytes_eq_ok_iff,
    Respond.hexBytes_eq_ok_iff, Respond.fileBytes_eq_ok_iff, Respond.repeated_eq_ok_iff,
    compileDns_eq_ok_iff, Except.ok.injEq]
  constructor
  · rintro ⟨text, htext, hex, hhex, file, hfile, payload, ⟨hpayload, hfits⟩, dns, hdns, rfl⟩
    exact ⟨⟨_, ⟨text, hex, file, htext, hhex, hfile, rfl⟩, hpayload⟩, hfits, rfl, rfl, hdns⟩
  · rintro ⟨⟨v, ⟨text, hex, file, htext, hhex, hfile, rfl⟩, hpayload⟩, hfits, hecho, hclose, hdns⟩
    refine ⟨text, htext, hex, hhex, file, hfile, a.payload, ⟨hpayload, hfits⟩, a.dns, hdns, ?_⟩
    rw [← hecho, ← hclose]

theorem ruleAction_eq_ok_iff {L : Loader} {r : Rule} {a : Action} :
    ruleAction L r.respond = .ok a ↔ r.Does L a := by
  unfold Rule.Does
  cases r.respond with
  | none => simp [ruleAction, eq_comm]
  | some resp => exact compileRespond_eq_ok_iff

/-- The compiled rules are the rules of the profile, one by one. -/
theorem compileRules_get {L : Loader} {i : ℕ} {rs : List Rule} {cs : List CompiledRule}
    (h : compileRules L i rs = .ok cs) {j : ℕ} {c : CompiledRule} :
    cs[j]? = some c ↔
      ∃ r, rs[j]? = some r ∧ c.name = r.title (i + j) ∧ c.matcher = r.matcher ∧
        r.Does L c.action := by
  induction rs generalizing i cs j with
  | nil =>
      cases h
      simp
  | cons r rs ih =>
      simp only [compileRules, compileRule, bind_eq_ok, map_eq_ok, Except.ok.injEq] at h
      obtain ⟨_, ⟨a, ha, rfl⟩, cs, hcs, rfl⟩ := h
      have hdoes : ∀ a', r.Does L a' ↔ a = a' := by
        intro a'
        rw [← ruleAction_eq_ok_iff, ha, Except.ok.injEq]
      cases j with
      | zero =>
          simp only [List.getElem?_cons_zero, Option.some.injEq, exists_eq_left', hdoes, add_zero]
          constructor
          · rintro rfl
            exact ⟨rfl, rfl, rfl⟩
          · rintro ⟨hname, hmatcher, haction⟩
            cases c
            cases hname
            cases hmatcher
            cases haction
            rfl
      | succ j =>
          rw [List.getElem?_cons_succ, List.getElem?_cons_succ, ih hcs, Nat.add_right_comm,
            Nat.add_assoc]

/-- A profile that loads keeps its greeting and its rules. -/
theorem load_keeps {L : Loader} {p : Profile} {c : Compiled} (h : load L p = .ok c) :
    Option.Rel (Respond.Means L) p.onConnect c.onConnect ∧
      ∀ (i : ℕ) (r' : CompiledRule), c.rules[i]? = some r' ↔
        ∃ r, p.rules[i]? = some r ∧ r'.name = r.title i ∧ r'.matcher = r.matcher ∧
          r.Does L r'.action := by
  simp only [load, bind_eq_ok, Except.ok.injEq] at h
  obtain ⟨onConnect, hconnect, rules, hrules, rfl⟩ := h
  refine ⟨?_, fun i r' => ?_⟩
  · cases hp : p.onConnect with
    | none =>
        rw [hp] at hconnect
        cases hconnect
        exact .none
    | some r =>
        rw [hp] at hconnect
        obtain ⟨a, ha, rfl⟩ := map_eq_ok.mp hconnect
        exact .some (compileRespond_eq_ok_iff.mp ha)
  · simpa using compileRules_get hrules (j := i) (c := r')

theorem isFirst_iff_wins {L : Loader} {p : Profile} {c : Compiled} (h : load L p = .ok c)
    {data : List UInt8} {first : Bool} {i : ℕ} :
    IsFirst c.rules data first i ↔ p.Wins data first i := by
  have hcond {α : Type} (rs : List α) (m : α → Match) :
      {j : ℕ | ∃ r, rs[j]? = some r ∧ (m r).Holds data first} =
        {j : ℕ | ∃ m', (rs.map m)[j]? = some m' ∧ m'.Holds data first} := by
    simp [List.getElem?_map]
  unfold IsFirst Profile.Wins
  rw [hcond c.rules CompiledRule.matcher, hcond p.rules Rule.matcher, matchers_load h]

theorem exists_isFirst {rules : List CompiledRule} {data : List UInt8} {first : Bool}
    {r : CompiledRule} (hr : r ∈ rules) (h : r.matcher.Holds data first) :
    ∃ i r', IsFirst rules data first i ∧ rules[i]? = some r' := by
  have hne : {i : ℕ | ∃ r, rules[i]? = some r ∧ r.matcher.Holds data first}.Nonempty := by
    obtain ⟨i, hi⟩ := List.getElem?_of_mem hr
    exact ⟨i, r, hi, h⟩
  obtain ⟨r', hr', -⟩ := Nat.sInf_mem hne
  exact ⟨_, r', ⟨Nat.sInf_mem hne, fun _ hj => Nat.sInf_le hj⟩, hr'⟩

/-- Evaluating finds what the winning rule of the profile does. -/
theorem eval_eq_ok_iff {L : Loader} {p : Profile} {c : Compiled} (h : load L p = .ok c)
    {data : List UInt8} {first : Bool} {found : Option (String × Action)}
    (heval : c.eval data first = .ok found) (name : String) (a : Action) :
    found = some (name, a) ↔
      ∃ i r, p.Wins data first i ∧ p.rules[i]? = some r ∧ name = r.title i ∧ r.Does L a := by
  unfold Compiled.eval at heval
  obtain ⟨rule, hrule, rfl⟩ := ok_of_map_ok heval
  obtain ⟨hfirst, hnone⟩ := firstMatch_spec hrule
  have hget := (load_keeps h).2
  constructor
  · intro hfound
    obtain ⟨r', rfl, heq⟩ := Option.map_eq_some_iff.mp hfound
    obtain ⟨rfl, rfl⟩ := Prod.mk.inj heq
    have hholds : ∃ r ∈ c.rules, r.matcher.Holds data first := by
      by_contra hno
      cases hnone.mpr fun r hr hholds => hno ⟨r, hr, hholds⟩
    obtain ⟨r, hr, hholds⟩ := hholds
    obtain ⟨i, r, hi, hr⟩ := exists_isFirst hr hholds
    obtain rfl := Option.some.inj (hfirst i r hi hr)
    obtain ⟨s, hs, hname, -, hdoes⟩ := (hget i r').mp hr
    exact ⟨i, s, (isFirst_iff_wins h).mp hi, hs, hname, hdoes⟩
  · rintro ⟨i, r, hwins, hr, rfl, hdoes⟩
    rw [hfirst i ⟨r.title i, r.matcher, a⟩ ((isFirst_iff_wins h).mpr hwins)
      ((hget i _).mpr ⟨r, hr, rfl, rfl, hdoes⟩)]
    rfl

theorem forall_matcher_load {L : Loader} {p : Profile} {c : Compiled} (h : load L p = .ok c)
    {Q : Match → Prop} : (∀ r ∈ c.rules, Q r.matcher) ↔ ∀ r ∈ p.rules, Q r.matcher := by
  rw [← List.forall_mem_map, matchers_load h, List.forall_mem_map]

theorem eval_load {L : Loader} {p : Profile} {c : Compiled} (h : load L p = .ok c)
    (hwhole : ∀ r ∈ p.rules, r.matcher.HexWhole) (data : List UInt8) (first : Bool) :
    ∃ found, c.eval data first = .ok found :=
  eval_ok ((forall_matcher_load h).mpr hwhole) data first

/-- A profile loads just when its responses stand for something. What is
loaded answers every message with what the first of the rules that hold stands
for, and a message for which none holds with nothing. -/
theorem load_keeps_meaning (L : Loader) (p : Profile) :
    ((∃ c, load L p = .ok c) ↔ ∀ r ∈ p.responds, ∃ a, r.Means L a) ∧
      ∀ c, load L p = .ok c →
        Option.Rel (Respond.Means L) p.onConnect c.onConnect ∧
          ∀ data first,
            ((∀ r ∈ p.rules, r.matcher.HexWhole) → ∃ found, c.eval data first = .ok found) ∧
            ∀ found, c.eval data first = .ok found →
              (found = none ↔ ∀ r ∈ p.rules, ¬r.matcher.Holds data first) ∧
                ∀ name a, found = some (name, a) ↔
                  ∃ i r, p.Wins data first i ∧ p.rules[i]? = some r ∧ name = r.title i ∧
                    r.Does L a := by
  constructor
  · rw [load_ok_iff]
    simp only [Respond.Compiles, compileRespond_eq_ok_iff]
  · intro c hload
    refine ⟨(load_keeps hload).1,
      fun data first => ⟨fun hwhole => ?_, fun found hfound => ⟨?_, ?_⟩⟩⟩
    · exact eval_load hload hwhole data first
    · obtain ⟨rule, hrule, rfl⟩ := ok_of_map_ok hfound
      rw [Option.map_eq_none_iff, (firstMatch_spec hrule).2]
      exact forall_matcher_load hload (Q := fun m => ¬m.Holds data first)
    · exact eval_eq_ok_iff hload hfound

end KirbLaSnoop
