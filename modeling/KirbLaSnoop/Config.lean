import Mathlib
import KirbLaSnoop.Lib.Text
import KirbLaSnoop.Log.State

/-!
# Listener specs

A listener on the command line is a protocol, a colon and an address or port,
and a profile after an equals sign if it has one. Nothing is asked of the
address: it is the one to bind to as it stands.
-/

namespace KirbLaSnoop

namespace Config

structure Listener where
  proto : Proto
  bind : String
  profile : Option String
  name : Option String
  iface : Option String
  upstream : Option String
  deriving DecidableEq

inductive SpecError where
  | emptyProfile (spec : String)
  | noColon (spec : String)
  | unsupported (proto : String)
  deriving DecidableEq

/-! ## The parser, in its steps -/

def splitProfile (spec : String) : Except SpecError (List Char × Option String) :=
  match Text.splitOnce '=' spec.toList with
  | some (b, p) =>
      if !p.isEmpty then .ok (b, some (String.ofList p)) else .error (.emptyProfile spec)
  | none => .ok (spec.toList, none)

def splitProto (spec : String) (body : List Char) : Except SpecError (List Char × List Char) :=
  match Text.splitOnce ':' body with
  | some parts => .ok parts
  | none => .error (.noColon spec)

def protoOf (word : List Char) : Except SpecError Proto :=
  let lower := word.map Char.toLower
  if lower = ['t', 'c', 'p'] then .ok .tcp
  else if lower = ['u', 'd', 'p'] then .ok .udp
  else .error (.unsupported (String.ofList lower))

/-- A port alone is one on all interfaces. -/
def bindOf (rest : List Char) : String :=
  if rest.all Char.isDigit && !rest.isEmpty then "0.0.0.0:" ++ String.ofList rest
  else String.ofList rest

def parseBody (spec : String) (body : List Char) (profile : Option String) :
    Except SpecError Listener := do
  let (word, rest) ← splitProto spec body
  let proto ← protoOf word
  return { proto, bind := bindOf rest, profile, name := none, iface := none, upstream := none }

def parseSpec (spec : String) : Except SpecError Listener := do
  let (body, profile) ← splitProfile spec
  parseBody spec body profile

example : (parseSpec "tcp:[::1]:8080").map Listener.bind = .ok "[::1]:8080" := by decide

/-! ## The grammar -/

/-- The parts of a spec. -/
inductive IsSpec : List Char → Proto → List Char → Option (List Char) → Prop
  | bare {word rest proto} (hword : word.map Char.toLower = proto.tag.toList)
      (hrest : '=' ∉ rest) : IsSpec (word ++ ':' :: rest) proto rest none
  | profiled {word rest proto profile} (hword : word.map Char.toLower = proto.tag.toList)
      (hrest : '=' ∉ rest) (hprofile : profile ≠ []) :
      IsSpec (word ++ ':' :: rest ++ '=' :: profile) proto rest (some profile)

theorem protoOf_eq_ok_iff {word : List Char} {proto : Proto} :
    protoOf word = .ok proto ↔ word.map Char.toLower = proto.tag.toList := by
  have htcp : (Proto.tag .tcp).toList = ['t', 'c', 'p'] := by decide
  have hudp : (Proto.tag .udp).toList = ['u', 'd', 'p'] := by decide
  unfold protoOf
  dsimp only
  cases proto with
  | tcp =>
      rw [htcp]
      split_ifs with h h' <;> simp [h]
  | udp =>
      rw [hudp]
      split_ifs with h h'
      · simp [h]
      · simp [h']
      · simp [h']

/-- No protocol has a colon or an equals sign in its name. -/
theorem not_mem_word {word : List Char} {proto : Proto}
    (h : word.map Char.toLower = proto.tag.toList) : ':' ∉ word ∧ '=' ∉ word := by
  have htag (c : Char) (hc : c ∈ word) : c.toLower ∈ proto.tag.toList := by
    rw [← h]
    exact List.mem_map_of_mem hc
  constructor
  · intro hmem
    have hcolon := htag _ hmem
    cases proto <;> revert hcolon <;> decide
  · intro hmem
    have hequals := htag _ hmem
    cases proto <;> revert hequals <;> decide

theorem parseBody_eq_ok_iff {spec : String} {body : List Char} {profile : Option String}
    {l : Listener} :
    parseBody spec body profile = .ok l ↔
      ∃ word rest proto, body = word ++ ':' :: rest ∧
        word.map Char.toLower = proto.tag.toList ∧
        l = ⟨proto, bindOf rest, profile, none, none, none⟩ := by
  constructor
  · intro h
    unfold parseBody splitProto at h
    cases hsplit : Text.splitOnce ':' body with
    | none =>
        rw [hsplit] at h
        cases h
    | some parts =>
        obtain ⟨word, rest⟩ := parts
        obtain ⟨hbody, -⟩ := Text.splitOnce_eq_some_iff.mp hsplit
        rw [hsplit] at h
        change (protoOf word >>= _) = _ at h
        cases hproto : protoOf word with
        | error e =>
            rw [hproto] at h
            cases h
        | ok proto =>
            rw [hproto] at h
            exact ⟨word, rest, proto, hbody, protoOf_eq_ok_iff.mp hproto, (Except.ok.inj h).symm⟩
  · rintro ⟨word, rest, proto, rfl, hword, rfl⟩
    have hsplit := Text.splitOnce_eq_some_iff.mpr
      ⟨(rfl : word ++ ':' :: rest = word ++ ':' :: rest), (not_mem_word hword).1⟩
    unfold parseBody splitProto
    rw [hsplit]
    change (protoOf word >>= _) = _
    rw [protoOf_eq_ok_iff.mpr hword]
    rfl

theorem not_mem_body {word rest : List Char} {proto : Proto}
    (hword : word.map Char.toLower = proto.tag.toList) (hrest : '=' ∉ rest) :
    '=' ∉ word ++ ':' :: rest := by
  rw [List.mem_append, List.mem_cons]
  rintro (hmem | heq | hmem)
  · exact (not_mem_word hword).2 hmem
  · exact absurd heq (by decide)
  · exact hrest hmem

/-- The profile is what is behind the first equals sign, and is not empty. -/
theorem splitProfile_eq_ok_iff {spec : String} {body : List Char} {profile : Option String} :
    splitProfile spec = .ok (body, profile) ↔
      '=' ∉ body ∧ ∃ p, p ≠ some [] ∧ spec.toList = body ++ p.elim [] ('=' :: ·) ∧
        profile = p.map String.ofList := by
  constructor
  · intro h
    unfold splitProfile at h
    cases hsplit : Text.splitOnce '=' spec.toList with
    | none =>
        rw [hsplit] at h
        cases h
        exact ⟨Text.splitOnce_eq_none_iff.mp hsplit, none, by simp, by simp, rfl⟩
    | some parts =>
        obtain ⟨b, p⟩ := parts
        obtain ⟨hspec, hb⟩ := Text.splitOnce_eq_some_iff.mp hsplit
        rw [hsplit] at h
        by_cases hp : p = []
        · subst hp
          cases h
        · dsimp only at h
          rw [if_pos (by simp [hp])] at h
          cases h
          exact ⟨hb, some p, by simpa using hp, hspec, rfl⟩
  · rintro ⟨hbody, p, hp, hspec, rfl⟩
    unfold splitProfile
    cases p with
    | none =>
        rw [Option.elim_none, List.append_nil] at hspec
        rw [hspec, Text.splitOnce_eq_none_iff.mpr hbody]
        rfl
    | some p =>
        have hne : p ≠ [] := by simpa using hp
        rw [Text.splitOnce_eq_some_iff.mpr ⟨hspec, hbody⟩]
        dsimp only
        rw [if_pos (by simp [hne])]
        rfl

theorem parseSpec_eq_ok {spec : String} {l : Listener} :
    parseSpec spec = .ok l ↔
      ∃ body profile, splitProfile spec = .ok (body, profile) ∧
        parseBody spec body profile = .ok l := by
  unfold parseSpec
  cases splitProfile spec with
  | error e => exact iff_of_false (by rintro ⟨⟩) (by rintro ⟨_, _, ⟨⟩, _⟩)
  | ok parts =>
      obtain ⟨body, profile⟩ := parts
      exact ⟨fun h => ⟨body, profile, rfl, h⟩, by rintro ⟨_, _, ⟨⟩, h⟩; exact h⟩

/-- A spec is accepted if and only if it is one of the grammar, whatever comes
after the colon, and the listener has the parts. -/
theorem parseSpec_eq_ok_iff {spec : String} {l : Listener} :
    parseSpec spec = .ok l ↔
      ∃ proto rest profile, IsSpec spec.toList proto rest profile ∧
        l = ⟨proto, if rest ≠ [] ∧ ∀ c ∈ rest, c.isDigit then "0.0.0.0:" ++ String.ofList rest
          else String.ofList rest, profile.map String.ofList, none, none, none⟩ := by
  have hbind (rest : List Char) : bindOf rest =
      if rest ≠ [] ∧ ∀ c ∈ rest, c.isDigit then "0.0.0.0:" ++ String.ofList rest
      else String.ofList rest := by
    simp [bindOf, and_comm]
  simp only [← hbind, parseSpec_eq_ok, splitProfile_eq_ok_iff, parseBody_eq_ok_iff]
  constructor
  · rintro ⟨_, _, ⟨hbody, p, hp, hspec, rfl⟩, word, rest, proto, rfl, hword, rfl⟩
    have hrest : '=' ∉ rest := fun hmem =>
      hbody (List.mem_append_right _ (List.mem_cons_of_mem _ hmem))
    refine ⟨proto, rest, p, ?_, rfl⟩
    rw [hspec]
    cases p with
    | none =>
        rw [Option.elim_none, List.append_nil]
        exact .bare hword hrest
    | some p => exact .profiled hword hrest (by simpa using hp)
  · rintro ⟨proto, rest, profile, hspec, rfl⟩
    generalize hcs : spec.toList = cs at hspec ⊢
    cases hspec with
    | @bare word _ _ hword hrest =>
        exact ⟨word ++ ':' :: rest, none, ⟨not_mem_body hword hrest, none, by simp, by simp, rfl⟩,
          word, rest, proto, rfl, hword, rfl⟩
    | @profiled word _ _ p hword hrest hp =>
        exact ⟨word ++ ':' :: rest, some (String.ofList p),
          ⟨not_mem_body hword hrest, some p, by simpa using hp, rfl, rfl⟩,
          word, rest, proto, rfl, hword, rfl⟩

/-- A protocol and a colon alone. -/
theorem not_parseSpec_ok_iff :
    ¬∀ spec : String, (∃ l, parseSpec spec = .ok l) ↔
      ∃ proto rest profile, IsSpec spec.toList proto rest profile ∧ rest ≠ [] := by
  intro h
  obtain ⟨proto, rest, profile, hspec, hrest⟩ :=
    (h "tcp:").mp ⟨⟨.tcp, "", none, none, none, none⟩, by decide⟩
  have hcolon : Text.splitOnce ':' "tcp:".toList = some (['t', 'c', 'p'], []) := by decide
  have hequals : '=' ∉ "tcp:".toList := by decide
  generalize "tcp:".toList = cs at hspec hcolon hequals
  cases hspec with
  | bare hword =>
      rw [Text.splitOnce_eq_some_iff.mpr ⟨rfl, (not_mem_word hword).1⟩] at hcolon
      cases hcolon
      exact hrest rfl
  | profiled => exact hequals (List.mem_append_right _ List.mem_cons_self)

end Config

end KirbLaSnoop
