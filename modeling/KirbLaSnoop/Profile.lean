import Mathlib
import KirbLaSnoop.Dns

/-!
# Profiles: what the fake service says back

An optional greeting and an ordered list of rules, of which the first that
holds for a message answers it. Matching can panic: `parseHex` slices its
string by bytes, and a slice may begin or end inside a character.
-/

namespace KirbLaSnoop

structure Action where
  payload : List UInt8
  echo : Bool
  close : Bool
  dns : Option Dns.Answer
  deriving DecidableEq

def Action.isSilent (a : Action) : Bool := a.payload.isEmpty && !a.echo && a.dns.isNone

/-- The conditions of a rule; an absent one always holds. -/
structure Match where
  any : Option Bool := none
  startsWith : Option String := none
  contains : Option String := none
  endsWith : Option String := none
  prefixHex : Option String := none
  containsHex : Option String := none
  minLen : Option ℕ := none
  maxLen : Option ℕ := none
  len : Option ℕ := none
  firstOnly : Option Bool := none
  ignoreCase : Bool := false

structure CompiledRule where
  name : String
  matcher : Match
  action : Action

structure Compiled where
  name : String
  onConnect : Option Action
  rules : List CompiledRule

/-! ## Matching -/

/-- `is_char_boundary` fails for an end of `&cleaned[i..i + 2]`. -/
inductive Panic where
  | charBoundary
  deriving DecidableEq

inductive HexFault where
  | oddLength
  | badByte
  | panic (p : Panic)
  deriving DecidableEq

/-- The characters that `parse_hex` skips. -/
def isSeparator (c : Char) : Bool :=
  c == ' ' || c == '\t' || c == '\n' || c == '\x0c' || c == '\r' || c == ':' || c == '-' || c == ','

def hexDigit (c : Char) : Option ℕ :=
  if '0' ≤ c ∧ c ≤ '9' then some (c.toNat - '0'.toNat)
  else if 'a' ≤ c ∧ c ≤ 'f' then some (c.toNat - 'a'.toNat + 10)
  else if 'A' ≤ c ∧ c ≤ 'F' then some (c.toNat - 'A'.toNat + 10)
  else none

/-- `u8::from_str_radix` on two characters; a leading plus is a sign. -/
def fromStrRadix16 (c d : Char) : Option UInt8 :=
  match hexDigit c, hexDigit d with
  | some hi, some lo => some (16 * hi + lo).toUInt8
  | none, some lo => if c = '+' then some lo.toUInt8 else none
  | _, none => none

/-- The bytes `&cleaned[i..i + 2]` for `i = 0, 2, ..`: a character of one byte
takes the next one along, and one of two bytes is a slice of its own. -/
def hexPairs : List Char → Except HexFault (List UInt8)
  | [] => .ok []
  | c :: cs =>
      if c.utf8Size = 1 then
        match cs with
        | [] => .error .oddLength
        | d :: cs =>
            if d.utf8Size = 1 then
              match fromStrRadix16 c d with
              | some b => (hexPairs cs).map (b :: ·)
              | none => .error .badByte
            else .error (.panic .charBoundary)
      else if c.utf8Size = 2 then .error .badByte
      else .error (.panic .charBoundary)

def stripPrefix0x : List Char → List Char
  | '0' :: 'x' :: cs => cs
  | cs => cs

def parseHex (s : String) : Except HexFault (List UInt8) :=
  let cleaned := stripPrefix0x (s.toList.filter fun c => !isSeparator c)
  if (cleaned.map Char.utf8Size).sum % 2 ≠ 0 then .error .oddLength
  else hexPairs cleaned

def find (hay needle : List UInt8) : Option ℕ :=
  if needle.isEmpty || needle.length > hay.length then none
  else (List.range (hay.length - needle.length + 1)).find? fun i =>
    (hay.drop i).take needle.length == needle

def toAsciiLowercase (bs : List UInt8) : List UInt8 :=
  bs.map fun b => if 65 ≤ b ∧ b ≤ 90 then b + 32 else b

def asBytes (s : String) : List UInt8 := s.toUTF8.data.toList

/-- One of the two conditions given in hex. Text that is not hex never
holds. -/
def hexHolds (h : Option String) (holds : List UInt8 → Bool) : Except Panic Bool :=
  match h with
  | none => .ok true
  | some s =>
      match parseHex s with
      | .ok needle => .ok (holds needle)
      | .error (.panic p) => .error p
      | .error _ => .ok false

/-- `Match::matches`. -/
def Match.matchesData (m : Match) (data : List UInt8) (first : Bool) : Except Panic Bool :=
  if m.any = some false then .ok false
  else if m.firstOnly = some true ∧ !first then .ok false
  else if m.len.any fun n => data.length ≠ n then .ok false
  else if m.minLen.any fun n => data.length < n then .ok false
  else if m.maxLen.any fun n => data.length > n then .ok false
  else
    let hay := if m.ignoreCase then toAsciiLowercase data else data
    let fold := fun s => if m.ignoreCase then toAsciiLowercase (asBytes s) else asBytes s
    if m.startsWith.any fun s => !(fold s).isPrefixOf hay then .ok false
    else if m.endsWith.any fun s => !(fold s).isSuffixOf hay then .ok false
    else if m.contains.any fun s => (find hay (fold s)).isNone then .ok false
    else
      match hexHolds m.prefixHex fun needle => needle.isPrefixOf data with
      | .error p => .error p
      | .ok false => .ok false
      | .ok true => hexHolds m.containsHex fun needle => (find data needle).isSome

def firstMatch (data : List UInt8) (first : Bool) :
    List CompiledRule → Except Panic (Option CompiledRule)
  | [] => .ok none
  | r :: rs =>
      match r.matcher.matchesData data first with
      | .error p => .error p
      | .ok true => .ok (some r)
      | .ok false => firstMatch data first rs

namespace Compiled

def responds (p : Compiled) : Bool :=
  (p.onConnect.any fun a => !a.isSilent) || p.rules.any fun r => !r.action.isSilent

def maxResponseBytes (p : Compiled) : Option ℕ :=
  let echoes := (p.onConnect.any fun a => a.echo || a.dns.isSome) ||
    p.rules.any fun r => r.action.echo || r.action.dns.isSome
  if echoes then none
  else
    let banner := p.onConnect.elim 0 fun a => a.payload.length
    let rule := ((p.rules.map fun r => r.action.payload.length).max?).getD 0
    some (banner + rule)

def eval (p : Compiled) (data : List UInt8) (first : Bool) :
    Except Panic (Option (String × Action)) :=
  (firstMatch data first p.rules).map fun r => r.map fun r => (r.name, r.action)

end Compiled

/-! ## What the summaries say of an action -/

theorem firstMatch_mem {data : List UInt8} {first : Bool} {rules : List CompiledRule}
    {r : CompiledRule} (h : firstMatch data first rules = .ok (some r)) : r ∈ rules := by
  induction rules with
  | nil => cases h
  | cons r' rs ih =>
      unfold firstMatch at h
      split at h
      · cases h
      · cases h
        exact List.mem_cons_self
      · exact List.mem_cons_of_mem _ (ih h)

namespace Compiled

variable {p : Compiled}

theorem eval_mem {data : List UInt8} {first : Bool} {name : String} {a : Action}
    (h : p.eval data first = .ok (some (name, a))) :
    ∃ r ∈ p.rules, r.name = name ∧ r.action = a := by
  unfold eval at h
  cases hm : firstMatch data first p.rules with
  | error e => simp [hm, Except.map] at h
  | ok found =>
      cases found with
      | none => simp [hm, Except.map] at h
      | some r =>
          simp only [hm, Except.map, Option.map_some, Except.ok.injEq, Option.some.injEq,
            Prod.mk.injEq] at h
          exact ⟨r, firstMatch_mem hm, h.1, h.2⟩

theorem silent_onConnect (h : p.responds = false) {a : Action} (ha : p.onConnect = some a) :
    a.isSilent = true := by
  simp only [responds, Bool.or_eq_false_iff, ha, Option.any_some, Bool.not_eq_false'] at h
  exact h.1

/-- The size of the greeting, and a bound for the payloads of the rules. -/
def bannerBytes (p : Compiled) : ℕ := p.onConnect.elim 0 fun a => a.payload.length

def ruleBytes (p : Compiled) : ℕ := ((p.rules.map fun r => r.action.payload.length).max?).getD 0

/-- A bound is given only when every action is a fixed payload. -/
theorem maxResponseBytes_eq_some {n : ℕ} (h : p.maxResponseBytes = some n) :
    (∀ a, p.onConnect = some a → a.echo = false ∧ a.dns = none) ∧
      (∀ r ∈ p.rules, r.action.echo = false ∧ r.action.dns = none) ∧
        n = p.bannerBytes + p.ruleBytes := by
  unfold maxResponseBytes at h
  dsimp only at h
  rw [Option.ite_none_left_eq_some, Option.some.injEq, Bool.not_eq_true, Bool.or_eq_false_iff,
    List.any_eq_false] at h
  obtain ⟨⟨hbanner, hrules⟩, rfl⟩ := h
  refine ⟨?_, ?_, rfl⟩
  · intro a ha
    rw [ha, Option.any_some] at hbanner
    simpa using hbanner
  · intro r hr
    simpa using hrules r hr

theorem length_payload_le {r : CompiledRule} (hr : r ∈ p.rules) :
    r.action.payload.length ≤ p.ruleBytes := by
  have hmem : r.action.payload.length ∈ p.rules.map fun r => r.action.payload.length :=
    List.mem_map_of_mem hr
  unfold ruleBytes
  cases hmax : (p.rules.map fun r => r.action.payload.length).max? with
  | none =>
      rw [List.max?_eq_none_iff.mp hmax] at hmem
      cases hmem
  | some m => exact (List.max?_eq_some_iff.mp hmax).2 _ hmem

end Compiled

end KirbLaSnoop
