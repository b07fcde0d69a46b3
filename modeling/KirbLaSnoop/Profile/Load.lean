import Mathlib
import KirbLaSnoop.Profile

/-!
# Compiling a profile

A profile as it is read from its file becomes a compiled one: escapes, hex and
the files it names are turned into payloads. Two things in it can panic, a hex
text that is cut inside a character and a payload repeated beyond what a
vector can hold.
-/

namespace KirbLaSnoop

structure DnsRespond where
  a : Option String
  aaaa : Option String
  ttl : UInt32 := 60

/-- What a rule sends back, as it is written in the profile. -/
structure Respond where
  text : Option String := none
  hex : Option String := none
  file : Option String := none
  echo : Bool := false
  repeats : Option ℕ := none
  close : Bool := false
  dns : Option DnsRespond := none

structure Rule where
  name : Option String
  matcher : Match
  respond : Option Respond

structure Profile where
  name : String
  onConnect : Option Respond
  rules : List Rule

/-- The errors that compiling reports, with what their messages quote. -/
inductive LoadError where
  | truncatedEscape
  | badEscape (hi lo : Char)
  | unknownEscape (c : Char)
  | trailingBackslash
  | oddHex (s : String)
  | badHex (s : String)
  | unreadable (path : String)
  | dnsA (s : String)
  | dnsAaaa (s : String)
  deriving DecidableEq

inductive LoadPanic where
  | slice (p : Panic)
  | capacityOverflow
  deriving DecidableEq

inductive LoadFault where
  | error (e : LoadError)
  | panic (p : LoadPanic)
  deriving DecidableEq

/-- What compiling asks of the outside: the directory of the profile, its
files, and the address parsers. -/
structure Loader where
  base : String
  read : String → Option (List UInt8)
  parseV4 : String → Option (Vector UInt8 4)
  parseV6 : String → Option (Vector UInt8 16)

/-- `\n \r \t \0 \\ \" \xNN`. -/
def unescapeChars : List Char → Except LoadError (List UInt8)
  | [] => .ok []
  | ['\\'] => .error .trailingBackslash
  | '\\' :: 'n' :: cs => (unescapeChars cs).map (10 :: ·)
  | '\\' :: 'r' :: cs => (unescapeChars cs).map (13 :: ·)
  | '\\' :: 't' :: cs => (unescapeChars cs).map (9 :: ·)
  | '\\' :: '0' :: cs => (unescapeChars cs).map (0 :: ·)
  | '\\' :: '\\' :: cs => (unescapeChars cs).map (92 :: ·)
  | '\\' :: '"' :: cs => (unescapeChars cs).map (34 :: ·)
  | '\\' :: 'x' :: hi :: lo :: cs =>
      match fromStrRadix16 hi lo with
      | some v => (unescapeChars cs).map (v :: ·)
      | none => .error (.badEscape hi lo)
  | '\\' :: 'x' :: _ => .error .truncatedEscape
  | '\\' :: c :: _ => .error (.unknownEscape c)
  | c :: cs => (unescapeChars cs).map (String.utf8EncodeChar c ++ ·)

def unescape (s : String) : Except LoadError (List UInt8) := unescapeChars s.toList

/-- `isize::MAX`, the most bytes that a vector holds. -/
def isizeMax : ℕ := 2 ^ 63 - 1

/-- `payload.repeat(n)`. -/
def repeatBytes (bs : List UInt8) (n : ℕ) : Except LoadFault (List UInt8) :=
  if bs.length * n ≤ isizeMax then .ok (List.replicate n bs).flatten
  else .error (.panic .capacityOverflow)

namespace Respond

def textBytes (r : Respond) : Except LoadFault (List UInt8) :=
  match r.text with
  | none => .ok []
  | some t => (unescape t).mapError .error

def hexBytes (r : Respond) : Except LoadFault (List UInt8) :=
  match r.hex with
  | none => .ok []
  | some h =>
      match parseHex h with
      | .ok bs => .ok bs
      | .error .oddLength => .error (.error (.oddHex h))
      | .error .badByte => .error (.error (.badHex h))
      | .error (.panic p) => .error (.panic (.slice p))

/-- A relative path is taken from the directory of the profile, which is
empty for a profile in the current one. -/
def resolveFile (base p : String) : String :=
  if p.startsWith "/" ∨ base = "" then p
  else if base.endsWith "/" then base ++ p
  else base ++ "/" ++ p

def fileBytes (L : Loader) (r : Respond) : Except LoadFault (List UInt8) :=
  match r.file with
  | none => .ok []
  | some p =>
      match L.read (resolveFile L.base p) with
      | some bs => .ok bs
      | none => .error (.error (.unreadable (resolveFile L.base p)))

def repeated (r : Respond) (payload : List UInt8) : Except LoadFault (List UInt8) :=
  match r.repeats with
  | none => .ok payload
  | some n => repeatBytes payload n

end Respond

def parseAddr {α : Type} (parse : String → Option α) (e : String → LoadError) :
    Option String → Except LoadFault (Option α)
  | none => .ok none
  | some s =>
      match parse s with
      | some ip => .ok (some ip)
      | none => .error (.error (e s))

def compileDns (L : Loader) : Option DnsRespond → Except LoadFault (Option Dns.Answer)
  | none => .ok none
  | some d => do
      let a ← parseAddr L.parseV4 .dnsA d.a
      let aaaa ← parseAddr L.parseV6 .dnsAaaa d.aaaa
      .ok (some ⟨a, aaaa, d.ttl⟩)

def compileRespond (L : Loader) (r : Respond) : Except LoadFault Action := do
  let text ← r.textBytes
  let hex ← r.hexBytes
  let file ← r.fileBytes L
  let payload ← r.repeated (text ++ hex ++ file)
  let dns ← compileDns L r.dns
  .ok ⟨payload, r.echo, r.close, dns⟩

/-- `Action::default()`. -/
def Action.silent : Action := ⟨[], false, false, none⟩

/-- A rule without a response stays silent. -/
def ruleAction (L : Loader) : Option Respond → Except LoadFault Action
  | some resp => compileRespond L resp
  | none => .ok .silent

def compileRule (L : Loader) (i : ℕ) (r : Rule) : Except LoadFault CompiledRule :=
  (ruleAction L r.respond).map fun action => ⟨r.name.getD s!"rule[{i}]", r.matcher, action⟩

/-- The rules from the one of index `i` on. -/
def compileRules (L : Loader) : ℕ → List Rule → Except LoadFault (List CompiledRule)
  | _, [] => .ok []
  | i, r :: rs => do
      let c ← compileRule L i r
      let cs ← compileRules L (i + 1) rs
      .ok (c :: cs)

def compileOnConnect (L : Loader) : Option Respond → Except LoadFault (Option Action)
  | none => .ok none
  | some r => (compileRespond L r).map some

/-- `load`, from the profile that its file holds. -/
def load (L : Loader) (p : Profile) : Except LoadFault Compiled := do
  let onConnect ← compileOnConnect L p.onConnect
  let rules ← compileRules L 0 p.rules
  .ok ⟨p.name, onConnect, rules⟩

/-! ## Hex text that panics -/

/-- The characters of a hex text that count. -/
def hexText (s : String) : List Char := stripPrefix0x (s.toList.filter fun c => !isSeparator c)

/-- A pair of bytes that starts with `c` begins or ends inside a character. -/
def TearsAt (c : Char) (cs : List Char) : Prop :=
  2 < c.utf8Size ∨ (c.utf8Size = 1 ∧ ∃ d, cs.head? = some d ∧ d.utf8Size ≠ 1)

/-- The text has an even number of bytes, and after some pairs of digits
comes a pair of bytes that is not made of whole characters. -/
def HexTears (s : String) : Prop :=
  ((hexText s).map Char.utf8Size).sum % 2 = 0 ∧
    ∃ front c cs bs, hexText s = front ++ c :: cs ∧ hexPairs front = .ok bs ∧ TearsAt c cs

/-- Pairs of digits in front are read, and the rest after them. -/
theorem hexPairs_append {front rest : List Char} {bs : List UInt8} (h : hexPairs front = .ok bs) :
    hexPairs (front ++ rest) = (hexPairs rest).map (bs ++ ·) := by
  induction front using hexPairs.induct generalizing bs with
  | case1 =>
      cases h
      rw [List.nil_append]
      cases hexPairs rest <;> rfl
  | case3 c hc d front hd b hb ih =>
      simp only [hexPairs, hc, hd, hb, if_true] at h
      cases hfront : hexPairs front with
      | error e =>
          rw [hfront] at h
          cases h
      | ok bs' =>
          rw [hfront] at h
          cases h
          simp only [List.cons_append, hexPairs, hc, hd, hb, if_true, ih hfront]
          cases hexPairs rest <;> rfl
  | case2 c hc => simp [hexPairs, hc] at h
  | case4 c hc d front hd hb => simp [hexPairs, hc, hd, hb] at h
  | case5 c hc d front hd => simp [hexPairs, hc, hd] at h
  | case6 c front hc hc' =>
      unfold hexPairs at h
      rw [if_neg hc, if_pos hc'] at h
      cases h
  | case7 c front hc hc' =>
      unfold hexPairs at h
      rw [if_neg hc, if_neg hc'] at h
      cases h

theorem hexPairs_of_tearsAt {c : Char} {cs : List Char} (h : TearsAt c cs) :
    hexPairs (c :: cs) = .error (.panic .charBoundary) := by
  rcases h with hsize | ⟨hc, d, hhead, hd⟩
  · unfold hexPairs
    rw [if_neg (by omega), if_neg (by omega)]
  · cases cs with
    | nil => cases hhead
    | cons d' cs =>
        cases hhead
        simp only [hexPairs, hc, if_true, if_neg hd]

theorem hexPairs_panic_iff (cs : List Char) :
    (∃ p, hexPairs cs = .error (.panic p)) ↔
      ∃ front c rest bs, cs = front ++ c :: rest ∧ hexPairs front = .ok bs ∧ TearsAt c rest := by
  constructor
  · rintro ⟨p, hp⟩
    induction cs using hexPairs.induct with
    | case1 => cases hp
    | case2 c hc => simp [hexPairs, hc] at hp
    | case3 c hc d cs hd b hb ih =>
        have hrest : hexPairs cs = .error (.panic p) := by
          simp only [hexPairs, hc, hd, hb, if_true] at hp
          cases hcs : hexPairs cs with
          | ok bs =>
              rw [hcs] at hp
              cases hp
          | error e =>
              rw [hcs] at hp
              exact hp
        obtain ⟨front, c', rest, bs, rfl, hfront, htears⟩ := ih hrest
        refine ⟨c :: d :: front, c', rest, b :: bs, rfl, ?_, htears⟩
        simp only [hexPairs, hc, hd, hb, if_true, hfront]
        rfl
    | case4 c hc d cs hd hb => simp [hexPairs, hc, hd, hb] at hp
    | case5 c hc d cs hd => exact ⟨[], c, d :: cs, [], rfl, rfl, Or.inr ⟨hc, d, rfl, hd⟩⟩
    | case6 c cs hc hc' =>
        unfold hexPairs at hp
        rw [if_neg hc, if_pos hc'] at hp
        cases hp
    | case7 c cs hc hc' =>
        have hpos := c.utf8Size_pos
        exact ⟨[], c, cs, [], rfl, rfl, Or.inl (by omega)⟩
  · rintro ⟨front, c, rest, bs, rfl, hfront, htears⟩
    rw [hexPairs_append hfront, hexPairs_of_tearsAt htears]
    exact ⟨_, rfl⟩

theorem parseHex_panic_iff (s : String) :
    (∃ p, parseHex s = .error (.panic p)) ↔ HexTears s := by
  have hparse : parseHex s =
      if ((hexText s).map Char.utf8Size).sum % 2 ≠ 0 then .error .oddLength
      else hexPairs (hexText s) := rfl
  rw [hparse, HexTears, ← hexPairs_panic_iff]
  by_cases heven : ((hexText s).map Char.utf8Size).sum % 2 = 0
  · rw [if_neg (not_not_intro heven)]
    simp only [heven, true_and]
  · rw [if_pos heven]
    simp [heven]

end KirbLaSnoop
