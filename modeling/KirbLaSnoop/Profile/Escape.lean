import Mathlib
import KirbLaSnoop.Profile.Hex

/-!
# Texts with escapes

The text of a response is made of characters and escapes. One kind of escape
is accepted that is not written `\xNN`: a plus can stand for its first digit.
-/

namespace KirbLaSnoop

/-- The escapes of one character, and their bytes. -/
def escapes : List (Char × UInt8) :=
  [('n', 10), ('r', 13), ('t', 9), ('0', 0), ('\\', 92), ('"', 34)]

/-- A text and the bytes it stands for. If `signed`, a plus can stand for the
first digit of `\xNN`. -/
inductive Escaped (signed : Prop) : List Char → List UInt8 → Prop
  | nil : Escaped signed [] []
  | char {c cs v} (hc : c ≠ '\\') (hcs : Escaped signed cs v) :
      Escaped signed (c :: cs) (String.utf8EncodeChar c ++ v)
  | escape {c b cs v} (hc : (c, b) ∈ escapes) (hcs : Escaped signed cs v) :
      Escaped signed ('\\' :: c :: cs) (b :: v)
  | byte {hi lo m n cs v} (hhi : hexDigit hi = some m) (hlo : hexDigit lo = some n)
      (hcs : Escaped signed cs v) :
      Escaped signed ('\\' :: 'x' :: hi :: lo :: cs) ((16 * m + n).toUInt8 :: v)
  | plus {lo n cs v} (hsigned : signed) (hlo : hexDigit lo = some n)
      (hcs : Escaped signed cs v) :
      Escaped signed ('\\' :: 'x' :: '+' :: lo :: cs) (n.toUInt8 :: v)

theorem unescapeChars_char {c : Char} (hc : c ≠ '\\') (cs : List Char) :
    unescapeChars (c :: cs) = (unescapeChars cs).map (String.utf8EncodeChar c ++ ·) := by
  rw [unescapeChars] <;> simp [hc]

theorem unescapeChars_escape {c : Char} {b : UInt8} (hc : (c, b) ∈ escapes) (cs : List Char) :
    unescapeChars ('\\' :: c :: cs) = (unescapeChars cs).map (b :: ·) := by
  simp only [escapes, List.mem_cons, Prod.mk.injEq, List.not_mem_nil, or_false] at hc
  rcases hc with ⟨rfl, rfl⟩ | ⟨rfl, rfl⟩ | ⟨rfl, rfl⟩ | ⟨rfl, rfl⟩ | ⟨rfl, rfl⟩ | ⟨rfl, rfl⟩ <;>
    rw [unescapeChars]

theorem unescapeChars_byte {hi lo : Char} {b : UInt8} (h : fromStrRadix16 hi lo = some b)
    (cs : List Char) :
    unescapeChars ('\\' :: 'x' :: hi :: lo :: cs) = (unescapeChars cs).map (b :: ·) := by
  rw [unescapeChars, h]

theorem ok_of_map_ok {α β ε : Type} {f : α → β} {x : Except ε α} {b : β} (h : x.map f = .ok b) :
    ∃ a, x = .ok a ∧ f a = b := by
  cases x with
  | error e => cases h
  | ok a =>
      cases h
      exact ⟨a, rfl, rfl⟩

theorem escaped_of_escape {c : Char} {b : UInt8} {cs : List Char} {v : List UInt8}
    (hc : (c, b) ∈ escapes) (ih : ∀ {v}, unescapeChars cs = .ok v → Escaped True cs v)
    (h : unescapeChars ('\\' :: c :: cs) = .ok v) : Escaped True ('\\' :: c :: cs) v := by
  rw [unescapeChars_escape hc] at h
  obtain ⟨v', hcs, rfl⟩ := ok_of_map_ok h
  exact .escape hc (ih hcs)

theorem unescapeChars_eq_ok_iff {cs : List Char} {v : List UInt8} :
    unescapeChars cs = .ok v ↔ Escaped True cs v := by
  constructor
  · intro h
    induction cs using unescapeChars.induct generalizing v with
    | case1 =>
        cases h
        exact .nil
    | case2 => cases h
    | case3 cs ih => exact escaped_of_escape (b := 10) (by decide) ih h
    | case4 cs ih => exact escaped_of_escape (b := 13) (by decide) ih h
    | case5 cs ih => exact escaped_of_escape (b := 9) (by decide) ih h
    | case6 cs ih => exact escaped_of_escape (b := 0) (by decide) ih h
    | case7 cs ih => exact escaped_of_escape (b := 92) (by decide) ih h
    | case8 cs ih => exact escaped_of_escape (b := 34) (by decide) ih h
    | case9 hi lo cs b hb ih =>
        rw [unescapeChars_byte hb] at h
        obtain ⟨v', hcs, rfl⟩ := ok_of_map_ok h
        obtain ⟨n, hlo, ⟨m, hhi, rfl⟩ | ⟨rfl, rfl⟩⟩ := fromStrRadix16_eq_some_iff.mp hb
        · exact .byte hhi hlo (ih hcs)
        · exact .plus trivial hlo (ih hcs)
    | case10 hi lo cs hb =>
        rw [unescapeChars, hb] at h
        cases h
    | case11 tail hshort =>
        rw [unescapeChars] at h
        · cases h
        · exact hshort
    | case12 c tail _ _ _ _ _ _ _ _ =>
        rw [unescapeChars] at h
        · cases h
        all_goals assumption
    | case13 c cs hlone _ _ _ _ _ _ _ _ hother ih =>
        have hc : c ≠ '\\' := by
          intro hslash
          cases cs with
          | nil => exact hlone hslash rfl
          | cons d tail => exact hother d tail hslash rfl
        rw [unescapeChars_char hc] at h
        obtain ⟨v', hcs, rfl⟩ := ok_of_map_ok h
        exact .char hc (ih hcs)
  · intro h
    induction h with
    | nil => rw [unescapeChars]
    | char hc _ ih =>
        rw [unescapeChars_char hc, ih]
        rfl
    | escape hc _ ih =>
        rw [unescapeChars_escape hc, ih]
        rfl
    | byte hhi hlo _ ih =>
        rw [unescapeChars_byte (fromStrRadix16_eq_some_iff.mpr ⟨_, hlo, .inl ⟨_, hhi, rfl⟩⟩), ih]
        rfl
    | plus _ hlo _ ih =>
        rw [unescapeChars_byte (fromStrRadix16_eq_some_iff.mpr ⟨_, hlo, .inr ⟨rfl, rfl⟩⟩), ih]
        rfl

/-! ## Texts with a sign -/

theorem Escaped.mono {cs : List Char} {v : List UInt8} (h : Escaped False cs v) :
    Escaped True cs v := by
  induction h with
  | nil => exact .nil
  | char hc _ ih => exact .char hc ih
  | escape hc _ ih => exact .escape hc ih
  | byte hhi hlo _ ih => exact .byte hhi hlo ih
  | plus hsigned => exact hsigned.elim

theorem Escaped.append {signed : Prop} {cs ds : List Char} {u v : List UInt8}
    (h : Escaped signed cs u) (h' : Escaped signed ds v) : Escaped signed (cs ++ ds) (u ++ v) := by
  induction h with
  | nil => exact h'
  | char hc _ ih =>
      rw [List.append_assoc]
      exact .char hc ih
  | escape hc _ ih => exact .escape hc ih
  | byte hhi hlo _ ih => exact .byte hhi hlo ih
  | plus hsigned hlo _ ih => exact .plus hsigned hlo ih

/-- After characters and escapes comes one with a sign, and then characters
and escapes again. -/
def SignedEscape (cs : List Char) : Prop :=
  ∃ front lo rest u n v, cs = front ++ '\\' :: 'x' :: '+' :: lo :: rest ∧
    Escaped False front u ∧ hexDigit lo = some n ∧ Escaped True rest v

theorem SignedEscape.append {cs ds : List Char} {u : List UInt8} (h : Escaped False cs u)
    (hds : SignedEscape ds) : SignedEscape (cs ++ ds) := by
  obtain ⟨front, lo, rest, u', n, v, rfl, hfront, hlo, hrest⟩ := hds
  exact ⟨cs ++ front, lo, rest, u ++ u', n, v, (List.append_assoc _ _ _).symm,
    h.append hfront, hlo, hrest⟩

theorem Escaped.unsigned_or {cs : List Char} {v : List UInt8} (h : Escaped True cs v) :
    Escaped False cs v ∨ SignedEscape cs := by
  induction h with
  | nil => exact .inl .nil
  | @char c cs v hc _ ih =>
      have hone : Escaped False [c] (String.utf8EncodeChar c ++ []) := .char hc .nil
      exact ih.imp (.char hc) (SignedEscape.append hone)
  | @escape c b cs v hc _ ih =>
      have hone : Escaped False ['\\', c] [b] := .escape hc .nil
      exact ih.imp (.escape hc) (SignedEscape.append hone)
  | @byte hi lo m n cs v hhi hlo _ ih =>
      have hone : Escaped False ['\\', 'x', hi, lo] [(16 * m + n).toUInt8] :=
        .byte hhi hlo .nil
      exact ih.imp (.byte hhi hlo) (SignedEscape.append hone)
  | @plus lo n cs v _ hlo hcs _ => exact .inr ⟨[], lo, cs, [], n, v, rfl, .nil, hlo, hcs⟩

theorem x_not_mem_escapes {b : UInt8} : ('x', b) ∉ escapes := by simp [escapes]

theorem escapes_unique {c : Char} {b b' : UInt8} (h : (c, b) ∈ escapes) (h' : (c, b') ∈ escapes) :
    b = b' := by
  have hall : ∀ e ∈ escapes, ∀ e' ∈ escapes, e.1 = e'.1 → e.2 = e'.2 := by decide
  exact hall _ h _ h' rfl

section Inversion

variable {signed : Prop} {c hi lo : Char} {b : UInt8} {m n : ℕ} {cs : List Char} {w : List UInt8}

theorem Escaped.char_inv (hc : c ≠ '\\') (h : Escaped signed (c :: cs) w) :
    ∃ v, w = String.utf8EncodeChar c ++ v ∧ Escaped signed cs v := by
  cases h with
  | char _ hcs => exact ⟨_, rfl, hcs⟩
  | escape => exact absurd rfl hc
  | byte => exact absurd rfl hc
  | plus => exact absurd rfl hc

theorem Escaped.escape_inv (hc : (c, b) ∈ escapes) (h : Escaped signed ('\\' :: c :: cs) w) :
    ∃ v, w = b :: v ∧ Escaped signed cs v := by
  cases h with
  | char hne => exact absurd rfl hne
  | escape hc' hcs => exact ⟨_, by rw [escapes_unique hc hc'], hcs⟩
  | byte => exact absurd hc x_not_mem_escapes
  | plus => exact absurd hc x_not_mem_escapes

theorem Escaped.byte_inv (hhi : hexDigit hi = some m) (hlo : hexDigit lo = some n)
    (h : Escaped signed ('\\' :: 'x' :: hi :: lo :: cs) w) :
    ∃ v, w = (16 * m + n).toUInt8 :: v ∧ Escaped signed cs v := by
  cases h with
  | char hne => exact absurd rfl hne
  | escape hc => exact absurd hc x_not_mem_escapes
  | byte hhi' hlo' hcs =>
      rw [hhi, Option.some.injEq] at hhi'
      rw [hlo, Option.some.injEq] at hlo'
      exact ⟨_, by rw [hhi', hlo'], hcs⟩
  | plus =>
      rw [hexDigit_plus] at hhi
      cases hhi

end Inversion

/-- A text is read from the front. -/
theorem Escaped.of_append {signed : Prop} {cs ds : List Char} {u w : List UInt8}
    (h : Escaped False cs u) (hw : Escaped signed (cs ++ ds) w) :
    ∃ v, w = u ++ v ∧ Escaped signed ds v := by
  induction h generalizing w with
  | nil => exact ⟨w, rfl, hw⟩
  | char hc _ ih =>
      obtain ⟨w', rfl, hw'⟩ := hw.char_inv hc
      obtain ⟨v, rfl, hv⟩ := ih hw'
      exact ⟨v, (List.append_assoc _ _ _).symm, hv⟩
  | escape hc _ ih =>
      obtain ⟨w', rfl, hw'⟩ := hw.escape_inv hc
      obtain ⟨v, rfl, hv⟩ := ih hw'
      exact ⟨v, rfl, hv⟩
  | byte hhi hlo _ ih =>
      obtain ⟨w', rfl, hw'⟩ := hw.byte_inv hhi hlo
      obtain ⟨v, rfl, hv⟩ := ih hw'
      exact ⟨v, rfl, hv⟩
  | plus hsigned => exact hsigned.elim

theorem SignedEscape.not_escaped {cs : List Char} (h : SignedEscape cs) {v : List UInt8} :
    ¬Escaped False cs v := by
  obtain ⟨front, lo, rest, u, n, w, rfl, hfront, -, -⟩ := h
  intro hv
  obtain ⟨v', -, htail⟩ := hfront.of_append hv
  cases htail with
  | char hne => exact absurd rfl hne
  | escape hc => exact absurd hc x_not_mem_escapes
  | byte hhi =>
      rw [hexDigit_plus] at hhi
      cases hhi
  | plus hsigned => exact hsigned.elim

theorem SignedEscape.escaped {cs : List Char} (h : SignedEscape cs) :
    ∃ v, Escaped True cs v := by
  obtain ⟨front, lo, rest, u, n, v, rfl, hfront, hlo, hrest⟩ := h
  exact ⟨_, hfront.mono.append (.plus trivial hlo hrest)⟩

/-- The text unescapes if and only if it is made of characters and escapes,
and then to the bytes of these. -/
def ReadsEscapes (s : String) : Prop := ∀ v, unescape s = .ok v ↔ Escaped False s.toList v

theorem readsEscapes_iff (s : String) : ReadsEscapes s ↔ ¬SignedEscape s.toList := by
  unfold ReadsEscapes unescape
  simp only [unescapeChars_eq_ok_iff]
  constructor
  · intro hreads hsigned
    obtain ⟨v, hv⟩ := hsigned.escaped
    exact hsigned.not_escaped ((hreads v).mp hv)
  · intro hsigned v
    exact ⟨fun hv => hv.unsigned_or.resolve_right hsigned, Escaped.mono⟩

/-! ## Bytes as escapes -/

open Hexdump (hexByte)

theorem escaped_hexByte (b : UInt8) {cs : List Char} {v : List UInt8} (h : Escaped False cs v) :
    Escaped False ('\\' :: 'x' :: (hexByte b ++ cs)) (b :: v) := by
  have hb := b.toNat_lt
  have hbyte := Escaped.byte (hexDigit_hexChar (n := b.toNat / 16) (by omega))
    (hexDigit_hexChar (n := b.toNat % 16) (by omega)) h
  rw [toUInt8_halves] at hbyte
  exact hbyte

theorem exists_unescape (v : List UInt8) : ∃ s, unescape s = .ok v := by
  have hescaped : Escaped False (v.flatMap fun b => '\\' :: 'x' :: hexByte b) v := by
    induction v with
    | nil => exact .nil
    | cons b v ih => exact escaped_hexByte b ih
  refine ⟨String.ofList (v.flatMap fun b => '\\' :: 'x' :: hexByte b), ?_⟩
  apply unescapeChars_eq_ok_iff.mpr
  rw [String.toList_ofList]
  exact hescaped.mono

/-- A text without a sign is read by its grammar, and every sequence of bytes
has a text. -/
theorem unescape_reads_iff (s : String) (v : List UInt8) :
    (ReadsEscapes s ↔ ¬SignedEscape s.toList) ∧ ∃ t, unescape t = .ok v :=
  ⟨readsEscapes_iff s, exists_unescape v⟩

theorem not_readsEscapes : ¬∀ s, ReadsEscapes s := by
  intro hall
  have hok : unescape "\\x+5" = .ok [5] := by decide
  have hsigned : SignedEscape "\\x+5".toList :=
    ⟨[], '5', [], [], 5, [], by decide, .nil, by decide, .nil⟩
  exact hsigned.not_escaped ((hall _ _).mp hok)

end KirbLaSnoop
