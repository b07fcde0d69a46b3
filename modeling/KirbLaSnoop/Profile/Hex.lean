import Mathlib
import KirbLaSnoop.Hexdump
import KirbLaSnoop.Profile.Load

/-!
# Hex texts

A hex text is read as pairs of hex digits. Two texts are read otherwise: one
in which a plus stands for the first digit of a pair is accepted, and one in
which a pair of bytes is not made of whole characters panics.
-/

namespace KirbLaSnoop

/-- The pairs of digits of a text and the bytes they stand for. If `signed`, a
plus can stand for the first digit of a pair. -/
inductive HexBytes (signed : Prop) : List Char → List UInt8 → Prop
  | nil : HexBytes signed [] []
  | digits {c d cs hi lo v} (hc : hexDigit c = some hi) (hd : hexDigit d = some lo)
      (hcs : HexBytes signed cs v) : HexBytes signed (c :: d :: cs) ((16 * hi + lo).toUInt8 :: v)
  | plus {d cs lo v} (hsigned : signed) (hd : hexDigit d = some lo)
      (hcs : HexBytes signed cs v) : HexBytes signed ('+' :: d :: cs) (lo.toUInt8 :: v)

theorem utf8Size_of_hexDigit {c : Char} {n : ℕ} (h : hexDigit c = some n) : c.utf8Size = 1 := by
  apply Char.utf8Size_eq_one_iff.mpr
  unfold hexDigit at h
  split_ifs at h with h₁ h₂ h₃
  · exact UInt32.le_trans h₁.2 (by decide)
  · exact UInt32.le_trans h₂.2 (by decide)
  · exact UInt32.le_trans h₃.2 (by decide)

theorem hexDigit_plus : hexDigit '+' = none := by decide

theorem fromStrRadix16_eq_some_iff {c d : Char} {b : UInt8} :
    fromStrRadix16 c d = some b ↔
      ∃ lo, hexDigit d = some lo ∧
        ((∃ hi, hexDigit c = some hi ∧ b = (16 * hi + lo).toUInt8) ∨ c = '+' ∧ b = lo.toUInt8) := by
  unfold fromStrRadix16
  cases hd : hexDigit d with
  | none => simp
  | some lo =>
      cases hc : hexDigit c with
      | some hi =>
          have hne : c ≠ '+' := by
            rintro rfl
            rw [hexDigit_plus] at hc
            cases hc
          simp [hne, eq_comm]
      | none =>
          by_cases hne : c = '+'
          · simp [hne, eq_comm]
          · simp [hne]

theorem HexBytes.mono {cs : List Char} {v : List UInt8} (h : HexBytes False cs v) :
    HexBytes True cs v := by
  induction h with
  | nil => exact .nil
  | digits hc hd _ ih => exact .digits hc hd ih
  | plus hsigned => exact hsigned.elim

/-- Only a plus makes a difference. -/
theorem HexBytes.unsigned {cs : List Char} {v : List UInt8} (h : HexBytes True cs v)
    (hplus : '+' ∉ cs) : HexBytes False cs v := by
  induction h with
  | nil => exact .nil
  | digits hc hd _ ih =>
      apply HexBytes.digits hc hd
      exact ih fun hmem => hplus (List.mem_cons_of_mem _ (List.mem_cons_of_mem _ hmem))
  | plus => exact absurd List.mem_cons_self hplus

theorem HexBytes.plus_not_mem {cs : List Char} {v : List UInt8} (h : HexBytes False cs v) :
    '+' ∉ cs := by
  have hne {c : Char} {n : ℕ} (hc : hexDigit c = some n) : '+' ≠ c := by
    rintro rfl
    rw [hexDigit_plus] at hc
    cases hc
  induction h with
  | nil => exact List.not_mem_nil
  | digits hc hd _ ih => simp [hne hc, hne hd, ih]
  | plus hsigned => exact hsigned.elim

theorem HexBytes.sizes {signed : Prop} {cs : List Char} {v : List UInt8}
    (h : HexBytes signed cs v) : (cs.map Char.utf8Size).sum = 2 * v.length := by
  have hplus : '+'.utf8Size = 1 := by decide
  induction h with
  | nil => rfl
  | digits hc hd _ ih =>
      simp only [List.map_cons, List.sum_cons, ih, utf8Size_of_hexDigit hc,
        utf8Size_of_hexDigit hd, List.length_cons]
      omega
  | plus _ hd _ ih =>
      simp only [List.map_cons, List.sum_cons, ih, hplus, utf8Size_of_hexDigit hd,
        List.length_cons]
      omega

theorem hexPairs_pair {c d : Char} {b : UInt8} (h : fromStrRadix16 c d = some b) (cs : List Char) :
    hexPairs (c :: d :: cs) = (hexPairs cs).map (b :: ·) := by
  obtain ⟨lo, hd, hc⟩ := fromStrRadix16_eq_some_iff.mp h
  have hsize : c.utf8Size = 1 := by
    rcases hc with ⟨hi, hc, -⟩ | ⟨rfl, -⟩
    · exact utf8Size_of_hexDigit hc
    · decide
  simp only [hexPairs, hsize, utf8Size_of_hexDigit hd, if_true, h]

theorem hexPairs_eq_ok_iff {cs : List Char} {v : List UInt8} :
    hexPairs cs = .ok v ↔ HexBytes True cs v := by
  constructor
  · intro h
    induction cs using hexPairs.induct generalizing v with
    | case1 =>
        cases h
        exact .nil
    | case3 c hc d cs hd b hb ih =>
        rw [hexPairs_pair hb] at h
        cases hcs : hexPairs cs with
        | error e =>
            rw [hcs] at h
            cases h
        | ok v' =>
            rw [hcs] at h
            cases h
            obtain ⟨lo, hlo, ⟨hi, hhi, rfl⟩ | ⟨rfl, rfl⟩⟩ := fromStrRadix16_eq_some_iff.mp hb
            · exact .digits hhi hlo (ih hcs)
            · exact .plus trivial hlo (ih hcs)
    | case2 c hc => simp [hexPairs, hc] at h
    | case4 c hc d cs hd hb => simp [hexPairs, hc, hd, hb] at h
    | case5 c hc d cs hd => simp [hexPairs, hc, hd] at h
    | case6 c cs hc hc' =>
        unfold hexPairs at h
        rw [if_neg hc, if_pos hc'] at h
        cases h
    | case7 c cs hc hc' =>
        unfold hexPairs at h
        rw [if_neg hc, if_neg hc'] at h
        cases h
  · intro h
    induction h with
    | nil => rfl
    | digits hc hd _ ih =>
        rw [hexPairs_pair (fromStrRadix16_eq_some_iff.mpr ⟨_, hd, .inl ⟨_, hc, rfl⟩⟩), ih]
        rfl
    | plus _ hd _ ih =>
        rw [hexPairs_pair (fromStrRadix16_eq_some_iff.mpr ⟨_, hd, .inr ⟨rfl, rfl⟩⟩), ih]
        rfl

theorem parseHex_eq_ok_iff {s : String} {v : List UInt8} :
    parseHex s = .ok v ↔ HexBytes True (hexText s) v := by
  have hparse : parseHex s =
      if ((hexText s).map Char.utf8Size).sum % 2 ≠ 0 then .error .oddLength
      else hexPairs (hexText s) := rfl
  rw [hparse, ← hexPairs_eq_ok_iff]
  constructor
  · intro h
    split_ifs at h
    exact h
  · intro h
    have hsum := (hexPairs_eq_ok_iff.mp h).sizes
    rw [if_neg (by omega), h]

/-! ## Where hex texts are read otherwise -/

/-- After pairs of digits comes a pair of bytes that is not made of whole
characters, in a text of an even number of bytes. -/
def Torn (s : String) : Prop :=
  ((hexText s).map Char.utf8Size).sum % 2 = 0 ∧
    ∃ front c rest v, hexText s = front ++ c :: rest ∧ HexBytes True front v ∧ TearsAt c rest

/-- Every pair is one of digits, or a plus and a digit, and there is a plus. -/
def Signed (s : String) : Prop := (∃ v, HexBytes True (hexText s) v) ∧ '+' ∈ hexText s

/-- The text is accepted if and only if it is an even number of hex digits,
and it does not panic. -/
def ReadsHex (s : String) : Prop :=
  (∀ v, parseHex s = .ok v ↔ HexBytes False (hexText s) v) ∧ ∀ p, parseHex s ≠ .error (.panic p)

theorem torn_iff_hexTears (s : String) : Torn s ↔ HexTears s := by
  simp only [Torn, HexTears, hexPairs_eq_ok_iff]

theorem readsHex_iff (s : String) : ReadsHex s ↔ ¬Torn s ∧ ¬Signed s := by
  have hpanics : Torn s ↔ ∃ p, parseHex s = .error (.panic p) :=
    (torn_iff_hexTears s).trans (parseHex_panic_iff s).symm
  constructor
  · rintro ⟨haccepts, hpanic⟩
    constructor
    · intro htorn
      obtain ⟨p, hp⟩ := hpanics.mp htorn
      exact hpanic p hp
    · rintro ⟨⟨v, hv⟩, hplus⟩
      exact ((haccepts v).mp (parseHex_eq_ok_iff.mpr hv)).plus_not_mem hplus
  · rintro ⟨htorn, hsigned⟩
    refine ⟨fun v => ?_, fun p hp => htorn (hpanics.mpr ⟨p, hp⟩)⟩
    rw [parseHex_eq_ok_iff]
    constructor
    · intro hv
      exact hv.unsigned fun hplus => hsigned ⟨⟨v, hv⟩, hplus⟩
    · exact HexBytes.mono

/-! ## Rendered bytes -/

open Hexdump (hexChar hexByte)

theorem hexDigit_hexChar {n : ℕ} (h : n < 16) : hexDigit (hexChar n) = some n := by
  have hall : ∀ n < 16, hexDigit (hexChar n) = some n := by decide
  exact hall n h

theorem toUInt8_halves (b : UInt8) : (16 * (b.toNat / 16) + b.toNat % 16).toUInt8 = b := by
  rw [Nat.div_add_mod, Nat.toUInt8_eq, UInt8.ofNat_toNat]

theorem hexBytes_render (signed : Prop) (v : List UInt8) :
    HexBytes signed (v.flatMap hexByte) v := by
  induction v with
  | nil => exact .nil
  | cons b v ih =>
      have hb := b.toNat_lt
      have hdigits : HexBytes signed (hexChar (b.toNat / 16) :: hexChar (b.toNat % 16) ::
          v.flatMap hexByte) ((16 * (b.toNat / 16) + b.toNat % 16).toUInt8 :: v) :=
        .digits (hexDigit_hexChar (by omega)) (hexDigit_hexChar (by omega)) ih
      rw [toUInt8_halves] at hdigits
      exact hdigits

/-- Digits do not begin with `0x`. -/
theorem HexBytes.stripPrefix0x_eq {signed : Prop} {cs : List Char} {v : List UInt8}
    (h : HexBytes signed cs v) : stripPrefix0x cs = cs := by
  have hx : hexDigit 'x' = none := by decide
  unfold stripPrefix0x
  split
  · cases h with
    | digits _ hd =>
        rw [hx] at hd
        cases hd
  · rfl

/-- A hex text is read as it should unless it is torn or signed, and bytes in
hex are read back wherever there are separators among the digits. -/
theorem parseHex_reads_iff (s : String) :
    (ReadsHex s ↔ ¬Torn s ∧ ¬Signed s) ∧
      ∀ v : List UInt8, (s.toList.filter fun c => !isSeparator c) = v.flatMap hexByte →
        parseHex s = .ok v := by
  refine ⟨readsHex_iff s, fun v hs => ?_⟩
  have hv := hexBytes_render True v
  apply parseHex_eq_ok_iff.mpr
  rw [hexText, hs, hv.stripPrefix0x_eq]
  exact hv

theorem not_readsHex : ¬∀ s, ReadsHex s := by
  intro hall
  have hok : parseHex "+1" = .ok [1] := by decide
  have hbytes := ((hall "+1").1 [1]).mp hok
  exact hbytes.plus_not_mem (by decide)

end KirbLaSnoop
