import Mathlib

/-!
# Base64

The standard alphabet with padding: three bytes are four digits, and what is
left over at the end is padded to four characters. Decoding refuses digits
whose unused bits are not zero.
-/

namespace KirbLaSnoop

namespace Base64

/-- The letters, the small letters, the digits, plus and slash. -/
def digit (n : ℕ) : Char :=
  if n < 26 then .ofNat (65 + n)
  else if n < 52 then .ofNat (97 + (n - 26))
  else if n < 62 then .ofNat (48 + (n - 52))
  else if n = 62 then '+' else '/'

def value (c : Char) : Option ℕ :=
  if 'A' ≤ c ∧ c ≤ 'Z' then some (c.toNat - 65)
  else if 'a' ≤ c ∧ c ≤ 'z' then some (c.toNat - 97 + 26)
  else if '0' ≤ c ∧ c ≤ '9' then some (c.toNat - 48 + 52)
  else if c = '+' then some 62
  else if c = '/' then some 63 else none

def byte (n : ℕ) : UInt8 := .ofNat n

def encodeChars : List UInt8 → List Char
  | [] => []
  | [a] => [digit (a.toNat / 4), digit (a.toNat % 4 * 16), '=', '=']
  | [a, b] =>
      [digit (a.toNat / 4), digit (a.toNat % 4 * 16 + b.toNat / 16), digit (b.toNat % 16 * 4), '=']
  | a :: b :: c :: rest =>
      digit (a.toNat / 4) :: digit (a.toNat % 4 * 16 + b.toNat / 16) ::
        digit (b.toNat % 16 * 4 + c.toNat / 64) :: digit (c.toNat % 64) :: encodeChars rest

def decodeChars : List Char → Option (List UInt8)
  | [] => some []
  | w :: x :: y :: z :: rest => do
      let w ← value w
      let x ← value x
      if y = '=' ∧ z = '=' ∧ rest = [] then
        if x % 16 = 0 then some [byte (w * 4 + x / 16)] else none
      else do
        let y ← value y
        if z = '=' ∧ rest = [] then
          if y % 4 = 0 then some [byte (w * 4 + x / 16), byte (x % 16 * 16 + y / 4)] else none
        else do
          let z ← value z
          (decodeChars rest).map fun bs =>
            byte (w * 4 + x / 16) :: byte (x % 16 * 16 + y / 4) :: byte (y % 4 * 64 + z) :: bs
  | _ => none

def encode (bs : List UInt8) : String := String.ofList (encodeChars bs)

def decode (s : String) : Option (List UInt8) := decodeChars s.toList

theorem value_digit {n : ℕ} (hn : n < 64) : value (digit n) = some n := by
  have hall : ∀ i : Fin 64, value (digit i) = some i.val := by decide
  exact hall ⟨n, hn⟩

theorem digit_ne_pad {n : ℕ} (hn : n < 64) : digit n ≠ '=' := by
  have hall : ∀ i : Fin 64, digit i ≠ '=' := by decide
  exact hall ⟨n, hn⟩

theorem byte_eq {n : ℕ} {a : UInt8} (h : n = a.toNat) : byte n = a := by
  rw [h, byte, UInt8.ofNat_toNat]

/-- The digits of a group are read back one by one. -/
theorem decodeChars_encodeChars (bs : List UInt8) : decodeChars (encodeChars bs) = some bs := by
  induction bs using encodeChars.induct with
  | case1 => rfl
  | case2 a =>
      have ha := a.toNat_lt
      have hw : a.toNat / 4 < 64 := by omega
      have hx : a.toNat % 4 * 16 < 64 := by omega
      have hunused : a.toNat % 4 * 16 % 16 = 0 := by omega
      have hbyte : byte (a.toNat / 4 * 4 + a.toNat % 4 * 16 / 16) = a := byte_eq (by omega)
      simp only [encodeChars, decodeChars, value_digit hw, value_digit hx, Option.bind_eq_bind,
        Option.bind_some, and_self, if_true, hunused, hbyte]
  | case3 a b =>
      have ha := a.toNat_lt
      have hb := b.toNat_lt
      have hw : a.toNat / 4 < 64 := by omega
      have hx : a.toNat % 4 * 16 + b.toNat / 16 < 64 := by omega
      have hy : b.toNat % 16 * 4 < 64 := by omega
      have hunused : b.toNat % 16 * 4 % 4 = 0 := by omega
      have hfirst : byte (a.toNat / 4 * 4 + (a.toNat % 4 * 16 + b.toNat / 16) / 16) = a :=
        byte_eq (by omega)
      have hsecond : byte ((a.toNat % 4 * 16 + b.toNat / 16) % 16 * 16 + b.toNat % 16 * 4 / 4) =
          b := byte_eq (by omega)
      simp only [encodeChars, decodeChars, value_digit hw, value_digit hx, value_digit hy,
        digit_ne_pad hy, Option.bind_eq_bind, Option.bind_some, and_self, false_and, if_true,
        if_false, hunused, hfirst, hsecond]
  | case4 a b c rest ih =>
      have ha := a.toNat_lt
      have hb := b.toNat_lt
      have hc := c.toNat_lt
      have hw : a.toNat / 4 < 64 := by omega
      have hx : a.toNat % 4 * 16 + b.toNat / 16 < 64 := by omega
      have hy : b.toNat % 16 * 4 + c.toNat / 64 < 64 := by omega
      have hz : c.toNat % 64 < 64 := by omega
      have hfirst : byte (a.toNat / 4 * 4 + (a.toNat % 4 * 16 + b.toNat / 16) / 16) = a :=
        byte_eq (by omega)
      have hsecond : byte ((a.toNat % 4 * 16 + b.toNat / 16) % 16 * 16 +
          (b.toNat % 16 * 4 + c.toNat / 64) / 4) = b := byte_eq (by omega)
      have hthird : byte ((b.toNat % 16 * 4 + c.toNat / 64) % 4 * 64 + c.toNat % 64) = c :=
        byte_eq (by omega)
      simp only [encodeChars, decodeChars, value_digit hw, value_digit hx, value_digit hy,
        value_digit hz, digit_ne_pad hy, digit_ne_pad hz, Option.bind_eq_bind, Option.bind_some,
        false_and, if_false, hfirst, hsecond, hthird, ih, Option.map_some]

/-- What was encoded is decoded. -/
theorem decode_encode (bs : List UInt8) : decode (encode bs) = some bs := by
  rw [decode, encode, String.toList_ofList]
  exact decodeChars_encodeChars bs

example : encode [102, 111, 111, 98] = "Zm9vYg==" := by decide

end Base64

end KirbLaSnoop
