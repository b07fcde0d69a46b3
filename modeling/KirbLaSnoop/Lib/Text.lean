import Mathlib

/-!
# Text out of bytes

Decoding UTF-8, strictly and with replacement characters, and the few
operations on text that are not those of `String`: Unicode whitespace, trimming
and splitting. Texts are lists of characters.
-/

namespace Text

/-! ## Decoding -/

/-- The character that the bytes begin with, if they begin with one. -/
def decodeChar (bs : List UInt8) : Option Char := bs.toByteArray.utf8DecodeChar? 0

def isTail (b : UInt8) : Bool := 0x80 ≤ b && b ≤ 0xbf

/-- Whether a character of three or four bytes can go on from `b` with `c`. -/
def goesOn (b c : UInt8) : Bool :=
  if b = 0xe0 then 0xa0 ≤ c && c ≤ 0xbf
  else if b = 0xed then 0x80 ≤ c && c ≤ 0x9f
  else if b = 0xf0 then 0x90 ≤ c && c ≤ 0xbf
  else if b = 0xf4 then 0x80 ≤ c && c ≤ 0x8f
  else 0xe1 ≤ b && b ≤ 0xf3 && isTail c

/-- The number of bytes, at the start of bytes that begin with no character,
that one replacement character stands for. -/
def badLen : List UInt8 → ℕ
  | b :: c :: cs =>
      if goesOn b c then
        if 0xf0 ≤ b && cs.head?.any isTail then 3 else 2
      else 1
  | _ => 1

/-- Decoding after `skip` more bytes of a character already read. -/
def lossyGo : ℕ → List UInt8 → List Char
  | _, [] => []
  | skip + 1, _ :: bs => lossyGo skip bs
  | 0, b :: bs =>
      match decodeChar (b :: bs) with
      | some c => c :: lossyGo (c.utf8Size - 1) bs
      | none => '\ufffd' :: lossyGo (badLen (b :: bs) - 1) bs

def lossy (bs : List UInt8) : List Char := lossyGo 0 bs

def strictGo : ℕ → List UInt8 → Option (List Char)
  | _, [] => some []
  | skip + 1, _ :: bs => strictGo skip bs
  | 0, b :: bs =>
      match decodeChar (b :: bs) with
      | some c => (strictGo (c.utf8Size - 1) bs).map (c :: ·)
      | none => none

def strict (bs : List UInt8) : Option (List Char) := strictGo 0 bs

def encode (cs : List Char) : List UInt8 := cs.flatMap String.utf8EncodeChar

theorem decodeChar_append (c : Char) (bs : List UInt8) :
    decodeChar (String.utf8EncodeChar c ++ bs) = some c := by
  unfold decodeChar
  rw [List.toByteArray_append]
  exact ByteArray.utf8DecodeChar?_utf8EncodeChar_append

theorem lossyGo_eq_drop (skip : ℕ) (bs : List UInt8) : lossyGo skip bs = lossy (bs.drop skip) := by
  induction skip generalizing bs with
  | zero => rfl
  | succ skip ih =>
      cases bs with
      | nil => rfl
      | cons b bs => exact ih bs

theorem lossy_append (c : Char) (bs : List UInt8) :
    lossy (String.utf8EncodeChar c ++ bs) = c :: lossy bs := by
  have hdecode := decodeChar_append c bs
  have hlen : (String.utf8EncodeChar c).length = c.utf8Size := String.length_utf8EncodeChar c
  cases hbytes : String.utf8EncodeChar c with
  | nil =>
      have hpos := c.utf8Size_pos
      rw [hbytes, List.length_nil] at hlen
      omega
  | cons b tail =>
      rw [hbytes, List.length_cons] at hlen
      rw [hbytes, List.cons_append] at hdecode
      have hstep : lossy (b :: (tail ++ bs)) = c :: lossyGo (c.utf8Size - 1) (tail ++ bs) := by
        simp only [lossy, lossyGo, hdecode]
      rw [List.cons_append, hstep, lossyGo_eq_drop, List.drop_left' (by omega)]

/-- Decoding the bytes of a text gives the text back. -/
@[simp] theorem lossy_encode (cs : List Char) : lossy (encode cs) = cs := by
  induction cs with
  | nil => rfl
  | cons c cs ih => rw [encode, List.flatMap_cons, lossy_append, ← encode, ih]

theorem toUTF8_eq_encode (s : String) : s.toUTF8.data.toList = encode s.toList := by
  have h : s = String.ofList s.toList := s.ofList_toList.symm
  conv_lhs => rw [h]
  simp [encode, String.ofList, List.utf8Encode]

theorem utf8EncodeChar_ofNat {b : UInt8} (h : b < 128) :
    String.utf8EncodeChar (Char.ofNat b.toNat) = [b] := by
  have hall : ∀ n < 128, String.utf8EncodeChar (Char.ofNat n) = [UInt8.ofNat n] := by
    decide +kernel
  have hb := hall b.toNat (UInt8.lt_iff_toNat_lt.mp h)
  rwa [UInt8.ofNat_toNat] at hb

/-! ## Characters -/

/-- The characters with the Unicode property White_Space. -/
def isWhitespace (c : Char) : Bool :=
  let n := c.toNat
  (9 ≤ n && n ≤ 13) || n = 0x20 || n = 0x85 || n = 0xa0 || n = 0x1680 ||
    (0x2000 ≤ n && n ≤ 0x200a) || n = 0x2028 || n = 0x2029 || n = 0x202f || n = 0x205f ||
      n = 0x3000

/-- The characters of the Unicode category Cc: C0, DEL and C1. -/
def isControl (c : Char) : Bool := c.toNat < 0x20 || (0x7f ≤ c.toNat && c.toNat ≤ 0x9f)

/-! ## Splitting -/

def trimStart (cs : List Char) : List Char := cs.dropWhile isWhitespace

def trim (cs : List Char) : List Char := (trimStart (trimStart cs).reverse).reverse

def words (cs : List Char) : List (List Char) :=
  (cs.splitOnP isWhitespace).filter fun w => !w.isEmpty

theorem splitOn_lines {sep : Char} {ls : List (List Char)} (h : ∀ l ∈ ls, sep ∉ l)
    (rest : List Char) :
    (ls.flatMap (· ++ [sep]) ++ rest).splitOn sep = ls ++ rest.splitOn sep := by
  induction ls with
  | nil => simp
  | cons l ls ih =>
      rw [List.forall_mem_cons] at h
      rw [List.flatMap_cons, List.append_assoc, List.append_assoc, List.singleton_append,
        List.splitOn_append_cons_self_of_not_mem h.1, ih h.2, List.cons_append]

/-- The text before and after the first `sep`. -/
def splitOnce (sep : Char) : List Char → Option (List Char × List Char)
  | [] => none
  | c :: cs =>
      if c = sep then some ([], cs)
      else (splitOnce sep cs).map fun kv => (c :: kv.1, kv.2)

theorem splitOnce_eq_none_iff {sep : Char} {cs : List Char} :
    splitOnce sep cs = none ↔ sep ∉ cs := by
  induction cs with
  | nil => simp [splitOnce]
  | cons c cs ih =>
      by_cases hc : c = sep
      · simp [splitOnce, hc]
      · simp [splitOnce, hc, ih, Ne.symm hc]

/-- The first `sep` is the one with none before it. -/
theorem splitOnce_eq_some_iff {sep : Char} {cs front rest : List Char} :
    splitOnce sep cs = some (front, rest) ↔ cs = front ++ sep :: rest ∧ sep ∉ front := by
  induction cs generalizing front with
  | nil => simp [splitOnce]
  | cons c cs ih =>
      by_cases hc : c = sep
      · cases front with
        | nil => simp [splitOnce, hc]
        | cons d front =>
            refine iff_of_false (by simp [splitOnce, hc]) ?_
            rintro ⟨hcs, hfront⟩
            obtain ⟨rfl, -⟩ := List.cons.inj hcs
            exact hfront (hc ▸ List.mem_cons_self)
      · cases front with
        | nil => simp [splitOnce, hc]
        | cons d front =>
            simp only [splitOnce, if_neg hc, Option.map_eq_some_iff, Prod.exists, Prod.mk.injEq,
              List.cons.injEq, List.cons_append, List.mem_cons, not_or]
            constructor
            · rintro ⟨front', rest', hsplit, ⟨rfl, rfl⟩, rfl⟩
              obtain ⟨rfl, hfront⟩ := ih.mp hsplit
              exact ⟨⟨rfl, rfl⟩, Ne.symm hc, hfront⟩
            · rintro ⟨⟨rfl, hcs⟩, -, hfront⟩
              exact ⟨front, rest, ih.mpr ⟨hcs, hfront⟩, ⟨rfl, rfl⟩, rfl⟩

/-- The texts between the carriage returns that a newline follows. -/
def splitCrLf : List Char → List (List Char)
  | [] => [[]]
  | '\r' :: '\n' :: cs => [] :: splitCrLf cs
  | c :: cs => (splitCrLf cs).modifyHead (c :: ·)

def eqIgnoreAsciiCase (cs ds : List Char) : Bool := cs.map Char.toLower == ds.map Char.toLower

end Text
