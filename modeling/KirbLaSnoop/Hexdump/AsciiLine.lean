import Mathlib
import KirbLaSnoop.Lib.Text
import KirbLaSnoop.Hexdump
import KirbLaSnoop.Profile.Escape

/-!
# The console line as a text of a profile

A line of the console unescapes to the message it shows, as long as the
message has no backslash: a backslash is shown as it stands.
-/

namespace KirbLaSnoop

namespace Hexdump

def line (data : List UInt8) : List Char := data.flatMap asciiByte

theorem asciiLine_unlimited (data : List UInt8) : asciiLine data 0 = String.ofList (line data) := by
  simp [asciiLine, line]

theorem escaped_asciiByte {b : UInt8} (hb : b ≠ 92) : Escaped False (asciiByte b) [b] := by
  unfold asciiByte
  split_ifs with hr hn ht hprint
  · exact hr ▸ .escape (by decide) .nil
  · exact hn ▸ .escape (by decide) .nil
  · exact ht ▸ .escape (by decide) .nil
  · have hchar : Escaped False [Char.ofNat b.toNat]
        (String.utf8EncodeChar (Char.ofNat b.toNat) ++ []) := by
      refine .char ?_ .nil
      have hall : ∀ n < 127, n ≠ 92 → Char.ofNat n ≠ '\\' := by decide
      refine hall b.toNat (Nat.lt_succ_of_le (UInt8.le_iff_toNat_le.mp hprint.2)) fun hn => ?_
      exact hb (UInt8.toNat_inj.mp hn)
    rw [Text.utf8EncodeChar_ofNat (UInt8.lt_of_le_of_lt hprint.2 (by decide))] at hchar
    exact hchar
  · exact escaped_hexByte b .nil

theorem escaped_line {data : List UInt8} (h : 92 ∉ data) : Escaped False (line data) data := by
  induction data with
  | nil => exact .nil
  | cons b data ih =>
      rw [List.mem_cons, not_or] at h
      exact (escaped_asciiByte (Ne.symm h.1)).append (ih h.2)

/-! ## Lines with a backslash -/

/-- A character that stands for its own byte. -/
def isPlain (c : Char) : Bool := 0x20 ≤ c.toNat && c.toNat ≤ 0x7e && c != '\\'

/-- At least as much as the line shows for the byte. -/
def weight (b : UInt8) : ℕ := if 0x20 ≤ b ∧ b ≤ 0x7e ∧ b ≠ 92 then 1 else 4

def weights (data : List UInt8) : ℕ := (data.map weight).sum

theorem weight_pos (b : UInt8) : 1 ≤ weight b := by
  unfold weight
  split_ifs <;> omega

theorem weight_le (b : UInt8) : weight b ≤ 4 := by
  unfold weight
  split_ifs <;> omega

@[simp] theorem weights_cons (b : UInt8) (data : List UInt8) :
    weights (b :: data) = weight b + weights data := rfl

/-- A byte is shown as a plain character, or as a backslash with plain
characters after it, fewer than its weight. -/
theorem asciiByte_shape (b : UInt8) :
    (∃ c, asciiByte b = [c] ∧ isPlain c) ∨
      ∃ ks, asciiByte b = '\\' :: ks ∧ ks.all isPlain ∧ ks.length < weight b := by
  have hall : ∀ n < 256, let cs := asciiByte (UInt8.ofNat n)
      (cs.length = 1 ∧ cs.all isPlain) ∨
        (cs.head? = some '\\' ∧ cs.tail.all isPlain ∧ cs.tail.length < weight (UInt8.ofNat n)) := by
    decide +kernel
  have hb := hall b.toNat b.toNat_lt
  rw [UInt8.ofNat_toNat] at hb
  rcases hb with ⟨hlength, hplain⟩ | ⟨hhead, htail, hlength⟩
  · obtain ⟨c, hc⟩ := List.length_eq_one_iff.mp hlength
    rw [hc, List.all_cons, Bool.and_eq_true] at hplain
    exact .inl ⟨c, hc, hplain.1⟩
  · exact .inr ⟨_, List.eq_cons_of_mem_head? hhead, htail, hlength⟩

theorem plain_byte {c : Char} (h : isPlain c) :
    c ≠ '\\' ∧ ∃ b, String.utf8EncodeChar c = [b] ∧ weight b = 1 := by
  have hall : ∀ n < 127, isPlain (Char.ofNat n) →
      String.utf8EncodeChar (Char.ofNat n) = [UInt8.ofNat n] ∧ weight (UInt8.ofNat n) = 1 := by
    decide +kernel
  have hc := h
  simp only [isPlain, Bool.and_eq_true, decide_eq_true_eq, bne_iff_ne] at hc
  have hn := hall c.toNat (Nat.lt_succ_of_le hc.1.2)
  rw [Char.ofNat_toNat] at hn
  exact ⟨hc.2, _, hn h⟩

theorem weights_append (u v : List UInt8) : weights (u ++ v) = weights u + weights v := by
  simp [weights]

/-- Plain characters are read as their own bytes. -/
theorem escaped_plain {ks cs : List Char} {w : List UInt8} (hks : ks.all isPlain)
    (h : Escaped True (ks ++ cs) w) :
    ∃ u v, w = u ++ v ∧ weights u = ks.length ∧ Escaped True cs v := by
  induction ks generalizing w with
  | nil => exact ⟨[], w, rfl, rfl, h⟩
  | cons k ks ih =>
      rw [List.all_cons, Bool.and_eq_true] at hks
      obtain ⟨hne, b, hb, hweight⟩ := plain_byte hks.1
      obtain ⟨w', rfl, hw'⟩ := Escaped.char_inv hne h
      obtain ⟨u, v, rfl, hu, hv⟩ := ih hks.2 hw'
      refine ⟨b :: u, v, by rw [hb]; rfl, ?_, hv⟩
      rw [weights_cons, hweight, hu, List.length_cons, Nat.add_comm]

/-- A plain character of a line is a byte of its message. -/
theorem line_eq_cons {data : List UInt8} {c : Char} {cs : List Char} (h : line data = c :: cs)
    (hc : c ≠ '\\') : ∃ b rest, data = b :: rest ∧ cs = line rest := by
  cases data with
  | nil => cases h
  | cons b rest =>
      have hline : line (b :: rest) = asciiByte b ++ line rest := List.flatMap_cons
      rw [hline] at h
      rcases asciiByte_shape b with ⟨k, hk, -⟩ | ⟨ks, hks, -, -⟩
      · rw [hk] at h
        exact ⟨b, rest, rfl, (List.cons.inj h).2.symm⟩
      · rw [hks] at h
        exact absurd (List.cons.inj h).1.symm hc

theorem ne_backslash {c : Char} {n : ℕ} (h : hexDigit c = some n) : c ≠ '\\' := by
  have hnone : hexDigit '\\' = none := by decide
  rintro rfl
  rw [hnone] at h
  cases h

/-- Four bytes of the message, the first a backslash, are read as one. -/
theorem weights_of_hex {rest v : List UInt8} {hi lo : Char} {cs : List Char} (b : UInt8)
    (htext : line rest = 'x' :: hi :: lo :: cs) (hhi : hi ≠ '\\') (hlo : lo ≠ '\\')
    (hcs : ∀ data, cs = line data → data.length ≤ rest.length → weights v ≤ weights data) :
    weights (b :: v) < 4 + weights rest := by
  obtain ⟨x, rest, rfl, hx⟩ := line_eq_cons htext (by decide)
  obtain ⟨e, rest, rfl, he⟩ := line_eq_cons hx.symm hhi
  obtain ⟨e', rest, rfl, hdone⟩ := line_eq_cons he.symm hlo
  have hrest := hcs rest hdone (by simp only [List.length_cons]; omega)
  have hb := weight_le b
  have hpos := weight_pos x
  simp only [weights_cons]
  omega

/-- A backslash is read together with what the line shows next, and the byte
it gives weighs less than theirs. -/
theorem weights_of_backslash {rest w : List UInt8} (h : Escaped True ('\\' :: line rest) w)
    (ih : ∀ data w, data.length ≤ rest.length → Escaped True (line data) w →
      weights w ≤ weights data) : weights w < 4 + weights rest := by
  generalize htext : line rest = text at h
  cases h with
  | char hne => exact absurd rfl hne
  | @escape c b cs v hc hcs =>
      have hb := weight_le b
      cases rest with
      | nil => cases htext
      | cons e rest =>
          have hline : asciiByte e ++ line rest = c :: cs := htext
          have he := weight_pos e
          rw [weights_cons, weights_cons]
          rcases asciiByte_shape e with ⟨k, hk, -⟩ | ⟨ks, hks, hplain, hlength⟩
          · rw [hk] at hline
            obtain ⟨-, rfl⟩ := List.cons.inj hline
            have hrest := ih rest v (Nat.le_succ _) hcs
            omega
          -- the backslash takes that of the next byte, and leaves plain characters
          · rw [hks] at hline
            obtain ⟨-, rfl⟩ := List.cons.inj hline
            obtain ⟨u, v, rfl, hu, hv⟩ := escaped_plain hplain hcs
            have hrest := ih rest v (Nat.le_succ _) hv
            rw [weights_append, hu]
            omega
  | byte hhi hlo hcs =>
      exact weights_of_hex _ htext (ne_backslash hhi) (ne_backslash hlo) fun data hdata hle =>
        ih data _ hle (hdata ▸ hcs)
  | plus _ hlo hcs =>
      exact weights_of_hex _ htext (by decide) (ne_backslash hlo) fun data hdata hle =>
        ih data _ hle (hdata ▸ hcs)

/-- Unescaping a line does not add weight, and takes some off where there is
a backslash. -/
theorem weights_of_line {data w : List UInt8} (h : Escaped True (line data) w) :
    weights w ≤ weights data ∧ (92 ∈ data → weights w < weights data) := by
  induction hlen : data.length using Nat.strong_induction_on generalizing data w with
  | _ n ih =>
    cases data with
    | nil =>
        cases h
        exact ⟨le_rfl, fun hmem => absurd hmem List.not_mem_nil⟩
    | cons b rest =>
        subst hlen
        by_cases hb : b = 92
        -- the escape takes up to three more bytes of the line
        · subst hb
          have hlt : weights w < weights (92 :: rest) := by
            apply weights_of_backslash h
            intro data w hle hw
            exact (ih data.length (Nat.lt_succ_of_le hle) hw rfl).1
          exact ⟨hlt.le, fun _ => hlt⟩
        · have hline : line (b :: rest) = asciiByte b ++ line rest := List.flatMap_cons
          rw [hline] at h
          obtain ⟨v, rfl, hv⟩ := (escaped_asciiByte hb).of_append h
          obtain ⟨hle, hlt⟩ := ih rest.length (Nat.lt_succ_self _) hv rfl
          rw [List.singleton_append, weights_cons, weights_cons]
          refine ⟨by omega, fun hmem => ?_⟩
          have hrest := hlt ((List.mem_cons.mp hmem).resolve_left (Ne.symm hb))
          omega

theorem unescape_line_iff (data : List UInt8) :
    unescape (asciiLine data 0) = .ok data ↔ 92 ∉ data := by
  rw [asciiLine_unlimited, unescape, String.toList_ofList, unescapeChars_eq_ok_iff]
  constructor
  · intro h hmem
    exact absurd ((weights_of_line h).2 hmem) (lt_irrefl _)
  · intro h
    exact (escaped_line h).mono

/-- The messages that are read back from their lines are those without a
backslash, and no two of them have the same line. -/
theorem asciiLine_reads_back :
    (∀ data, unescape (asciiLine data 0) = .ok data ↔ 92 ∉ data) ∧
      ∀ data data' : List UInt8, 92 ∉ data → 92 ∉ data' →
        asciiLine data 0 = asciiLine data' 0 → data = data' := by
  refine ⟨unescape_line_iff, fun data data' h h' hline => ?_⟩
  have hread := (unescape_line_iff data).mpr h
  have hread' := (unescape_line_iff data').mpr h'
  rw [hline, hread'] at hread
  exact (Except.ok.inj hread).symm

/-- A backslash and an `n` are shown as a newline is. -/
theorem not_asciiLine_reads_back :
    (¬∀ data, unescape (asciiLine data 0) = .ok data) ∧
      ¬∀ data data' : List UInt8, asciiLine data 0 = asciiLine data' 0 → data = data' := by
  have hline : asciiLine [92, 110] 0 = asciiLine [10] 0 := by decide
  constructor
  · intro hread
    have hnewline : unescape (asciiLine [92, 110] 0) = .ok [10] := by decide
    have heq := hnewline.symm.trans (hread [92, 110])
    revert heq
    decide
  · intro hinj
    have heq := hinj _ _ hline
    revert heq
    decide

end Hexdump

end KirbLaSnoop
