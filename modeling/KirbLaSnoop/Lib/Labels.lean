import Mathlib
import KirbLaSnoop.Lib.Cursor

/-!
# Labels with their length in front

A sequence of labels goes over the wire as a byte of length and as many bytes
for each label, and a zero byte after the last. The two high bits of a length
are clear, so a label has at most 63 bytes.
-/

namespace Labels

/-- The labels of a sequence that can be written down. -/
def Fits (ls : List (List UInt8)) : Prop := ∀ l ∈ ls, 1 ≤ l.length ∧ l.length ≤ 63

def encodeLabel (l : List UInt8) : List UInt8 := l.length.toUInt8 :: l

def encode (ls : List (List UInt8)) : List UInt8 := ls.flatMap encodeLabel ++ [0]

/-- The label at `p`, empty for the zero byte. -/
def labelAt (d : List UInt8) (p : ℕ) : Option (List UInt8) :=
  match d[p]? with
  | none => none
  | some len =>
      if len &&& 0xc0 = 0 ∧ p + 1 + len.toNat ≤ d.length then
        some ((d.drop (p + 1)).take len.toNat)
      else none

/-- The labels from `p` on, at most `left` of them and all of them `ok`, and
the offset after them. -/
def read (ok : List UInt8 → Bool) (d : List UInt8) : ℕ → ℕ → Option (List (List UInt8) × ℕ)
  | left, p =>
      match labelAt d p, left with
      | none, _ => none
      | some [], _ => some ([], p + 1)
      | some (_ :: _), 0 => none
      | some (b :: bs), left + 1 =>
          if ok (b :: bs) then
            (read ok d left (p + 1 + (b :: bs).length)).map fun r => ((b :: bs) :: r.1, r.2)
          else none

@[simp] theorem encode_cons (l : List UInt8) (ls : List (List UInt8)) :
    encode (l :: ls) = l.length.toUInt8 :: (l ++ encode ls) := by
  simp [encode, encodeLabel]

theorem length_lt_encode (ls : List (List UInt8)) : ls.length < (encode ls).length := by
  induction ls with
  | nil => exact Nat.zero_lt_one
  | cons l ls ih =>
      simp only [encode_cons, List.length_cons, List.length_append]
      omega

theorem length_encode_le {ls : List (List UInt8)} (h : Fits ls) :
    (encode ls).length ≤ 64 * ls.length + 1 := by
  induction ls with
  | nil => exact le_refl 1
  | cons l ls ih =>
      have hl := h l List.mem_cons_self
      have hrest := ih fun l' hl' => h l' (List.mem_cons_of_mem _ hl')
      simp only [encode_cons, List.length_cons, List.length_append]
      omega

/-- A length byte without the two high bits is at most 63. -/
theorem and_eq_zero_iff (len : UInt8) : len &&& 0xc0 = 0 ↔ len.toNat ≤ 63 := by
  have hall : ∀ n < 256, UInt8.ofNat n &&& 0xc0 = 0 ↔ n ≤ 63 := by decide +kernel
  have hlen := hall len.toNat len.toNat_lt
  rwa [UInt8.ofNat_toNat] at hlen

theorem toNat_length {l : List UInt8} (h : l.length ≤ 63) : l.length.toUInt8.toNat = l.length := by
  rw [Nat.toUInt8_eq, UInt8.toNat_ofNat']
  exact Nat.mod_eq_of_lt (by omega)

section Reading

variable {ok : List UInt8 → Bool} {d l rest : List UInt8} {left p q : ℕ}
  {ls : List (List UInt8)}

theorem labelAt_ahead (hl : l.length ≤ 63) (h : Ahead d p (l.length.toUInt8 :: (l ++ rest))) :
    labelAt d p = some l := by
  have hlen := h.length
  rw [List.length_cons, List.length_append] at hlen
  have hn := toNat_length hl
  have hclear : l.length.toUInt8 &&& 0xc0 = 0 := (and_eq_zero_iff _).mpr (by omega)
  unfold labelAt
  rw [h.head]
  dsimp only
  rw [hn, if_pos ⟨hclear, by omega⟩, h.cons.2, List.take_left]

theorem ahead_of_labelAt (h : labelAt d p = some l) :
    l.length ≤ 63 ∧ ∃ rest, Ahead d p (l.length.toUInt8 :: (l ++ rest)) := by
  unfold labelAt at h
  split at h
  · cases h
  · next len hlen =>
      rw [Option.ite_none_right_eq_some, Option.some.injEq] at h
      obtain ⟨⟨hclear, hin⟩, rfl⟩ := h
      have hp := (List.getElem?_eq_some_iff.mp hlen).1
      have hlength : ((d.drop (p + 1)).take len.toNat).length = len.toNat := by
        rw [List.length_take, List.length_drop]
        omega
      refine ⟨?_, (d.drop (p + 1)).drop len.toNat, hp.le, ?_⟩
      · rw [hlength]
        exact (and_eq_zero_iff len).mp hclear
      · rw [hlength, List.take_append_drop, List.drop_eq_getElem_cons hp,
          (List.getElem?_eq_some_iff.mp hlen).2]
        simp

/-- What is written is read. -/
theorem read_ahead (hfits : Fits ls) (hok : ∀ l ∈ ls, ok l) (hleft : ls.length ≤ left)
    (h : Ahead d p (encode ls ++ rest)) : read ok d left p = some (ls, p + (encode ls).length) := by
  induction ls generalizing left p with
  | nil =>
      have hlabel : labelAt d p = some [] := labelAt_ahead (Nat.zero_le _) h
      unfold read
      rw [hlabel]
      rfl
  | cons l ls ih =>
      obtain ⟨left, rfl⟩ : ∃ n, left = n + 1 := ⟨left - 1, by simp at hleft; omega⟩
      have hl := hfits l List.mem_cons_self
      rw [encode_cons, List.cons_append, List.append_assoc] at h
      have hlabel := labelAt_ahead hl.2 h
      have hrest := ih (fun l' hl' => hfits l' (List.mem_cons_of_mem _ hl'))
        (fun l' hl' => hok l' (List.mem_cons_of_mem _ hl')) (Nat.le_of_succ_le_succ hleft)
        h.cons.append
      obtain ⟨b, bs, rfl⟩ : ∃ b bs, l = b :: bs := List.exists_cons_of_length_pos hl.1
      unfold read
      rw [hlabel]
      dsimp only
      rw [if_pos (hok _ List.mem_cons_self), hrest]
      simp only [Option.map_some, encode_cons, List.length_cons, List.length_append]
      congr 2
      omega

/-- What is read is there. -/
theorem ahead_of_read (h : read ok d left p = some (ls, q)) :
    ls.length ≤ left ∧ Fits ls ∧ (∀ l ∈ ls, ok l) ∧ q = p + (encode ls).length ∧
      ∃ rest, Ahead d p (encode ls ++ rest) := by
  induction ls generalizing left p with
  | nil =>
      unfold read at h
      split at h
      · cases h
      · next hlabel =>
          cases h
          exact ⟨Nat.zero_le _, List.forall_mem_nil _, List.forall_mem_nil _, rfl,
            (ahead_of_labelAt hlabel).2⟩
      · cases h
      · rw [Option.ite_none_right_eq_some, Option.map_eq_some_iff] at h
        obtain ⟨-, r, -, hr⟩ := h
        cases hr
  | cons l ls ih =>
      unfold read at h
      split at h
      · cases h
      · cases h
      · cases h
      · next b bs left hlabel =>
          rw [Option.ite_none_right_eq_some, Option.map_eq_some_iff] at h
          obtain ⟨hok, r, hread, hr⟩ := h
          rw [Prod.mk.injEq, List.cons.injEq] at hr
          obtain ⟨⟨rfl, rfl⟩, rfl⟩ := hr
          obtain ⟨hlength, hfits, hoks, hq, rest, hahead⟩ := ih hread
          obtain ⟨hl, rest', hfirst⟩ := ahead_of_labelAt hlabel
          obtain rfl : rest' = encode r.1 ++ rest := by
            rw [← hfirst.cons.append.2, ← hahead.2]
          refine ⟨Nat.succ_le_succ hlength, List.forall_mem_cons.mpr ⟨⟨Nat.succ_pos _, hl⟩, hfits⟩,
            List.forall_mem_cons.mpr ⟨hok, hoks⟩, ?_, rest, ?_⟩
          · rw [hq]
            simp only [encode_cons, List.length_cons, List.length_append]
            omega
          · rw [encode_cons, List.cons_append, List.append_assoc]
            exact hfirst

/-! The equations of a reader that goes byte by byte. -/

theorem labelAt_byte {len : UInt8} (h : d[p]? = some len) :
    labelAt d p =
      if len &&& 0xc0 = 0 ∧ p + 1 + len.toNat ≤ d.length then
        some ((d.drop (p + 1)).take len.toNat)
      else none := by
  rw [labelAt, h]

theorem read_end (h : d[p]? = none) : read ok d left p = none := by
  have hlabel : labelAt d p = none := by rw [labelAt, h]
  unfold read
  rw [hlabel]

theorem read_zero (h : d[p]? = some 0) : read ok d left p = some ([], p + 1) := by
  have hp := (List.getElem?_eq_some_iff.mp h).1
  have hlabel : labelAt d p = some [] := by
    rw [labelAt_byte h]
    exact if_pos ⟨rfl, hp⟩
  unfold read
  rw [hlabel]

theorem read_mark {len : UInt8} (h : d[p]? = some len) (hmark : len &&& 0xc0 ≠ 0) :
    read ok d left p = none := by
  have hlabel : labelAt d p = none := by rw [labelAt_byte h, if_neg fun hand => hmark hand.1]
  unfold read
  rw [hlabel]

theorem read_short {len : UInt8} (h : d[p]? = some len) (hshort : d.length < p + 1 + len.toNat) :
    read ok d left p = none := by
  have hlabel : labelAt d p = none := by
    rw [labelAt_byte h, if_neg fun hand => absurd hand.2 (by omega)]
  unfold read
  rw [hlabel]

theorem exists_labelAt {len : UInt8} (h : d[p]? = some len) (hne : len ≠ 0)
    (hclear : len &&& 0xc0 = 0) (hin : p + 1 + len.toNat ≤ d.length) :
    ∃ b bs, labelAt d p = some (b :: bs) ∧ (d.drop (p + 1)).take len.toNat = b :: bs ∧
      (b :: bs).length = len.toNat := by
  have hlength : ((d.drop (p + 1)).take len.toNat).length = len.toNat := by
    rw [List.length_take, List.length_drop]
    omega
  have hpos : 0 < len.toNat := Nat.pos_of_ne_zero fun hzero => hne (UInt8.toNat_inj.mp hzero)
  obtain ⟨b, bs, hlabel⟩ := List.exists_cons_of_length_pos (hlength.symm ▸ hpos)
  exact ⟨b, bs, by rw [labelAt_byte h, if_pos ⟨hclear, hin⟩, hlabel], hlabel, hlabel ▸ hlength⟩

theorem read_spent {len : UInt8} (h : d[p]? = some len) (hne : len ≠ 0) :
    read ok d 0 p = none := by
  by_cases hclear : len &&& 0xc0 = 0
  · by_cases hin : p + 1 + len.toNat ≤ d.length
    · obtain ⟨b, bs, hlabel, -, -⟩ := exists_labelAt h hne hclear hin
      unfold read
      rw [hlabel]
    · exact read_short h (by omega)
  · exact read_mark h hclear

theorem read_step {len : UInt8} (h : d[p]? = some len) (hne : len ≠ 0)
    (hclear : len &&& 0xc0 = 0) (hin : p + 1 + len.toNat ≤ d.length) :
    read ok d (left + 1) p =
      if ok ((d.drop (p + 1)).take len.toNat) then
        (read ok d left (p + 1 + len.toNat)).map fun r =>
          ((d.drop (p + 1)).take len.toNat :: r.1, r.2)
      else none := by
  obtain ⟨b, bs, hlabel, htake, hlength⟩ := exists_labelAt h hne hclear hin
  conv_lhs => unfold read
  rw [hlabel, htake, ← hlength]

end Reading

theorem read_eq_some_iff {ok : List UInt8 → Bool} {d : List UInt8} {left p q : ℕ}
    {ls : List (List UInt8)} :
    read ok d left p = some (ls, q) ↔
      ls.length ≤ left ∧ Fits ls ∧ (∀ l ∈ ls, ok l) ∧ q = p + (encode ls).length ∧
        ∃ rest, Ahead d p (encode ls ++ rest) := by
  constructor
  · exact ahead_of_read
  · rintro ⟨hleft, hfits, hok, rfl, rest, hahead⟩
    exact read_ahead hfits hok hleft hahead

/-- Labels and what follows them are read in one way only. -/
theorem encode_append_inj {ls ls' : List (List UInt8)} {rest rest' : List UInt8} (h : Fits ls)
    (h' : Fits ls') (heq : encode ls ++ rest = encode ls' ++ rest') : ls = ls' ∧ rest = rest' := by
  have hahead : Ahead (encode ls ++ rest) 0 (encode ls' ++ rest') := heq ▸ Ahead.start _
  have hread := @read_ahead (fun _ => true) _ _ _ _ _ h (fun _ _ => rfl)
    (Nat.le_max_left _ ls'.length) (Ahead.start (encode ls ++ rest))
  have hread' := @read_ahead (fun _ => true) _ _ _ _ _ h' (fun _ _ => rfl)
    (Nat.le_max_right ls.length _) hahead
  rw [hread, Option.some.injEq, Prod.mk.injEq] at hread'
  obtain ⟨rfl, -⟩ := hread'
  exact ⟨rfl, List.append_cancel_left heq⟩

end Labels
