import Mathlib
import KirbLaSnoop.Lib.Text

/-!
# Decoding and ASCII

No character, good or bad, takes in a byte that begins another one. What comes
before such a byte, itself and what comes after it are therefore decoded apart:
lines can be cut before or after decoding, and a character is in the text where
its bytes are in the bytes.
-/

namespace Text

/-! ## One character -/

/-- In a character of several bytes none of them is ASCII. -/
theorem utf8EncodeChar_cases (c : Char) :
    (c.toNat < 128 ∧ String.utf8EncodeChar c = [UInt8.ofNat c.toNat]) ∨
      (128 ≤ c.toNat ∧ ∀ b ∈ String.utf8EncodeChar c, 128 ≤ b.toNat) := by
  have hval : c.toNat = c.val.toNat := rfl
  have hbyte {n : ℕ} (hlo : 128 ≤ n) (hhi : n < 256) : 128 ≤ (UInt8.ofNat n).toNat := by
    rwa [UInt8.toNat_ofNat', Nat.mod_eq_of_lt hhi]
  rw [hval]
  unfold String.utf8EncodeChar
  dsimp only
  split_ifs with h1 h2 h3
  · exact .inl ⟨by omega, rfl⟩
  · refine .inr ⟨by omega, fun b hb => ?_⟩
    simp only [List.mem_cons, List.not_mem_nil, or_false] at hb
    rcases hb with rfl | rfl
    all_goals exact hbyte (by omega) (by omega)
  · refine .inr ⟨by omega, fun b hb => ?_⟩
    simp only [List.mem_cons, List.not_mem_nil, or_false] at hb
    rcases hb with rfl | rfl | rfl
    all_goals exact hbyte (by omega) (by omega)
  · refine .inr ⟨by omega, fun b hb => ?_⟩
    simp only [List.mem_cons, List.not_mem_nil, or_false] at hb
    rcases hb with rfl | rfl | rfl | rfl
    all_goals exact hbyte (by omega) (by omega)

theorem decodeChar_eq_some_iff {c : Char} {bs : List UInt8} :
    decodeChar bs = some c ↔ String.utf8EncodeChar c <+: bs := by
  constructor
  · intro h
    obtain ⟨l, hl⟩ := ByteArray.exists_of_utf8DecodeChar?_eq_some h
    refine ⟨l.data.toList, ?_⟩
    have hlist := congrArg (fun a => a.data.toList) hl
    simpa using hlist.symm
  · rintro ⟨rest, rfl⟩
    exact decodeChar_append c rest

/-- Behind its first byte a character has tail bytes only. -/
theorem utf8EncodeChar_eq_cons (c : Char) :
    ∃ b bs, String.utf8EncodeChar c = b :: bs ∧ isTail b = false ∧ ∀ t ∈ bs, isTail t := by
  have hfirst {n : ℕ} (h : n < 128 ∨ 192 ≤ n) (hlt : n < 256) : isTail (UInt8.ofNat n) = false := by
    simp only [isTail, Bool.and_eq_false_iff, decide_eq_false_iff_not, UInt8.le_iff_toNat_le,
      UInt8.reduceToNat, UInt8.toNat_ofNat', Nat.mod_eq_of_lt hlt]
    omega
  have htail (n : ℕ) : isTail (UInt8.ofNat (n % 64 + 128)) = true := by
    simp only [isTail, Bool.and_eq_true, decide_eq_true_eq, UInt8.le_iff_toNat_le,
      UInt8.reduceToNat, UInt8.toNat_ofNat']
    omega
  unfold String.utf8EncodeChar
  dsimp only
  split_ifs with h1 h2 h3
  · exact ⟨_, _, rfl, hfirst (by omega) (by omega), List.forall_mem_nil _⟩
  · exact ⟨_, _, rfl, hfirst (by omega) (by omega), List.forall_mem_singleton.mpr (htail _)⟩
  · exact ⟨_, _, rfl, hfirst (by omega) (by omega),
      List.forall_mem_cons.mpr ⟨htail _, List.forall_mem_singleton.mpr (htail _)⟩⟩
  · exact ⟨_, _, rfl, hfirst (by omega) (by omega), List.forall_mem_cons.mpr
      ⟨htail _, List.forall_mem_cons.mpr ⟨htail _, List.forall_mem_singleton.mpr (htail _)⟩⟩⟩

/-- The bytes do not begin inside a character. -/
def Bounded (tail : List UInt8) : Prop := ∀ b ∈ tail.head?, isTail b = false

theorem bounded_nil : Bounded [] := by
  intro b hb
  cases hb

theorem bounded_cons {b : UInt8} {bs : List UInt8} : Bounded (b :: bs) ↔ isTail b = false := by
  simp [Bounded]

theorem bounded_utf8EncodeChar (c : Char) (bs : List UInt8) :
    Bounded (String.utf8EncodeChar c ++ bs) := by
  obtain ⟨b, tail, hbytes, hb, -⟩ := utf8EncodeChar_eq_cons c
  rw [hbytes, List.cons_append]
  exact bounded_cons.mpr hb

/-- Bytes that begin with no character still do not with more behind them. -/
theorem decodeChar_append_bounded {a tail : List UInt8} (ha : a ≠ []) (htail : Bounded tail)
    (h : decodeChar a = none) : decodeChar (a ++ tail) = none := by
  cases hdecode : decodeChar (a ++ tail) with
  | none => rfl
  | some c =>
      have hprefix := decodeChar_eq_some_iff.mp hdecode
      rcases List.prefix_or_prefix_of_prefix hprefix (List.prefix_append a tail) with
        hwithin | hover
      · rw [decodeChar_eq_some_iff.mpr hwithin] at h
        cases h
      · obtain ⟨t, ht⟩ := hover
        rw [← ht, List.prefix_append_right_inj] at hprefix
        cases t with
        | nil =>
            rw [List.append_nil] at ht
            rw [ht, decodeChar_eq_some_iff.mpr List.prefix_rfl] at h
            cases h
        | cons b t =>
            obtain ⟨rest, rfl⟩ := hprefix
            have hb := bounded_cons.mp htail
            obtain ⟨x, a, rfl⟩ := List.exists_cons_of_ne_nil ha
            obtain ⟨x', bs, hbytes, -, htails⟩ := utf8EncodeChar_eq_cons c
            obtain ⟨-, hbs⟩ := List.cons.inj (ht.trans hbytes)
            rw [htails b (hbs ▸ List.mem_append_right a List.mem_cons_self)] at hb
            cases hb

theorem isTail_of_goesOn {b c : UInt8} (h : goesOn b c = true) : isTail c = true := by
  unfold goesOn at h
  unfold isTail at h ⊢
  simp only [Bool.and_eq_true, decide_eq_true_eq, UInt8.le_iff_toNat_le, UInt8.reduceToNat]
  split_ifs at h
  all_goals
    simp only [Bool.and_eq_true, decide_eq_true_eq, UInt8.le_iff_toNat_le, UInt8.reduceToNat] at h
    omega

theorem not_goesOn {b c : UInt8} (h : isTail c = false) : goesOn b c = false := by
  cases hon : goesOn b c with
  | false => rfl
  | true =>
      rw [isTail_of_goesOn hon] at h
      cases h

/-- A byte that begins a character goes on no other, good or bad. -/
theorem badLen_append_bounded {a tail : List UInt8} (ha : a ≠ []) (htail : Bounded tail) :
    badLen (a ++ tail) = badLen a ∧ badLen a ≤ a.length := by
  have hany : tail.head?.any isTail = false := by
    rw [Option.any_eq_false]
    intro b hb
    exact htail b hb
  cases a with
  | nil => exact absurd rfl ha
  | cons x a =>
      cases a with
      | nil =>
          refine ⟨?_, Nat.le_refl 1⟩
          cases tail with
          | nil => rfl
          | cons t ts => simp [badLen, not_goesOn (bounded_cons.mp htail)]
      | cons y a =>
          cases a with
          | nil =>
              have htwo : badLen [x, y] = if goesOn x y then 2 else 1 := by simp [badLen]
              refine ⟨by simp [badLen, hany], ?_⟩
              rw [htwo]
              split_ifs <;> simp
          | cons z a =>
              refine ⟨rfl, ?_⟩
              simp only [badLen]
              split_ifs <;> simp

/-- Decoding goes piece by piece: a character from its own bytes, or a
replacement character from some that make none. What comes behind does not
matter, if it does not begin inside a character. -/
theorem lossy_step {a : List UInt8} (ha : a ≠ []) :
    ∃ c piece rest, a = piece ++ rest ∧ piece ≠ [] ∧
      (c = '\ufffd' ∨ piece = String.utf8EncodeChar c) ∧
      ∀ tail, Bounded tail → lossy (a ++ tail) = c :: lossy (rest ++ tail) := by
  cases hdecode : decodeChar a with
  | some c =>
      obtain ⟨rest, rfl⟩ := decodeChar_eq_some_iff.mp hdecode
      refine ⟨c, _, rest, rfl, String.utf8EncodeChar_ne_nil, .inr rfl, fun tail _ => ?_⟩
      rw [List.append_assoc, lossy_append]
  | none =>
      have hlen := (badLen_append_bounded ha bounded_nil).2
      have hpos : 0 < badLen a := by
        unfold badLen
        split
        · split_ifs <;> omega
        · omega
      refine ⟨'\ufffd', a.take (badLen a), a.drop (badLen a), (List.take_append_drop _ _).symm, ?_,
        .inl rfl, fun tail htail => ?_⟩
      · rw [ne_eq, List.take_eq_nil_iff]
        exact not_or.mpr ⟨by omega, ha⟩
      · have hnone := decodeChar_append_bounded ha htail hdecode
        have hbad := (badLen_append_bounded ha htail).1
        rw [← List.drop_append_of_le_length hlen]
        cases a with
        | nil => exact absurd rfl ha
        | cons x a =>
            rw [List.cons_append] at hnone hbad ⊢
            obtain ⟨n, hn⟩ : ∃ n, badLen (x :: a) = n + 1 := ⟨_, (Nat.sub_add_cancel hpos).symm⟩
            have hstep : lossy (x :: (a ++ tail)) =
                '\ufffd' :: lossyGo (badLen (x :: (a ++ tail)) - 1) (a ++ tail) := by
              simp only [lossy, lossyGo, hnone]
            rw [hstep, hbad, hn, Nat.add_sub_cancel, lossyGo_eq_drop, List.drop_succ_cons]

/-! ## Cutting between characters -/

theorem lossy_append_bounded (a : List UInt8) {tail : List UInt8} (htail : Bounded tail) :
    lossy (a ++ tail) = lossy a ++ lossy tail := by
  induction hn : a.length using Nat.strong_induction_on generalizing a with
  | _ n ih =>
      by_cases ha : a = []
      · subst ha
        rfl
      · obtain ⟨c, piece, rest, rfl, hpiece, -, hstep⟩ := lossy_step ha
        have hlt : rest.length < n := by
          have hpos := List.length_pos_iff.mpr hpiece
          rw [← hn, List.length_append]
          omega
        have hplain := hstep [] bounded_nil
        rw [List.append_nil, List.append_nil] at hplain
        rw [hstep tail htail, hplain, ih rest.length hlt rest rfl, List.cons_append]

theorem lossy_cons {b : UInt8} (hb : b < 128) (bs : List UInt8) :
    lossy (b :: bs) = Char.ofNat b.toNat :: lossy bs := by
  have happend := lossy_append (Char.ofNat b.toNat) bs
  rwa [utf8EncodeChar_ofNat hb] at happend

theorem strictGo_eq_drop (skip : ℕ) (bs : List UInt8) :
    strictGo skip bs = strict (bs.drop skip) := by
  induction skip generalizing bs with
  | zero => rfl
  | succ skip ih =>
      cases bs with
      | nil => rfl
      | cons b bs => exact ih bs

@[simp] theorem strict_encode (cs : List Char) : strict (encode cs) = some cs := by
  induction cs with
  | nil => rfl
  | cons c cs ih =>
      have hdecode := decodeChar_append c (encode cs)
      have hlen : (String.utf8EncodeChar c).length = c.utf8Size := String.length_utf8EncodeChar c
      have hcons : encode (c :: cs) = String.utf8EncodeChar c ++ encode cs := List.flatMap_cons
      rw [hcons]
      cases hbytes : String.utf8EncodeChar c with
      | nil => exact absurd hbytes String.utf8EncodeChar_ne_nil
      | cons b bs =>
          rw [hbytes, List.length_cons] at hlen
          rw [hbytes, List.cons_append] at hdecode
          have hstep : strict (b :: (bs ++ encode cs)) =
              (strictGo (c.utf8Size - 1) (bs ++ encode cs)).map (c :: ·) := by
            simp only [strict, strictGo, hdecode]
          rw [List.cons_append, hstep, strictGo_eq_drop, List.drop_left' (by omega), ih]
          rfl

theorem encode_cons (c : Char) (cs : List Char) :
    encode (c :: cs) = String.utf8EncodeChar c ++ encode cs := List.flatMap_cons

theorem lossy_encode_append (cs : List Char) (bs : List UInt8) :
    lossy (encode cs ++ bs) = cs ++ lossy bs := by
  induction cs with
  | nil => rfl
  | cons c cs ih => rw [encode_cons, List.append_assoc, lossy_append, ih, List.cons_append]

/-- What the bytes of a text begin with, the text begins with. -/
theorem exists_append_of_encode_prefix {as cs : List Char} (h : encode as <+: encode cs) :
    ∃ bs, cs = as ++ bs := by
  obtain ⟨rest, hrest⟩ := h
  have hcs := lossy_encode cs
  rw [← hrest, lossy_encode_append] at hcs
  exact ⟨_, hcs.symm⟩

/-- Bytes are read strictly when they are those of a text. -/
theorem strict_eq_some_iff {bs : List UInt8} {cs : List Char} :
    strict bs = some cs ↔ bs = encode cs := by
  constructor
  · intro h
    induction hn : bs.length using Nat.strong_induction_on generalizing bs cs with
    | _ n ih =>
        cases bs with
        | nil =>
            cases h
            rfl
        | cons b bs =>
            cases hdecode : decodeChar (b :: bs) with
            | none => simp [strict, strictGo, hdecode] at h
            | some c =>
                have hstep : strict (b :: bs) =
                    (strict (bs.drop (c.utf8Size - 1))).map (c :: ·) := by
                  simp only [strict, strictGo, hdecode]
                  rw [strictGo_eq_drop]
                  rfl
                rw [hstep, Option.map_eq_some_iff] at h
                obtain ⟨ds, hds, rfl⟩ := h
                obtain ⟨rest, hrest⟩ := decodeChar_eq_some_iff.mp hdecode
                have hlen : (String.utf8EncodeChar c).length = c.utf8Size :=
                  String.length_utf8EncodeChar c
                have hpos := c.utf8Size_pos
                have hdrop : bs.drop (c.utf8Size - 1) = rest := by
                  have hall := congrArg (List.drop c.utf8Size) hrest
                  rw [← hlen, List.drop_left, hlen] at hall
                  obtain ⟨k, hk⟩ : ∃ k, c.utf8Size = k + 1 := ⟨_, (Nat.sub_add_cancel hpos).symm⟩
                  rw [hk, List.drop_succ_cons] at hall
                  rw [hk, Nat.add_sub_cancel, hall]
                rw [hdrop] at hds
                have hlt : rest.length < n := by
                  rw [← hn, ← hrest, List.length_append]
                  omega
                rw [encode_cons, ← ih rest.length hlt hds rfl, hrest]
  · rintro rfl
    exact strict_encode cs

/-! ## Characters -/

/-- A character is read where its bytes stand. -/
theorem mem_lossy_iff {c : Char} (hc : c ≠ '\ufffd') {bs : List UInt8} :
    c ∈ lossy bs ↔ String.utf8EncodeChar c <:+: bs := by
  constructor
  · intro h
    induction hn : bs.length using Nat.strong_induction_on generalizing bs with
    | _ n ih =>
        by_cases hbs : bs = []
        · subst hbs
          cases h
        · obtain ⟨d, piece, rest, rfl, hne, hpiece, hstep⟩ := lossy_step hbs
          have hplain := hstep [] bounded_nil
          rw [List.append_nil, List.append_nil] at hplain
          rw [hplain, List.mem_cons] at h
          rcases h with rfl | hlater
          · rw [← hpiece.resolve_left hc]
            exact (List.prefix_append piece rest).isInfix
          · have hpos := List.length_pos_iff.mpr hne
            have hlt : rest.length < n := by
              rw [← hn, List.length_append]
              omega
            exact (ih rest.length hlt hlater rfl).trans (List.suffix_append piece rest).isInfix
  · rintro ⟨a, b, rfl⟩
    rw [List.append_assoc, lossy_append_bounded a (bounded_utf8EncodeChar c b), lossy_append]
    exact List.mem_append_right _ List.mem_cons_self

/-- Bytes in which a control character is read: those of C0 and DEL stand for
themselves, and those of C1 come behind `0xc2`. -/
def ControlIn (bs : List UInt8) : Prop :=
  (∃ b ∈ bs, b < 0x20 ∨ b = 0x7f) ∨ ∃ b, 0x80 ≤ b ∧ b ≤ 0x9f ∧ [0xc2, b] <:+: bs

theorem exists_isControl_iff {bs : List UInt8} :
    (∃ c ∈ lossy bs, isControl c) ↔ ControlIn bs := by
  have hone : ∀ n < 128, String.utf8EncodeChar (Char.ofNat n) = [UInt8.ofNat n] := by
    decide +kernel
  have htwo : ∀ n < 0xa0, 0x80 ≤ n →
      String.utf8EncodeChar (Char.ofNat n) = [0xc2, UInt8.ofNat n] := by decide +kernel
  have hvalid : ∀ n < 0xa0, (Char.ofNat n).toNat = n ∧ Char.ofNat n ≠ '\ufffd' := by
    decide +kernel
  have hread {n : ℕ} (hn : n < 0xa0) : Char.ofNat n ∈ lossy bs ↔
      String.utf8EncodeChar (Char.ofNat n) <:+: bs := mem_lossy_iff (hvalid n hn).2
  have hbyte {b : UInt8} : [b] <:+: bs ↔ b ∈ bs := by
    rw [List.singleton_infix_iff]
  constructor
  · rintro ⟨c, hc, hcontrol⟩
    rw [isControl, Bool.or_eq_true, Bool.and_eq_true, decide_eq_true_eq, decide_eq_true_eq,
      decide_eq_true_eq] at hcontrol
    rw [← Char.ofNat_toNat c, hread (by omega)] at hc
    rcases Nat.lt_or_ge c.toNat 128 with hlt | hge
    · rw [hone _ hlt, hbyte] at hc
      refine .inl ⟨_, hc, ?_⟩
      rw [UInt8.lt_iff_toNat_lt, ← UInt8.toNat_inj, UInt8.toNat_ofNat', Nat.mod_eq_of_lt (by omega)]
      simp only [UInt8.reduceToNat]
      omega
    · rw [htwo _ (by omega) hge] at hc
      refine .inr ⟨_, ?_, ?_, hc⟩ <;>
        · rw [UInt8.le_iff_toNat_le, UInt8.toNat_ofNat', Nat.mod_eq_of_lt (by omega)]
          simp only [UInt8.reduceToNat]
          omega
  · have hfound {b : UInt8} (hb : b.toNat < 0xa0) (hcontrol : b.toNat < 32 ∨ 127 ≤ b.toNat)
        (hin : String.utf8EncodeChar (Char.ofNat b.toNat) <:+: bs) :
        ∃ c ∈ lossy bs, isControl c := by
      refine ⟨_, (hread hb).mpr hin, ?_⟩
      rw [isControl, (hvalid _ hb).1, Bool.or_eq_true, Bool.and_eq_true, decide_eq_true_eq,
        decide_eq_true_eq, decide_eq_true_eq]
      omega
    rintro (⟨b, hb, hcontrol⟩ | ⟨b, hlo, hhi, hb⟩)
    · rw [UInt8.lt_iff_toNat_lt, ← UInt8.toNat_inj] at hcontrol
      simp only [UInt8.reduceToNat] at hcontrol
      refine hfound (b := b) (by omega) (by omega) ?_
      rwa [hone _ (by omega), UInt8.ofNat_toNat, hbyte]
    · rw [UInt8.le_iff_toNat_le] at hlo hhi
      simp only [UInt8.reduceToNat] at hlo hhi
      refine hfound (b := b) (by omega) (by omega) ?_
      rwa [htwo _ (by omega) (by omega), UInt8.ofNat_toNat]

/-! ## Lines -/

/-- The byte of an ASCII character is where the character is. -/
theorem head?_of_lossy {bs : List UInt8} {c : Char} (hc : c.toNat < 128)
    (h : (lossy bs).head? = some c) : bs.head? = some (UInt8.ofNat c.toNat) := by
  by_cases hbs : bs = []
  · subst hbs
    cases h
  · obtain ⟨d, piece, rest, rfl, -, hpiece, hstep⟩ := lossy_step hbs
    have hplain := hstep [] bounded_nil
    rw [List.append_nil, List.append_nil] at hplain
    rw [hplain] at h
    cases h
    rcases hpiece with rfl | rfl
    · exact absurd hc (by decide)
    · rcases utf8EncodeChar_cases c with ⟨-, hone⟩ | ⟨hge, -⟩
      · rw [hone]
        rfl
      · omega

/-- A line break in the text is one in the bytes. -/
theorem crLf_of_lossy {bs : List UInt8} (h : ['\r', '\n'] <:+: lossy bs) : [13, 10] <:+: bs := by
  induction hn : bs.length using Nat.strong_induction_on generalizing bs with
  | _ n ih =>
      by_cases hbs : bs = []
      · subst hbs
        exact absurd (List.infix_nil.mp h) (List.cons_ne_nil _ _)
      · obtain ⟨c, piece, rest, rfl, hne, hpiece, hstep⟩ := lossy_step hbs
        have hplain := hstep [] bounded_nil
        rw [List.append_nil, List.append_nil] at hplain
        rw [hplain, List.infix_cons_iff] at h
        rcases h with hhere | hlater
        · rw [List.cons_prefix_cons] at hhere
          obtain ⟨rfl, t, ht⟩ := hhere
          rcases hpiece with hbad | rfl
          · exact absurd hbad (by decide)
          · have hnewline : rest.head? = some (UInt8.ofNat '\n'.toNat) :=
              head?_of_lossy (by decide) (by rw [← ht]; rfl)
            obtain ⟨r, rfl⟩ : ∃ r, rest = 10 :: r :=
              ⟨rest.tail, List.eq_cons_of_mem_head? hnewline⟩
            exact (List.prefix_append [13, 10] r).isInfix
        · have hpos := List.length_pos_iff.mpr hne
          have hlt : rest.length < n := by
            rw [← hn, List.length_append]
            omega
          exact (ih rest.length hlt hlater rfl).trans (List.suffix_append piece rest).isInfix

theorem splitCrLf_cons {c : Char} {cs : List Char} (h : c = '\r' → cs.head? ≠ some '\n') :
    splitCrLf (c :: cs) = (splitCrLf cs).modifyHead (c :: ·) := by
  rw [splitCrLf]
  rintro ds rfl rfl
  exact h rfl rfl

theorem not_newline {c : Char} {cs : List Char} (h : ¬['\r', '\n'] <:+: c :: cs) (hc : c = '\r') :
    cs.head? ≠ some '\n' := by
  intro hhead
  obtain ⟨ds, rfl⟩ : ∃ ds, cs = '\n' :: ds := ⟨cs.tail, List.eq_cons_of_mem_head? hhead⟩
  subst hc
  exact h (List.prefix_append ['\r', '\n'] ds).isInfix

/-- The first line break ends the first line. -/
theorem splitCrLf_append {cs : List Char} (h : ¬['\r', '\n'] <:+: cs) (ds : List Char) :
    splitCrLf (cs ++ '\r' :: '\n' :: ds) = cs :: splitCrLf ds := by
  induction cs with
  | nil => rw [List.nil_append, splitCrLf]
  | cons c cs ih =>
      have hrest : ¬['\r', '\n'] <:+: cs := fun hin => h (List.infix_cons hin)
      rw [List.cons_append, splitCrLf_cons, ih hrest, List.modifyHead_cons]
      intro hc hhead
      cases cs with
      | nil => cases hhead
      | cons d cs => exact not_newline h hc hhead

theorem splitCrLf_eq_self {cs : List Char} (h : ¬['\r', '\n'] <:+: cs) : splitCrLf cs = [cs] := by
  induction cs with
  | nil => rw [splitCrLf]
  | cons c cs ih =>
      have hrest : ¬['\r', '\n'] <:+: cs := fun hin => h (List.infix_cons hin)
      rw [splitCrLf_cons (not_newline h), ih hrest, List.modifyHead_cons]

theorem splitOnce_of_mem {sep : Char} {cs : List Char} (h : sep ∈ cs) :
    splitOnce sep cs = some (cs.takeWhile (· != sep), (cs.dropWhile (· != sep)).tail) := by
  induction cs with
  | nil => cases h
  | cons c cs ih =>
      by_cases hc : c = sep
      · simp [splitOnce, hc]
      · rw [List.mem_cons] at h
        have hmem := h.resolve_left (Ne.symm hc)
        simp [splitOnce, hc, ih hmem]

theorem encode_append (cs ds : List Char) : encode (cs ++ ds) = encode cs ++ encode ds :=
  List.flatMap_append

/-- A line break in the bytes of a text is one in the text. -/
theorem crLf_of_encode {cs : List Char} (h : [13, 10] <:+: encode cs) : ['\r', '\n'] <:+: cs := by
  obtain ⟨a, b, hab⟩ := h
  have hbounded : Bounded ([13, 10] ++ b) := bounded_cons.mpr (by decide)
  have hbreak : lossy ([13, 10] ++ b) = '\r' :: '\n' :: lossy b := by
    rw [List.cons_append, lossy_cons (by decide), List.cons_append, lossy_cons (by decide)]
    rfl
  have hcs := lossy_encode cs
  rw [← hab, List.append_assoc, lossy_append_bounded a hbounded, hbreak] at hcs
  exact ⟨lossy a, lossy b, by rw [← hcs]; simp⟩

end Text
