import Mathlib
import KirbLaSnoop.Classify

/-!
# What a hint prints

A hint is a line of fixed words, numbers and texts quoted from the message.
Only the labels of a DNS name are checked before they are quoted.
-/

namespace KirbLaSnoop

namespace Classify

/-- A text without control characters, and so a single line. -/
def Printable (s : String) : Prop := ∀ c ∈ s.toList, Text.isControl c = false

theorem not_printable_iff {s : String} : ¬Printable s ↔ ∃ c ∈ s.toList, Text.isControl c := by
  simp [Printable]

@[simp] theorem printable_append {s t : String} :
    Printable (s ++ t) ↔ Printable s ∧ Printable t := by
  simp only [Printable, String.toList_append, List.forall_mem_append]

theorem printable_of_isDigit {s : String} (h : ∀ c ∈ s.toList, c.isDigit) : Printable s := by
  intro c hc
  have hdigit := h c hc
  rw [Char.isDigit_iff_toNat] at hdigit
  obtain ⟨hlo, hhi⟩ : 48 ≤ c.toNat ∧ c.toNat ≤ 57 := hdigit
  simp only [Text.isControl, Bool.or_eq_false_iff, decide_eq_false_iff_not, Bool.and_eq_false_iff]
  omega

theorem printable_toString (n : ℕ) : Printable (toString n) := by
  refine printable_of_isDigit fun c hc => ?_
  rw [Nat.toString_eq_repr, Nat.toList_repr] at hc
  exact Nat.isDigit_of_mem_toDigits (by decide) (by decide) hc

theorem printable_intercalate {sep : String} (hsep : Printable sep) (ts : List String) :
    Printable (sep.intercalate ts) ↔ ∀ t ∈ ts, Printable t := by
  induction ts with
  | nil => simp [Printable]
  | cons t ts ih =>
      cases ts with
      | nil => simp
      | cons t' ts => simp [String.intercalate_cons_cons, ih, hsep]

theorem printable_ite {c : Prop} [Decidable c] {s t : String} (hs : Printable s)
    (ht : Printable t) : Printable (if c then s else t) := by
  split
  · exact hs
  · exact ht

theorem printable_tlsVersion (v : UInt16) : Printable (tlsVersion v) := by
  unfold tlsVersion
  refine printable_ite ?_ <| printable_ite ?_ <| printable_ite ?_ <| printable_ite ?_ <|
    printable_ite ?_ ?_
  all_goals simp [Printable, Text.isControl]

theorem printable_qtypeName (t : UInt16) : Printable (qtypeName t) := by
  unfold qtypeName
  refine printable_ite ?_ <| printable_ite ?_ <| printable_ite ?_ <| printable_ite ?_ <|
    printable_ite ?_ <| printable_ite ?_ <| printable_ite ?_ <| printable_ite ?_ <|
    printable_ite ?_ <| printable_ite ?_ <| printable_append.mpr ⟨?_, printable_toString _⟩
  all_goals simp [Printable, Text.isControl]

/-! ## The labels of a DNS name -/

/-- Bytes of printable ASCII are read as themselves. -/
theorem lossy_of_isAsciiGraphic {bs : List UInt8} (h : bs.all isAsciiGraphic) :
    Text.lossy bs = bs.map fun b => Char.ofNat b.toNat := by
  have hencode : Text.encode (bs.map fun b => Char.ofNat b.toNat) = bs := by
    induction bs with
    | nil => rfl
    | cons b bs ih =>
        rw [List.all_cons, Bool.and_eq_true] at h
        have hb : b < 128 := by
          simp only [isAsciiGraphic, Bool.and_eq_true, decide_eq_true_eq] at h
          exact UInt8.lt_of_le_of_lt h.1.2 (by decide)
        rw [List.map_cons, Text.encode, List.flatMap_cons, ← Text.encode, ih h.2,
          Text.utf8EncodeChar_ofNat hb]
        rfl
  conv_lhs => rw [← hencode]
  exact Text.lossy_encode _

theorem printable_label {bs : List UInt8} (h : bs.all isAsciiGraphic) :
    Printable (lossyString bs) := by
  intro c hc
  rw [lossyString, String.toList_ofList, lossy_of_isAsciiGraphic h] at hc
  obtain ⟨b, hb, rfl⟩ := List.mem_map.mp hc
  have hgraphic := List.all_eq_true.mp h b hb
  simp only [isAsciiGraphic, Bool.and_eq_true, decide_eq_true_eq] at hgraphic
  have hall : ∀ n < 0x7f, 0x21 ≤ n → Text.isControl (Char.ofNat n) = false := by decide +kernel
  exact hall b.toNat (Nat.lt_succ_of_le (UInt8.le_iff_toNat_le.mp hgraphic.2))
    (UInt8.le_iff_toNat_le.mp hgraphic.1)

theorem printable_labelsFrom {d : List UInt8} {left p q : ℕ} {labels : List String}
    (h : labelsFrom d left p = some (labels, q)) : ∀ t ∈ labels, Printable t := by
  induction left generalizing p labels q with
  | zero =>
      unfold labelsFrom at h
      split at h
      · cases h
      · split_ifs at h
        cases h
        exact List.forall_mem_nil _
  | succ left ih =>
      unfold labelsFrom at h
      split at h
      · cases h
      · split_ifs at h
        · cases h
          exact List.forall_mem_nil _
        · simp only [Option.bind_eq_bind, Option.bind_eq_some_iff,
            Option.ite_none_left_eq_some] at h
          obtain ⟨label, -, hgraphic, ⟨labels', q'⟩, hrest, hlabels⟩ := h
          cases hlabels
          have hlabel : label.all isAsciiGraphic := by simpa using hgraphic
          exact List.forall_mem_cons.mpr ⟨printable_label hlabel, ih hrest⟩

theorem printable_dns {d : List UInt8} {h : String} (hdns : dns d = some h) : Printable h := by
  unfold dns at hdns
  simp only [Option.bind_eq_bind, Option.bind_eq_some_iff, Option.ite_none_left_eq_some,
    Option.some.injEq] at hdns
  obtain ⟨-, flags, -, qdcount, -, -, ancount, -, -, ⟨labels, p⟩, hlabels, -, qtype, -, rfl⟩ := hdns
  have hsep : Printable "." := by simp [Printable, Text.isControl]
  have hfirst : Printable "DNS query " := by simp [Printable, Text.isControl]
  have hspace : Printable " " := by simp [Printable, Text.isControl]
  simp only [printable_append, hfirst, hspace, printable_qtypeName, true_and, true_and]
  exact (printable_intercalate hsep labels).mpr (printable_labelsFrom hlabels)

/-! ## Texts from the message -/

/-- The texts of the message that the description of a hello quotes. -/
def Hello.texts (h : Hello) : List String := h.seen.sni.toList ++ h.seen.alpn

def Request.texts (r : Request) : List String :=
  String.ofList r.target :: (r.host.toList ++ r.userAgent.toList).map String.ofList

theorem printable_hello (h : Hello) : Printable h.describe ↔ ∀ t ∈ h.texts, Printable t := by
  have hcomma : Printable "," := by simp [Printable, Text.isControl]
  have hhello : Printable " ClientHello" := by simp [Printable, Text.isControl]
  have hciphers : Printable " ciphers=" := by simp [Printable, Text.isControl]
  have hsni : Printable (h.seen.sni.elim "" (" sni=" ++ ·)) ↔
      ∀ t ∈ h.seen.sni.toList, Printable t := by
    cases h.seen.sni with
    | none => simp [Printable]
    | some s =>
        have hword : Printable " sni=" := by simp [Printable, Text.isControl]
        simp [hword]
  have halpn : Printable (if h.seen.alpn.isEmpty then ""
      else " alpn=" ++ String.intercalate "," h.seen.alpn) ↔ ∀ t ∈ h.seen.alpn, Printable t := by
    split_ifs with hempty
    · rw [List.isEmpty_iff.mp hempty]
      simp [Printable]
    · have hword : Printable " alpn=" := by simp [Printable, Text.isControl]
      rw [printable_append, printable_intercalate hcomma]
      simp only [hword, true_and]
  rw [Hello.describe, Hello.texts, List.forall_mem_append]
  simp only [printable_append, printable_tlsVersion, printable_toString, hhello, hciphers, hsni,
    halpn, true_and, and_true]

theorem printable_request {r : Request} (hmethod : r.method ∈ methods) :
    Printable r.describe ↔ ∀ t ∈ r.texts, Printable t := by
  have hhttp : Printable "HTTP " := by simp [Printable, Text.isControl]
  have hspace : Printable " " := by simp [Printable, Text.isControl]
  have hname : Printable r.method := by
    simp only [methods, List.mem_cons, List.not_mem_nil, or_false] at hmethod
    rcases hmethod with h | h | h | h | h | h | h | h | h <;>
      simp [h, Printable, Text.isControl]
  have hfield (word : String) (field : Option (List Char)) (hword : Printable word) :
      Printable (field.elim "" fun cs => word ++ String.ofList cs) ↔
        ∀ t ∈ field.toList.map String.ofList, Printable t := by
    cases field with
    | none => simp [Printable]
    | some cs => simp [hword]
  have hhost := hfield " host=" r.host (by simp [Printable, Text.isControl])
  have hua := hfield " ua=" r.userAgent (by simp [Printable, Text.isControl])
  rw [Request.describe, Request.texts, List.forall_mem_cons, List.map_append,
    List.forall_mem_append]
  simp only [printable_append, hhttp, hspace, hname, hhost, hua, true_and, and_assoc]

theorem method_mem {d : List UInt8} {r : Request} (h : request d = some r) :
    r.method ∈ methods := by
  unfold request at h
  simp only [Option.bind_eq_bind, Option.bind_eq_some_iff, Option.ite_none_left_eq_some,
    Option.some.injEq] at h
  obtain ⟨lineEnd, -, line, -, method, hmethod, -, rfl⟩ := h
  exact List.mem_of_find?_eq_some hmethod

/-- The texts of a message that a hint for it quotes. -/
def quoted (d : List UInt8) : List String :=
  if (tls d).isSome then
    if d[5]? = some 0x01 then (hello d).elim [] Hello.texts else []
  else
    match request d with
    | some r => r.texts
    | none =>
        if (dns d).isNone ∧ (asBytes "SSH-").isPrefixOf d then [String.ofList (banner d)] else []

theorem printable_tls {d : List UInt8} {h : String} (htls : tls d = some h) :
    Printable h ↔ ∀ t ∈ quoted d, Printable t := by
  rw [quoted, if_pos (by rw [htls]; rfl)]
  unfold tls at htls
  simp only [Option.bind_eq_bind, Option.bind_eq_some_iff, Option.ite_none_left_eq_some] at htls
  obtain ⟨kind, -, -, major, -, -, handshake, hhandshake, hline⟩ := htls
  have hkind : d[5]? = some 0x01 ↔ handshake = 0x01 := by rw [hhandshake, Option.some.injEq]
  by_cases hhello : handshake = 0x01
  · rw [if_neg (not_not_intro hhello), Option.map_eq_some_iff] at hline
    obtain ⟨fields, hfields, rfl⟩ := hline
    rw [if_pos (hkind.mpr hhello), hfields]
    exact printable_hello fields
  · rw [if_pos hhello, Option.bind_eq_some_iff] at hline
    obtain ⟨version, -, hline⟩ := hline
    cases hline
    have hword : Printable " handshake" := by simp [Printable, Text.isControl]
    rw [if_neg (mt hkind.mp hhello)]
    simp [printable_tlsVersion, hword]

theorem printable_other {d : List UInt8} {h : String} (hother : other d = some h) :
    Printable h ↔ ∀ t ∈ (if (asBytes "SSH-").isPrefixOf d then [String.ofList (banner d)] else []),
      Printable t := by
  unfold other at hother
  by_cases hssh : (asBytes "SSH-").isPrefixOf d
  · rw [if_pos hssh] at hother ⊢
    cases hother
    have hword : Printable "SSH banner " := by simp [Printable, Text.isControl]
    simp [hword]
  · rw [if_neg hssh] at hother ⊢
    refine iff_of_true ?_ (List.forall_mem_nil _)
    dsimp only at hother
    split at hother
    · cases hother
    · split_ifs at hother <;> cases hother <;> simp [Printable, Text.isControl]

/-- A hint is a printable line if and only if every text it quotes is one. -/
theorem printable_iff_quoted {d : List UInt8} {h : String} (hclassify : classify d = some h) :
    Printable h ↔ ∀ t ∈ quoted d, Printable t := by
  rw [classify, Option.ite_none_left_eq_some] at hclassify
  have hhint := hclassify.2
  cases htls : tls d with
  | some line =>
      rw [htls] at hhint
      cases hhint
      exact printable_tls htls
  | none =>
      rw [htls, Option.none_or, http] at hhint
      rw [quoted, htls, if_neg (by simp)]
      cases hrequest : request d with
      | some r =>
          rw [hrequest] at hhint
          cases hhint
          exact printable_request (method_mem hrequest)
      | none =>
          rw [hrequest, Option.map_none, Option.none_or] at hhint
          cases hdns : dns d with
          | some line =>
              rw [hdns] at hhint
              cases hhint
              simp [printable_dns hdns]
          | none =>
              rw [hdns, Option.none_or] at hhint
              simpa using printable_other hhint

end Classify

end KirbLaSnoop
