import Mathlib
import KirbLaSnoop.Classify.HelloLayout
import KirbLaSnoop.Classify.HeadLayout
import KirbLaSnoop.Classify.Printable

/-!
# Messages that forge a hint

A hint is printed as it is. Where a control character must stand in a message
to be in its hint: in the host name or a protocol of a hello, in the target or
one of two headers of a request, or in the greeting of an SSH server. The cuts
that the recogniser makes say how far into each it may be.
-/

namespace KirbLaSnoop

namespace Classify

open Dns (be16)

/-- The last server_name extension of a hello, or the last list of protocols,
has a name in which a control character is read. -/
def HostileHello (d : List UInt8) : Prop :=
  ∃ es, HelloOf d es ∧
    ((∃ body name, LastBody 0x0000 es body ∧ FirstHost (body.drop 2) name ∧ Text.ControlIn name) ∨
      ∃ body name, LastBody 0x0010 es body ∧ ProtoIn (body.drop 2) name ∧ Text.ControlIn name)

/-- The second word of a line has a control character in its first 80
characters. The blanks between words are no part of one. -/
def HostileTarget (line : List UInt8) : Prop :=
  ∃ m ∈ methods, ∃ blanks seen c rest,
    line = Text.encode (m.toList ++ ' ' :: (blanks ++ (seen ++ c :: rest))) ∧
      (∀ b ∈ blanks, Text.isWhitespace b) ∧ seen.length < 80 ∧
        (∀ b ∈ seen, Text.isWhitespace b = false) ∧ Text.isWhitespace c = false ∧ Text.isControl c

/-- A request whose target, host or user agent has a control character: in the
whole of the host, and in 60 characters of the user agent. -/
def HostileRequest (d : List UInt8) : Prop :=
  ∃ line behind, FirstLine (d.take 8192) line behind ∧ IsRequestLine line ∧
    (HostileTarget line ∨
      (∃ value, ValueIn "host" 64 behind value ∧
        ∃ c ∈ Text.trim (Text.lossy value), Text.isControl c) ∨
      ∃ value, ValueIn "user-agent" 64 behind value ∧
        ∃ c ∈ (Text.trim (Text.lossy value)).take 60, Text.isControl c)

/-- A greeting with a control byte among its first 64 and before the end of the
line. Here a byte above `0x7f` stands for itself. -/
def HostileBanner (d : List UInt8) : Prop :=
  asBytes "SSH-" <+: d ∧ ∃ before b after, d = before ++ b :: after ∧ before.length < 64 ∧
    (∀ c ∈ before, c ≠ 0x0d ∧ c ≠ 0x0a) ∧ b ≠ 0x0d ∧ b ≠ 0x0a ∧
      (b < 0x20 ∨ 0x7f ≤ b ∧ b ≤ 0x9f)

def Hostile (d : List UInt8) : Prop := HostileHello d ∨ HostileRequest d ∨ HostileBanner d

theorem not_printable_lossyString {bs : List UInt8} :
    ¬Printable (lossyString bs) ↔ Text.ControlIn bs := by
  rw [not_printable_iff, lossyString, String.toList_ofList, Text.exists_isControl_iff]

theorem not_printable_ofList {cs : List Char} :
    ¬Printable (String.ofList cs) ↔ ∃ c ∈ cs, Text.isControl c := by
  rw [not_printable_iff, String.toList_ofList]

/-! ## ClientHello -/

section Hellos

variable {d : List UInt8} {es : List (UInt16 × List UInt8)} {s : Seen}

theorem hostile_sni_iff (hs : s.sni = none) :
    (∃ t ∈ (es.foldl Seen.read s).sni, ¬Printable t) ↔
      ∃ body name, LastBody 0x0000 es body ∧ FirstHost (body.drop 2) name ∧
        Text.ControlIn name := by
  rw [foldl_read_iff (P := fun sni => ∃ t ∈ sni, ¬Printable t) Seen.sni_read es
    (by rw [hs]; simp)]
  constructor
  · rintro ⟨body, hbody, t, ht, hcontrol⟩
    obtain ⟨name, hname, rfl⟩ := parseSni_eq_some_iff.mp ht
    exact ⟨body, name, hbody, hname, not_printable_lossyString.mp hcontrol⟩
  · rintro ⟨body, name, hbody, hname, hcontrol⟩
    exact ⟨body, hbody, _, parseSni_eq_some_iff.mpr ⟨name, hname, rfl⟩,
      not_printable_lossyString.mpr hcontrol⟩

theorem hostile_alpn_iff (hs : s.alpn = []) :
    (∃ t ∈ (es.foldl Seen.read s).alpn, ¬Printable t) ↔
      ∃ body name, LastBody 0x0010 es body ∧ ProtoIn (body.drop 2) name ∧
        Text.ControlIn name := by
  rw [foldl_read_iff (P := fun alpn => ∃ t ∈ alpn, ¬Printable t) Seen.alpn_read es
    (by rw [hs]; simp)]
  constructor
  · rintro ⟨body, hbody, t, ht, hcontrol⟩
    obtain ⟨name, hname, rfl⟩ := mem_parseAlpn_iff.mp ht
    exact ⟨body, name, hbody, hname, not_printable_lossyString.mp hcontrol⟩
  · rintro ⟨body, name, hbody, hname, hcontrol⟩
    exact ⟨body, hbody, _, mem_parseAlpn_iff.mpr ⟨name, hname, rfl⟩,
      not_printable_lossyString.mpr hcontrol⟩

/-- The texts that the description of a hello quotes, against its bytes. -/
theorem hostile_texts_iff (legacy : UInt16) (n : ℕ) :
    (∃ t ∈ (Hello.texts ⟨es.foldl Seen.read ⟨none, [], legacy⟩, n⟩), ¬Printable t) ↔
      ((∃ body name, LastBody 0x0000 es body ∧ FirstHost (body.drop 2) name ∧
          Text.ControlIn name) ∨
        ∃ body name, LastBody 0x0010 es body ∧ ProtoIn (body.drop 2) name ∧
          Text.ControlIn name) := by
  rw [← hostile_sni_iff (s := ⟨none, [], legacy⟩) rfl,
    ← hostile_alpn_iff (s := ⟨none, [], legacy⟩) rfl]
  simp only [Hello.texts, List.mem_append, Option.mem_toList, or_and_right, exists_or,
    Option.mem_def]

theorem hostileHello_iff {f : Hello} (hhello : hello d = some f) (hkind : d[0]? = some 0x16)
    (hmajor : d[1]? = some 0x03) (hhandshake : d[5]? = some 0x01) :
    HostileHello d ↔ ∃ t ∈ f.texts, ¬Printable t := by
  constructor
  · rintro ⟨es, hof, hname⟩
    obtain ⟨legacy, n, heq⟩ := hof.hello_eq
    cases hhello.symm.trans heq
    exact (hostile_texts_iff legacy n).mpr hname
  · intro htexts
    obtain ⟨seen, n⟩ := f
    rcases helloOf_of_hello hhello hkind hmajor hhandshake with
      ⟨es, legacy, hof, hseen⟩ | ⟨hsni, halpn⟩
    · cases hseen
      exact ⟨es, hof, (hostile_texts_iff legacy n).mp htexts⟩
    · rw [Hello.texts, hsni, halpn] at htexts
      obtain ⟨t, ht, -⟩ := htexts
      cases ht

end Hellos

/-! ## Requests -/

section Requests

variable {d line behind : List UInt8} {m : String} {target : List Char}

/-- The first word behind the method, cut to 80 characters. -/
theorem mem_target_iff (hm : m ∈ methods) {tail : List Char} {c : Char} :
    c ∈ ((Text.words (m.toList ++ ' ' :: tail))[1]?.getD []).take 80 ↔
      ∃ blanks seen rest, tail = blanks ++ (seen ++ c :: rest) ∧
        (∀ b ∈ blanks, Text.isWhitespace b) ∧ seen.length < 80 ∧
          (∀ b ∈ seen, Text.isWhitespace b = false) ∧ Text.isWhitespace c = false := by
  obtain ⟨hne, hsolid⟩ := method_solid hm
  have hwords : Text.words (m.toList ++ ' ' :: tail) = m.toList :: Text.words tail := by
    unfold Text.words
    rw [List.splitOnP_append_cons_of_forall_mem hsolid ' ' (by decide),
      List.filter_cons_of_pos (by simpa using hne)]
  rw [hwords, List.getElem?_cons_succ, ← List.head?_eq_getElem?, head?_words,
    mem_take_takeWhile_iff]
  simp only [Bool.not_eq_true']
  constructor
  · rintro ⟨seen, rest, hsplit, hlen, hseen, hc⟩
    refine ⟨tail.takeWhile Text.isWhitespace, seen, rest, ?_, ?_, hlen, hseen, hc⟩
    · rw [← hsplit, List.takeWhile_append_dropWhile]
    · exact fun b hb => List.mem_takeWhile_imp hb
  · rintro ⟨blanks, seen, rest, rfl, hblanks, hlen, hseen, hc⟩
    refine ⟨seen, rest, ?_, hlen, hseen, hc⟩
    rw [List.dropWhile_append_of_pos hblanks]
    cases seen with
    | nil => rw [List.nil_append, List.dropWhile_cons_of_neg (by simp [hc])]
    | cons b seen =>
        rw [List.cons_append, List.dropWhile_cons_of_neg (by simp [hseen b List.mem_cons_self])]

theorem hostileTarget_iff (hline : readLine line = some (m, target)) :
    HostileTarget line ↔ ∃ c ∈ target, Text.isControl c := by
  unfold readLine at hline
  simp only [Option.bind_eq_bind, Option.bind_eq_some_iff, Option.ite_none_left_eq_some,
    Option.some.injEq, Prod.mk.injEq] at hline
  obtain ⟨cs, hcs, m', hm', -, rfl, rfl⟩ := hline
  obtain rfl := Text.strict_eq_some_iff.mp hcs
  constructor
  · rintro ⟨m, hm, blanks, seen, c, rest, heq, hblanks, hlen, hseen, hc, hcontrol⟩
    have hcs := congrArg Text.lossy heq
    rw [Text.lossy_encode, Text.lossy_encode] at hcs
    rw [hcs]
    exact ⟨c, (mem_target_iff hm).mpr ⟨blanks, seen, rest, rfl, hblanks, hlen, hseen, hc⟩, hcontrol⟩
  · rintro ⟨c, hc, hcontrol⟩
    have hspace : asBytes m' ++ [32] = Text.encode (m'.toList ++ [' ']) := by
      rw [Text.encode_append, asBytes, Text.toUTF8_eq_encode]
      rfl
    have hstarts := startsWith_iff.mp (List.find?_some hm')
    rw [hspace] at hstarts
    obtain ⟨tail, rfl⟩ := Text.exists_append_of_encode_prefix hstarts
    rw [List.append_assoc, List.singleton_append] at hc ⊢
    obtain ⟨blanks, seen, rest, rfl, hblanks, hlen, hseen, hsolid⟩ :=
      (mem_target_iff (List.mem_of_find?_eq_some hm')).mp hc
    exact ⟨m', List.mem_of_find?_eq_some hm', blanks, seen, c, rest, rfl, hblanks, hlen, hseen,
      hsolid, hcontrol⟩

theorem hostile_value_iff (name : String) (behind : List UInt8) (n : ℕ)
    (cut : List Char → List Char) :
    (∃ v ∈ (headerIn name ((Text.splitCrLf (Text.lossy behind)).take n)).map cut,
        ∃ c ∈ v, Text.isControl c) ↔
      ∃ value, ValueIn name n behind value ∧
        ∃ c ∈ cut (Text.trim (Text.lossy value)), Text.isControl c := by
  simp only [Option.mem_map]
  constructor
  · rintro ⟨-, ⟨v, hv, rfl⟩, hcontrol⟩
    obtain ⟨value, hvalue, rfl⟩ := valueIn_of_headerIn hv
    exact ⟨value, hvalue, hcontrol⟩
  · rintro ⟨value, hvalue, hcontrol⟩
    exact ⟨_, ⟨_, headerIn_of_valueIn hvalue, rfl⟩, hcontrol⟩

theorem not_printable_texts_iff {r : Request} :
    (∃ t ∈ r.texts, ¬Printable t) ↔ (∃ c ∈ r.target, Text.isControl c) ∨
      (∃ v ∈ r.host, ∃ c ∈ v, Text.isControl c) ∨
        ∃ v ∈ r.userAgent, ∃ c ∈ v, Text.isControl c := by
  simp only [Request.texts, List.mem_cons, List.mem_map, List.mem_append, Option.mem_toList,
    exists_eq_left, exists_exists_and_eq_and, not_printable_ofList, or_and_right, exists_or,
    Option.mem_def]

/-- What a request with this first line quotes, against its bytes. -/
theorem hostile_request_iff {r : Request} (hfirst : FirstLine (d.take 8192) line behind)
    (hr : request d = some r) :
    (∃ t ∈ r.texts, ¬Printable t) ↔ HostileTarget line ∨
      (∃ value, ValueIn "host" 64 behind value ∧
        ∃ c ∈ Text.trim (Text.lossy value), Text.isControl c) ∨
      ∃ value, ValueIn "user-agent" 64 behind value ∧
        ∃ c ∈ (Text.trim (Text.lossy value)).take 60, Text.isControl c := by
  rw [request_firstLine hfirst, Option.map_eq_some_iff] at hr
  obtain ⟨⟨m, target⟩, hline, rfl⟩ := hr
  have hhost := hostile_value_iff "host" behind 64 id
  have hua := hostile_value_iff "user-agent" behind 64 (List.take 60)
  rw [not_printable_texts_iff, hostileTarget_iff hline, ← hua]
  rw [Option.map_id] at hhost
  simp only [id_eq] at hhost
  rw [← hhost]

theorem request_isSome_iff :
    (∃ r, request d = some r) ↔
      ∃ line behind, FirstLine (d.take 8192) line behind ∧ IsRequestLine line := by
  constructor
  · rintro ⟨r, hr⟩
    obtain ⟨line, behind, hfirst⟩ := exists_firstLine hr
    rw [request_firstLine hfirst, Option.map_eq_some_iff] at hr
    obtain ⟨mt, hmt, -⟩ := hr
    exact ⟨line, behind, hfirst, readLine_isSome_iff.mp ⟨mt, hmt⟩⟩
  · rintro ⟨line, behind, hfirst, hline⟩
    obtain ⟨mt, hmt⟩ := readLine_isSome_iff.mpr hline
    exact ⟨_, by rw [request_firstLine hfirst, hmt, Option.map_some]⟩

theorem hostileRequest_iff {r : Request} (hr : request d = some r) :
    HostileRequest d ↔ ∃ t ∈ r.texts, ¬Printable t := by
  constructor
  · rintro ⟨line, behind, hfirst, -, hhostile⟩
    exact (hostile_request_iff hfirst hr).mpr hhostile
  · intro htexts
    obtain ⟨line, behind, hfirst, hline⟩ := request_isSome_iff.mp ⟨r, hr⟩
    exact ⟨line, behind, hfirst, hline, (hostile_request_iff hfirst hr).mp htexts⟩

/-- A message is one of the kinds by its first byte. -/
theorem head_of_request (h : ∃ r, request d = some r) : d[0]? ≠ some 0x16 ∧ d[0]? ≠ some 0x53 := by
  obtain ⟨line, behind, hfirst, -, ⟨m, hm, hstarts⟩, -⟩ := request_isSome_iff.mp h
  have hprefix : asBytes m ++ [32] <+: d := by
    refine hstarts.trans (List.IsPrefix.trans ?_ (List.take_prefix 8192 d))
    generalize d.take 8192 = head at hfirst
    cases hfirst <;> exact List.prefix_append _ _
  obtain ⟨t, rfl⟩ := hprefix
  have hall : ∀ m ∈ methods, 0 < (asBytes m).length ∧ (asBytes m)[0]? ≠ some 0x16 ∧
      (asBytes m)[0]? ≠ some 0x53 := by decide +kernel
  obtain ⟨hpos, hfar⟩ := hall m hm
  rwa [List.append_assoc, List.getElem?_append_left hpos]

end Requests

/-! ## Greetings -/

section Greetings

variable {d : List UInt8}

theorem hostileBanner_iff (hssh : asBytes "SSH-" <+: d) :
    HostileBanner d ↔ ∃ c ∈ banner d, Text.isControl c := by
  have hnat : ∀ n < 256, Text.isControl (Char.ofNat n) = true ↔
      n < 0x20 ∨ 0x7f ≤ n ∧ n ≤ 0x9f := by decide +kernel
  have hcontrol (b : UInt8) : Text.isControl (Char.ofNat b.toNat) = true ↔
      b < 0x20 ∨ 0x7f ≤ b ∧ b ≤ 0x9f := by
    rw [hnat b.toNat b.toNat_lt, UInt8.lt_iff_toNat_lt, UInt8.le_iff_toNat_le,
      UInt8.le_iff_toNat_le]
    rfl
  have hmem (b : UInt8) : b ∈ (d.take 64).takeWhile (fun c => c != 0x0d && c != 0x0a) ↔
      ∃ before after, d = before ++ b :: after ∧ before.length < 64 ∧
        (∀ c ∈ before, c ≠ 0x0d ∧ c ≠ 0x0a) ∧ b ≠ 0x0d ∧ b ≠ 0x0a := by
    rw [← List.take_takeWhile, mem_take_takeWhile_iff]
    simp only [Bool.and_eq_true, bne_iff_ne]
  rw [HostileBanner, and_iff_right hssh, banner]
  simp only [List.mem_map, exists_exists_and_eq_and, hcontrol, hmem]
  constructor
  · rintro ⟨before, b, after, hd, hlen, hbefore, hcr, hlf, hb⟩
    exact ⟨b, ⟨before, after, hd, hlen, hbefore, hcr, hlf⟩, hb⟩
  · rintro ⟨b, ⟨before, after, hd, hlen, hbefore, hcr, hlf⟩, hb⟩
    exact ⟨before, b, after, hd, hlen, hbefore, hcr, hlf, hb⟩

/-- The letters of the greeting are the flags of no query. -/
theorem dns_of_ssh (hssh : asBytes "SSH-" <+: d) : dns d = none := by
  obtain ⟨t, rfl⟩ := hssh
  have hflags : be16 (asBytes "SSH-" ++ t) 2 = some 0x482d := rfl
  unfold dns
  split_ifs
  · rfl
  · simp only [Option.bind_eq_bind, hflags, Option.bind_some]
    cases be16 (asBytes "SSH-" ++ t) 4 with
    | none => rfl
    | some qdcount =>
        have hopcode : ((0x482d : UInt16) >>> 11) &&& 0x0f ≠ 0 := by decide
        rw [Option.bind_some, if_pos (.inr (.inl hopcode))]

end Greetings

/-! ## Every hint -/

section Hints

variable {d : List UInt8}

theorem tls_headers {h : String} (htls : tls d = some h) :
    d[0]? = some 0x16 ∧ d[1]? = some 0x03 := by
  unfold tls at htls
  simp only [Option.bind_eq_bind, Option.bind_eq_some_iff, Option.ite_none_left_eq_some,
    not_not] at htls
  obtain ⟨kind, hkind, rfl, major, hmajor, rfl, -⟩ := htls
  exact ⟨hkind, hmajor⟩

theorem hostileHello_head (h : HostileHello d) :
    d[0]? = some 0x16 ∧ d[5]? = some 0x01 ∧ ∃ f, tls d = some f := by
  obtain ⟨es, hof, -⟩ := h
  obtain ⟨hkind, hmajor, hhandshake⟩ := hof.headers
  obtain ⟨legacy, n, hhello⟩ := hof.hello_eq
  exact ⟨hkind, hhandshake, _, by rw [tls_of_headers hkind hmajor hhandshake, hhello]; rfl⟩

theorem hostileRequest_head (h : HostileRequest d) : d[0]? ≠ some 0x16 ∧ d[0]? ≠ some 0x53 := by
  obtain ⟨line, behind, hfirst, hline, -⟩ := h
  exact head_of_request (request_isSome_iff.mpr ⟨line, behind, hfirst, hline⟩)

theorem hostileBanner_head (h : HostileBanner d) : d[0]? = some 0x53 := by
  obtain ⟨⟨t, rfl⟩, -⟩ := h
  rfl

/-- The texts that a hint quotes, against the bytes of the message. -/
theorem hostile_iff : Hostile d ↔ ∃ t ∈ quoted d, ¬Printable t := by
  unfold Hostile quoted
  cases htls : tls d with
  | some line =>
      obtain ⟨hkind, hmajor⟩ := tls_headers htls
      have hrequest : ¬HostileRequest d := fun h => (hostileRequest_head h).1 hkind
      have hbanner : ¬HostileBanner d := by
        intro h
        cases hkind.symm.trans (hostileBanner_head h)
      rw [if_pos (by simp), or_iff_left (not_or.mpr ⟨hrequest, hbanner⟩)]
      by_cases hhandshake : d[5]? = some 0x01
      · rw [if_pos hhandshake]
        rw [tls_of_headers hkind hmajor hhandshake, Option.map_eq_some_iff] at htls
        obtain ⟨f, hhello, -⟩ := htls
        rw [hhello, Option.elim_some]
        exact hostileHello_iff hhello hkind hmajor hhandshake
      · rw [if_neg hhandshake]
        refine iff_of_false (fun h => hhandshake (hostileHello_head h).2.1) ?_
        rintro ⟨t, ht, -⟩
        cases ht
  | none =>
      have hhello : ¬HostileHello d := by
        intro h
        obtain ⟨-, -, f, hf⟩ := hostileHello_head h
        cases htls.symm.trans hf
      rw [if_neg (by simp), or_iff_right hhello]
      cases hrequest : request d with
      | some r =>
          have hbanner : ¬HostileBanner d := fun h =>
            (head_of_request ⟨r, hrequest⟩).2 (hostileBanner_head h)
          rw [or_iff_left hbanner]
          exact hostileRequest_iff hrequest
      | none =>
          have hno : ¬HostileRequest d := by
            rintro ⟨line, behind, hfirst, hline, -⟩
            obtain ⟨r, hr⟩ := request_isSome_iff.mpr ⟨line, behind, hfirst, hline⟩
            cases hrequest.symm.trans hr
          rw [or_iff_right hno]
          by_cases hssh : asBytes "SSH-" <+: d
          · have hprefix := List.isPrefixOf_iff_prefix.mpr hssh
            rw [hostileBanner_iff hssh, if_pos ⟨by rw [dns_of_ssh hssh]; rfl, hprefix⟩]
            simp [not_printable_ofList]
          · have hprefix := mt List.isPrefixOf_iff_prefix.mp hssh
            rw [if_neg fun h => hprefix h.2]
            refine iff_of_false (fun h => hssh h.1) ?_
            rintro ⟨t, ht, -⟩
            cases ht

/-- A hint is a printable line if and only if the message has no control
character where the recogniser quotes it. -/
theorem classify_printable_iff {h : String} (hclassify : classify d = some h) :
    Printable h ↔ ¬Hostile d := by
  rw [printable_iff_quoted hclassify, hostile_iff]
  simp

end Hints

theorem classify_printable_iff_ssh :
    Printable "SSH banner SSH-2.0-x" ↔ ¬Hostile (asBytes "SSH-2.0-x\r\n") :=
  classify_printable_iff (by decide)

/-- The escape that clears a screen, in the greeting of a server. -/
theorem not_classify_printable :
    ¬∀ (d : List UInt8) (h : String), classify d = some h → Printable h := by
  intro hall
  have hhint : classify (asBytes "SSH-\x1b[2J") = some "SSH banner SSH-\x1b[2J" := by decide
  have hline := hall _ _ hhint
  simp [Printable, Text.isControl] at hline

end Classify

end KirbLaSnoop
