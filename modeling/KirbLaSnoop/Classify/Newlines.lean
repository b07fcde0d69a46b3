import Mathlib
import KirbLaSnoop.Classify.Http

/-!
# HTTP requests with bare newlines

The request line may end in a bare newline. The header lines are looked for
between carriage returns and newlines only, so that a head with bare newlines
has none.
-/

namespace KirbLaSnoop

namespace Classify

theorem not_crLf_append {l rest : List UInt8} (h : 10 ∉ l) (hlast : l.getLast? ≠ some 13)
    (hrest : ¬crLf <:+: rest) : ¬crLf <:+: l ++ lf ++ rest := by
  induction l with
  | nil =>
      rw [List.nil_append, lf, List.singleton_append, crLf, List.infix_cons_iff, not_or]
      exact ⟨by simp, hrest⟩
  | cons b l ih =>
      rw [List.mem_cons, not_or] at h
      rw [List.cons_append, List.cons_append, crLf, List.infix_cons_iff, not_or,
        List.cons_prefix_cons]
      cases l with
      | nil =>
          refine ⟨fun hhere => hlast ?_, ih h.2 (by simp)⟩
          rw [← hhere.1]
          rfl
      | cons c l =>
          refine ⟨fun hhere => h.2 ?_, ih h.2 (by rwa [List.getLast?_cons_cons] at hlast)⟩
          rw [List.cons_append, List.cons_append, List.cons_prefix_cons] at hhere
          rw [hhere.2.1]
          exact List.mem_cons_self

/-- A head that can be written with either line end: no newline in a line, and
no carriage return in the request line or behind the colon of a header. -/
structure Lines where
  line : List UInt8
  headers : List (List UInt8)
  line_plain : 13 ∉ line ∧ 10 ∉ line
  header_plain : ∀ l ∈ headers, 58 ∈ l ∧ 10 ∉ l ∧ 13 ∉ l.dropWhile (· != 58)
  few : headers.length ≤ 64

/-- A text that starts with a method and a space and has a version. -/
def IsRequestLine (line : List UInt8) : Prop :=
  (∃ cs, Text.strict line = some cs) ∧ (∃ m ∈ methods, asBytes m ++ [32] <+: line) ∧
    asBytes "HTTP/" <:+: line

theorem readLine_isSome_iff {line : List UInt8} :
    (∃ mt, readLine line = some mt) ↔ IsRequestLine line := by
  have hmethod : (∃ m ∈ methods, asBytes m ++ [32] <+: line) ↔
      ∃ m, methods.find? (startsWith line) = some m := by
    constructor
    · rintro ⟨m, hm, hstarts⟩
      exact ⟨m, find?_method hm hstarts⟩
    · rintro ⟨m, hm⟩
      exact ⟨m, List.mem_of_find?_eq_some hm, startsWith_iff.mp (List.find?_some hm)⟩
  have hversion : asBytes "HTTP/" <:+: line ↔ ¬(find line (asBytes "HTTP/")).isNone = true := by
    have hne : asBytes "HTTP/" ≠ [] := by decide
    rw [← Option.not_isSome, Bool.not_eq_true', Bool.not_eq_false, find_isSome_iff,
      and_iff_right hne]
  unfold IsRequestLine
  rw [hmethod, hversion]
  simp only [readLine, Option.bind_eq_bind, Option.bind_eq_some_iff,
    Option.ite_none_left_eq_some, Option.some.injEq]
  constructor
  · rintro ⟨mt, cs, hcs, m, hm, hfind, -⟩
    exact ⟨⟨cs, hcs⟩, ⟨m, hm⟩, hfind⟩
  · rintro ⟨⟨cs, hcs⟩, ⟨m, hm⟩, hfind⟩
    exact ⟨_, cs, hcs, m, hm, hfind, rfl⟩

/-- The header line has this name, in any case. -/
def Named (name : String) (line : List Char) : Prop :=
  Text.eqIgnoreAsciiCase (Text.trim (line.takeWhile (· != ':'))) name.toList = true

instance (name : String) (line : List Char) : Decidable (Named name line) :=
  inferInstanceAs (Decidable (_ = _))

theorem fieldOf_eq_none_iff {name : String} {line : List Char} :
    fieldOf name line = none ↔ ¬Named name line := by
  unfold fieldOf Named
  split <;> simp [*]

namespace Lines

variable (q : Lines)

theorem not_crLf {l : List UInt8} (h : 10 ∉ l) : ¬crLf <:+: l := by
  intro hin
  exact h (hin.subset (by decide))

theorem header_crLf : ∀ l ∈ q.headers, 58 ∈ l ∧ ¬crLf <:+: l := by
  intro l hl
  obtain ⟨hcolon, hnewline, -⟩ := q.header_plain l hl
  exact ⟨hcolon, not_crLf hnewline⟩

theorem header_last : ∀ l ∈ q.headers, l.getLast? ≠ some 13 := by
  intro l hl hlast
  obtain ⟨hcolon, -, hreturn⟩ := q.header_plain l hl
  have hne : l.dropWhile (· != 58) ≠ [] := by
    rw [ne_eq, List.dropWhile_eq_nil_iff]
    intro hall
    have hself := hall 58 hcolon
    cases hself
  have hsplit := List.takeWhile_append_dropWhile (p := (· != (58 : UInt8))) (l := l)
  rw [← hsplit, List.getLast?_append_of_ne_nil _ hne] at hlast
  exact hreturn (List.mem_of_getLast? hlast)

theorem lf_not_crLf : ¬crLf <:+: renderHead lf q.line q.headers := by
  have hheaders : ∀ hs : List (List UInt8), (∀ l ∈ hs, l ∈ q.headers) →
      ¬crLf <:+: hs.flatMap (· ++ lf) ++ lf := by
    intro hs hmem
    induction hs with
    | nil => decide
    | cons l hs ih =>
        rw [List.forall_mem_cons] at hmem
        rw [List.flatMap_cons, List.append_assoc]
        exact not_crLf_append (q.header_plain l hmem.1).2.1 (q.header_last l hmem.1) (ih hmem.2)
  refine not_crLf_append q.line_plain.2 (fun hlast => ?_) (hheaders _ fun l hl => hl)
  exact q.line_plain.1 (List.mem_of_getLast? hlast)

theorem request_lf (hlen : (renderHead lf q.line q.headers).length ≤ 8192) :
    request (renderHead lf q.line q.headers) =
      (readLine q.line).map fun mt => ⟨mt.1, mt.2, none, none⟩ := by
  have htake : (renderHead lf q.line q.headers).take 8192 = renderHead lf q.line q.headers :=
    List.take_of_length_le hlen
  have hnone := find_of_not_infix q.lf_not_crLf
  have hend : find (renderHead lf q.line q.headers) lf = some q.line.length := by
    rw [renderHead, List.append_assoc]
    exact find_lf q.line_plain.2 _
  have hfirst : (renderHead lf q.line q.headers).take q.line.length = q.line := by
    rw [renderHead, List.append_assoc, List.take_left']
    rfl
  rw [request_eq (n := q.line.length) (by rw [htake, hnone, Option.none_or, hend]), htake, hfirst,
    header_of_not_crLf q.lf_not_crLf, header_of_not_crLf q.lf_not_crLf]
  rfl

theorem length_flatMap_le (hs : List (List UInt8)) :
    (hs.flatMap (· ++ lf)).length ≤ (hs.flatMap (· ++ crLf)).length := by
  induction hs with
  | nil => exact Nat.le_refl _
  | cons l hs ih =>
      simp only [List.flatMap_cons, List.length_append, lf, crLf, List.length_cons, List.length_nil]
        at ih ⊢
      omega

theorem length_lf_le :
    (renderHead lf q.line q.headers).length ≤ (renderHead crLf q.line q.headers).length := by
  have hheaders := length_flatMap_le q.headers
  simp only [renderHead, List.length_append]
  simp only [lf, crLf, List.length_cons, List.length_nil] at hheaders ⊢
  omega

theorem request_crLf (hlen : (renderHead crLf q.line q.headers).length ≤ 8192) :
    request (renderHead crLf q.line q.headers) = (readLine q.line).map fun mt =>
      ⟨mt.1, mt.2, (q.headers.map Text.lossy).findSome? (fieldOf "host"),
        ((q.headers.map Text.lossy).findSome? (fieldOf "user-agent")).map fun ua =>
          ua.take 60⟩ := by
  have hrequest := request_renderHead (not_crLf q.line_plain.2) q.header_crLf q.few hlen []
  rwa [List.append_nil] at hrequest

end Lines

/-- A description says neither host nor user agent exactly when it has
neither. -/
theorem describe_eq_iff {r : Request} :
    ({ r with host := none, userAgent := none } : Request).describe = r.describe ↔
      r.host = none ∧ r.userAgent = none := by
  have hlength (word : String) (hword : 0 < word.length) (o : Option (List Char)) :
      (o.elim "" fun cs => word ++ String.ofList cs).length = 0 ↔ o = none := by
    cases o with
    | none => simp
    | some cs =>
        simp only [Option.elim_some, String.length_append, reduceCtorEq, iff_false]
        omega
  have hhost := hlength " host=" (by decide) r.host
  have hua := hlength " ua=" (by decide) r.userAgent
  constructor
  · intro h
    have hsum := congrArg String.length h
    simp only [Request.describe, Option.elim_none, String.length_append,
      String.length_empty] at hsum
    exact ⟨hhost.mp (by omega), hua.mp (by omega)⟩
  · rintro ⟨h, h'⟩
    simp only [Request.describe, h, h']

theorem findSome?_fieldOf_eq_none_iff {name : String} {lines : List (List Char)} :
    lines.findSome? (fieldOf name) = none ↔ ∀ l ∈ lines, ¬Named name l := by
  rw [List.findSome?_eq_none_iff]
  exact forall₂_congr fun _ _ => fieldOf_eq_none_iff

/-- Newlines alone give the same hint as line breaks if and only if no header
that the hint names is there to be found. -/
theorem http_lf_iff (q : Lines) (hlen : (renderHead crLf q.line q.headers).length ≤ 8192) :
    http (renderHead lf q.line q.headers) = http (renderHead crLf q.line q.headers) ↔
      (IsRequestLine q.line → ∀ l ∈ q.headers,
        ¬Named "host" (Text.lossy l) ∧ ¬Named "user-agent" (Text.lossy l)) := by
  rw [http, http, q.request_lf (q.length_lf_le.trans hlen), q.request_crLf hlen]
  cases hline : readLine q.line with
  | none =>
      refine iff_of_true rfl fun hrequest => ?_
      obtain ⟨mt, hmt⟩ := readLine_isSome_iff.mpr hrequest
      cases hline.symm.trans hmt
  | some mt =>
      have hrequest : IsRequestLine q.line := readLine_isSome_iff.mp ⟨mt, hline⟩
      simp only [Option.map_some, Option.some.injEq, hrequest, true_imp_iff]
      rw [@describe_eq_iff ⟨mt.1, mt.2, (q.headers.map Text.lossy).findSome? (fieldOf "host"),
        ((q.headers.map Text.lossy).findSome? (fieldOf "user-agent")).map fun ua => ua.take 60⟩]
      simp only [Option.map_eq_none_iff, findSome?_fieldOf_eq_none_iff, List.forall_mem_map,
        forall_and]

def bareLines : Lines where
  line := asBytes "GET / HTTP/1.1"
  headers := [asBytes "Accept: *"]
  line_plain := by decide +kernel
  header_plain := by decide +kernel
  few := by decide

theorem http_lf_iff_accept :
    http (asBytes "GET / HTTP/1.1\nAccept: *\n\n") =
      http (asBytes "GET / HTTP/1.1\r\nAccept: *\r\n\r\n") := by
  have hsame := (http_lf_iff bareLines (by decide +kernel)).mpr fun _ =>
    List.forall_mem_singleton.mpr (by decide +kernel)
  exact hsame

/-- The host is lost when the lines end in a newline alone. -/
theorem not_http_lf :
    ¬∀ q : Lines, (renderHead crLf q.line q.headers).length ≤ 8192 →
      http (renderHead lf q.line q.headers) = http (renderHead crLf q.line q.headers) := by
  intro hall
  have hsame := hall ⟨asBytes "GET / HTTP/1.1", [asBytes "Host: a"], by decide +kernel,
    by decide +kernel, by decide⟩ (by decide +kernel)
  revert hsame
  decide +kernel

end Classify

end KirbLaSnoop
