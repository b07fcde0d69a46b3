import Mathlib
import KirbLaSnoop.Lib.Lossy
import KirbLaSnoop.Profile.Matching
import KirbLaSnoop.Classify.Hello

/-!
# The hint for an HTTP request

A request is a line and header lines, each ended in the same way, and an empty
line. The hint has the method, the target and two headers of the head, and
nothing of the body.
-/

namespace KirbLaSnoop

namespace Classify

/-- A head whose lines end in `eol`. -/
def renderHead (eol line : List UInt8) (headers : List (List UInt8)) : List UInt8 :=
  line ++ eol ++ (headers.flatMap (· ++ eol) ++ eol)

def crLf : List UInt8 := [13, 10]

def lf : List UInt8 := [10]

/-! ## The header lines -/

/-- The value of a header line of this name. -/
def fieldOf (name : String) (line : List Char) : Option (List Char) :=
  if Text.eqIgnoreAsciiCase (Text.trim (line.takeWhile (· != ':'))) name.toList then
    some (Text.trim (line.dropWhile (· != ':')).tail)
  else none

/-- Every header line is looked at until one has the name. -/
theorem headerIn_append {lines : List (List Char)} (hlines : ∀ l ∈ lines, ':' ∈ l) (name : String)
    (rest : List (List Char)) :
    headerIn name (lines ++ rest) = (lines.findSome? (fieldOf name)).or (headerIn name rest) := by
  induction lines with
  | nil => rfl
  | cons l lines ih =>
      rw [List.forall_mem_cons] at hlines
      have hcolon := Text.splitOnce_of_mem hlines.1
      have hne : l.isEmpty = false := by
        rw [List.isEmpty_eq_false_iff]
        rintro rfl
        cases hlines.1
      rw [List.cons_append, headerIn, if_neg (by simp [hne]), hcolon, List.findSome?_cons, fieldOf]
      dsimp only
      split
      · rfl
      · rw [ih hlines.2]

theorem splitCrLf_lossy {l : List UInt8} (h : ¬crLf <:+: l) (rest : List UInt8) :
    Text.splitCrLf (Text.lossy (l ++ crLf ++ rest)) =
      Text.lossy l :: Text.splitCrLf (Text.lossy rest) := by
  have hbounded : Text.Bounded (crLf ++ rest) := Text.bounded_cons.mpr (by decide)
  have hbreak : Text.lossy (crLf ++ rest) = '\r' :: '\n' :: Text.lossy rest := by
    rw [crLf, List.cons_append, Text.lossy_cons (by decide), List.cons_append,
      Text.lossy_cons (by decide)]
    rfl
  rw [List.append_assoc, Text.lossy_append_bounded l hbounded, hbreak]
  exact Text.splitCrLf_append (mt Text.crLf_of_lossy h) _

theorem splitCrLf_headers {headers : List (List UInt8)} (h : ∀ l ∈ headers, ¬crLf <:+: l)
    (rest : List UInt8) :
    Text.splitCrLf (Text.lossy (headers.flatMap (· ++ crLf) ++ rest)) =
      headers.map Text.lossy ++ Text.splitCrLf (Text.lossy rest) := by
  induction headers with
  | nil => rfl
  | cons l headers ih =>
      rw [List.forall_mem_cons] at h
      rw [List.flatMap_cons, List.append_assoc, splitCrLf_lossy h.1, ih h.2, List.map_cons,
        List.cons_append]

theorem header_renderHead {line : List UInt8} {headers : List (List UInt8)}
    (hline : ¬crLf <:+: line) (hheaders : ∀ l ∈ headers, 58 ∈ l ∧ ¬crLf <:+: l)
    (hfew : headers.length ≤ 64) (rest : List UInt8) (name : String) :
    header (renderHead crLf line headers ++ rest) name =
      (headers.map Text.lossy).findSome? (fieldOf name) := by
  have hcolons : ∀ l ∈ headers.map Text.lossy, ':' ∈ l := by
    rw [List.forall_mem_map]
    intro l hl
    obtain ⟨a, b, rfl⟩ := List.append_of_mem (hheaders l hl).1
    rw [Text.lossy_append_bounded a (Text.bounded_cons.mpr (by decide)),
      Text.lossy_cons (by decide)]
    exact List.mem_append_right _ List.mem_cons_self
  have hnil : ¬crLf <:+: [] := by decide
  have hempty : Text.splitCrLf (Text.lossy (crLf ++ rest)) =
      [] :: Text.splitCrLf (Text.lossy rest) := splitCrLf_lossy hnil rest
  have hsplit : Text.splitCrLf (Text.lossy (renderHead crLf line headers ++ rest)) =
      Text.lossy line :: (headers.map Text.lossy ++ [] :: Text.splitCrLf (Text.lossy rest)) := by
    rw [renderHead, List.append_assoc, splitCrLf_lossy hline, List.append_assoc,
      splitCrLf_headers (fun l hl => (hheaders l hl).2), hempty]
  have hend (k : ℕ) (lines : List (List Char)) : headerIn name (([] :: lines).take k) = none := by
    cases k <;> rfl
  rw [header, hsplit, List.drop_one, List.tail_cons, List.take_append, List.length_map,
    List.take_of_length_le (by rwa [List.length_map]), headerIn_append hcolons, hend,
    Option.or_none]

/-- Where no line break is, no header line is found. -/
theorem header_of_not_crLf {bs : List UInt8} (h : ¬crLf <:+: bs) (name : String) :
    header bs name = none := by
  rw [header, Text.splitCrLf_eq_self (mt Text.crLf_of_lossy h)]
  rfl

/-! ## The request line -/

/-- The line starts with the method and a space. -/
def startsWith (bytes : List UInt8) (m : String) : Bool :=
  (asBytes m).isPrefixOf bytes && bytes[m.utf8ByteSize]? == some 32

/-- What is read of a request line: the method and the target. -/
def readLine (bytes : List UInt8) : Option (String × List Char) := do
  let line ← Text.strict bytes
  let method ← methods.find? (startsWith bytes)
  if (find bytes (asBytes "HTTP/")).isNone then none
  else some (method, ((Text.words line)[1]?.getD []).take 80)

theorem request_eq {d : List UInt8} {n : ℕ}
    (hend : (find (d.take 8192) crLf).or (find (d.take 8192) lf) = some n) :
    request d = (readLine ((d.take 8192).take n)).map fun mt =>
      ⟨mt.1, mt.2, header (d.take 8192) "host",
        (header (d.take 8192) "user-agent").map fun ua => ua.take 60⟩ := by
  unfold crLf lf at hend
  unfold request readLine startsWith
  dsimp only
  rw [hend]
  simp only [Option.bind_eq_bind, Option.bind_some, Option.map_bind]
  congr 1
  funext line
  rw [Function.comp_apply, Option.map_bind]
  congr 1
  funext method
  rw [Function.comp_apply]
  split <;> rfl

theorem find_first {before needle after : List UInt8} (hne : needle ≠ [])
    (hfirst : ∀ i < before.length, ¬needle <+: (before ++ (needle ++ after)).drop i) :
    find (before ++ (needle ++ after)) needle = some before.length := by
  have hlen : needle.length ≤ (before ++ (needle ++ after)).length := by
    simp only [List.length_append]
    omega
  have hshort : ¬(needle.isEmpty ||
      needle.length > (before ++ (needle ++ after)).length) = true := by
    rw [List.isEmpty_eq_false_iff.mpr hne, Bool.false_or, decide_eq_true_eq]
    exact Nat.not_lt.mpr hlen
  rw [find, if_neg hshort, List.find?_range_eq_some]
  refine ⟨by simp, ?_, fun i hi => ?_⟩
  · rw [List.mem_range, List.length_append, List.length_append]
    omega
  · rw [Bool.not_eq_true', beq_eq_false_iff_ne]
    exact fun heq => hfirst i hi (List.prefix_iff_eq_take.mpr heq.symm)

/-- The line ends at its first line break. -/
theorem find_crLf {l : List UInt8} (h : ¬crLf <:+: l) (rest : List UInt8) :
    find (l ++ (crLf ++ rest)) crLf = some l.length := by
  refine find_first (by decide) fun i hi hprefix => ?_
  rw [List.drop_append_of_le_length hi.le] at hprefix
  rcases hdrop : l.drop i with _ | ⟨a, _ | ⟨b, t⟩⟩
  · exact absurd (List.drop_eq_nil_iff.mp hdrop) (Nat.not_le.mpr hi)
  · rw [hdrop] at hprefix
    revert hprefix
    simp [crLf]
  · rw [hdrop] at hprefix
    have hin : crLf <+: l.drop i := by
      rw [hdrop]
      simpa [crLf] using hprefix
    exact h (hin.isInfix.trans (List.drop_suffix i l).isInfix)

theorem find_lf {l : List UInt8} (h : 10 ∉ l) (rest : List UInt8) :
    find (l ++ (lf ++ rest)) lf = some l.length := by
  refine find_first (by decide) fun i hi hprefix => ?_
  rw [List.drop_append_of_le_length hi.le, List.drop_eq_getElem_cons hi,
    List.cons_append] at hprefix
  have hhere : 10 = l[i] := (List.cons_prefix_cons.mp hprefix).1
  exact h (hhere ▸ List.getElem_mem hi)

theorem find_of_not_infix {bs needle : List UInt8} (h : ¬needle <:+: bs) :
    find bs needle = none := by
  rw [← Option.isNone_iff_eq_none, ← Option.not_isSome, Bool.not_eq_true', ← Bool.not_eq_true,
    find_isSome_iff]
  exact fun hin => h hin.2

theorem startsWith_iff {m : String} {bytes : List UInt8} :
    startsWith bytes m = true ↔ asBytes m ++ [32] <+: bytes := by
  have hsize : m.utf8ByteSize = (asBytes m).length := rfl
  rw [startsWith, Bool.and_eq_true, List.isPrefixOf_iff_prefix, beq_iff_eq, hsize]
  constructor
  · rintro ⟨⟨t, rfl⟩, hspace⟩
    rw [List.getElem?_append_right (Nat.le_refl _), Nat.sub_self] at hspace
    cases t with
    | nil => cases hspace
    | cons b t =>
        cases hspace
        exact ⟨t, by simp⟩
  · rintro ⟨t, rfl⟩
    refine ⟨⟨32 :: t, by simp⟩, ?_⟩
    simp

theorem startsWith_unique {m m' : String} (hm : m ∈ methods) (hm' : m' ∈ methods)
    {bytes : List UInt8} (h : asBytes m ++ [32] <+: bytes) (h' : asBytes m' ++ [32] <+: bytes) :
    m = m' := by
  have hsolid : ∀ m ∈ methods, ∀ b ∈ asBytes m, (b != 32) = true := by decide +kernel
  have hword {m : String} (hm : m ∈ methods) (h : asBytes m ++ [32] <+: bytes) :
      bytes.takeWhile (· != 32) = asBytes m := by
    obtain ⟨t, rfl⟩ := h
    rw [List.append_assoc, List.takeWhile_append_of_pos (hsolid m hm)]
    simp
  have hbytes := (hword hm h).symm.trans (hword hm' h')
  have hsame := congrArg lossyString hbytes
  rwa [lossyString_asBytes, lossyString_asBytes] at hsame

theorem find?_method {m : String} (hm : m ∈ methods) {bytes : List UInt8}
    (h : asBytes m ++ [32] <+: bytes) :
    methods.find? (startsWith bytes) = some m := by
  cases hfind : methods.find? (startsWith bytes) with
  | none => exact absurd (startsWith_iff.mpr h) (List.find?_eq_none.mp hfind m hm)
  | some m' =>
      have hstarts := startsWith_iff.mp (List.find?_some hfind)
      rw [startsWith_unique hm (List.mem_of_find?_eq_some hfind) h hstarts]

theorem method_solid {m : String} (hm : m ∈ methods) :
    m.toList ≠ [] ∧ ∀ c ∈ m.toList, Text.isWhitespace c = false := by
  simp only [methods, List.mem_cons, List.not_mem_nil, or_false] at hm
  rcases hm with h | h | h | h | h | h | h | h | h <;> simp [h, Text.isWhitespace]

/-! ## A well-formed request -/

theorem infix_of_not_mem {α : Type*} {a : α} {front as l : List α} (ha : a ∉ front)
    (h : a :: as <:+: front ++ l) : a :: as <:+: l := by
  induction front with
  | nil => exact h
  | cons b front ih =>
      rw [List.mem_cons, not_or] at ha
      rw [List.cons_append, List.infix_cons_iff, List.cons_prefix_cons] at h
      rcases h with hhere | hlater
      · exact absurd hhere.1 ha.1
      · exact ih ha.2 hlater

/-- The head of a request: one of the methods, a target without blanks, the
rest of the version, and header lines with a colon in each. -/
structure Head where
  method : String
  target : List Char
  version : List Char
  headers : List (List Char)
  method_mem : method ∈ methods
  target_ne : target ≠ []
  target_solid : ∀ c ∈ target, Text.isWhitespace c = false
  version_line : ¬['\r', '\n'] <:+: version
  header_line : ∀ l ∈ headers, ':' ∈ l ∧ ¬['\r', '\n'] <:+: l
  few : headers.length ≤ 64

namespace Head

variable (r : Head)

def line : List Char :=
  r.method.toList ++ ' ' :: (r.target ++ ' ' :: ("HTTP/".toList ++ r.version))

def bytes : List UInt8 := renderHead crLf (Text.encode r.line) (r.headers.map Text.encode)

/-- The trimmed value of the first header of this name. -/
def field (name : String) : Option (List Char) := r.headers.findSome? (fieldOf name)

theorem words_line : (Text.words r.line)[1]? = some r.target := by
  obtain ⟨hmethod, hsolid⟩ := method_solid r.method_mem
  unfold Text.words line
  rw [List.splitOnP_append_cons_of_forall_mem hsolid ' ' (by decide),
    List.splitOnP_append_cons_of_forall_mem r.target_solid ' ' (by decide)]
  simp [hmethod, r.target_ne]

theorem starts_line : asBytes r.method ++ [32] <+: Text.encode r.line := by
  refine ⟨Text.encode (r.target ++ ' ' :: ("HTTP/".toList ++ r.version)), ?_⟩
  have hspace : Text.encode [' '] = [32] := by decide
  rw [asBytes, Text.toUTF8_eq_encode, ← hspace, ← Text.encode_append, ← Text.encode_append, line,
    List.append_assoc, List.singleton_append]

theorem version_infix : asBytes "HTTP/" <:+: Text.encode r.line := by
  refine ⟨Text.encode (r.method.toList ++ ' ' :: (r.target ++ [' '])), Text.encode r.version, ?_⟩
  rw [asBytes, Text.toUTF8_eq_encode, ← Text.encode_append, ← Text.encode_append, line]
  simp

theorem readLine_line : readLine (Text.encode r.line) = some (r.method, r.target.take 80) := by
  have hversion : (find (Text.encode r.line) (asBytes "HTTP/")).isNone = false := by
    rw [← Option.not_isSome, find_isSome_iff.mpr ⟨by decide, r.version_infix⟩]
    rfl
  simp [readLine, find?_method r.method_mem r.starts_line, hversion, words_line]

theorem not_mem_front : '\r' ∉ r.method.toList ++ ' ' :: (r.target ++ ' ' :: "HTTP/".toList) := by
  have hblank {cs : List Char} (h : ∀ c ∈ cs, Text.isWhitespace c = false) : '\r' ∉ cs := by
    intro hin
    have hreturn : Text.isWhitespace '\r' = true := by decide
    cases hreturn.symm.trans (h '\r' hin)
  have hmethod := hblank (method_solid r.method_mem).2
  have htarget := hblank r.target_solid
  simp [hmethod, htarget]

/-- A line break in the request line could only be in its version. -/
theorem line_line : ¬crLf <:+: Text.encode r.line := by
  intro h
  have hin := Text.crLf_of_encode h
  have hline : r.line =
      (r.method.toList ++ ' ' :: (r.target ++ ' ' :: "HTTP/".toList)) ++ r.version := by
    simp [line]
  rw [hline] at hin
  exact r.version_line (infix_of_not_mem r.not_mem_front hin)

theorem header_bytes : ∀ l ∈ r.headers.map Text.encode, 58 ∈ l ∧ ¬crLf <:+: l := by
  rw [List.forall_mem_map]
  intro l hl
  obtain ⟨hcolon, hline⟩ := r.header_line l hl
  refine ⟨?_, fun h => hline (Text.crLf_of_encode h)⟩
  obtain ⟨a, b, rfl⟩ := List.append_of_mem hcolon
  have hbyte : Text.encode (':' :: b) = 58 :: Text.encode b := rfl
  rw [Text.encode_append, hbyte]
  exact List.mem_append_right _ List.mem_cons_self

end Head

/-- The first line ends where it should, and the header lines are found behind
it, whatever comes after the head. -/
theorem request_renderHead {line : List UInt8} {headers : List (List UInt8)}
    (hline : ¬crLf <:+: line) (hheaders : ∀ l ∈ headers, 58 ∈ l ∧ ¬crLf <:+: l)
    (hfew : headers.length ≤ 64) (hlen : (renderHead crLf line headers).length ≤ 8192)
    (body : List UInt8) :
    request (renderHead crLf line headers ++ body) = (readLine line).map fun mt =>
      ⟨mt.1, mt.2, (headers.map Text.lossy).findSome? (fieldOf "host"),
        ((headers.map Text.lossy).findSome? (fieldOf "user-agent")).map fun ua => ua.take 60⟩ := by
  have htake : (renderHead crLf line headers ++ body).take 8192 =
      renderHead crLf line headers ++ body.take (8192 - (renderHead crLf line headers).length) := by
    rw [List.take_append, List.take_of_length_le hlen]
  have hend : find ((renderHead crLf line headers ++ body).take 8192) crLf = some line.length := by
    rw [htake, renderHead, List.append_assoc, List.append_assoc]
    exact find_crLf hline _
  have hfirst : ((renderHead crLf line headers ++ body).take 8192).take line.length = line := by
    rw [htake, renderHead, List.append_assoc, List.append_assoc, List.take_left']
    rfl
  rw [request_eq (n := line.length) (by rw [hend, Option.some_or]), hfirst, htake,
    header_renderHead hline hheaders hfew, header_renderHead hline hheaders hfew]

/-- The hint for a well-formed request names its method, its target, its host
and its user agent, and does not depend on the body. -/
theorem http_head (r : Head) (hlen : r.bytes.length ≤ 8192) :
    (∀ body, http (r.bytes ++ body) = some ("HTTP " ++ r.method ++ " " ++
      String.ofList (r.target.take 80) ++
      (r.field "host").elim "" (fun host => " host=" ++ String.ofList host) ++
      (r.field "user-agent").elim "" (fun ua => " ua=" ++ String.ofList (ua.take 60)))) ∧
    ∀ body body', http (r.bytes ++ body) = http (r.bytes ++ body') := by
  have hlossy : (r.headers.map Text.encode).map Text.lossy = r.headers := by
    have hid : Text.lossy ∘ Text.encode = id := funext Text.lossy_encode
    rw [List.map_map, hid, List.map_id]
  have hall : ∀ body, http (r.bytes ++ body) = some ("HTTP " ++ r.method ++ " " ++
      String.ofList (r.target.take 80) ++
      (r.field "host").elim "" (fun host => " host=" ++ String.ofList host) ++
      (r.field "user-agent").elim "" (fun ua => " ua=" ++ String.ofList (ua.take 60))) := by
    intro body
    have hrequest := request_renderHead r.line_line r.header_bytes
      (by rw [List.length_map]; exact r.few) hlen body
    rw [hlossy, r.readLine_line] at hrequest
    rw [http, Head.bytes, hrequest, Option.map_some, Option.map_some, Request.describe]
    dsimp only
    rw [Option.elim_map]
    rfl
  exact ⟨hall, fun body body' => (hall body).trans (hall body').symm⟩

def statusHead : Head where
  method := "GET"
  target := "/v1/status".toList
  version := "1.1".toList
  headers := ["Host: a".toList]
  method_mem := by decide
  target_ne := by decide
  target_solid := by simp [Text.isWhitespace]
  version_line := by decide
  header_line := List.forall_mem_singleton.mpr ⟨by decide, by decide⟩
  few := by decide

/-- A body that looks like a header line. -/
theorem http_head_status :
    http (asBytes "GET /v1/status HTTP/1.1\r\nHost: a\r\n\r\nUser-Agent: b\r\n") =
      some "HTTP GET /v1/status host=a" := by
  have hhint := (http_head statusHead (by decide +kernel)).1 (asBytes "User-Agent: b\r\n")
  refine Eq.trans ?_ (hhint.trans ?_)
  · exact congrArg http (by decide +kernel)
  · decide +kernel

end Classify

end KirbLaSnoop
