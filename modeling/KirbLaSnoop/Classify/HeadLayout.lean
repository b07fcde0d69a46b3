import Mathlib
import KirbLaSnoop.Classify.Newlines

/-!
# Request heads as they come

The first line of a message and the header lines behind it, laid out without a
reader, and what the readers take from each of them.
-/

namespace KirbLaSnoop

namespace Classify

/-- What is found stands there, and nowhere before. -/
theorem find_eq_some {bs needle : List UInt8} {n : ℕ} (h : find bs needle = some n) :
    ∃ before after, bs = before ++ (needle ++ after) ∧ before.length = n ∧ ¬needle <:+: before := by
  rw [find] at h
  split_ifs at h with hshort
  simp only [Bool.or_eq_true, not_or, decide_eq_true_eq, List.isEmpty_iff] at hshort
  obtain ⟨hhere, hin, hfirst⟩ := List.find?_range_eq_some.mp h
  rw [List.mem_range] at hin
  rw [beq_iff_eq] at hhere
  have hprefix : needle <+: bs.drop n := List.prefix_iff_eq_take.mpr hhere.symm
  obtain ⟨after, hafter⟩ := hprefix
  have hlen : (bs.take n).length = n := by
    rw [List.length_take]
    omega
  refine ⟨bs.take n, after, by rw [hafter, List.take_append_drop], hlen, ?_⟩
  rintro ⟨a, b, hab⟩
  have hlt : a.length < n := by
    have hpos := List.length_pos_iff.mpr hshort.1
    have hsum := congrArg List.length hab
    simp only [List.length_append] at hsum
    omega
  refine absurd (hfirst a.length hlt) ?_
  rw [Bool.not_eq_true', Bool.not_eq_false, beq_iff_eq]
  refine (List.prefix_iff_eq_take.mp ?_).symm
  have hbs : bs = a ++ (needle ++ (b ++ bs.drop n)) := by
    conv_lhs => rw [← List.take_append_drop n bs, ← hab]
    simp only [List.append_assoc]
  rw [hbs, List.drop_left]
  exact List.prefix_append _ _

theorem not_infix_of_find {bs needle : List UInt8} (hne : needle ≠ []) (h : find bs needle = none) :
    ¬needle <:+: bs := by
  intro hin
  have hsome := find_isSome_iff.mpr ⟨hne, hin⟩
  rw [h] at hsome
  cases hsome

/-- The first of the lines, and what is behind it. -/
inductive Line : List UInt8 → List UInt8 → List UInt8 → Prop
  | next {l rest : List UInt8} (hline : ¬crLf <:+: l) : Line (l ++ (crLf ++ rest)) l rest
  | last {l : List UInt8} (hline : ¬crLf <:+: l) : Line l l []

theorem exists_line (bs : List UInt8) : ∃ l rest, Line bs l rest := by
  cases hfind : find bs crLf with
  | some n =>
      obtain ⟨l, rest, rfl, -, hline⟩ := find_eq_some hfind
      exact ⟨l, rest, .next hline⟩
  | none => exact ⟨bs, [], .last (not_infix_of_find (by decide) hfind)⟩

/-- The request line of a head and the bytes behind it. A bare newline ends it
where there is no line break in the whole head, and then no line follows. -/
inductive FirstLine : List UInt8 → List UInt8 → List UInt8 → Prop
  | broken {line behind : List UInt8} (hline : ¬crLf <:+: line) :
      FirstLine (line ++ (crLf ++ behind)) line behind
  | bare {line behind : List UInt8} (hbreak : ¬crLf <:+: line ++ (lf ++ behind))
      (hline : 10 ∉ line) : FirstLine (line ++ (lf ++ behind)) line []

/-- The value of the first header of a name among the first lines. Every line
before it has a colon, and another name. -/
inductive ValueIn (name : String) : ℕ → List UInt8 → List UInt8 → Prop
  | here {n : ℕ} {bs key value rest : List UInt8} (hline : Line bs (key ++ 58 :: value) rest)
      (hkey : 58 ∉ key) (hname : Named name (Text.lossy key)) : ValueIn name (n + 1) bs value
  | later {n : ℕ} {bs key other rest value : List UInt8} (hline : Line bs (key ++ 58 :: other) rest)
      (hkey : 58 ∉ key) (hname : ¬Named name (Text.lossy key)) (hrest : ValueIn name n rest value) :
      ValueIn name (n + 1) bs value

section Headers

variable {bs l rest behind value : List UInt8} {n : ℕ} {name : String} {v : List Char}

theorem colon_mem_lossy : ':' ∈ Text.lossy bs ↔ 58 ∈ bs := by
  rw [Text.mem_lossy_iff (by decide), ← List.singleton_infix_iff]
  rfl

theorem lossy_colon (key value : List UInt8) :
    Text.lossy (key ++ 58 :: value) = Text.lossy key ++ ':' :: Text.lossy value := by
  rw [Text.lossy_append_bounded key (Text.bounded_cons.mpr (by decide)),
    Text.lossy_cons (by decide)]
  rfl

/-- The lines behind the first of them are looked through as they stand. -/
theorem headerIn_line (h : Line bs l rest) :
    headerIn name ((Text.splitCrLf (Text.lossy bs)).take (n + 1)) =
      headerIn name (Text.lossy l :: (Text.splitCrLf (Text.lossy rest)).take n) := by
  cases h with
  | next hline =>
      have hsplit := splitCrLf_lossy hline rest
      rw [List.append_assoc] at hsplit
      rw [hsplit, List.take_succ_cons]
  | last hline =>
      have hnil : headerIn name ((Text.splitCrLf (Text.lossy [])).take n) = none := by
        cases n <;> rfl
      rw [Text.splitCrLf_eq_self (mt Text.crLf_of_lossy hline), List.take_succ_cons, List.take_nil]
      simp only [headerIn, hnil]

theorem headerIn_cons {key : List UInt8} (hkey : 58 ∉ key) (more : List (List Char)) :
    headerIn name (Text.lossy (key ++ 58 :: value) :: more) =
      if Named name (Text.lossy key) then some (Text.trim (Text.lossy value))
      else headerIn name more := by
  have hkey' : ':' ∉ Text.lossy key := mt colon_mem_lossy.mp hkey
  have honce : Text.splitOnce ':' (Text.lossy (key ++ 58 :: value)) =
      some (Text.lossy key, Text.lossy value) :=
    Text.splitOnce_eq_some_iff.mpr ⟨lossy_colon key value, hkey'⟩
  have hwhole : (Text.lossy key).takeWhile (· != ':') = Text.lossy key := by
    rw [List.takeWhile_eq_self_iff]
    intro c hc
    rw [bne_iff_ne]
    exact fun heq => hkey' (heq ▸ hc)
  have hne : (Text.lossy (key ++ 58 :: value)).isEmpty = false := by
    rw [lossy_colon]
    simp
  have hnamed : Named name (Text.lossy key) ↔
      Text.eqIgnoreAsciiCase (Text.trim (Text.lossy key)) name.toList = true := by
    rw [Named, hwhole]
  rw [headerIn, hne, if_neg Bool.false_ne_true, honce]
  simp only [hnamed]

theorem headerIn_of_valueIn (h : ValueIn name n bs value) :
    headerIn name ((Text.splitCrLf (Text.lossy bs)).take n) =
      some (Text.trim (Text.lossy value)) := by
  induction h with
  | here hline hkey hname => rw [headerIn_line hline, headerIn_cons hkey, if_pos hname]
  | later hline hkey hname _ ih => rw [headerIn_line hline, headerIn_cons hkey, if_neg hname, ih]

theorem valueIn_of_headerIn
    (h : headerIn name ((Text.splitCrLf (Text.lossy bs)).take n) = some v) :
    ∃ value, ValueIn name n bs value ∧ v = Text.trim (Text.lossy value) := by
  induction n generalizing bs with
  | zero => cases h
  | succ n ih =>
      obtain ⟨l, rest, hline⟩ := exists_line bs
      rw [headerIn_line hline] at h
      by_cases hcolon : 58 ∈ l
      · obtain ⟨key, value, rfl, hkey⟩ := List.eq_append_cons_of_mem hcolon
        rw [headerIn_cons hkey] at h
        split_ifs at h with hname
        · cases h
          exact ⟨value, .here hline hkey hname, rfl⟩
        · obtain ⟨value', hvalue, rfl⟩ := ih h
          exact ⟨value', .later hline hkey hname hvalue, rfl⟩
      · have hnone := Text.splitOnce_eq_none_iff.mpr (mt colon_mem_lossy.mp hcolon)
        rw [headerIn, hnone] at h
        split_ifs at h

end Headers

section Requests

variable {d line behind : List UInt8} {r : Request}

/-- A request is read from its first line and the lines behind it. -/
theorem request_firstLine (h : FirstLine (d.take 8192) line behind) :
    request d = (readLine line).map fun mt =>
      ⟨mt.1, mt.2, headerIn "host" ((Text.splitCrLf (Text.lossy behind)).take 64),
        (headerIn "user-agent" ((Text.splitCrLf (Text.lossy behind)).take 64)).map
          fun ua => ua.take 60⟩ := by
  generalize hhead : d.take 8192 = head at h
  cases h with
  | broken hline =>
      have hfind := find_crLf hline behind
      have hsplit := splitCrLf_lossy hline behind
      rw [List.append_assoc] at hsplit
      rw [request_eq (n := line.length) (by rw [hhead, hfind, Option.some_or]), hhead,
        List.take_left, header, header, hsplit, List.drop_one, List.tail_cons]
  | @bare line after hbreak hline =>
      have hfind := find_lf hline after
      rw [request_eq (n := line.length)
          (by rw [hhead, find_of_not_infix hbreak, Option.none_or, hfind]), hhead,
        List.take_left, header_of_not_crLf hbreak, header_of_not_crLf hbreak]
      rfl

theorem exists_firstLine (h : request d = some r) :
    ∃ line behind, FirstLine (d.take 8192) line behind := by
  have hend : ∃ n, (find (d.take 8192) crLf).or (find (d.take 8192) lf) = some n := by
    unfold request at h
    simp only [Option.bind_eq_bind, Option.bind_eq_some_iff] at h
    obtain ⟨n, hn, -⟩ := h
    exact ⟨n, hn⟩
  obtain ⟨n, hn⟩ := hend
  cases hbreak : find (d.take 8192) crLf with
  | some k =>
      obtain ⟨line, behind, heq, -, hline⟩ := find_eq_some hbreak
      rw [heq]
      exact ⟨line, behind, .broken hline⟩
  | none =>
      have hno : ¬crLf <:+: d.take 8192 := not_infix_of_find (by decide) hbreak
      rw [hbreak, Option.none_or] at hn
      obtain ⟨line, behind, heq, -, hline⟩ := find_eq_some hn
      rw [heq] at hno ⊢
      exact ⟨line, [], .bare hno (mt (List.singleton_infix_iff _ _).mpr hline)⟩

end Requests

/-! ## The words of a request line -/

theorem head?_splitOnP (p : Char → Bool) (cs : List Char) :
    (cs.splitOnP p).head? = some (cs.takeWhile fun c => !p c) := by
  induction cs with
  | nil => rfl
  | cons c cs ih =>
      rw [List.splitOnP_cons_eq_if_modifyHead]
      cases hc : p c with
      | true => simp [hc]
      | false => simp [hc, List.head?_modifyHead, ih]

/-- The first word is what comes behind the blanks, up to the next one. -/
theorem head?_words (cs : List Char) :
    (Text.words cs).head?.getD [] =
      (cs.dropWhile Text.isWhitespace).takeWhile fun c => !Text.isWhitespace c := by
  induction cs with
  | nil => rfl
  | cons c cs ih =>
      cases hc : Text.isWhitespace c with
      | true =>
          rw [List.dropWhile_cons_of_pos hc, ← ih, Text.words,
            List.splitOnP_cons_eq_if_modifyHead, if_pos hc]
          rfl
      | false =>
          have hsplit := head?_splitOnP Text.isWhitespace (c :: cs)
          rw [List.takeWhile_cons_of_pos (by simp [hc])] at hsplit
          obtain ⟨ws, hws⟩ : ∃ ws, (c :: cs).splitOnP Text.isWhitespace =
              (c :: cs.takeWhile fun c => !Text.isWhitespace c) :: ws :=
            ⟨_, List.eq_cons_of_mem_head? hsplit⟩
          rw [List.dropWhile_cons_of_neg (by simp [hc]), List.takeWhile_cons_of_pos (by simp [hc]),
            Text.words, hws, List.filter_cons_of_pos rfl]
          rfl

end Classify

end KirbLaSnoop
