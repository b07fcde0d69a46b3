import Mathlib
import KirbLaSnoop.Lib.Labels
import KirbLaSnoop.Dns

/-!
# What a query is

A query is a header without QR and opcode and with one question: a name, a
type and a class. Anything may follow. `parse` accepts these messages and no
others, and the range it returns is the question.
-/

namespace KirbLaSnoop

namespace Dns

structure Name where
  labels : List (List UInt8)
  fits : Labels.Fits labels

def Name.encode (n : Name) : List UInt8 := Labels.encode n.labels

/-- `q` says what the query `msg` for `name` asks. -/
structure IsQuery (msg : List UInt8) (name : Name) (q : Query) : Prop where
  id : be16 msg 0 = some q.id
  flags : be16 msg 2 = some q.flags
  qdcount : be16 msg 4 = some 1
  qr : q.flags &&& 0x8000 = 0
  opcode : (q.flags >>> 11) &&& 0x0f = 0
  ahead : ∃ rest, Ahead msg headerLen
    (name.encode ++ (toBe16 q.qtype ++ (toBe16 q.qclass ++ rest)))
  question : q.question = (headerLen, headerLen + name.encode.length + 4)

/-- The test that `parse` makes of the header does not refuse a query. -/
theorem IsQuery.standard {msg : List UInt8} {name : Name} {q : Query} (h : IsQuery msg name q) :
    ¬(q.flags &&& 0x8000 ≠ 0 ∨ (q.flags >>> 11) &&& 0x0f ≠ 0 ∨ (1 : UInt16) ≠ 1) := by
  simp [h.qr, h.opcode]

theorem walkName_eq_read (msg : List UInt8) (left p : ℕ) :
    walkName msg left p = (Labels.read (fun _ => true) msg left p).map Prod.snd := by
  induction left generalizing p with
  | zero =>
      unfold walkName
      split
      · next hend => rw [Labels.read_end hend, Option.map_none]
      · next len hlen =>
          split_ifs with hzero hmark
          · rw [Labels.read_zero (hzero ▸ hlen), Option.map_some]
          all_goals rw [Labels.read_spent hlen hzero, Option.map_none]
  | succ left ih =>
      unfold walkName
      split
      · next hend => rw [Labels.read_end hend, Option.map_none]
      · next len hlen =>
          split_ifs with hzero hmark hin
          · rw [Labels.read_zero (hzero ▸ hlen), Option.map_some]
          · rw [Labels.read_mark hlen hmark, Option.map_none]
          · rw [Labels.read_step hlen hzero (not_not.mp hmark) hin, if_pos rfl, Option.map_map]
            exact ih _
          · rw [Labels.read_short hlen (by omega), Option.map_none]

theorem walkName_eq_some_iff {msg : List UInt8} {left p q : ℕ} :
    walkName msg left p = some q ↔
      ∃ name : Name, name.labels.length ≤ left ∧ q = p + name.encode.length ∧
        ∃ rest, Ahead msg p (name.encode ++ rest) := by
  rw [walkName_eq_read, Option.map_eq_some_iff]
  constructor
  · rintro ⟨⟨labels, q'⟩, hread, rfl⟩
    obtain ⟨hleft, hfits, -, hq, hahead⟩ := Labels.read_eq_some_iff.mp hread
    exact ⟨⟨labels, hfits⟩, hleft, hq, hahead⟩
  · rintro ⟨name, hleft, hq, hahead⟩
    exact ⟨(name.labels, q),
      Labels.read_eq_some_iff.mpr ⟨hleft, name.fits, fun _ _ => rfl, hq, hahead⟩, rfl⟩

theorem IsQuery.within {msg : List UInt8} {name : Name} {q : Query} (h : IsQuery msg name q) :
    q.question.2 ≤ msg.length := by
  obtain ⟨rest, hahead⟩ := h.ahead
  have hlen := hahead.length
  rw [h.question]
  simp only [toBe16, List.length_append, List.length_cons, List.length_nil] at hlen ⊢
  omega

/-- The range of the question holds the name, the type and the class. -/
theorem IsQuery.slice_question {msg : List UInt8} {name : Name} {q : Query}
    (h : IsQuery msg name q) :
    slice msg q.question.1 q.question.2 =
      some (name.encode ++ (toBe16 q.qtype ++ toBe16 q.qclass)) := by
  obtain ⟨rest, hahead⟩ := h.ahead
  have hquestion : Ahead msg headerLen
      ((name.encode ++ (toBe16 q.qtype ++ toBe16 q.qclass)) ++ rest) := by
    simpa only [List.append_assoc] using hahead
  rw [h.question, ← slice_ahead hquestion, List.length_append, ← Nat.add_assoc]
  rfl

theorem Name.eq_of_ahead {msg rest rest' : List UInt8} {p : ℕ} {name name' : Name}
    (h : Ahead msg p (name.encode ++ rest)) (h' : Ahead msg p (name'.encode ++ rest')) :
    name = name' ∧ rest = rest' := by
  obtain ⟨labels, fits⟩ := name
  obtain ⟨labels', fits'⟩ := name'
  obtain ⟨rfl, hrest⟩ := Labels.encode_append_inj fits fits' (h.2.symm.trans h'.2)
  exact ⟨rfl, hrest⟩

/-- A message is a query for one name only. -/
theorem IsQuery.unique {msg : List UInt8} {name name' : Name} {q q' : Query}
    (h : IsQuery msg name q) (h' : IsQuery msg name' q') : name = name' ∧ q = q' := by
  obtain ⟨rest, hahead⟩ := h.ahead
  obtain ⟨rest', hahead'⟩ := h'.ahead
  obtain ⟨rfl, -⟩ := Name.eq_of_ahead hahead hahead'
  refine ⟨rfl, ?_⟩
  have hid := h.id.symm.trans h'.id
  have hflags := h.flags.symm.trans h'.flags
  have htype := (be16_ahead hahead.append).symm.trans (be16_ahead hahead'.append)
  have hclass := (be16_ahead (ahead_word hahead.append)).symm.trans
    (be16_ahead (ahead_word hahead'.append))
  have hquestion := h.question.trans h'.question.symm
  cases q
  cases q'
  simp only [Option.some.injEq] at hid hflags htype hclass hquestion
  simp only [hid, hflags, htype, hclass, hquestion]

theorem parse_of_isQuery {msg : List UInt8} {name : Name} {q : Query} (h : IsQuery msg name q)
    (hlabels : name.labels.length ≤ 128) : parse msg = some q := by
  obtain ⟨rest, hahead⟩ := h.ahead
  have hwalk : walkName msg 128 headerLen = some (headerLen + name.encode.length) :=
    walkName_eq_some_iff.mpr ⟨name, hlabels, rfl, _, hahead⟩
  have htype := be16_ahead hahead.append
  have hclass := be16_ahead (ahead_word hahead.append)
  unfold parse
  rw [if_neg (Nat.not_lt.mpr hahead.1), h.id, h.flags, h.qdcount]
  simp only [Option.bind_eq_bind, Option.bind_some, if_neg h.standard, hwalk, htype, hclass]
  rw [← h.question]

theorem isQuery_of_parse {msg : List UInt8} {q : Query} (h : parse msg = some q) :
    ∃ name : Name, name.labels.length ≤ 128 ∧ IsQuery msg name q := by
  unfold parse at h
  split at h
  · cases h
  · simp only [Option.bind_eq_bind, Option.bind_eq_some_iff, Option.ite_none_left_eq_some] at h
    obtain ⟨id, hid, flags, hflags, qdcount, hcount, hguard, p, hwalk, qtype, htype, qclass, hclass,
      hq⟩ := h
    cases hq
    simp only [not_or, not_not] at hguard
    obtain ⟨hqr, hopcode, rfl⟩ := hguard
    obtain ⟨name, hlabels, rfl, rest, hahead⟩ := walkName_eq_some_iff.mp hwalk
    obtain ⟨rest', htype⟩ := be16_eq_some_iff.mp htype
    obtain ⟨rest'', hclass⟩ := be16_eq_some_iff.mp hclass
    obtain rfl : rest = toBe16 qtype ++ rest' := by rw [← hahead.append.2, htype.2]
    obtain rfl : rest' = toBe16 qclass ++ rest'' := by rw [← (ahead_word htype).2, hclass.2]
    exact ⟨name, hlabels, hid, hflags, hcount, hqr, hopcode, ⟨rest'', hahead⟩, rfl⟩

/-- What is accepted is a query of at most 128 labels, with what it asks and
where its question is. -/
theorem parse_eq_some_iff (msg : List UInt8) (q : Query) :
    (parse msg = some q ↔ ∃ name : Name, name.labels.length ≤ 128 ∧ IsQuery msg name q) ∧
      (parse msg = some q → q.question.2 ≤ msg.length) := by
  refine ⟨⟨isQuery_of_parse, ?_⟩, ?_⟩
  · rintro ⟨name, hlabels, h⟩
    exact parse_of_isQuery h hlabels
  · intro h
    obtain ⟨name, -, hquery⟩ := isQuery_of_parse h
    exact hquery.within

end Dns

end KirbLaSnoop
