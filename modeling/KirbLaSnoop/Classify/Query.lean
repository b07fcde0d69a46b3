import Mathlib
import KirbLaSnoop.Dns.Question
import KirbLaSnoop.Classify

/-!
# Queries and their names

The recogniser of DNS walks the labels itself, with a smaller budget and only
over printable ones. What it names is what `Dns.parse` reads, and it names a
query that `Dns.parse` reads unless one of these limits is in the way.
-/

namespace KirbLaSnoop

namespace Classify

open Dns (be16 slice toBe16 be16_ahead be16_eq_some_iff ahead_word)

/-- The labels of a name with dots between them. -/
def dotted (name : Dns.Name) : String := String.intercalate "." (name.labels.map lossyString)

def queryLine (name : Dns.Name) (qtype : UInt16) : String :=
  "DNS query " ++ qtypeName qtype ++ " " ++ dotted name

theorem labelsFrom_eq_read (d : List UInt8) (left p : ℕ) :
    labelsFrom d left p = (Labels.read (fun l => l.all isAsciiGraphic) d left p).map fun r =>
      (r.1.map lossyString, r.2) := by
  induction left generalizing p with
  | zero =>
      unfold labelsFrom
      split
      · next hend => rw [Labels.read_end hend, Option.map_none]
      · next len hlen =>
          split_ifs with hzero hmark
          · rw [Labels.read_zero (hzero ▸ hlen)]
            rfl
          all_goals rw [Labels.read_spent hlen hzero, Option.map_none]
  | succ left ih =>
      unfold labelsFrom
      split
      · next hend => rw [Labels.read_end hend, Option.map_none]
      · next len hlen =>
          split_ifs with hzero hmark
          · rw [Labels.read_zero (hzero ▸ hlen)]
            rfl
          · rw [Labels.read_mark hlen hmark, Option.map_none]
          · by_cases hin : p + 1 + len.toNat ≤ d.length
            · have hslice : slice d (p + 1) (p + 1 + len.toNat) =
                  some ((d.drop (p + 1)).take len.toNat) := by
                rw [slice, if_pos ⟨Nat.le_add_right _ _, hin⟩, List.drop_take,
                  Nat.add_sub_cancel_left]
              rw [Labels.read_step hlen hzero (not_not.mp hmark) hin]
              simp only [hslice, Option.bind_eq_bind, Option.bind_some, ih]
              cases ((d.drop (p + 1)).take len.toNat).all isAsciiGraphic with
              | false => rfl
              | true => cases Labels.read _ d left (p + 1 + len.toNat) <;> rfl
            · have hslice : slice d (p + 1) (p + 1 + len.toNat) = none :=
                if_neg fun h => hin h.2
              rw [Labels.read_short hlen (by omega)]
              simp [hslice]

theorem labelsFrom_eq_some_iff {d : List UInt8} {left p q : ℕ} {labels : List String} :
    labelsFrom d left p = some (labels, q) ↔
      ∃ name : Dns.Name, name.labels.length ≤ left ∧ (∀ l ∈ name.labels, l.all isAsciiGraphic) ∧
        labels = name.labels.map lossyString ∧ q = p + name.encode.length ∧
          ∃ rest, Ahead d p (name.encode ++ rest) := by
  rw [labelsFrom_eq_read, Option.map_eq_some_iff]
  constructor
  · rintro ⟨⟨ls, q'⟩, hread, heq⟩
    rw [Prod.mk.injEq] at heq
    obtain ⟨rfl, rfl⟩ := heq
    obtain ⟨hleft, hfits, hok, hq, hahead⟩ := Labels.read_eq_some_iff.mp hread
    exact ⟨⟨ls, hfits⟩, hleft, hok, rfl, hq, hahead⟩
  · rintro ⟨name, hleft, hok, rfl, hq, hahead⟩
    exact ⟨(name.labels, q), Labels.read_eq_some_iff.mpr ⟨hleft, name.fits, hok, hq, hahead⟩, rfl⟩

/-- A recognised query has no answers, and a name of 1 to 64 labels, all of
printable ASCII. -/
structure Recognised (msg : List UInt8) (name : Dns.Name) : Prop where
  ancount : be16 msg 6 = some 0
  labels : name.labels ≠ []
  budget : name.labels.length ≤ 64
  graphic : ∀ l ∈ name.labels, l.all isAsciiGraphic

theorem dns_of_recognised {msg : List UInt8} {name : Dns.Name} {q : Dns.Query}
    (h : Dns.IsQuery msg name q) (hname : Recognised msg name) :
    dns msg = some (queryLine name q.qtype) := by
  obtain ⟨rest, hahead⟩ := h.ahead
  have hlabels : labelsFrom msg 64 12 =
      some (name.labels.map lossyString, Dns.headerLen + name.encode.length) :=
    labelsFrom_eq_some_iff.mpr ⟨name, hname.budget, hname.graphic, rfl, rfl, _, hahead⟩
  have hlong : ¬msg.length < 12 := Nat.not_lt.mpr hahead.1
  have hnonempty : (name.labels.map lossyString).isEmpty = false := by
    simpa using hname.labels
  unfold dns
  rw [if_neg hlong, h.flags, h.qdcount, hname.ancount]
  simp only [Option.bind_eq_bind, Option.bind_some, if_neg h.standard, hlabels, hnonempty,
    be16_ahead hahead.append]
  rfl

/-- What is needed of a message for it to be named, and what it is named. -/
theorem of_dns {msg : List UInt8} {line : String} (h : dns msg = some line) :
    ∃ (name : Dns.Name) (flags qtype : UInt16) (rest : List UInt8),
      be16 msg 2 = some flags ∧ flags &&& 0x8000 = 0 ∧ (flags >>> 11) &&& 0x0f = 0 ∧
        be16 msg 4 = some 1 ∧ Recognised msg name ∧
          Ahead msg Dns.headerLen (name.encode ++ (toBe16 qtype ++ rest)) ∧
            line = queryLine name qtype ∧
              labelsFrom msg 64 12 =
                some (name.labels.map lossyString, Dns.headerLen + name.encode.length) := by
  unfold dns at h
  simp only [Option.bind_eq_bind, Option.bind_eq_some_iff, Option.ite_none_left_eq_some,
    Option.some.injEq] at h
  obtain ⟨-, flags, hflags, qdcount, hcount, hguard, ancount, hancount, hanswers, ⟨labels, p⟩,
    hlabels, hempty, qtype, htype, rfl⟩ := h
  simp only [not_or, not_not] at hguard hanswers
  obtain ⟨hqr, hopcode, rfl⟩ := hguard
  subst hanswers
  obtain ⟨name, hbudget, hgraphic, rfl, rfl, rest, hahead⟩ := labelsFrom_eq_some_iff.mp hlabels
  obtain ⟨rest', htype⟩ := be16_eq_some_iff.mp htype
  obtain rfl : rest = toBe16 qtype ++ rest' := by rw [← hahead.append.2, htype.2]
  exact ⟨name, flags, qtype, rest', hflags, hqr, hopcode, hcount,
    ⟨hancount, by simpa using hempty, hbudget, hgraphic⟩, hahead, rfl, hlabels⟩

/-- Of the queries that are answered, those of printable labels, neither none
nor too many, without answers are named. -/
theorem dns_names_iff {msg : List UInt8} {q : Dns.Query} (hparse : Dns.parse msg = some q) :
    ∃ name : Dns.Name, Dns.IsQuery msg name q ∧
      (dns msg = some (queryLine name q.qtype) ↔ Recognised msg name) := by
  obtain ⟨name, -, hquery⟩ := Dns.isQuery_of_parse hparse
  refine ⟨name, hquery, fun h => ?_, dns_of_recognised hquery⟩
  obtain ⟨name', flags, qtype, rest, -, -, -, -, hname, hahead, -, -⟩ := of_dns h
  obtain ⟨rest', hahead'⟩ := hquery.ahead
  obtain ⟨rfl, -⟩ := Dns.Name.eq_of_ahead hahead hahead'
  exact hname

/-- A query for an address of `a`. -/
def plainQuery : List UInt8 :=
  [0, 1, 1, 0, 0, 1, 0, 0, 0, 0, 0, 0, 1, 0x61, 0, 0, 1, 0, 1]

theorem dns_names_iff_plain :
    ∃ name : Dns.Name, Dns.IsQuery plainQuery name ⟨1, 0x0100, 1, 1, (12, 19)⟩ ∧
      (dns plainQuery = some (queryLine name 1) ↔ Recognised plainQuery name) :=
  dns_names_iff (by decide)

/-- A query for the root, of no labels. -/
def rootQuery : List UInt8 := [0, 1, 1, 0, 0, 1, 0, 0, 0, 0, 0, 0, 0, 0, 2, 0, 1]

theorem not_dns_names :
    ¬∀ (msg : List UInt8) (q : Dns.Query), Dns.parse msg = some q →
      ∃ name : Dns.Name, Dns.IsQuery msg name q ∧ dns msg = some (queryLine name q.qtype) := by
  intro hall
  have hnone : dns rootQuery = none := by decide
  obtain ⟨name, -, hline⟩ := hall rootQuery ⟨1, 0x0100, 2, 1, (12, 17)⟩ (by decide)
  rw [hnone] at hline
  exact Option.some_ne_none _ hline.symm

/-- A message that is named, with room for a class, is a query for that name,
and the question ends with the class. -/
theorem parse_of_dns {msg : List UInt8} {line : String} (h : dns msg = some line) :
    ∃ labels p, labelsFrom msg 64 12 = some (labels, p) ∧
      (p + 4 ≤ msg.length → ∃ (q : Dns.Query) (name : Dns.Name), Dns.parse msg = some q ∧
        q.question = (12, p + 4) ∧
          slice msg q.question.1 q.question.2 =
            some (name.encode ++ (toBe16 q.qtype ++ toBe16 q.qclass)) ∧
              line = queryLine name q.qtype) := by
  obtain ⟨name, flags, qtype, rest, hflags, hqr, hopcode, hcount, hname, hahead, rfl, hlabels⟩ :=
    of_dns h
  refine ⟨_, _, hlabels, fun hroom => ?_⟩
  have hclass := ahead_word hahead.append
  have hlen := hclass.length
  have hpos : 1 < msg.length := Nat.lt_of_lt_of_le (by decide) hahead.1
  obtain ⟨id, hid⟩ := Dns.exists_be16 hpos
  obtain ⟨qclass, hq⟩ := Dns.exists_be16 (p := Dns.headerLen + name.encode.length + 2)
    (show _ < msg.length by omega)
  obtain ⟨rest', hq⟩ := be16_eq_some_iff.mp hq
  obtain rfl : rest = toBe16 qclass ++ rest' := by rw [← hclass.2, hq.2]
  have hquery : Dns.IsQuery msg name ⟨id, flags, qtype, qclass, (12, _)⟩ :=
    ⟨hid, hflags, hcount, hqr, hopcode, ⟨rest', hahead⟩, rfl⟩
  have hbudget := hname.budget
  exact ⟨_, name, Dns.parse_of_isQuery hquery (by omega), rfl, hquery.slice_question, rfl⟩

theorem parse_of_dns_plain :
    ∃ labels p, labelsFrom plainQuery 64 12 = some (labels, p) ∧
      (p + 4 ≤ plainQuery.length → ∃ (q : Dns.Query) (name : Dns.Name),
        Dns.parse plainQuery = some q ∧ q.question = (12, p + 4) ∧
          slice plainQuery q.question.1 q.question.2 =
            some (name.encode ++ (toBe16 q.qtype ++ toBe16 q.qclass)) ∧
              "DNS query A a" = queryLine name q.qtype) :=
  parse_of_dns (by decide)

end Classify

end KirbLaSnoop
