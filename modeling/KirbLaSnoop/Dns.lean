import Mathlib
import KirbLaSnoop.Lib.Cursor

/-!
# Answering a DNS query

A reply is built from the query: its header, its question section as it
stands, and at most one record.
-/

namespace KirbLaSnoop

namespace Dns

def typeA : UInt16 := 1
def typeAaaa : UInt16 := 28
def classIn : UInt16 := 1
def headerLen : ℕ := 12

/-- The addresses are kept as octets. -/
structure Answer where
  a : Option (Vector UInt8 4)
  aaaa : Option (Vector UInt8 16)
  ttl : UInt32
  deriving DecidableEq

/-- `question` is the byte range of the question section, end excluded. -/
structure Query where
  id : UInt16
  flags : UInt16
  qtype : UInt16
  qclass : UInt16
  question : ℕ × ℕ
  deriving DecidableEq

def slice (msg : List UInt8) (lo hi : ℕ) : Option (List UInt8) :=
  if lo ≤ hi ∧ hi ≤ msg.length then some ((msg.take hi).drop lo) else none

def be16 (b : List UInt8) (pos : ℕ) : Option UInt16 :=
  match b[pos]?, b[pos + 1]? with
  | some hi, some lo => some (hi.toUInt16 <<< 8 ||| lo.toUInt16)
  | _, _ => none

def toBe16 (n : UInt16) : List UInt8 := [(n >>> 8).toUInt8, n.toUInt8]

def toBe32 (n : UInt32) : List UInt8 :=
  [(n >>> 24).toUInt8, (n >>> 16).toUInt8, (n >>> 8).toUInt8, n.toUInt8]

/-- Walk the labels from `p` to the byte after the name. `left` counts down
from 128 where the source counts `labels` up. -/
def walkName (msg : List UInt8) (left p : ℕ) : Option ℕ :=
  match msg[p]? with
  | none => none
  | some len =>
      if len = 0 then some (p + 1)
      -- a compression pointer has no business in a question
      else if len &&& 0xc0 ≠ 0 then none
      else
        match left with
        | 0 => none
        | left + 1 =>
            if p + 1 + len.toNat ≤ msg.length then walkName msg left (p + 1 + len.toNat) else none

def parse (msg : List UInt8) : Option Query :=
  if msg.length < headerLen then none
  else do
    let id ← be16 msg 0
    let flags ← be16 msg 2
    let qdcount ← be16 msg 4
    if flags &&& 0x8000 ≠ 0 ∨ (flags >>> 11) &&& 0x0f ≠ 0 ∨ qdcount ≠ 1 then none
    else do
      let p ← walkName msg 128 headerLen
      let qtype ← be16 msg p
      let qclass ← be16 msg (p + 2)
      some ⟨id, flags, qtype, qclass, (headerLen, p + 4)⟩

/-- The address the answer holds for the query, if it holds one. -/
def rdata (q : Query) (ans : Answer) : Option (List UInt8) :=
  if q.qclass ≠ classIn then none
  else if q.qtype = typeA then ans.a.map Vector.toList
  else if q.qtype = typeAaaa then ans.aaaa.map Vector.toList
  else none

def header (q : Query) (answers : UInt16) : List UInt8 :=
  toBe16 q.id ++ toBe16 (0x8000 ||| (q.flags &&& 0x7800) ||| (q.flags &&& 0x0100) ||| 0x0080) ++
    toBe16 1 ++ toBe16 answers ++ toBe16 0 ++ toBe16 0

/-- The name is a compression pointer back to the question at offset 12. -/
def record (q : Query) (ttl : UInt32) (rd : List UInt8) : List UInt8 :=
  [0xc0, headerLen.toUInt8] ++ toBe16 q.qtype ++ toBe16 classIn ++ toBe32 ttl ++
    toBe16 rd.length.toUInt16 ++ rd

def reply (msg : List UInt8) (ans : Answer) : Option (List UInt8) := do
  let q ← parse msg
  let question ← slice msg q.question.1 q.question.2
  match rdata q ans with
  | some rd => some (header q 1 ++ question ++ record q ans.ttl rd)
  | none => some (header q 0 ++ question)

/-- Over tcp every message has a two-byte length in front. -/
def replyTcp (msg : List UInt8) (ans : Answer) : Option (List UInt8) := do
  let declared ← be16 msg 0
  let body ← slice msg 2 (2 + min declared.toNat (msg.length - 2))
  let inner ← reply body ans
  some (toBe16 inner.length.toUInt16 ++ inner)

/-! ## Reading fields -/

section Reading

variable {d bs rest : List UInt8} {p : ℕ}

theorem or_toUInt8 (n : UInt16) :
    (n >>> 8).toUInt8.toUInt16 <<< 8 ||| n.toUInt8.toUInt16 = n := by
  apply UInt16.toNat_inj.mp
  have hn := n.toNat_lt
  have hor := Nat.shiftLeft_add_eq_or_of_lt (show n.toNat % 256 < 2 ^ 8 by omega) (n.toNat / 256)
  simp only [UInt16.toNat_or, UInt16.toNat_shiftLeft, UInt8.toNat_toUInt16, UInt16.toNat_toUInt8,
    UInt16.toNat_shiftRight, UInt16.toNat_ofNat]
  simp only [Nat.shiftRight_eq_div_pow, Nat.shiftLeft_eq] at hor ⊢
  norm_num at hor ⊢
  have hhi : n.toNat / 256 % 256 * 256 % 65536 = n.toNat / 256 * 256 := by omega
  rw [hhi, ← hor]
  omega

theorem be16_ahead {n : UInt16} (h : Ahead d p (toBe16 n ++ rest)) : be16 d p = some n := by
  have hhi : d[p]? = some (n >>> 8).toUInt8 := h.getElem? 0
  have hlo : d[p + 1]? = some n.toUInt8 := h.getElem? 1
  unfold be16
  rw [hhi, hlo]
  exact congrArg some (or_toUInt8 n)

theorem toBe16_or (hi lo : UInt8) : toBe16 (hi.toUInt16 <<< 8 ||| lo.toUInt16) = [hi, lo] := by
  have hhi := hi.toNat_lt
  have hlo := lo.toNat_lt
  have hor := Nat.shiftLeft_add_eq_or_of_lt (show lo.toNat < 2 ^ 8 by omega) hi.toNat
  have hnat : (hi.toUInt16 <<< 8 ||| lo.toUInt16).toNat = hi.toNat * 256 + lo.toNat := by
    simp only [UInt16.toNat_or, UInt16.toNat_shiftLeft, UInt8.toNat_toUInt16, UInt16.toNat_ofNat]
    simp only [Nat.shiftLeft_eq] at hor ⊢
    norm_num at hor ⊢
    rw [Nat.mod_eq_of_lt (by omega), hor]
  have hfirst : ((hi.toUInt16 <<< 8 ||| lo.toUInt16) >>> 8).toUInt8 = hi := by
    apply UInt8.toNat_inj.mp
    rw [UInt16.toNat_toUInt8, UInt16.toNat_shiftRight, hnat, Nat.shiftRight_eq_div_pow]
    change (hi.toNat * 256 + lo.toNat) / 256 % 256 = hi.toNat
    omega
  have hsecond : (hi.toUInt16 <<< 8 ||| lo.toUInt16).toUInt8 = lo := by
    apply UInt8.toNat_inj.mp
    rw [UInt16.toNat_toUInt8, hnat]
    omega
  rw [toBe16, hfirst, hsecond]

/-- A word is read where it stands. -/
theorem be16_eq_some_iff {n : UInt16} :
    be16 d p = some n ↔ ∃ rest, Ahead d p (toBe16 n ++ rest) := by
  constructor
  · intro h
    unfold be16 at h
    split at h
    · next hi lo hhi hlo =>
        cases h
        obtain ⟨hp, hhi⟩ := List.getElem?_eq_some_iff.mp hhi
        obtain ⟨hp', hlo⟩ := List.getElem?_eq_some_iff.mp hlo
        refine ⟨d.drop (p + 2), hp.le, ?_⟩
        rw [toBe16_or, List.drop_eq_getElem_cons hp, hhi, List.drop_eq_getElem_cons hp', hlo]
        rfl
    · cases h
  · rintro ⟨rest, h⟩
    exact be16_ahead h

theorem exists_be16 (h : p + 1 < d.length) : ∃ n, be16 d p = some n := by
  have hp : d[p]? = some (d[p]) := List.getElem?_eq_getElem (by omega)
  have hp' : d[p + 1]? = some (d[p + 1]) := List.getElem?_eq_getElem h
  unfold be16
  rw [hp, hp']
  exact ⟨_, rfl⟩

theorem slice_ahead (h : Ahead d p (bs ++ rest)) : slice d p (p + bs.length) = some bs := by
  have hlen := h.length
  rw [List.length_append] at hlen
  unfold slice
  rw [if_pos ⟨by omega, by omega⟩, h.take]

theorem toNat_toUInt16 {n : ℕ} (h : n < 65536) : n.toUInt16.toNat = n := by
  rw [Nat.toUInt16_eq, UInt16.toNat_ofNat']
  exact Nat.mod_eq_of_lt h

theorem ahead_word {n : UInt16} (h : Ahead d p (toBe16 n ++ rest)) : Ahead d (p + 2) rest :=
  h.append

end Reading

/-! ## Sizes -/

/-- The bytes of the record with which the answer meets the query. -/
def recordLen (q : Query) (ans : Answer) : ℕ :=
  if q.qclass = classIn ∧ q.qtype = typeA ∧ ans.a.isSome then 16
  else if q.qclass = classIn ∧ q.qtype = typeAaaa ∧ ans.aaaa.isSome then 28
  else 0

theorem recordLen_le (q : Query) (ans : Answer) : recordLen q ans ≤ 28 := by
  unfold recordLen
  split_ifs <;> omega

theorem length_slice {msg out : List UInt8} {lo hi : ℕ} (h : slice msg lo hi = some out) :
    out.length = hi - lo := by
  unfold slice at h
  split at h
  · next hin =>
      cases h
      rw [List.length_drop, List.length_take, Nat.min_eq_left hin.2]
  · cases h

theorem walkName_bounds {msg : List UInt8} {left p q : ℕ} (h : walkName msg left p = some q) :
    p < q := by
  induction left generalizing p with
  | zero =>
      unfold walkName at h
      split at h
      · cases h
      · split at h
        · cases h
          exact Nat.lt_succ_self p
        · split at h <;> cases h
  | succ left ih =>
      unfold walkName at h
      split at h
      · cases h
      · next len hlen =>
          split at h
          · cases h
            exact Nat.lt_succ_self p
          · split at h
            · cases h
            · simp only [Option.ite_none_right_eq_some] at h
              have hnext := ih h.2
              omega

theorem be16_eq_some {b : List UInt8} {pos : ℕ} {w : UInt16} (h : be16 b pos = some w) :
    pos + 1 < b.length := by
  unfold be16 at h
  split at h
  · next hi lo hhi hlo => exact (List.getElem?_eq_some_iff.mp hlo).1
  · cases h

theorem parse_question {msg : List UInt8} {q : Query} (h : parse msg = some q) :
    q.question.1 = headerLen ∧ headerLen < q.question.2 ∧ q.question.2 ≤ msg.length := by
  unfold parse at h
  split at h
  · cases h
  · simp only [Option.bind_eq_bind, Option.bind_eq_some_iff, Option.ite_none_left_eq_some] at h
    obtain ⟨id, -, flags, -, qdcount, -, -, p, hwalk, qtype, -, qclass, hclass, hq⟩ := h
    cases hq
    have hp := walkName_bounds hwalk
    have hin := be16_eq_some hclass
    exact ⟨rfl, by dsimp only; omega, by dsimp only; omega⟩

theorem length_header (q : Query) (answers : UInt16) : (header q answers).length = headerLen := rfl

theorem length_record (q : Query) (ttl : UInt32) (rd : List UInt8) :
    (record q ttl rd).length = 12 + rd.length := by
  simp only [record, toBe16, toBe32, List.length_append, List.length_cons, List.length_nil]

theorem rdata_eq_some {q : Query} {ans : Answer} {rd : List UInt8} (h : rdata q ans = some rd) :
    12 + rd.length = recordLen q ans := by
  unfold rdata at h
  split at h
  · cases h
  · next hclass =>
      have hin : q.qclass = classIn := not_not.mp hclass
      split at h
      · next htype =>
          obtain ⟨ip, hip, rfl⟩ := Option.map_eq_some_iff.mp h
          simp [recordLen, hin, htype, hip]
      · next hnot =>
          split at h
          · next htype =>
              obtain ⟨ip, hip, rfl⟩ := Option.map_eq_some_iff.mp h
              have hne : typeAaaa ≠ typeA := by decide
              simp [recordLen, hin, htype, hip, hne]
          · cases h

theorem rdata_eq_none {q : Query} {ans : Answer} (h : rdata q ans = none) :
    recordLen q ans = 0 := by
  unfold rdata at h
  split at h
  · next hclass => simp [recordLen, hclass]
  · split at h
    · next htype =>
        have hne : typeA ≠ typeAaaa := by decide
        simp [recordLen, htype, Option.map_eq_none_iff.mp h, hne]
    · next hnot =>
        split at h
        · next htype => simp [recordLen, hnot, Option.map_eq_none_iff.mp h]
        · next hnot' => simp [recordLen, hnot, hnot']

/-- Every query is answered, with its question and at most one record. -/
theorem reply_of_parse {msg : List UInt8} {q : Query} (h : parse msg = some q) (ans : Answer) :
    ∃ out, reply msg ans = some out ∧ out.length = q.question.2 + recordLen q ans := by
  obtain ⟨hstart, hlt, hend⟩ := parse_question h
  have hslice : slice msg q.question.1 q.question.2 =
      some ((msg.take q.question.2).drop q.question.1) := if_pos ⟨by omega, hend⟩
  have hlen := length_slice hslice
  cases hrd : rdata q ans with
  | none =>
      refine ⟨header q 0 ++ (msg.take q.question.2).drop q.question.1, ?_, ?_⟩
      · simp [reply, h, hslice, hrd]
      · rw [List.length_append, length_header, hlen, rdata_eq_none hrd]
        omega
  | some rd =>
      have hrec := rdata_eq_some hrd
      refine ⟨header q 1 ++ (msg.take q.question.2).drop q.question.1 ++ record q ans.ttl rd,
        ?_, ?_⟩
      · simp [reply, h, hslice, hrd]
      · rw [List.length_append, List.length_append, length_header, length_record, hlen]
        omega

theorem reply_of_parse_none {msg : List UInt8} (h : parse msg = none) (ans : Answer) :
    reply msg ans = none := by
  simp [reply, h]

end Dns

end KirbLaSnoop
