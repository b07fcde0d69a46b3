import Mathlib
import KirbLaSnoop.Dns.Question

/-!
# Replies, decoded

A decoder for whole messages, with compression pointers. A reply decodes, to
its last byte, to an answer to the query it was made for, and it is no query
itself.
-/

namespace KirbLaSnoop

namespace Dns

/-! ## Messages -/

structure Flags where
  qr : Bool
  opcode : UInt16
  aa : Bool
  tc : Bool
  rd : Bool
  ra : Bool
  z : UInt16
  rcode : UInt16
  deriving DecidableEq

structure Question where
  name : List (List UInt8)
  qtype : UInt16
  qclass : UInt16
  deriving DecidableEq

structure Record where
  name : List (List UInt8)
  rtype : UInt16
  rclass : UInt16
  ttl : UInt32
  rdata : List UInt8
  deriving DecidableEq

structure Message where
  id : UInt16
  flags : Flags
  questions : List Question
  answers : List Record
  authorities : List Record
  additionals : List Record
  deriving DecidableEq

namespace Decode

def flags (w : UInt16) : Flags where
  qr := w &&& 0x8000 != 0
  opcode := (w >>> 11) &&& 0x0f
  aa := w &&& 0x0400 != 0
  tc := w &&& 0x0200 != 0
  rd := w &&& 0x0100 != 0
  ra := w &&& 0x0080 != 0
  z := (w >>> 4) &&& 0x07
  rcode := w &&& 0x0f

def be32 (d : List UInt8) (p : ℕ) : Option UInt32 := do
  let hi ← be16 d p
  let lo ← be16 d (p + 2)
  some (hi.toUInt32 <<< 16 ||| lo.toUInt32)

/-- The name at `p` and the offset after it. A pointer goes back to where the
rest of the name is. A name that ends is read in at most as many steps as the
message has bytes, since no offset comes twice. -/
def nameFrom (d : List UInt8) : ℕ → ℕ → Option (List (List UInt8) × ℕ)
  | 0, _ => none
  | steps + 1, p =>
      match Labels.labelAt d p with
      | some [] => some ([], p + 1)
      | some (b :: bs) =>
          (nameFrom d steps (p + 1 + (b :: bs).length)).map fun r => ((b :: bs) :: r.1, r.2)
      | none =>
          match be16 d p with
          | none => none
          | some w =>
              if w &&& 0xc000 = 0xc000 ∧ (w &&& 0x3fff).toNat < p then
                (nameFrom d steps (w &&& 0x3fff).toNat).map fun r => (r.1, p + 2)
              else none

def name (d : List UInt8) (p : ℕ) : Option (List (List UInt8) × ℕ) := nameFrom d d.length p

def question (d : List UInt8) (p : ℕ) : Option (Question × ℕ) := do
  let (name, p) ← name d p
  let qtype ← be16 d p
  let qclass ← be16 d (p + 2)
  some (⟨name, qtype, qclass⟩, p + 4)

def record (d : List UInt8) (p : ℕ) : Option (Record × ℕ) := do
  let (name, p) ← name d p
  let rtype ← be16 d p
  let rclass ← be16 d (p + 2)
  let ttl ← be32 d (p + 4)
  let rdlength ← be16 d (p + 8)
  let rdata ← slice d (p + 10) (p + 10 + rdlength.toNat)
  some (⟨name, rtype, rclass, ttl, rdata⟩, p + 10 + rdlength.toNat)

/-- As many entries as the header counts. -/
def entries {α : Type} (entry : ℕ → Option (α × ℕ)) : ℕ → ℕ → Option (List α × ℕ)
  | 0, p => some ([], p)
  | n + 1, p => do
      let (a, p) ← entry p
      let (as, p) ← entries entry n p
      some (a :: as, p)

/-- The message at the start of `d` and the offset after it. -/
def message (d : List UInt8) : Option (Message × ℕ) := do
  let id ← be16 d 0
  let word ← be16 d 2
  let qdcount ← be16 d 4
  let ancount ← be16 d 6
  let nscount ← be16 d 8
  let arcount ← be16 d 10
  let (questions, p) ← entries (question d) qdcount.toNat 12
  let (answers, p) ← entries (record d) ancount.toNat p
  let (authorities, p) ← entries (record d) nscount.toNat p
  let (additionals, p) ← entries (record d) arcount.toNat p
  some (⟨id, flags word, questions, answers, authorities, additionals⟩, p)

/-! ## Decoding what is written -/

section Ahead

variable {d rest : List UInt8} {p steps : ℕ} {ls : List (List UInt8)}

theorem toBe32_eq (n : UInt32) : toBe32 n = toBe16 (n >>> 16).toUInt16 ++ toBe16 n.toUInt16 := by
  have hn := n.toNat_lt
  simp only [toBe32, toBe16, List.cons_append, List.nil_append, List.cons.injEq, and_true,
    ← UInt8.toNat_inj, UInt32.toNat_toUInt8, UInt16.toNat_toUInt8, UInt16.toNat_shiftRight,
    UInt32.toNat_shiftRight, UInt32.toNat_toUInt16, Nat.shiftRight_eq_div_pow, UInt32.toNat_ofNat,
    UInt16.toNat_ofNat]
  norm_num
  omega

theorem or_toUInt16 (n : UInt32) :
    (n >>> 16).toUInt16.toUInt32 <<< 16 ||| n.toUInt16.toUInt32 = n := by
  apply UInt32.toNat_inj.mp
  have hn := n.toNat_lt
  have hor := Nat.shiftLeft_add_eq_or_of_lt (show n.toNat % 65536 < 2 ^ 16 by omega)
    (n.toNat / 65536)
  simp only [UInt32.toNat_or, UInt32.toNat_shiftLeft, UInt16.toNat_toUInt32, UInt32.toNat_toUInt16,
    UInt32.toNat_shiftRight, UInt32.toNat_ofNat]
  simp only [Nat.shiftRight_eq_div_pow, Nat.shiftLeft_eq] at hor ⊢
  norm_num at hor ⊢
  have hhi : n.toNat / 65536 % 65536 * 65536 % 4294967296 = n.toNat / 65536 * 65536 := by omega
  rw [hhi, ← hor]
  omega

theorem be32_ahead {n : UInt32} (h : Ahead d p (toBe32 n ++ rest)) : be32 d p = some n := by
  rw [toBe32_eq, List.append_assoc] at h
  unfold be32
  rw [be16_ahead h, be16_ahead (ahead_word h)]
  exact congrArg some (or_toUInt16 n)

theorem nameFrom_ahead (hfits : Labels.Fits ls) (hsteps : ls.length < steps)
    (h : Ahead d p (Labels.encode ls ++ rest)) :
    nameFrom d steps p = some (ls, p + (Labels.encode ls).length) := by
  induction ls generalizing steps p with
  | nil =>
      obtain ⟨steps, rfl⟩ : ∃ n, steps = n + 1 := ⟨steps - 1, by omega⟩
      have hlabel : Labels.labelAt d p = some [] := Labels.labelAt_ahead (Nat.zero_le _) h
      unfold nameFrom
      rw [hlabel]
      rfl
  | cons l ls ih =>
      obtain ⟨steps, rfl⟩ : ∃ n, steps = n + 1 := ⟨steps - 1, by omega⟩
      have hl := hfits l List.mem_cons_self
      rw [Labels.encode_cons, List.cons_append, List.append_assoc] at h
      have hlabel := Labels.labelAt_ahead hl.2 h
      have hrest := ih (fun l' hl' => hfits l' (List.mem_cons_of_mem _ hl'))
        (Nat.lt_of_succ_lt_succ hsteps) h.cons.append
      obtain ⟨b, bs, rfl⟩ : ∃ b bs, l = b :: bs := List.exists_cons_of_length_pos hl.1
      unfold nameFrom
      rw [hlabel]
      dsimp only
      rw [hrest]
      simp only [Option.map_some, Labels.encode_cons, List.length_cons, List.length_append]
      congr 2
      omega

/-- A pointer is followed to the name it points at. -/
theorem nameFrom_pointer {rest' : List UInt8} (hfits : Labels.Fits ls)
    (hsteps : ls.length + 1 < steps) (hname : Ahead d headerLen (Labels.encode ls ++ rest'))
    (hp : headerLen < p) (h : Ahead d p (0xc0 :: headerLen.toUInt8 :: rest)) :
    nameFrom d steps p = some (ls, p + 2) := by
  obtain ⟨steps, rfl⟩ : ∃ n, steps = n + 1 := ⟨steps - 1, by omega⟩
  have hlabel : Labels.labelAt d p = none := by
    rw [Labels.labelAt_byte h.head, if_neg fun hand => absurd hand.1 (by decide)]
  have hword : be16 d p = some 0xc00c := be16_ahead h
  have htarget : nameFrom d steps headerLen = some (ls, _) :=
    nameFrom_ahead hfits (Nat.lt_of_succ_lt_succ hsteps) hname
  unfold nameFrom
  rw [hlabel, hword]
  dsimp only
  rw [if_pos ⟨by decide, hp⟩]
  change (nameFrom d steps headerLen).map _ = _
  rw [htarget]
  rfl

theorem question_ahead {qtype qclass : UInt16} (hfits : Labels.Fits ls)
    (h : Ahead d p (Labels.encode ls ++ (toBe16 qtype ++ (toBe16 qclass ++ rest)))) :
    question d p = some (⟨ls, qtype, qclass⟩, p + (Labels.encode ls).length + 4) := by
  have hlen := h.length
  have hlt := Labels.length_lt_encode ls
  rw [List.length_append] at hlen
  have hname : name d p = some (ls, _) := nameFrom_ahead hfits (by omega) h
  unfold question
  simp only [hname, Option.bind_eq_bind, Option.bind_some, be16_ahead h.append,
    be16_ahead (ahead_word h.append)]

theorem record_ahead {q : Query} {ttl : UInt32} {rd rest' : List UInt8} (hfits : Labels.Fits ls)
    (hname : Ahead d headerLen (Labels.encode ls ++ rest')) (hp : headerLen < p)
    (hrd : rd.length < 65536) (h : Ahead d p (Dns.record q ttl rd ++ rest)) :
    record d p = some (⟨ls, q.qtype, classIn, ttl, rd⟩, p + (Dns.record q ttl rd).length) := by
  have hlen := hname.length
  have hlt := Labels.length_lt_encode ls
  rw [List.length_append] at hlen
  rw [length_record]
  simp only [Dns.record, List.append_assoc] at h
  have hlabels : name d p = some (ls, p + 2) :=
    nameFrom_pointer hfits (by simp only [headerLen] at hlen; omega) hname hp h
  have htype := h.cons.cons
  have hclass := ahead_word htype
  have httl : Ahead d (p + 2 + 4) _ := ahead_word hclass
  have hlength : Ahead d (p + 2 + 8) _ := httl.append
  have hdata : Ahead d (p + 2 + 10) _ := ahead_word hlength
  have hslice := slice_ahead hdata
  unfold record
  simp only [hlabels, Option.bind_eq_bind, Option.bind_some, be16_ahead htype, be16_ahead hclass,
    be32_ahead httl, be16_ahead hlength, toNat_toUInt16 hrd, hslice]
  congr 2
  omega

/-- A header, a question and nothing but answers after it. -/
theorem message_ahead {q : Query} {n : UInt16} {name : Name} {tail : List UInt8}
    {answers : List Record}
    (hd : d = header q n ++ (name.encode ++ (toBe16 q.qtype ++ (toBe16 q.qclass ++ tail))))
    (hanswers : entries (record d) n.toNat (headerLen + name.encode.length + 4) =
      some (answers, d.length)) :
    message d = some
      (⟨q.id, flags (0x8000 ||| (q.flags &&& 0x7800) ||| (q.flags &&& 0x0100) ||| 0x0080),
        [⟨name.labels, q.qtype, q.qclass⟩], answers, [], []⟩, d.length) := by
  have hid : Ahead d 0 d := Ahead.start d
  have hbody : Ahead d headerLen _ := hd ▸ Ahead.of_append (header q n) _
  conv at hid => rhs; rw [hd]
  simp only [header, List.append_assoc] at hid
  have hflags : Ahead d 2 _ := ahead_word hid
  have hqd : Ahead d 4 _ := ahead_word hflags
  have han : Ahead d 6 _ := ahead_word hqd
  have hns : Ahead d 8 _ := ahead_word han
  have har : Ahead d 10 _ := ahead_word hns
  have hquestion : entries (question d) (1 : UInt16).toNat 12 =
      some ([⟨name.labels, q.qtype, q.qclass⟩], headerLen + name.encode.length + 4) := by
    change entries (question d) 1 headerLen = _
    simp only [entries, question_ahead name.fits hbody, Option.bind_eq_bind, Option.bind_some]
    rfl
  have hnone (p : ℕ) : entries (record d) (0 : UInt16).toNat p = some ([], p) := rfl
  unfold message
  simp only [be16_ahead hid, be16_ahead hflags, be16_ahead hqd, be16_ahead han, be16_ahead hns,
    be16_ahead har, Option.bind_eq_bind, Option.bind_some, hquestion, hanswers, hnone]

end Ahead

theorem opcode_clear {f : UInt16} (h : (f >>> 11) &&& 0x0f = 0) : f &&& (0x7800 : UInt16) = 0 := by
  have hshift : f &&& (0x7800 : UInt16) = ((f >>> 11) &&& 0x0f) <<< (11 : UInt16) := by
    apply UInt16.toBitVec_inj.mp
    ext i hi
    interval_cases i <;> simp
  rw [hshift, h]
  rfl

theorem rd_cases (f : UInt16) : f &&& (0x0100 : UInt16) = 0 ∨ f &&& (0x0100 : UInt16) = 0x0100 := by
  have hbit := Nat.and_two_pow f.toNat 8
  cases hset : f.toNat.testBit 8 with
  | false =>
      rw [hset] at hbit
      exact Or.inl (UInt16.toNat_inj.mp hbit)
  | true =>
      rw [hset] at hbit
      exact Or.inr (UInt16.toNat_inj.mp hbit)

/-- The flags of a reply to a query without an opcode. -/
theorem flags_reply {f : UInt16} (hopcode : (f >>> 11) &&& 0x0f = 0) :
    flags (0x8000 ||| (f &&& 0x7800) ||| (f &&& 0x0100) ||| 0x0080) =
      { qr := true, opcode := 0, aa := false, tc := false, rd := (flags f).rd, ra := true,
        z := 0, rcode := 0 } := by
  have hflag : (flags f).rd = (f &&& 0x0100 != 0) := rfl
  rw [opcode_clear hopcode, hflag]
  rcases rd_cases f with h | h
  · rw [h]
    decide
  · rw [h]
    decide

end Decode

/-! ## Replies -/

/-- `addr` is the address of the asked type that is configured. -/
def Answer.Holds (ans : Answer) (q : Query) (addr : List UInt8) : Prop :=
  q.qclass = classIn ∧
    (q.qtype = typeA ∧ ans.a.map Vector.toList = some addr ∨
      q.qtype = typeAaaa ∧ ans.aaaa.map Vector.toList = some addr)

theorem rdata_eq_some_iff {q : Query} {ans : Answer} {addr : List UInt8} :
    rdata q ans = some addr ↔ ans.Holds q addr := by
  have hne : typeAaaa ≠ typeA := by decide
  unfold rdata Answer.Holds
  by_cases hclass : q.qclass = classIn
  · by_cases ha : q.qtype = typeA
    · simp [hclass, ha, hne.symm]
    · simp [hclass, ha]
  · simp [hclass]

/-- `m` answers the query `q` for `name`, with the address of the asked type
if there is one. -/
structure IsAnswer (ans : Answer) (name : Name) (q : Query) (m : Message) : Prop where
  id : m.id = q.id
  flags : m.flags =
    { qr := true, opcode := 0, aa := false, tc := false, rd := (Decode.flags q.flags).rd,
      ra := true, z := 0, rcode := 0 }
  questions : m.questions = [⟨name.labels, q.qtype, q.qclass⟩]
  answer : ∀ addr, ans.Holds q addr →
    m.answers = [⟨name.labels, q.qtype, classIn, ans.ttl, addr⟩]
  no_answer : (∀ addr, ¬ans.Holds q addr) → m.answers = []
  authorities : m.authorities = []
  additionals : m.additionals = []

theorem reply_eq {msg : List UInt8} {name : Name} {q : Query} (h : IsQuery msg name q)
    (hparse : parse msg = some q) (ans : Answer) :
    reply msg ans = some
      (header q (rdata q ans).toList.length.toUInt16 ++
        (name.encode ++ (toBe16 q.qtype ++ (toBe16 q.qclass ++
          (rdata q ans).elim [] (record q ans.ttl))))) := by
  have hslice := h.slice_question
  cases hrd : rdata q ans with
  | none => simp [reply, hparse, hslice, hrd]
  | some rd => simp [reply, hparse, hslice, hrd]

theorem length_rdata {q : Query} {ans : Answer} {rd : List UInt8} (h : rdata q ans = some rd) :
    rd.length < 65536 := by
  have hlen := rdata_eq_some h
  have hbound := recordLen_le q ans
  omega

theorem message_reply {msg out : List UInt8} {name : Name} {q : Query} (h : IsQuery msg name q)
    (hparse : parse msg = some q) {ans : Answer} (hout : reply msg ans = some out) :
    Decode.message out = some
      (⟨q.id, Decode.flags (0x8000 ||| (q.flags &&& 0x7800) ||| (q.flags &&& 0x0100) ||| 0x0080),
        [⟨name.labels, q.qtype, q.qclass⟩],
        (rdata q ans).toList.map fun rd => ⟨name.labels, q.qtype, classIn, ans.ttl, rd⟩, [], []⟩,
        out.length) := by
  rw [reply_eq h hparse, Option.some.injEq] at hout
  refine Decode.message_ahead hout.symm ?_
  have hname : Ahead out headerLen _ := hout ▸ Ahead.of_append (header q _) _
  have hend := ahead_word (ahead_word hname.append)
  have hpos : 0 < name.encode.length :=
    Nat.zero_lt_of_lt (Labels.length_lt_encode name.labels)
  cases hrd : rdata q ans with
  | none =>
      rw [hrd] at hend
      have hlen : out.length = headerLen + name.encode.length + 4 := hend.length
      rw [hlen]
      rfl
  | some rd =>
      rw [hrd] at hend
      have htail : Ahead out (headerLen + name.encode.length + 4) (record q ans.ttl rd ++ []) := by
        rw [List.append_nil]
        exact hend
      have hlen : out.length = headerLen + name.encode.length + 4 + (record q ans.ttl rd).length :=
        hend.length
      have hrecord := Decode.record_ahead name.fits hname (by omega) (length_rdata hrd) htail
      change Decode.entries _ 1 _ = _
      simp only [Decode.entries, hrecord, Option.bind_eq_bind, Option.bind_some, hlen]
      rfl

/-- What decodes as a response is not a query. -/
theorem parse_of_response {d : List UInt8} {m : Message} {p : ℕ}
    (h : Decode.message d = some (m, p)) (hqr : m.flags.qr = true) : parse d = none := by
  unfold Decode.message at h
  simp only [Option.bind_eq_bind, Option.bind_eq_some_iff] at h
  obtain ⟨id, -, word, hword, qdcount, -, ancount, -, nscount, -, arcount, -, questions, -, answers,
    -, authorities, -, additionals, -, hm⟩ := h
  cases hm
  by_contra hsome
  obtain ⟨q, hparse⟩ := Option.ne_none_iff_exists'.mp hsome
  obtain ⟨name, -, hquery⟩ := isQuery_of_parse hparse
  obtain rfl : word = q.flags := Option.some.inj (hword.symm.trans hquery.flags)
  simp [Decode.flags, hquery.qr] at hqr

/-- The reply to a query decodes whole to an answer to it, other messages get
no reply, and neither does a reply. -/
theorem reply_isAnswer (msg : List UInt8) (ans : Answer) :
    ((reply msg ans).isSome ↔ (parse msg).isSome) ∧
      (∀ q, parse msg = some q → ∃ name out m, IsQuery msg name q ∧ reply msg ans = some out ∧
        Decode.message out = some (m, out.length) ∧ IsAnswer ans name q m) ∧
      ∀ out ans', reply msg ans = some out → reply out ans' = none := by
  have hquery (q : Query) (hparse : parse msg = some q) :
      ∃ name out m, IsQuery msg name q ∧ reply msg ans = some out ∧
        Decode.message out = some (m, out.length) ∧ IsAnswer ans name q m := by
    obtain ⟨name, -, h⟩ := isQuery_of_parse hparse
    have hreply := reply_eq h hparse ans
    refine ⟨name, _, _, h, hreply, message_reply h hparse hreply, ?_⟩
    exact
      { id := rfl
        flags := Decode.flags_reply h.opcode
        questions := rfl
        answer := fun addr hholds => by rw [rdata_eq_some_iff.mpr hholds]; rfl
        no_answer := fun hnone => by
          rw [Option.eq_none_iff_forall_ne_some.mpr fun addr hrd =>
            hnone addr (rdata_eq_some_iff.mp hrd)]
          rfl
        authorities := rfl
        additionals := rfl }
  refine ⟨?_, hquery, ?_⟩
  · cases hparse : parse msg with
    | none => simp [reply_of_parse_none hparse]
    | some q =>
        obtain ⟨name, out, m, -, hreply, -⟩ := hquery q hparse
        simp [hreply]
  · intro out ans' hout
    cases hparse : parse msg with
    | none =>
        rw [reply_of_parse_none hparse] at hout
        cases hout
    | some q =>
        obtain ⟨name, out', m, -, hreply, hdecode, hanswer⟩ := hquery q hparse
        obtain rfl : out' = out := Option.some.inj (hreply.symm.trans hout)
        have hqr : m.flags.qr = true := by rw [hanswer.flags]
        exact reply_of_parse_none (parse_of_response hdecode hqr) ans'

end Dns

end KirbLaSnoop
