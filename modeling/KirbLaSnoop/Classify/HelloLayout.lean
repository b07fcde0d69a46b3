import Mathlib
import KirbLaSnoop.Classify.Hello

/-!
# Hellos as they come

The bytes of a record with a ClientHello, laid out without a reader, and what
the readers take from each place. The hello need not be well formed: a type may
come twice, an extension may be longer than the block it is in, and a name may
be any bytes.
-/

namespace KirbLaSnoop

namespace Classify

open Dns (be16 slice toBe16 be16_ahead be16_eq_some_iff slice_ahead ahead_word toNat_toUInt16)

section Vectors

variable {d bs rest : List UInt8} {p : ℕ}

theorem slice_eq_some {k : ℕ} (h : slice d p (p + k) = some bs) :
    bs.length = k ∧ ∃ rest, Ahead d p (bs ++ rest) := by
  unfold slice at h
  split_ifs at h with hin
  cases h
  have hlen : ((d.take (p + k)).drop p).length = k := by
    rw [List.length_drop, List.length_take]
    omega
  refine ⟨hlen, d.drop (p + k), by omega, ?_⟩
  rw [List.drop_take, Nat.add_sub_cancel_left, ← List.drop_drop, List.take_append_drop]

/-- A number, and what is there behind as many bytes as it says. -/
theorem ahead_vec8 {n : UInt8} (hn : d[p]? = some n) (h : Ahead d (p + (1 + n.toNat)) rest) :
    ∃ bs, bs.length < 256 ∧ bs.length = n.toNat ∧ Ahead d p (vec8 bs ++ rest) := by
  obtain ⟨behind, hp⟩ := Ahead.of_getElem? hn
  rw [← Nat.add_assoc] at h
  obtain ⟨bs, hlen, rfl⟩ := hp.cons.split h
  have hlt := n.toNat_lt
  refine ⟨bs, by omega, hlen, ?_⟩
  rw [vec8, hlen, Nat.toUInt8_eq, UInt8.ofNat_toNat]
  exact hp

theorem ahead_vec16 {n : UInt16} (hn : be16 d p = some n)
    (h : Ahead d (p + (2 + n.toNat)) rest) :
    ∃ bs, bs.length < 65536 ∧ bs.length = n.toNat ∧ Ahead d p (vec16 bs ++ rest) := by
  obtain ⟨behind, hp⟩ := be16_eq_some_iff.mp hn
  rw [← Nat.add_assoc] at h
  obtain ⟨bs, hlen, rfl⟩ := (ahead_word hp).split h
  have hlt := n.toNat_lt
  refine ⟨bs, by omega, hlen, ?_⟩
  rw [vec16, hlen, Nat.toUInt16_eq, UInt16.ofNat_toNat, List.append_assoc]
  exact hp

theorem ahead_slice8 {n : UInt8} (hn : d[p]? = some n)
    (hbs : slice d (p + 1) (p + 1 + n.toNat) = some bs) :
    bs.length < 256 ∧ ∃ rest, Ahead d p (vec8 bs ++ rest) := by
  obtain ⟨hlen, rest, hp⟩ := slice_eq_some hbs
  have hrest := hp.append
  rw [hlen, Nat.add_assoc] at hrest
  obtain ⟨bs', hfits, hlen', hvec⟩ := ahead_vec8 hn hrest
  obtain rfl : bs' = bs :=
    List.append_inj_left (hvec.cons.unique hp) (hlen'.trans hlen.symm)
  exact ⟨hfits, rest, hvec⟩

theorem ahead_slice16 {n : UInt16} (hn : be16 d p = some n)
    (hbs : slice d (p + 2) (p + 2 + n.toNat) = some bs) :
    bs.length < 65536 ∧ ∃ rest, Ahead d p (vec16 bs ++ rest) := by
  obtain ⟨hlen, rest, hp⟩ := slice_eq_some hbs
  have hrest := hp.append
  rw [hlen, Nat.add_assoc] at hrest
  obtain ⟨bs', hfits, hlen', hvec⟩ := ahead_vec16 hn hrest
  have hbehind : Ahead d (p + 2) (bs' ++ rest) := by
    rw [vec16, List.append_assoc] at hvec
    exact ahead_word hvec
  obtain rfl : bs' = bs :=
    List.append_inj_left (hbehind.unique hp) (hlen'.trans hlen.symm)
  exact ⟨hfits, rest, hvec⟩

/-- A vector is read where it stands. -/
theorem slice8_ahead (h : Ahead d p (vec8 bs ++ rest)) (hfits : bs.length < 256) :
    d[p]? = some bs.length.toUInt8 ∧
      slice d (p + 1) (p + 1 + bs.length.toUInt8.toNat) = some bs := by
  refine ⟨h.head, ?_⟩
  rw [toNat_toUInt8 hfits]
  exact slice_ahead h.cons

theorem slice16_ahead (h : Ahead d p (vec16 bs ++ rest)) (hfits : bs.length < 65536) :
    be16 d p = some bs.length.toUInt16 ∧
      slice d (p + 2) (p + 2 + bs.length.toUInt16.toNat) = some bs := by
  rw [vec16, List.append_assoc] at h
  refine ⟨be16_ahead h, ?_⟩
  rw [toNat_toUInt16 hfits]
  exact slice_ahead (ahead_word h)

theorem length_vec8 : (vec8 bs).length = 1 + bs.length := Nat.add_comm _ 1

theorem length_vec16 : (vec16 bs).length = 2 + bs.length := by
  rw [vec16, List.length_append]
  rfl

end Vectors

/-! ## Names in an extension -/

/-- The first host name of a server_name list, behind entries of other types. -/
inductive FirstHost : List UInt8 → List UInt8 → Prop
  | here {name rest : List UInt8} (hfits : name.length < 65536) :
      FirstHost (0 :: (vec16 name ++ rest)) name
  | later {kind : UInt8} {other rest name : List UInt8} (hkind : kind ≠ 0)
      (hfits : other.length < 65536) (hrest : FirstHost rest name) :
      FirstHost (kind :: (vec16 other ++ rest)) name

/-- The names of a list of protocols, as far as they are there. -/
inductive ProtoIn : List UInt8 → List UInt8 → Prop
  | here {name rest : List UInt8} (hfits : name.length < 256) : ProtoIn (vec8 name ++ rest) name
  | later {other rest name : List UInt8} (hfits : other.length < 256) (hrest : ProtoIn rest name) :
      ProtoIn (vec8 other ++ rest) name

section Names

variable {b bs : List UInt8} {p rounds : ℕ} {t : String}

theorem parseSniFrom_of_firstHost {name : List UInt8} (h : FirstHost bs name)
    (hp : Ahead b p bs) (hrounds : bs.length ≤ rounds) :
    parseSniFrom b rounds p = some (lossyString name) := by
  have hstep {kind : UInt8} {entry rest : List UInt8} {p rounds : ℕ}
      (hp : Ahead b p (kind :: (vec16 entry ++ rest))) (hfits : entry.length < 65536) :
      parseSniFrom b (rounds + 1) p =
        if kind = 0 then some (lossyString entry)
        else parseSniFrom b rounds (p + 3 + entry.length.toUInt16.toNat) := by
    have hlen := hp.length
    rw [List.length_cons, List.length_append, length_vec16] at hlen
    obtain ⟨hword, hslice⟩ := slice16_ahead hp.cons hfits
    have hoff : p + 1 + 2 = p + 3 := rfl
    rw [hoff] at hslice
    rw [parseSniFrom, if_pos (by omega), hp.head, hword]
    simp only [Option.bind_eq_bind, Option.bind_some]
    rw [hslice, Option.bind_some]
  induction h generalizing p rounds with
  | here hfits =>
      obtain ⟨rounds, rfl⟩ : ∃ r, rounds = r + 1 := ⟨rounds - 1, by simp at hrounds; omega⟩
      rw [hstep hp hfits, if_pos rfl]
  | @later kind other rest name hkind hfits _ ih =>
      obtain ⟨rounds, rfl⟩ : ∃ r, rounds = r + 1 := ⟨rounds - 1, by simp at hrounds; omega⟩
      rw [List.length_cons, List.length_append, length_vec16] at hrounds
      have hrest := hp.cons.append
      rw [length_vec16, Nat.add_assoc, ← Nat.add_assoc 1] at hrest
      rw [hstep hp hfits, if_neg hkind, toNat_toUInt16 hfits, Nat.add_assoc]
      exact ih hrest (by omega)

theorem firstHost_of_parseSniFrom (hp : Ahead b p bs) (hrounds : bs.length ≤ rounds)
    (h : parseSniFrom b rounds p = some t) : ∃ name, FirstHost bs name ∧ t = lossyString name := by
  induction rounds generalizing p bs with
  | zero => cases h
  | succ rounds ih =>
      rw [parseSniFrom] at h
      split_ifs at h
      simp only [Option.bind_eq_bind, Option.bind_eq_some_iff] at h
      obtain ⟨kind, hkind, len, hlen, entry, hentry, h⟩ := h
      obtain ⟨behind, hbehind⟩ := Ahead.of_getElem? hkind
      obtain ⟨hfits, rest, hrest⟩ := ahead_slice16 hlen hentry
      obtain rfl : behind = vec16 entry ++ rest := hbehind.cons.unique hrest
      obtain rfl : bs = kind :: (vec16 entry ++ rest) := hp.unique hbehind
      split_ifs at h with hzero
      · cases h
        subst hzero
        exact ⟨entry, .here hfits, rfl⟩
      · have hnext := hrest.append
        have hlength := (slice_eq_some hentry).1
        rw [length_vec16, hlength] at hnext
        rw [List.length_cons, List.length_append, length_vec16] at hrounds
        obtain ⟨name, hname, rfl⟩ := ih (by rwa [← Nat.add_assoc] at hnext) (by omega) h
        exact ⟨name, .later hzero hfits hname, rfl⟩

/-- The name of a server_name extension, behind the length of its list. -/
theorem parseSni_eq_some_iff {body : List UInt8} :
    parseSni body = some t ↔ ∃ name, FirstHost (body.drop 2) name ∧ t = lossyString name := by
  rcases Nat.lt_or_ge body.length 2 with hshort | hlong
  · have hdrop : body.drop 2 = [] := List.drop_eq_nil_of_le hshort.le
    have hnone : parseSni body = none := by
      unfold parseSni
      cases hbody : body.length with
      | zero => rfl
      | succ n => rw [parseSniFrom, if_neg (by omega)]
    rw [hdrop, hnone]
    refine iff_of_false (by simp) ?_
    rintro ⟨name, hname, -⟩
    cases hname
  · have hp : Ahead body 2 (body.drop 2) := ⟨hlong, rfl⟩
    have hrounds : (body.drop 2).length ≤ body.length := by
      rw [List.length_drop]
      omega
    constructor
    · exact firstHost_of_parseSniFrom hp hrounds
    · rintro ⟨name, hname, rfl⟩
      exact parseSniFrom_of_firstHost hname hp hrounds

theorem mem_parseAlpnFrom {name : List UInt8} (h : ProtoIn bs name) (hp : Ahead b p bs)
    (hrounds : bs.length ≤ rounds) : lossyString name ∈ parseAlpnFrom b rounds p := by
  have hstep {entry rest : List UInt8} {p rounds : ℕ} (hp : Ahead b p (vec8 entry ++ rest))
      (hfits : entry.length < 256) :
      parseAlpnFrom b (rounds + 1) p =
        lossyString entry :: parseAlpnFrom b rounds (p + 1 + entry.length.toUInt8.toNat) := by
    obtain ⟨hlen, hslice⟩ := slice8_ahead hp hfits
    rw [parseAlpnFrom, hlen]
    dsimp only
    rw [hslice]
  induction h generalizing p rounds with
  | here hfits =>
      obtain ⟨rounds, rfl⟩ : ∃ r, rounds = r + 1 :=
        ⟨rounds - 1, by rw [List.length_append, length_vec8] at hrounds; omega⟩
      rw [hstep hp hfits]
      exact List.mem_cons_self
  | later hfits _ ih =>
      rw [List.length_append, length_vec8] at hrounds
      obtain ⟨rounds, rfl⟩ : ∃ r, rounds = r + 1 := ⟨rounds - 1, by omega⟩
      have hrest := hp.append
      rw [length_vec8, ← Nat.add_assoc] at hrest
      rw [hstep hp hfits, toNat_toUInt8 hfits]
      exact List.mem_cons_of_mem _ (ih hrest (by omega))

theorem protoIn_of_mem (hp : Ahead b p bs) (hrounds : bs.length ≤ rounds)
    (h : t ∈ parseAlpnFrom b rounds p) : ∃ name, ProtoIn bs name ∧ t = lossyString name := by
  induction rounds generalizing p bs with
  | zero => cases h
  | succ rounds ih =>
      rw [parseAlpnFrom] at h
      split at h
      · cases h
      · next n hn =>
          split at h
          · cases h
          · next proto hproto =>
              obtain ⟨hfits, rest, hrest⟩ := ahead_slice8 hn hproto
              obtain rfl : bs = vec8 proto ++ rest := hp.unique hrest
              rcases List.mem_cons.mp h with rfl | hlater
              · exact ⟨proto, .here hfits, rfl⟩
              · have hnext := hrest.append
                rw [length_vec8, (slice_eq_some hproto).1, ← Nat.add_assoc] at hnext
                rw [List.length_append, length_vec8] at hrounds
                obtain ⟨name, hname, rfl⟩ := ih hnext (by omega) hlater
                exact ⟨name, .later hfits hname, rfl⟩

theorem mem_parseAlpn_iff {body : List UInt8} :
    t ∈ parseAlpn body ↔ ∃ name, ProtoIn (body.drop 2) name ∧ t = lossyString name := by
  rcases Nat.lt_or_ge body.length 2 with hshort | hlong
  · have hdrop : body.drop 2 = [] := List.drop_eq_nil_of_le hshort.le
    have hnil : parseAlpn body = [] := by
      unfold parseAlpn
      cases hbody : body.length with
      | zero => rfl
      | succ n => rw [parseAlpnFrom, List.getElem?_eq_none hshort.le]
    rw [hdrop, hnil]
    refine iff_of_false List.not_mem_nil ?_
    rintro ⟨name, hname, -⟩
    generalize hbs : ([] : List UInt8) = bs at hname
    cases hname <;> cases hbs
  · have hp : Ahead body 2 (body.drop 2) := ⟨hlong, rfl⟩
    have hrounds : (body.drop 2).length ≤ body.length := by
      rw [List.length_drop]
      omega
    constructor
    · exact protoIn_of_mem hp hrounds
    · rintro ⟨name, hname, rfl⟩
      exact mem_parseAlpnFrom hname hp hrounds

end Names

/-! ## The extensions of a hello -/

/-- Extensions as their types and bodies, as long as four bytes of the block
are left. The body of the last one may reach over its end. -/
inductive Exts : ℕ → List UInt8 → List (UInt16 × List UInt8) → Prop
  | stop {room : ℕ} {bs : List UInt8} (hroom : room < 4) : Exts room bs []
  | ext {room : ℕ} {kind : UInt16} {body rest : List UInt8} {es : List (UInt16 × List UInt8)}
      (hroom : 4 ≤ room) (hfits : body.length < 65536)
      (hrest : Exts (room - (4 + body.length)) rest es) :
      Exts room (toBe16 kind ++ (vec16 body ++ rest)) ((kind, body) :: es)

/-- The body of the last extension of its type. -/
def LastBody (kind : UInt16) (es : List (UInt16 × List UInt8)) (body : List UInt8) : Prop :=
  (es.filter fun e => e.1 == kind).getLast? = some (kind, body)

/-- What is known after one more extension. -/
def Seen.read (s : Seen) (e : UInt16 × List UInt8) : Seen := (s.extension e.1 e.2).getD s

theorem exists_maxVersionFrom {b : List UInt8} {stop : ℕ} (hstop : stop ≤ b.length)
    (rounds i : ℕ) (best : UInt16) : ∃ v, maxVersionFrom b stop rounds i best = some v := by
  induction rounds generalizing i best with
  | zero => exact ⟨best, rfl⟩
  | succ rounds ih =>
      rw [maxVersionFrom]
      split_ifs with hin
      · obtain ⟨v, hv⟩ := Dns.exists_be16 (d := b) (p := i) (by omega)
        rw [hv]
        exact ih (i + 2) _
      · exact ⟨best, rfl⟩

/-- No extension by itself ends the reading. -/
theorem extension_eq_read (s : Seen) (kind : UInt16) (body : List UInt8) :
    s.extension kind body = some (s.read (kind, body)) := by
  have hmax : ∃ v, maxVersion body s.supportedMax = some v := by
    unfold maxVersion
    split
    · exact exists_maxVersionFrom (Nat.min_le_right _ _) _ _ _
    · exact ⟨_, rfl⟩
  obtain ⟨v, hv⟩ := hmax
  obtain ⟨s', hs'⟩ : ∃ s', s.extension kind body = some s' := by
    unfold Seen.extension
    rw [hv]
    split_ifs <;> exact ⟨_, rfl⟩
  rw [Seen.read, hs', Option.getD_some]

theorem Seen.sni_read (s : Seen) (kind : UInt16) (body : List UInt8) :
    (s.read (kind, body)).sni = if kind = 0x0000 then parseSni body else s.sni := by
  have h := extension_eq_read s kind body
  unfold Seen.extension at h
  split_ifs at h ⊢ with hsni halpn hversions
  · rw [← Option.some.inj h]
  · rw [← Option.some.inj h]
  · obtain ⟨v, -, hv⟩ := Option.map_eq_some_iff.mp h
    rw [← hv]
  · rw [← Option.some.inj h]

theorem Seen.alpn_read (s : Seen) (kind : UInt16) (body : List UInt8) :
    (s.read (kind, body)).alpn = if kind = 0x0010 then parseAlpn body else s.alpn := by
  have h := extension_eq_read s kind body
  unfold Seen.extension at h
  split_ifs at h ⊢ with hsni halpn hversions
  · subst hsni
    cases halpn
  · rw [← Option.some.inj h]
  · rw [← Option.some.inj h]
  · obtain ⟨v, -, hv⟩ := Option.map_eq_some_iff.mp h
    rw [← hv]
  · rw [← Option.some.inj h]

section Extensions

variable {d bs : List UInt8} {p stop rounds : ℕ} {s s' : Seen}

theorem extensionsFrom_exts {room : ℕ} {es : List (UInt16 × List UInt8)} (h : Exts room bs es)
    (hp : Ahead d p bs) (hroom : stop - p = room) (hrounds : bs.length ≤ rounds) :
    extensionsFrom d stop rounds p s = some (es.foldl Seen.read s) := by
  induction h generalizing p rounds s with
  | stop hshort => exact extensionsFrom_stop (by omega) s
  | @ext room kind body rest es hlong hfits _ ih =>
      have hword := ahead_word hp
      obtain ⟨hlen, hslice⟩ := slice16_ahead hword hfits
      have hnext := hword.append
      rw [List.length_append, List.length_append, length_vec16] at hrounds
      obtain ⟨rounds, rfl⟩ : ∃ r, rounds = r + 1 := ⟨rounds - 1, by simp [toBe16] at hrounds; omega⟩
      have hoff : p + 2 + 2 = p + 4 := rfl
      have hbehind : p + 2 + (2 + body.length) = p + 4 + body.length := by omega
      rw [hoff, toNat_toUInt16 hfits] at hslice
      rw [length_vec16, hbehind] at hnext
      rw [extensionsFrom, if_pos (by omega), be16_ahead hp, hlen]
      simp only [Option.bind_eq_bind, Option.bind_some]
      rw [toNat_toUInt16 hfits, hslice, Option.bind_some, extension_eq_read, Option.bind_some,
        List.foldl_cons]
      exact ih hnext (by omega) (by simp [toBe16] at hrounds; omega)

theorem exts_of_extensionsFrom (hp : Ahead d p bs) (hstop : stop ≤ d.length)
    (hrounds : bs.length ≤ rounds) (h : extensionsFrom d stop rounds p s = some s') :
    ∃ es, Exts (stop - p) bs es ∧ s' = es.foldl Seen.read s := by
  induction rounds generalizing p bs s with
  | zero =>
      have hlen := hp.length
      cases h
      exact ⟨[], .stop (by omega), rfl⟩
  | succ rounds ih =>
      rw [extensionsFrom] at h
      split_ifs at h with hin
      · simp only [Option.bind_eq_bind, Option.bind_eq_some_iff] at h
        obtain ⟨kind, hkind, len, hlen, body, hbody, t, ht, h⟩ := h
        cases (extension_eq_read s kind body).symm.trans ht
        obtain ⟨behind, hbehind⟩ := be16_eq_some_iff.mp hkind
        obtain ⟨hfits, rest, hrest⟩ := ahead_slice16 hlen hbody
        obtain rfl : behind = vec16 body ++ rest := (ahead_word hbehind).unique hrest
        obtain rfl : bs = toBe16 kind ++ (vec16 body ++ rest) := hp.unique hbehind
        have hlength := (slice_eq_some hbody).1
        have hnext := hrest.append
        have hoff : p + 2 + (2 + body.length) = p + 4 + len.toNat := by omega
        rw [length_vec16, hoff] at hnext
        rw [List.length_append, List.length_append, length_vec16] at hrounds
        obtain ⟨es, hes, rfl⟩ := ih hnext (by simp [toBe16] at hrounds; omega) h
        have hroom : stop - (p + 4 + len.toNat) = stop - p - (4 + body.length) := by omega
        rw [hroom] at hes
        exact ⟨(kind, body) :: es, .ext (by omega) hfits hes, rfl⟩
      · cases h
        exact ⟨[], .stop (by omega), rfl⟩

end Extensions

/-- What only one type of extension sets is what the last of them gives. -/
theorem foldl_read_iff {α : Type*} {val : Seen → α} {given : List UInt8 → α} {kind : UInt16}
    {P : α → Prop}
    (hread : ∀ (s : Seen) k body, val (s.read (k, body)) = if k = kind then given body else val s)
    (es : List (UInt16 × List UInt8)) {s : Seen} (hs : ¬P (val s)) :
    P (val (es.foldl Seen.read s)) ↔ ∃ body, LastBody kind es body ∧ P (given body) := by
  induction es using List.reverseRecOn with
  | nil => exact iff_of_false hs (by simp [LastBody])
  | append_singleton es e ih =>
      rw [List.foldl_append, List.foldl_cons, List.foldl_nil]
      obtain ⟨kind', body'⟩ := e
      rw [hread]
      by_cases hkind : kind' = kind
      · subst hkind
        simp [LastBody]
      · rw [if_neg hkind, ih]
        simp [LastBody, hkind]

/-- A record with a ClientHello in it. Headers, version and random are 43 bytes;
session, ciphers and compression have their lengths in front of them, and so
has the block of extensions, of which the end may be missing. -/
inductive HelloOf : List UInt8 → List (UInt16 × List UInt8) → Prop
  | mk {front session ciphers compression block : List UInt8} {total : UInt16}
      {es : List (UInt16 × List UInt8)} (hfront : front.length = 43)
      (hkind : front[0]? = some 0x16) (hmajor : front[1]? = some 0x03)
      (hhandshake : front[5]? = some 0x01) (hsession : session.length < 256)
      (hciphers : ciphers.length < 65536) (hcompression : compression.length < 256)
      (hexts : Exts (min total.toNat block.length) block es) :
      HelloOf (front ++ (vec8 session ++ (vec16 ciphers ++ (vec8 compression ++
        (toBe16 total ++ block))))) es

theorem HelloOf.headers {d : List UInt8} {es : List (UInt16 × List UInt8)} (h : HelloOf d es) :
    d[0]? = some 0x16 ∧ d[1]? = some 0x03 ∧ d[5]? = some 0x01 := by
  obtain ⟨hfront, hkind, hmajor, hhandshake, -, -, -, -⟩ := h
  refine ⟨?_, ?_, ?_⟩ <;>
    · rw [List.getElem?_append_left (by omega)]
      assumption

theorem HelloOf.hello_eq {d : List UInt8} {es : List (UInt16 × List UInt8)} (h : HelloOf d es) :
    ∃ legacy n, hello d = some ⟨es.foldl Seen.read ⟨none, [], legacy⟩, n⟩ := by
  obtain @⟨front, session, ciphers, compression, block, total, es, hfront, -, -, -, hsession,
    hciphers, hcompression, hexts⟩ := h
  have hp := Ahead.of_append front (vec8 session ++ (vec16 ciphers ++ (vec8 compression ++
    (toBe16 total ++ block))))
  obtain ⟨d, hd⟩ : ∃ d, front ++ (vec8 session ++ (vec16 ciphers ++ (vec8 compression ++
    (toBe16 total ++ block)))) = d := ⟨_, rfl⟩
  rw [hd, hfront] at hp
  rw [hd]
  have hlen := hp.length
  obtain ⟨legacy, hlegacy⟩ := Dns.exists_be16 (d := d) (p := 9) (by omega)
  obtain ⟨hsid, hcs⟩ := vec8_ahead hp hsession
  obtain ⟨hcsLen, hcomp⟩ := vec16_ahead hcs hciphers
  obtain ⟨hcompLen, htotal⟩ := vec8_ahead hcomp hcompression
  have hblock := ahead_word htotal
  have hend := hblock.length
  refine ⟨legacy, ciphers.length.toUInt16.toNat / 2, ?_⟩
  unfold hello
  simp only [Option.bind_eq_bind]
  rw [hlegacy, Option.bind_some, hsid, Option.bind_some, hcsLen, Option.bind_some, hcompLen,
    Option.bind_some, be16_ahead htotal]
  dsimp only
  rw [extensionsFrom_exts hexts hblock (by omega) (by omega), Option.bind_some]

/-- A hello without a block of extensions names nothing. -/
theorem helloOf_of_hello {d : List UInt8} {f : Hello} (h : hello d = some f)
    (hkind : d[0]? = some 0x16) (hmajor : d[1]? = some 0x03) (hhandshake : d[5]? = some 0x01) :
    (∃ es legacy, HelloOf d es ∧ f.seen = es.foldl Seen.read ⟨none, [], legacy⟩) ∨
      (f.seen.sni = none ∧ f.seen.alpn = []) := by
  unfold hello at h
  simp only [Option.bind_eq_bind, Option.bind_eq_some_iff] at h
  obtain ⟨legacy, -, sidLen, hsid, csLen, hcs, compLen, hcomp, h⟩ := h
  split at h
  · cases h
    exact .inr ⟨rfl, rfl⟩
  · next total htotal =>
      obtain ⟨block, hblock⟩ := be16_eq_some_iff.mp htotal
      obtain ⟨compression, hcompression, -, hp⟩ := ahead_vec8 hcomp hblock
      obtain ⟨ciphers, hciphers, -, hp⟩ := ahead_vec16 hcs hp
      obtain ⟨session, hsession, -, hp⟩ := ahead_vec8 hsid hp
      have hexts := ahead_word hblock
      have hlen := hexts.length
      simp only [Option.bind_eq_some_iff, Option.some.injEq] at h
      obtain ⟨seen, hseen, rfl⟩ := h
      obtain ⟨es, hes, rfl⟩ := exts_of_extensionsFrom hexts (Nat.min_le_right _ _) (by omega) hseen
      have hsplit : d = d.take 43 ++ (vec8 session ++ (vec16 ciphers ++ (vec8 compression ++
          (toBe16 total ++ block)))) := by
        rw [← hp.2, List.take_append_drop]
      have hfront : (d.take 43).length = 43 := by
        have hle := hp.1
        rw [List.length_take]
        omega
      have hroom : min (11 + 32 + (1 + sidLen.toNat) + (2 + csLen.toNat) + (1 + compLen.toNat) +
            2 + total.toNat) d.length -
          (11 + 32 + (1 + sidLen.toNat) + (2 + csLen.toNat) + (1 + compLen.toNat) + 2) =
            min total.toNat block.length := by omega
      rw [hroom] at hes
      have hof : HelloOf (d.take 43 ++ (vec8 session ++ (vec16 ciphers ++ (vec8 compression ++
          (toBe16 total ++ block))))) es :=
        .mk hfront ((List.getElem?_take_of_lt (by decide)).trans hkind)
          ((List.getElem?_take_of_lt (by decide)).trans hmajor)
          ((List.getElem?_take_of_lt (by decide)).trans hhandshake) hsession hciphers hcompression
          hes
      rw [← hsplit] at hof
      exact .inl ⟨es, legacy, hof, rfl⟩

end Classify

end KirbLaSnoop
