import Mathlib
import KirbLaSnoop.Lib.Cursor
import KirbLaSnoop.Classify

/-!
# ClientHello messages

What a well-formed ClientHello is, how it goes over the wire, and what the
recogniser makes of one: every extension is read for what it says, in any
order, and a hello that breaks off is read up to the extension it breaks in.
-/

namespace KirbLaSnoop

namespace Classify

open Dns (be16 slice toBe16 be16_ahead slice_ahead ahead_word toNat_toUInt16)

/-! ## The format -/

/-- An entry of a server_name list; type 0 is a host name. -/
inductive NameEntry where
  | host (name : String)
  | other (kind : UInt8) (hkind : kind ≠ 0) (name : List UInt8)

inductive Extension where
  | serverName (names : List NameEntry)
  | alpn (protocols : List String)
  | supportedVersions (versions : List UInt16)
  | other (kind : UInt16) (hkind : kind ∉ [0x0000, 0x0010, 0x002b]) (body : List UInt8)

/-- Bytes with their number in front, in one byte and in two. -/
def vec8 (bs : List UInt8) : List UInt8 := bs.length.toUInt8 :: bs

def vec16 (bs : List UInt8) : List UInt8 := toBe16 bs.length.toUInt16 ++ bs

namespace NameEntry

def kind : NameEntry → UInt8
  | host _ => 0
  | other kind _ _ => kind

def bytes : NameEntry → List UInt8
  | host name => asBytes name
  | other _ _ name => name

def encode (e : NameEntry) : List UInt8 := e.kind :: vec16 e.bytes

def host? : NameEntry → Option String
  | host name => some name
  | other _ _ _ => none

end NameEntry

namespace Extension

def kind : Extension → UInt16
  | serverName _ => 0x0000
  | alpn _ => 0x0010
  | supportedVersions _ => 0x002b
  | other kind _ _ => kind

def body : Extension → List UInt8
  | serverName names => vec16 (names.flatMap NameEntry.encode)
  | alpn protocols => vec16 (protocols.flatMap fun name => vec8 (asBytes name))
  | supportedVersions versions => vec8 (versions.flatMap toBe16)
  | other _ _ body => body

def encode (e : Extension) : List UInt8 := toBe16 e.kind ++ vec16 e.body

def names? : Extension → Option (List NameEntry)
  | serverName names => some names
  | _ => none

def protocols? : Extension → Option (List String)
  | alpn protocols => some protocols
  | _ => none

def versions? : Extension → Option (List UInt16)
  | supportedVersions versions => some versions
  | _ => none

/-- Every length fits the field in front of it. -/
def Fits : Extension → Prop
  | serverName names => (∀ e ∈ names, e.bytes.length < 65536) ∧
      (serverName names).body.length < 65536
  | alpn protocols => (∀ name ∈ protocols, (asBytes name).length < 256) ∧
      (alpn protocols).body.length < 65536
  | supportedVersions versions => 2 * versions.length < 256
  | other _ _ body => body.length < 65536

end Extension

def encodeAll (es : List Extension) : List UInt8 := es.flatMap Extension.encode

/-- A well-formed ClientHello in its record. -/
structure ClientHello where
  /-- The second byte of the version of the record. -/
  minor : UInt8
  legacy : UInt16
  random : Vector UInt8 32
  session : List UInt8
  ciphers : List UInt16
  compression : List UInt8
  extensions : List Extension
  session_fits : session.length < 256
  ciphers_fit : 2 * ciphers.length < 65536
  compression_fits : compression.length < 256
  fits : ∀ e ∈ extensions, e.Fits
  block_fits : (encodeAll extensions).length < 65536
  distinct : (extensions.map Extension.kind).Nodup

namespace ClientHello

/-- The handshake message after its header, up to the extensions. -/
def fields (h : ClientHello) : List UInt8 :=
  toBe16 h.legacy ++ h.random.toList ++ vec8 h.session ++ vec16 (h.ciphers.flatMap toBe16) ++
    vec8 h.compression ++ toBe16 (encodeAll h.extensions).length.toUInt16

def headers (h : ClientHello) : List UInt8 :=
  let n := h.fields.length + (encodeAll h.extensions).length
  [0x16, 0x03, h.minor] ++ toBe16 (n + 4).toUInt16 ++ [0x01] ++
    [(n / 65536).toUInt8, (n / 256).toUInt8, n.toUInt8]

def encode (h : ClientHello) : List UInt8 := h.headers ++ h.fields ++ encodeAll h.extensions

def names (h : ClientHello) : List NameEntry := (h.extensions.findSome? Extension.names?).getD []

/-- The host name: the first entry of type 0. -/
def host (h : ClientHello) : Option String := h.names.findSome? NameEntry.host?

def protocols (h : ClientHello) : List String :=
  (h.extensions.findSome? Extension.protocols?).getD []

/-- The versions of the supported_versions extension that are not GREASE. -/
def versions (h : ClientHello) : List UInt16 :=
  ((h.extensions.findSome? Extension.versions?).getD []).filter fun v => !isGrease v

def line (h : ClientHello) : String :=
  tlsVersion (h.versions.foldl max h.legacy) ++ " ClientHello" ++
    h.host.elim "" (" sni=" ++ ·) ++
    (if h.protocols = [] then "" else " alpn=" ++ String.intercalate "," h.protocols) ++
    " ciphers=" ++ toString h.ciphers.length

end ClientHello

/-! ## Reading fields -/

section Reading

variable {d b bs rest : List UInt8} {p : ℕ}

theorem toNat_toUInt8 {n : ℕ} (h : n < 256) : n.toUInt8.toNat = n := by
  rw [Nat.toUInt8_eq, UInt8.toNat_ofNat']
  exact Nat.mod_eq_of_lt h

theorem lossyString_asBytes (s : String) : lossyString (asBytes s) = s := by
  unfold lossyString asBytes
  rw [Text.toUTF8_eq_encode, Text.lossy_encode, String.ofList_toList]

theorem parseSniFrom_ahead {names : List NameEntry} {rounds : ℕ}
    (h : Ahead b p (names.flatMap NameEntry.encode)) (hfits : ∀ e ∈ names, e.bytes.length < 65536)
    (hrounds : names.length ≤ rounds) :
    parseSniFrom b rounds p = names.findSome? NameEntry.host? := by
  induction names generalizing rounds p with
  | nil =>
      have hlen := h.length
      cases rounds with
      | zero => rfl
      | succ rounds =>
          unfold parseSniFrom
          rw [if_neg (by simp at hlen; omega)]
          rfl
  | cons e names ih =>
      obtain ⟨rounds, rfl⟩ : ∃ r, rounds = r + 1 := ⟨rounds - 1, by simp at hrounds; omega⟩
      have hfit := hfits e List.mem_cons_self
      rw [List.flatMap_cons, NameEntry.encode, vec16, List.cons_append, List.append_assoc] at h
      have hlen := h.length
      have hword := h.cons
      have hname : Ahead b (p + 3) (e.bytes ++ names.flatMap NameEntry.encode) := ahead_word hword
      have hin : p + 3 ≤ b.length := by simp [toBe16] at hlen; omega
      have hrest := ih hname.append (fun e he => hfits e (List.mem_cons_of_mem _ he))
        (Nat.le_of_succ_le_succ hrounds)
      unfold parseSniFrom
      rw [if_pos hin, h.head, be16_ahead hword]
      simp only [Option.bind_eq_bind, Option.bind_some, toNat_toUInt16 hfit]
      rw [slice_ahead hname, Option.bind_some, List.findSome?_cons, hrest]
      cases e with
      | host name => exact congrArg some (lossyString_asBytes name)
      | other kind hkind name => exact if_neg hkind

theorem parseAlpnFrom_ahead {protocols : List String} {rounds : ℕ}
    (h : Ahead b p (protocols.flatMap fun name => vec8 (asBytes name)))
    (hfits : ∀ name ∈ protocols, (asBytes name).length < 256)
    (hrounds : protocols.length ≤ rounds) :
    parseAlpnFrom b rounds p = protocols := by
  induction protocols generalizing rounds p with
  | nil =>
      have hend : b[p]? = none := h.getElem? 0
      cases rounds with
      | zero => rfl
      | succ rounds =>
          unfold parseAlpnFrom
          rw [hend]
  | cons name protocols ih =>
      obtain ⟨rounds, rfl⟩ : ∃ r, rounds = r + 1 := ⟨rounds - 1, by simp at hrounds; omega⟩
      rw [List.flatMap_cons, vec8, List.cons_append] at h
      have hname := h.cons
      have hrest := ih hname.append (fun name hn => hfits name (List.mem_cons_of_mem _ hn))
        (Nat.le_of_succ_le_succ hrounds)
      unfold parseAlpnFrom
      rw [h.head]
      dsimp only
      rw [toNat_toUInt8 (hfits name List.mem_cons_self), slice_ahead hname]
      dsimp only
      rw [lossyString_asBytes, hrest]

/-- The greatest version that is not GREASE, or `best`. -/
def better (best v : UInt16) : UInt16 := if !isGrease v && v > best then v else best

theorem foldl_better (versions : List UInt16) (best : UInt16) :
    versions.foldl better best = (versions.filter fun v => !isGrease v).foldl max best := by
  induction versions generalizing best with
  | nil => rfl
  | cons v versions ih =>
      rw [List.foldl_cons, ih]
      cases hv : isGrease v with
      | true => rw [List.filter_cons_of_neg (by simp [hv]), better, hv, if_neg (by simp)]
      | false =>
          have hmax : better best v = max best v := by
            simp only [better, hv, Bool.not_false, Bool.true_and, decide_eq_true_eq, gt_iff_lt]
            change _ = if best ≤ v then v else best
            by_cases hlt : best < v
            · rw [if_pos hlt, if_pos (UInt16.le_of_lt hlt)]
            · have hle : v ≤ best := UInt16.not_lt.mp hlt
              rw [if_neg hlt]
              split_ifs with hge
              · exact UInt16.le_antisymm hge hle
              · rfl
          rw [List.filter_cons_of_pos (by simp [hv]), List.foldl_cons, hmax]

theorem maxVersionFrom_ahead {versions : List UInt16} {best : UInt16} {rounds : ℕ}
    (h : Ahead b p (versions.flatMap toBe16)) (hrounds : versions.length ≤ rounds) :
    maxVersionFrom b b.length rounds p best = some (versions.foldl better best) := by
  induction versions generalizing rounds p best with
  | nil =>
      have hlen := h.length
      cases rounds with
      | zero => rfl
      | succ rounds =>
          unfold maxVersionFrom
          rw [if_neg (by simp at hlen; omega)]
          rfl
  | cons v versions ih =>
      obtain ⟨rounds, rfl⟩ : ∃ r, rounds = r + 1 := ⟨rounds - 1, by simp at hrounds; omega⟩
      rw [List.flatMap_cons] at h
      have hlen := h.length
      have hin : p + 2 ≤ b.length := by simp [toBe16] at hlen; omega
      unfold maxVersionFrom
      rw [if_pos hin, be16_ahead h]
      exact ih (ahead_word h) (Nat.le_of_succ_le_succ hrounds)

theorem length_flatMap_toBe16 (ws : List UInt16) : (ws.flatMap toBe16).length = 2 * ws.length := by
  induction ws with
  | nil => rfl
  | cons w ws ih =>
      rw [List.flatMap_cons, List.length_append, ih, List.length_cons]
      simp only [toBe16, List.length_cons, List.length_nil]
      omega

theorem length_le_length_flatMap {α : Type*} {f : α → List UInt8} (hf : ∀ a, 0 < (f a).length)
    (as : List α) : as.length ≤ (as.flatMap f).length := by
  induction as with
  | nil => exact Nat.zero_le _
  | cons a as ih =>
      have ha := hf a
      rw [List.flatMap_cons, List.length_append, List.length_cons]
      omega

end Reading

/-! ## Extensions -/

/-- What is known after one more extension. -/
def Seen.after (s : Seen) : Extension → Seen
  | .serverName names => { s with sni := names.findSome? NameEntry.host? }
  | .alpn protocols => { s with alpn := protocols }
  | .supportedVersions versions =>
      { s with supportedMax := versions.foldl better s.supportedMax }
  | .other _ _ _ => s

theorem parseSni_body {names : List NameEntry} (hfits : (Extension.serverName names).Fits) :
    parseSni (Extension.serverName names).body = names.findSome? NameEntry.host? := by
  have hlen := length_le_length_flatMap (f := NameEntry.encode)
    (fun e => Nat.succ_pos (vec16 e.bytes).length) names
  refine parseSniFrom_ahead (p := 2) ?_ hfits.1 ?_
  · exact (Ahead.start _).append
  · simp only [Extension.body, vec16, List.length_append]
    omega

theorem parseAlpn_body {protocols : List String} (hfits : (Extension.alpn protocols).Fits) :
    parseAlpn (Extension.alpn protocols).body = protocols := by
  have hlen := length_le_length_flatMap (f := fun name => vec8 (asBytes name))
    (fun name => Nat.succ_pos (asBytes name).length) protocols
  refine parseAlpnFrom_ahead (p := 2) ?_ hfits.1 ?_
  · exact (Ahead.start _).append
  · simp only [Extension.body, vec16, List.length_append]
    omega

theorem maxVersion_body {versions : List UInt16}
    (hfits : (Extension.supportedVersions versions).Fits) (best : UInt16) :
    maxVersion (Extension.supportedVersions versions).body best =
      some (versions.foldl better best) := by
  have hlen := length_flatMap_toBe16 versions
  have hn : (versions.flatMap toBe16).length.toUInt8.toNat = (versions.flatMap toBe16).length :=
    toNat_toUInt8 (by rw [hlen]; exact hfits)
  have hstop : min (1 + (versions.flatMap toBe16).length.toUInt8.toNat)
      (Extension.supportedVersions versions).body.length =
        (Extension.supportedVersions versions).body.length := by
    rw [hn]
    simp only [Extension.body, vec8, List.length_cons]
    omega
  unfold maxVersion
  change maxVersionFrom _ (min _ _) _ _ _ = _
  rw [hstop]
  refine maxVersionFrom_ahead (p := 1) (Ahead.start _).cons ?_
  simp only [Extension.body, vec8, List.length_cons]
  omega

theorem Seen.extension_body {e : Extension} (hfits : e.Fits) (s : Seen) :
    s.extension e.kind e.body = some (s.after e) := by
  cases e with
  | serverName names => simp [Seen.extension, Extension.kind, Seen.after, parseSni_body hfits]
  | alpn protocols => simp [Seen.extension, Extension.kind, Seen.after, parseAlpn_body hfits]
  | supportedVersions versions =>
      simp [Seen.extension, Extension.kind, Seen.after, maxVersion_body hfits]
  | other kind hkind body =>
      simp only [List.mem_cons, List.not_mem_nil, or_false, not_or] at hkind
      exact (if_neg hkind.1).trans ((if_neg hkind.2.1).trans (if_neg hkind.2.2))

theorem Extension.length_encode (e : Extension) : e.encode.length = 4 + e.body.length := by
  simp only [Extension.encode, vec16, toBe16, List.length_append, List.length_cons,
    List.length_nil]
  omega

theorem Extension.Fits.body_lt {e : Extension} (h : e.Fits) : e.body.length < 65536 := by
  cases e with
  | serverName names => exact h.2
  | alpn protocols => exact h.2
  | supportedVersions versions =>
      have hlen := length_flatMap_toBe16 versions
      have hn : 2 * versions.length < 256 := h
      simp only [Extension.body, vec8, List.length_cons]
      omega
  | other kind hkind body => exact h

section Loop

variable {d rest : List UInt8} {p stop rounds : ℕ}

/-- One extension that is there as a whole. -/
theorem extensionsFrom_step {e : Extension} (hfits : e.Fits) (h : Ahead d p (e.encode ++ rest))
    (hstop : p + 4 ≤ stop) (s : Seen) :
    extensionsFrom d stop (rounds + 1) p s =
      extensionsFrom d stop rounds (p + e.encode.length) (s.after e) := by
  rw [Extension.encode, vec16, List.append_assoc, List.append_assoc] at h
  have hlength := ahead_word h
  have hbody : Ahead d (p + 4) (e.body ++ rest) := ahead_word hlength
  rw [e.length_encode, ← Nat.add_assoc]
  rw [extensionsFrom, if_pos hstop, be16_ahead h, be16_ahead hlength]
  simp only [Option.bind_eq_bind, Option.bind_some, toNat_toUInt16 hfits.body_lt]
  rw [slice_ahead hbody, Option.bind_some, s.extension_body hfits, Option.bind_some]

theorem extensionsFrom_run {es : List Extension} (hfits : ∀ e ∈ es, e.Fits)
    (h : Ahead d p (encodeAll es ++ rest)) (hstop : p + (encodeAll es).length ≤ stop) (s : Seen) :
    extensionsFrom d stop (es.length + rounds) p s =
      extensionsFrom d stop rounds (p + (encodeAll es).length) (es.foldl Seen.after s) := by
  induction es generalizing p s with
  | nil =>
      rw [List.length_nil, Nat.zero_add]
      rfl
  | cons e es ih =>
      have hcons : encodeAll (e :: es) = e.encode ++ encodeAll es := List.flatMap_cons
      rw [hcons, List.length_append] at hstop
      rw [hcons, List.append_assoc] at h
      have hlen := e.length_encode
      have hround : (e :: es).length + rounds = es.length + rounds + 1 := by
        rw [List.length_cons]
        omega
      rw [hround, extensionsFrom_step (hfits e List.mem_cons_self) h (by omega), hcons,
        List.length_append, ← Nat.add_assoc, List.foldl_cons]
      exact ih (fun e he => hfits e (List.mem_cons_of_mem _ he)) h.append (by omega) (s.after e)

/-- The loop stops where fewer than four bytes are left before `stop`. -/
theorem extensionsFrom_stop (h : stop < p + 4) (s : Seen) :
    extensionsFrom d stop rounds p s = some s := by
  cases rounds with
  | zero => rfl
  | succ rounds => rw [extensionsFrom, if_neg (by omega)]

/-- An extension whose body is not all there ends the reading of the whole
hello. -/
theorem extensionsFrom_cut {e : Extension} {m : ℕ} (hfits : e.Fits)
    (h : Ahead d p (e.encode.take m)) (hcut : 4 ≤ m ∧ m < e.encode.length) (s : Seen) :
    extensionsFrom d d.length (rounds + 1) p s = none := by
  have hlen := h.length
  have henc := e.length_encode
  rw [List.length_take] at hlen
  have htake : e.encode.take m =
      toBe16 e.kind ++ (toBe16 e.body.length.toUInt16 ++ e.body.take (m - 4)) := by
    obtain ⟨n, rfl⟩ : ∃ n, m = n + 4 := ⟨m - 4, by omega⟩
    rfl
  rw [htake] at h
  have hlength := ahead_word h
  have hbody : slice d (p + 4) (p + 4 + e.body.length) = none := by
    refine if_neg ?_
    omega
  rw [extensionsFrom, if_pos (by omega), be16_ahead h, be16_ahead hlength]
  simp only [Option.bind_eq_bind, Option.bind_some, toNat_toUInt16 hfits.body_lt]
  rw [hbody, Option.bind_none]

end Loop

/-- Extensions of distinct kinds set what only one kind speaks of at most
once. -/
theorem val_foldl_after {α β : Type*} (val : Seen → α) (g : Extension → Option β)
    (upd : α → β → α) (kind : UInt16)
    (hafter : ∀ s e, val (s.after e) = (g e).elim (val s) (upd (val s)))
    (hkind : ∀ e, (g e).isSome → e.kind = kind) {es : List Extension}
    (hdistinct : (es.map Extension.kind).Nodup) (s : Seen) :
    val (es.foldl Seen.after s) = (es.findSome? g).elim (val s) (upd (val s)) := by
  induction es generalizing s with
  | nil => rfl
  | cons e es ih =>
      rw [List.map_cons, List.nodup_cons] at hdistinct
      have hrest := ih hdistinct.2 (s.after e)
      rw [List.foldl_cons, hrest, hafter, List.findSome?_cons]
      cases hg : g e with
      | none => rfl
      | some b =>
          have hnone : es.findSome? g = none := by
            rw [List.findSome?_eq_none_iff]
            intro e' he'
            by_contra hsome
            have hsame := hkind e' (Option.ne_none_iff_isSome.mp hsome)
            rw [← hkind e (by rw [hg]; rfl)] at hsame
            exact hdistinct.1 (hsame ▸ List.mem_map_of_mem he')
          rw [hnone]
          rfl

theorem sni_foldl_after {es : List Extension} (hdistinct : (es.map Extension.kind).Nodup)
    (s : Seen) :
    (es.foldl Seen.after s).sni =
      (es.findSome? Extension.names?).elim s.sni fun names => names.findSome? NameEntry.host? :=
  val_foldl_after Seen.sni Extension.names? (fun _ names => names.findSome? NameEntry.host?) 0x0000
    (by intro s e; cases e <;> rfl) (by intro e he; cases e <;> first | rfl | cases he)
    hdistinct s

theorem findSome?_of_mem {β : Type*} {g : Extension → Option β} {kind : UInt16}
    (hkind : ∀ e, (g e).isSome → e.kind = kind) {es : List Extension}
    (hdistinct : (es.map Extension.kind).Nodup) {e : Extension} {b : β} (he : e ∈ es)
    (hg : g e = some b) : es.findSome? g = some b := by
  induction es with
  | nil => cases he
  | cons e' es ih =>
      rw [List.map_cons, List.nodup_cons] at hdistinct
      rw [List.findSome?_cons]
      rcases List.mem_cons.mp he with rfl | hmem
      · rw [hg]
      · cases hg' : g e' with
        | none => exact ih hdistinct.2 hmem
        | some b' =>
            have hsame : e.kind = e'.kind :=
              (hkind e (by rw [hg]; rfl)).trans (hkind e' (by rw [hg']; rfl)).symm
            exact absurd (hsame ▸ List.mem_map_of_mem hmem) hdistinct.1

/-! ## The whole hello -/

theorem vec8_ahead {d bs rest : List UInt8} {p : ℕ} (h : Ahead d p (vec8 bs ++ rest))
    (hfits : bs.length < 256) :
    d[p]? = some bs.length.toUInt8 ∧ Ahead d (p + (1 + bs.length.toUInt8.toNat)) rest := by
  refine ⟨h.head, ?_⟩
  rw [toNat_toUInt8 hfits, Nat.add_comm 1]
  exact h.append

theorem vec16_ahead {d bs rest : List UInt8} {p : ℕ} (h : Ahead d p (vec16 bs ++ rest))
    (hfits : bs.length < 65536) :
    be16 d p = some bs.length.toUInt16 ∧ Ahead d (p + (2 + bs.length.toUInt16.toNat)) rest := by
  rw [vec16, List.append_assoc] at h
  refine ⟨be16_ahead h, ?_⟩
  rw [toNat_toUInt16 hfits, ← Nat.add_assoc]
  exact (ahead_word h).append

theorem tls_of_headers {d : List UInt8} (hkind : d[0]? = some 0x16) (hmajor : d[1]? = some 0x03)
    (hhandshake : d[5]? = some 0x01) : tls d = (hello d).map Hello.describe := by
  simp [tls, hkind, hmajor, hhandshake]

namespace ClientHello

variable (h : ClientHello)

def front : List UInt8 := h.headers ++ h.fields

theorem length_headers : h.headers.length = 9 := by
  simp [headers, toBe16]

theorem encode_eq : h.encode = h.front ++ encodeAll h.extensions := rfl

theorem ahead_fields (rest : List UInt8) :
    Ahead (h.front ++ rest) 9 (h.fields ++ rest) := by
  rw [front, List.append_assoc, ← h.length_headers]
  exact Ahead.of_append _ _

/-- The fields of a hello whose front is there, whatever comes after it. -/
theorem hello_front (rest : List UInt8) :
    hello (h.front ++ rest) =
      (extensionsFrom (h.front ++ rest)
        (min (h.front.length + (encodeAll h.extensions).length) (h.front ++ rest).length)
        (h.front ++ rest).length h.front.length ⟨none, [], h.legacy⟩).map
          fun seen => ⟨seen, h.ciphers.length⟩ := by
  have hciphers := length_flatMap_toBe16 h.ciphers
  have hlegacy := h.ahead_fields rest
  simp only [fields, List.append_assoc] at hlegacy
  have hrandom := ahead_word hlegacy
  have hsession := hrandom.append
  rw [Vector.length_toList, show 9 + 2 + 32 = 11 + 32 from rfl] at hsession
  obtain ⟨hsidLen, hsid⟩ := vec8_ahead hsession h.session_fits
  obtain ⟨hcsLen, hcs⟩ := vec16_ahead hsid (by rw [hciphers]; exact h.ciphers_fit)
  obtain ⟨hcompLen, hcomp⟩ := vec8_ahead hcs h.compression_fits
  have htotal := be16_ahead hcomp
  have hfront := (ahead_word hcomp).length
  rw [List.length_append, Nat.add_right_cancel_iff] at hfront
  unfold hello
  simp only [Option.bind_eq_bind]
  rw [be16_ahead hlegacy, Option.bind_some, hsidLen, Option.bind_some, hcsLen, Option.bind_some,
    hcompLen, Option.bind_some, htotal]
  dsimp only
  rw [toNat_toUInt16 h.block_fits, ← hfront, toNat_toUInt16 (by rw [hciphers]; exact h.ciphers_fit),
    hciphers, Nat.mul_div_cancel_left _ Nat.two_pos, Option.map_eq_bind]
  rfl

theorem tls_front (rest : List UInt8) :
    tls (h.front ++ rest) = (hello (h.front ++ rest)).map Hello.describe :=
  tls_of_headers rfl rfl rfl

def seen : Seen := h.extensions.foldl Seen.after ⟨none, [], h.legacy⟩

theorem seen_sni : h.seen.sni = h.host := by
  rw [seen, sni_foldl_after h.distinct, host, names]
  cases h.extensions.findSome? Extension.names? <;> rfl

theorem seen_alpn : h.seen.alpn = h.protocols := by
  have hval := val_foldl_after Seen.alpn Extension.protocols?
    (fun _ protocols => protocols) 0x0010
    (by intro s e; cases e <;> rfl) (by intro e he; cases e <;> first | rfl | cases he)
    h.distinct ⟨none, [], h.legacy⟩
  rw [seen, hval, protocols]
  cases h.extensions.findSome? Extension.protocols? <;> rfl

theorem seen_supportedMax : h.seen.supportedMax = h.versions.foldl max h.legacy := by
  have hval := val_foldl_after Seen.supportedMax Extension.versions?
    (fun best versions => versions.foldl better best) 0x002b
    (by intro s e; cases e <;> rfl) (by intro e he; cases e <;> first | rfl | cases he)
    h.distinct ⟨none, [], h.legacy⟩
  rw [seen, hval, versions]
  cases h.extensions.findSome? Extension.versions? with
  | none => rfl
  | some versions => exact foldl_better versions h.legacy

theorem length_extensions_le : h.extensions.length ≤ (encodeAll h.extensions).length :=
  length_le_length_flatMap (fun e => by rw [e.length_encode]; omega) h.extensions

theorem hello_encode (trailing : List UInt8) :
    hello (h.encode ++ trailing) = some ⟨h.seen, h.ciphers.length⟩ := by
  have hrounds := h.length_extensions_le
  have hassoc : h.encode ++ trailing = h.front ++ (encodeAll h.extensions ++ trailing) := by
    rw [encode_eq, List.append_assoc]
  have hlen := (Ahead.of_append h.front (encodeAll h.extensions ++ trailing)).length
  have hsum : (encodeAll h.extensions ++ trailing).length =
      (encodeAll h.extensions).length + trailing.length := List.length_append
  have hstop : min (h.front.length + (encodeAll h.extensions).length)
      (h.front ++ (encodeAll h.extensions ++ trailing)).length =
        h.front.length + (encodeAll h.extensions).length := by omega
  obtain ⟨rounds, hfuel⟩ : ∃ r, (h.front ++ (encodeAll h.extensions ++ trailing)).length =
      h.extensions.length + r := ⟨_, (Nat.add_sub_of_le (by omega)).symm⟩
  rw [hassoc, hello_front, hstop, hfuel,
    extensionsFrom_run h.fits (Ahead.of_append _ _) le_rfl,
    extensionsFrom_stop (by omega), Option.map_some]
  rfl

theorem tls_eq_describe (trailing : List UInt8) :
    tls (h.encode ++ trailing) = some (Hello.describe ⟨h.seen, h.ciphers.length⟩) := by
  have htls : tls (h.encode ++ trailing) = (hello (h.encode ++ trailing)).map Hello.describe :=
    tls_of_headers rfl rfl rfl
  rw [htls, hello_encode, Option.map_some]

/-- Every well-formed ClientHello is described by its own fields, whatever
follows it. -/
theorem tls_encode (trailing : List UInt8) : tls (h.encode ++ trailing) = some h.line := by
  rw [tls_eq_describe, Hello.describe, line, seen_sni, seen_alpn, seen_supportedMax]
  simp only [List.isEmpty_iff]

/-! ## A hello that breaks off -/

end ClientHello

/-- After `m` bytes the extensions break off inside the body of one of them. -/
def BreaksInBody (es : List Extension) (m : ℕ) : Prop :=
  ∃ done e later, es = done ++ e :: later ∧ (encodeAll done).length + 4 ≤ m ∧
    m < (encodeAll done).length + e.encode.length

theorem encodeAll_cons (e : Extension) (es : List Extension) :
    encodeAll (e :: es) = e.encode ++ encodeAll es := List.flatMap_cons

theorem breaksInBody_cons {e : Extension} {es : List Extension} {m : ℕ} :
    BreaksInBody (e :: es) m ↔
      (4 ≤ m ∧ m < e.encode.length) ∨
        (e.encode.length ≤ m ∧ BreaksInBody es (m - e.encode.length)) := by
  constructor
  · rintro ⟨done, e', later, heq, hlo, hhi⟩
    cases done with
    | nil =>
        obtain ⟨rfl, -⟩ := List.cons.inj heq
        exact Or.inl ⟨by simpa [encodeAll] using hlo, by simpa [encodeAll] using hhi⟩
    | cons e'' done =>
        obtain ⟨rfl, hes⟩ := List.cons.inj heq
        rw [encodeAll_cons, List.length_append] at hlo hhi
        exact Or.inr ⟨by omega, done, e', later, hes, by omega, by omega⟩
  · rintro (⟨hlo, hhi⟩ | ⟨hle, done, e', later, rfl, hlo, hhi⟩)
    · exact ⟨[], e, es, rfl, by simpa [encodeAll] using hlo, by simpa [encodeAll] using hhi⟩
    · refine ⟨e :: done, e', later, rfl, ?_, ?_⟩ <;>
        · rw [encodeAll_cons, List.length_append]
          omega

section Loop

variable {d : List UInt8} {p : ℕ}

/-- Extensions that break off elsewhere than in a body are read as far as they
are there. -/
theorem extensionsFrom_break {es : List Extension} {m rounds : ℕ} (hfits : ∀ e ∈ es, e.Fits)
    (hrounds : ((encodeAll es).take m).length ≤ rounds) (h : Ahead d p ((encodeAll es).take m))
    (s : Seen) :
    (BreaksInBody es m ∧ extensionsFrom d d.length rounds p s = none) ∨
      (¬BreaksInBody es m ∧ ∃ read, read <+: es ∧
        (∀ done, done <+: es → (encodeAll done).length ≤ m → done <+: read) ∧
          extensionsFrom d d.length rounds p s = some (read.foldl Seen.after s)) := by
  induction es generalizing p m rounds s with
  | nil =>
      have hlen := h.length
      rw [encodeAll, List.flatMap_nil, List.take_nil, List.length_nil] at hlen
      refine Or.inr ⟨?_, [], List.prefix_rfl, fun done hdone _ => hdone,
        extensionsFrom_stop (by omega) s⟩
      rintro ⟨done, e, later, heq, -⟩
      simp at heq
  | cons e es ih =>
      have hfit := hfits e List.mem_cons_self
      have hlen := h.length
      have henc := e.length_encode
      rw [encodeAll_cons] at h hlen hrounds
      rw [List.length_take, List.length_append] at hlen hrounds
      rw [breaksInBody_cons]
      rcases Nat.lt_or_ge m e.encode.length with hm | hm
      · rw [List.take_append_of_le_length hm.le] at h
        rcases Nat.lt_or_ge m 4 with hlt | hge
        · refine Or.inr ⟨?_, [], List.nil_prefix, ?_, extensionsFrom_stop (by omega) s⟩
          · rintro (⟨hge, -⟩ | ⟨hge, -⟩) <;> omega
          intro done hdone hle
          cases done with
          | nil => exact List.prefix_rfl
          | cons e' done =>
              have hhead : e' = e := (List.cons_prefix_cons.mp hdone).1
              rw [encodeAll_cons, List.length_append, hhead] at hle
              omega
        · obtain ⟨rounds, rfl⟩ : ∃ r, rounds = r + 1 := ⟨rounds - 1, by omega⟩
          exact Or.inl ⟨Or.inl ⟨hge, hm⟩, extensionsFrom_cut hfit h ⟨hge, hm⟩ s⟩
      · have htake : (e.encode ++ encodeAll es).take m =
            e.encode ++ (encodeAll es).take (m - e.encode.length) := by
          rw [List.take_append, List.take_of_length_le hm]
        obtain ⟨rounds, rfl⟩ : ∃ r, rounds = r + 1 := ⟨rounds - 1, by omega⟩
        rw [htake] at h
        rw [extensionsFrom_step hfit h (by omega)]
        have hround : ((encodeAll es).take (m - e.encode.length)).length ≤ rounds := by
          rw [List.length_take]
          omega
        rcases ih (fun e he => hfits e (List.mem_cons_of_mem _ he)) hround h.append (s.after e) with
          ⟨hbreak, hnone⟩ | ⟨hbreak, read, hread, hall, hsome⟩
        · exact Or.inl ⟨Or.inr ⟨hm, hbreak⟩, hnone⟩
        · refine Or.inr ⟨?_, e :: read, List.cons_prefix_cons.mpr ⟨rfl, hread⟩, ?_, hsome⟩
          · rintro (⟨-, hlt⟩ | ⟨-, hin⟩)
            · omega
            · exact hbreak hin
          intro done hdone hle
          cases done with
          | nil => exact List.nil_prefix
          | cons e' done =>
              obtain ⟨rfl, htail⟩ := List.cons_prefix_cons.mp hdone
              rw [encodeAll_cons, List.length_append] at hle
              exact List.cons_prefix_cons.mpr ⟨rfl, hall done htail (by omega)⟩

end Loop

namespace ClientHello

variable {h : ClientHello} {before after : List Extension} {names : List NameEntry}
  {host : String} {d : List UInt8}

theorem describe_sni {hello : Hello} (hsni : hello.seen.sni = some host) :
    (" sni=" ++ host).toList <:+: hello.describe.toList := by
  rw [Hello.describe, hsni]
  simp only [Option.elim_some, String.toList_append]
  have hlast (as bs : List Char) : bs <:+: as ++ bs := (List.suffix_append as bs).isInfix
  have hfirst (as bs : List Char) : as <:+: as ++ bs := (List.prefix_append as bs).isInfix
  exact (((hlast _ _).trans (hfirst _ _)).trans (hfirst _ _)).trans (hfirst _ _)

/-- A hello that breaks off after its server_name extension still gives the
host name, unless it does so inside the body of a later extension: the length
of the extensions is cut down to the bytes that are there, but that of a body
is not. -/
theorem tls_break (hsplit : h.extensions = before ++ .serverName names :: after)
    (hhost : names.findSome? NameEntry.host? = some host) (hd : d <+: h.encode)
    (hwhole : h.front ++ encodeAll (before ++ [.serverName names]) <+: d) :
    (∃ hint, tls d = some hint ∧ (" sni=" ++ host).toList <:+: hint.toList) ↔
      ¬BreaksInBody h.extensions (d.length - h.front.length) := by
  obtain ⟨rest, rfl⟩ : h.front <+: d := (List.prefix_append _ _).trans hwhole
  rw [encode_eq, List.prefix_append_right_inj] at hd
  rw [List.prefix_append_right_inj] at hwhole
  have htake := List.prefix_iff_eq_take.mp hd
  have hlen : (h.front ++ rest).length - h.front.length = rest.length := by
    rw [List.length_append, Nat.add_sub_cancel_left]
  have hstop : min (h.front.length + (encodeAll h.extensions).length) (h.front ++ rest).length =
      (h.front ++ rest).length := by
    have hle := hd.length_le
    rw [List.length_append]
    omega
  have hahead :
      Ahead (h.front ++ rest) h.front.length ((encodeAll h.extensions).take rest.length) := by
    rw [← htake]
    exact Ahead.of_append _ _
  have hrounds : ((encodeAll h.extensions).take rest.length).length ≤
      (h.front ++ rest).length := by
    rw [List.length_take, List.length_append]
    omega
  rw [hlen, tls_front, hello_front, hstop]
  rcases extensionsFrom_break h.fits hrounds hahead ⟨none, [], h.legacy⟩ with
    ⟨hbreak, hnone⟩ | ⟨hbreak, read, hread, hall, hsome⟩
  · rw [hnone]
    simp [hbreak]
  · have hseen : (read.foldl Seen.after ⟨none, [], h.legacy⟩).sni = some host := by
      have hdone : before ++ [.serverName names] <+: read := by
        refine hall _ ⟨after, ?_⟩ hwhole.length_le
        rw [hsplit, List.append_assoc]
        rfl
      have hnames : read.findSome? Extension.names? = some names :=
        findSome?_of_mem (fun e he => by cases e <;> first | rfl | cases he)
          (h.distinct.sublist (hread.sublist.map _))
          (hdone.subset (List.mem_append_right _ List.mem_cons_self)) rfl
      rw [sni_foldl_after (h.distinct.sublist (hread.sublist.map _)), hnames]
      exact hhost
    rw [hsome]
    exact iff_of_true ⟨_, rfl, describe_sni hseen⟩ hbreak

def plain : ClientHello where
  minor := 1
  legacy := 0x0303
  random := Vector.replicate 32 0x11
  session := []
  ciphers := [0x1301]
  compression := [0]
  extensions := [.serverName [.host "a.b"], .alpn ["h2"]]
  session_fits := by decide
  ciphers_fit := by decide
  compression_fits := by decide
  fits := by
    intro e he
    rcases List.mem_pair.mp he with rfl | rfl
    · exact ⟨by decide, by decide⟩
    · exact ⟨by decide, by decide⟩
  block_fits := by decide
  distinct := by decide

theorem tls_break_plain :
    (∃ hint, tls (plain.encode.take 64) = some hint ∧ (" sni=" ++ "a.b").toList <:+: hint.toList) ↔
      ¬BreaksInBody plain.extensions ((plain.encode.take 64).length - plain.front.length) :=
  @tls_break plain [] [.alpn ["h2"]] [.host "a.b"] "a.b" _ rfl rfl (List.take_prefix _ _)
    (by decide)

/-- The whole server_name extension is there, and one byte of the list of
protocols. -/
theorem not_tls_break :
    ¬∀ (h : ClientHello) (before after : List Extension) (names : List NameEntry) (host : String)
      (d : List UInt8), h.extensions = before ++ .serverName names :: after →
        names.findSome? NameEntry.host? = some host → d <+: h.encode →
          h.front ++ encodeAll (before ++ [.serverName names]) <+: d →
            ∃ hint, tls d = some hint ∧ (" sni=" ++ host).toList <:+: hint.toList := by
  intro hall
  have hnone : tls (plain.encode.take 72) = none := by decide
  obtain ⟨hint, hsome, -⟩ := hall plain [] [.alpn ["h2"]] [.host "a.b"] "a.b"
    (plain.encode.take 72) rfl rfl (List.take_prefix _ _) (by decide)
  rw [hnone] at hsome
  cases hsome

end ClientHello

end Classify

end KirbLaSnoop
