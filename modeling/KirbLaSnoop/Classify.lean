import Mathlib
import KirbLaSnoop.Lib.Text
import KirbLaSnoop.Profile

/-!
# What a message looks like

A guess from the opening bytes, in one line: TLS, then HTTP, then DNS, then
whatever else is recognisable. Each recogniser is split into the fields it
reads and the line it makes of them.
-/

namespace KirbLaSnoop

namespace Classify

open Dns (be16 slice)

def lossyString (bs : List UInt8) : String := String.ofList (Text.lossy bs)

/-! ## TLS -/

def tlsVersion (v : UInt16) : String :=
  if v = 0x0300 then "SSL 3.0"
  else if v = 0x0301 then "TLS 1.0"
  else if v = 0x0302 then "TLS 1.1"
  else if v = 0x0303 then "TLS 1.2"
  else if v = 0x0304 then "TLS 1.3"
  else "TLS ?"

/-- The loop of `parse_sni` at offset `p`. Every entry has at least three
bytes, so the body itself bounds the rounds. -/
def parseSniFrom (b : List UInt8) : ℕ → ℕ → Option String
  | 0, _ => none
  | rounds + 1, p =>
      if p + 3 ≤ b.length then do
        let ntype ← b[p]?
        let nlen ← be16 b (p + 1)
        let name ← slice b (p + 3) (p + 3 + nlen.toNat)
        if ntype = 0 then some (lossyString name)
        else parseSniFrom b rounds (p + 3 + nlen.toNat)
      else none

def parseSni (b : List UInt8) : Option String := parseSniFrom b b.length 2

def parseAlpnFrom (b : List UInt8) : ℕ → ℕ → List String
  | 0, _ => []
  | rounds + 1, p =>
      match b[p]? with
      | none => []
      | some len =>
          match slice b (p + 1) (p + 1 + len.toNat) with
          | none => []
          | some proto => lossyString proto :: parseAlpnFrom b rounds (p + 1 + len.toNat)

def parseAlpn (b : List UInt8) : List String := parseAlpnFrom b b.length 2

/-- GREASE values are `0x?a?a`. -/
def isGrease (v : UInt16) : Bool := v &&& 0x0f0f == 0x0a0a

/-- The loop over a list of versions that ends at `stop`. -/
def maxVersionFrom (b : List UInt8) (stop : ℕ) : ℕ → ℕ → UInt16 → Option UInt16
  | 0, _, best => some best
  | rounds + 1, i, best =>
      if i + 2 ≤ stop then do
        let v ← be16 b i
        maxVersionFrom b stop rounds (i + 2) (if !isGrease v && v > best then v else best)
      else some best

/-- The greatest version of the body of supported_versions, from `best` on. -/
def maxVersion (b : List UInt8) (best : UInt16) : Option UInt16 :=
  match b.head? with
  | some n => maxVersionFrom b (min (1 + n.toNat) b.length) b.length 1 best
  | none => some best

/-- What the extensions of a hello say. -/
structure Seen where
  sni : Option String
  alpn : List String
  supportedMax : UInt16

def Seen.extension (s : Seen) (etype : UInt16) (body : List UInt8) : Option Seen :=
  if etype = 0x0000 then some { s with sni := parseSni body }
  else if etype = 0x0010 then some { s with alpn := parseAlpn body }
  else if etype = 0x002b then
    (maxVersion body s.supportedMax).map fun v => { s with supportedMax := v }
  else some s

/-- The loop over the extensions, of at least four bytes each. -/
def extensionsFrom (d : List UInt8) (stop : ℕ) : ℕ → ℕ → Seen → Option Seen
  | 0, _, s => some s
  | rounds + 1, p, s =>
      if p + 4 ≤ stop then do
        let etype ← be16 d p
        let elen ← be16 d (p + 2)
        let body ← slice d (p + 4) (p + 4 + elen.toNat)
        let s ← s.extension etype body
        extensionsFrom d stop rounds (p + 4 + elen.toNat) s
      else some s

structure Hello where
  seen : Seen
  cipherCount : ℕ

/-- The fields of a ClientHello: version and random end at 43, and three
fields with a length in front come before the extensions. -/
def hello (d : List UInt8) : Option Hello := do
  let legacy ← be16 d 9
  let p := 11 + 32
  let sidLen ← d[p]?
  let p := p + (1 + sidLen.toNat)
  let csLen ← be16 d p
  let cipherCount := csLen.toNat / 2
  let p := p + (2 + csLen.toNat)
  let compLen ← d[p]?
  let p := p + (1 + compLen.toNat)
  let seen : Seen := { sni := none, alpn := [], supportedMax := legacy }
  match be16 d p with
  | none => some ⟨seen, cipherCount⟩
  | some extTotal =>
      let p := p + 2
      let stop := min (p + extTotal.toNat) d.length
      let seen ← extensionsFrom d stop d.length p seen
      some ⟨seen, cipherCount⟩

def Hello.describe (h : Hello) : String :=
  tlsVersion h.seen.supportedMax ++ " ClientHello" ++
    h.seen.sni.elim "" (" sni=" ++ ·) ++
    (if h.seen.alpn.isEmpty then "" else " alpn=" ++ String.intercalate "," h.seen.alpn) ++
    " ciphers=" ++ toString h.cipherCount

def tls (d : List UInt8) : Option String := do
  let kind ← d[0]?
  if kind ≠ 0x16 then none
  else do
    let major ← d[1]?
    if major ≠ 0x03 then none
    else do
      let handshake ← d[5]?
      if handshake ≠ 0x01 then do
        -- a handshake record still, but not a hello
        let version ← be16 d 1
        some (tlsVersion version ++ " handshake")
      else (hello d).map Hello.describe

/-! ## HTTP -/

def methods : List String :=
  ["GET", "POST", "PUT", "HEAD", "DELETE", "OPTIONS", "PATCH", "TRACE", "CONNECT"]

/-- The lines after the request line, up to an empty one. A line without a
colon ends the search. -/
def headerIn (name : String) : List (List Char) → Option (List Char)
  | [] => none
  | line :: lines =>
      if line.isEmpty then none
      else
        match Text.splitOnce ':' line with
        | none => none
        | some (k, v) =>
            if Text.eqIgnoreAsciiCase (Text.trim k) name.toList then some (Text.trim v)
            else headerIn name lines

def header (head : List UInt8) (name : String) : Option (List Char) :=
  headerIn name (((Text.splitCrLf (Text.lossy head)).drop 1).take 64)

structure Request where
  method : String
  target : List Char
  host : Option (List Char)
  userAgent : Option (List Char)

def request (d : List UInt8) : Option Request := do
  let head := d.take 8192
  let lineEnd ← (find head [13, 10]).or (find head [10])
  let bytes := head.take lineEnd
  let line ← Text.strict bytes
  let method ← methods.find? fun m =>
    (asBytes m).isPrefixOf bytes && bytes[m.utf8ByteSize]? == some 32
  if (find bytes (asBytes "HTTP/")).isNone then none
  else
    some
      { method
        target := ((Text.words line)[1]?.getD []).take 80
        host := header head "host"
        userAgent := (header head "user-agent").map fun ua => ua.take 60 }

def Request.describe (r : Request) : String :=
  "HTTP " ++ r.method ++ " " ++ String.ofList r.target ++
    r.host.elim "" (fun host => " host=" ++ String.ofList host) ++
    r.userAgent.elim "" (fun ua => " ua=" ++ String.ofList ua)

def http (d : List UInt8) : Option String := (request d).map Request.describe

/-! ## DNS -/

def qtypeName (t : UInt16) : String :=
  if t = 1 then "A"
  else if t = 2 then "NS"
  else if t = 5 then "CNAME"
  else if t = 6 then "SOA"
  else if t = 12 then "PTR"
  else if t = 15 then "MX"
  else if t = 16 then "TXT"
  else if t = 28 then "AAAA"
  else if t = 33 then "SRV"
  else if t = 65 then "HTTPS"
  else "TYPE" ++ toString t.toNat

def isAsciiGraphic (b : UInt8) : Bool := 0x21 ≤ b && b ≤ 0x7e

/-- The labels from `p` on and the offset after them. `left` counts down from
64 where the source counts `labels` up. -/
def labelsFrom (d : List UInt8) : ℕ → ℕ → Option (List String × ℕ)
  | left, p =>
      match d[p]? with
      | none => none
      | some len =>
          if len = 0 then some ([], p + 1)
          -- compression pointers do not belong in a question section
          else if len &&& 0xc0 ≠ 0 then none
          else
            match left with
            | 0 => none
            | left + 1 => do
                let label ← slice d (p + 1) (p + 1 + len.toNat)
                if !label.all isAsciiGraphic then none
                else do
                  let (labels, q) ← labelsFrom d left (p + 1 + len.toNat)
                  some (lossyString label :: labels, q)

/-- A query has one question and no answers, and neither QR nor an opcode. -/
def dns (d : List UInt8) : Option String :=
  if d.length < 12 then none
  else do
    let flags ← be16 d 2
    let qdcount ← be16 d 4
    if flags &&& 0x8000 ≠ 0 ∨ (flags >>> 11) &&& 0x0f ≠ 0 ∨ qdcount ≠ 1 then none
    else do
      let ancount ← be16 d 6
      if ancount ≠ 0 then none
      else do
        let (labels, p) ← labelsFrom d 64 12
        if labels.isEmpty then none
        else do
          let qtype ← be16 d p
          some ("DNS query " ++ qtypeName qtype ++ " " ++ String.intercalate "." labels)

/-! ## The rest -/

def isAsciiWhitespace (b : UInt8) : Bool :=
  b == 0x20 || b == 0x09 || b == 0x0a || b == 0x0c || b == 0x0d

/-- The first bytes up to the end of the line, each as the character of its
number. -/
def banner (d : List UInt8) : List Char :=
  ((d.take 64).takeWhile fun c => c != 0x0d && c != 0x0a).map fun c => Char.ofNat c.toNat

def other (d : List UInt8) : Option String :=
  if (asBytes "SSH-").isPrefixOf d then some ("SSH banner " ++ String.ofList (banner d))
  else
    let trimmed := d.dropWhile isAsciiWhitespace
    match trimmed.head? with
    | none => none
    | some c =>
        if c = 0x7b ∨ c = 0x5b then some "JSON-ish"
        -- `<?xml` begins with `<`
        else if c = 0x3c then some "XML/markup-ish"
        else
          let sample := d.take 512
          let printable := sample.countP fun b =>
            isAsciiGraphic b || b == 0x20 || b == 0x0d || b == 0x0a || b == 0x09
          if printable * 10 ≥ sample.length * 9 then some "text/ascii" else none

def classify (d : List UInt8) : Option String :=
  if d.isEmpty then none else (((tls d).or (http d)).or (dns d)).or (other d)

end Classify

end KirbLaSnoop
