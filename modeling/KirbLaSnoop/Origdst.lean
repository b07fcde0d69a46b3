import Mathlib
import KirbLaSnoop.Dns

/-!
# Where a redirected connection was headed

The kernel keeps the destination that a connection had before a redirect. Its
answer is compared with the address of the listener, which stands in for the
address at which the connection arrived: a listener on the unspecified address
takes every destination on its own port for a direct connection.
-/

namespace KirbLaSnoop

namespace Origdst

open Dns (slice be16 toBe16)

def solIp : ℕ := 0
def solIpv6 : ℕ := 41
def soOriginalDst : ℕ := 80
def afInet : UInt16 := 2
def afInet6 : UInt16 := 10

inductive IpAddr where
  | v4 (octets : Vector UInt8 4)
  | v6 (octets : Vector UInt8 16)
  deriving DecidableEq

def IpAddr.isUnspecified : IpAddr → Bool
  | .v4 octets => octets = Vector.replicate 4 0
  | .v6 octets => octets = Vector.replicate 16 0

inductive SocketAddr where
  | v4 (octets : Vector UInt8 4) (port : UInt16)
  | v6 (octets : Vector UInt8 16) (port : UInt16) (flowinfo scopeId : UInt32)
  deriving DecidableEq

namespace SocketAddr

def ip : SocketAddr → IpAddr
  | v4 octets _ => .v4 octets
  | v6 octets _ _ _ => .v6 octets

def port : SocketAddr → UInt16
  | v4 _ port => port
  | v6 _ port _ _ => port

def isIpv6 : SocketAddr → Bool
  | v4 _ _ => false
  | v6 _ _ _ _ => true

end SocketAddr

structure Target where
  linux : Bool
  bigEndian : Bool

/-- What a call of `getsockopt` that succeeds leaves in the buffer and in its
length. -/
structure SockOpt where
  buf : Vector UInt8 28
  len : UInt32

/-- The answers of `getsockopt` on a socket, by level and option. -/
abbrev Socket := ℕ → ℕ → Option SockOpt

/-- `u16::from_ne_bytes`. -/
def fromNe16 (t : Target) (b : List UInt8) : Option UInt16 :=
  be16 (if t.bigEndian then b else b.reverse) 0

/-- `b.get(lo..lo + n)` as an array of `n` bytes. -/
def octetsAt (n : ℕ) (b : List UInt8) (lo : ℕ) : Option (Vector UInt8 n) := do
  let bs ← slice b lo (lo + n)
  if h : bs.toArray.size = n then some ⟨bs.toArray, h⟩ else none

def decode (t : Target) (b : List UInt8) : Option SocketAddr := do
  let family ← fromNe16 t (← slice b 0 2)
  let port ← be16 (← slice b 2 4) 0
  if family = afInet then
    let o ← octetsAt 4 b 4
    some (.v4 o port)
  else if family = afInet6 then
    let o ← octetsAt 16 b 8
    some (.v6 o port 0 0)
  else none

def SockOpt.data (r : SockOpt) : List UInt8 := r.buf.toList.take (min r.len.toNat 28)

def query (t : Target) (sock : Socket) (level : ℕ) : Option SocketAddr := do
  let r ← sock level soOriginalDst
  decode t r.data

def sameEndpoint (a b : SocketAddr) : Bool :=
  if a.port ≠ b.port then false else a.ip = b.ip || b.ip.isUnspecified

/-- `listener` is the address of the listening socket, not of the accepted
one. -/
def originalDst (t : Target) (sock : Socket) (listener : SocketAddr) : Option SocketAddr :=
  if t.linux then do
    let orig ← (if listener.isIpv6 then query t sock solIpv6 <|> query t sock solIp
      else query t sock solIp)
    if sameEndpoint orig listener then none else some orig
  else none

/-! ## Endpoints and their encodings -/

@[ext] structure Endpoint where
  ip : IpAddr
  port : UInt16
  deriving DecidableEq

/-- The address of a socket at the endpoint, of no flow and no scope. -/
def Endpoint.addr (o : Endpoint) : SocketAddr :=
  match o.ip with
  | .v4 octets => .v4 octets o.port
  | .v6 octets => .v6 octets o.port 0 0

@[simp] theorem Endpoint.ip_addr (o : Endpoint) : o.addr.ip = o.ip := by
  obtain ⟨octets | octets, port⟩ := o <;> rfl

@[simp] theorem Endpoint.port_addr (o : Endpoint) : o.addr.port = o.port := by
  obtain ⟨octets | octets, port⟩ := o <;> rfl

/-- An IPv6 address that stands for an IPv4 one, as that. -/
def IpAddr.canonical : IpAddr → IpAddr
  | .v4 octets => .v4 octets
  | .v6 octets =>
      if octets.toList.take 12 = [0, 0, 0, 0, 0, 0, 0, 0, 0, 0, 0xff, 0xff] then
        .v4 #v[octets[12], octets[13], octets[14], octets[15]]
      else .v6 octets

def Endpoint.canonical (o : Endpoint) : Endpoint := ⟨o.ip.canonical, o.port⟩

/-- `u16::to_ne_bytes`. -/
def toNe16 (t : Target) (n : UInt16) : List UInt8 :=
  if t.bigEndian then toBe16 n else (toBe16 n).reverse

/-- The bytes of a `sockaddr_in` or `sockaddr_in6` for an endpoint. -/
inductive Encodes (t : Target) : List UInt8 → Endpoint → Prop
  | v4 {octets port pad} (hpad : pad.length = 8) :
      Encodes t (toNe16 t afInet ++ (toBe16 port ++ (octets.toList ++ pad))) ⟨.v4 octets, port⟩
  | v6 {octets port flow scope} (hflow : flow.length = 4) (hscope : scope.length = 4) :
      Encodes t (toNe16 t afInet6 ++ (toBe16 port ++ (flow ++ (octets.toList ++ scope))))
        ⟨.v6 octets, port⟩

variable {t : Target} {sock : Socket} {listener : SocketAddr} {a o : Endpoint}

theorem be16_toBe16 (n : UInt16) : be16 (toBe16 n) 0 = some n := by
  have hword : Ahead (toBe16 n) 0 (toBe16 n ++ []) := ⟨Nat.zero_le _, by simp⟩
  exact Dns.be16_ahead hword

theorem fromNe16_toNe16 (t : Target) (n : UInt16) : fromNe16 t (toNe16 t n) = some n := by
  unfold fromNe16 toNe16
  split_ifs
  · exact be16_toBe16 n
  · rw [List.reverse_reverse, be16_toBe16]

theorem octetsAt_ahead {n p : ℕ} {b rest : List UInt8} {octets : Vector UInt8 n}
    (h : Ahead b p (octets.toList ++ rest)) : octetsAt n b p = some octets := by
  have hslice := Dns.slice_ahead h
  rw [Vector.length_toList] at hslice
  have harray : octets.toList.toArray = octets.toArray := Array.toArray_toList
  simp [octetsAt, hslice, harray]

@[simp] theorem length_toNe16 (t : Target) (n : UInt16) : (toNe16 t n).length = 2 := by
  unfold toNe16
  split_ifs <;> rfl

theorem length_toBe16 (n : UInt16) : (toBe16 n).length = 2 := rfl

/-- The family and the port are read in the same way for both families. -/
theorem decode_ahead {family port : UInt16} {rest : List UInt8} :
    decode t (toNe16 t family ++ (toBe16 port ++ rest)) =
      if family = afInet then
        (octetsAt 4 (toNe16 t family ++ (toBe16 port ++ rest)) 4).map (SocketAddr.v4 · port)
      else if family = afInet6 then
        (octetsAt 16 (toNe16 t family ++ (toBe16 port ++ rest)) 8).map (SocketAddr.v6 · port 0 0)
      else none := by
  obtain ⟨b, hb⟩ : ∃ b, b = toNe16 t family ++ (toBe16 port ++ rest) := ⟨_, rfl⟩
  have hfamily : Ahead b 0 (toNe16 t family ++ (toBe16 port ++ rest)) := hb ▸ Ahead.start _
  have hport : Ahead b 2 (toBe16 port ++ rest) := by simpa using hfamily.append
  have hfirst : slice b 0 2 = some (toNe16 t family) := by simpa using Dns.slice_ahead hfamily
  have hsecond : slice b 2 4 = some (toBe16 port) := Dns.slice_ahead hport
  rw [← hb, decode, hfirst, Option.bind_eq_bind, Option.bind_some, fromNe16_toNe16, hsecond]
  simp only [Option.bind_eq_bind, Option.bind_some, be16_toBe16]
  split_ifs
  · cases octetsAt 4 b 4 <;> rfl
  · cases octetsAt 16 b 8 <;> rfl
  · rfl

theorem decode_of_encodes {b : List UInt8} (h : Encodes t b o) : decode t b = some o.addr := by
  cases h with
  | @v4 octets port pad hpad =>
      have hoctets := (Ahead.start (toNe16 t afInet ++
        (toBe16 port ++ (octets.toList ++ pad)))).append.append
      rw [length_toNe16, length_toBe16] at hoctets
      rw [decode_ahead, if_pos rfl, octetsAt_ahead hoctets]
      rfl
  | @v6 octets port flow scope hflow hscope =>
      have hoctets := (Ahead.start (toNe16 t afInet6 ++
        (toBe16 port ++ (flow ++ (octets.toList ++ scope))))).append.append.append
      rw [length_toNe16, length_toBe16, hflow] at hoctets
      rw [decode_ahead, if_neg (by decide), if_pos rfl, octetsAt_ahead hoctets]
      rfl

/-! ## What the kernel answers -/

def Reports (t : Target) (sock : Socket) (level : ℕ) (o : Endpoint) : Prop :=
  ∃ r, sock level soOriginalDst = some r ∧ Encodes t r.data o

/-- The level at which the kernel has an answer is one that is asked, and the
answer is the endpoint. -/
def Answers (t : Target) (sock : Socket) (listener : SocketAddr) (o : Endpoint) : Prop :=
  if listener.isIpv6 then
    Reports t sock solIpv6 o ∨ sock solIpv6 soOriginalDst = none ∧ Reports t sock solIp o
  else Reports t sock solIp o

/-- A connection arrives at the listener's port, and at its address if it has
one. -/
structure Accepted (listener : SocketAddr) (a : Endpoint) : Prop where
  port_eq : a.port = listener.port
  ip_eq : listener.ip.isUnspecified = false → a.ip = listener.ip

theorem query_of_reports {level : ℕ} (h : Reports t sock level o) :
    query t sock level = some o.addr := by
  obtain ⟨r, hr, hdata⟩ := h
  rw [query, hr]
  exact decode_of_encodes hdata

theorem originalDst_of_answers (hlinux : t.linux) (h : Answers t sock listener o) :
    originalDst t sock listener =
      if o.port = listener.port ∧ (o.ip = listener.ip ∨ listener.ip.isUnspecified) then none
      else some o.addr := by
  have horig : (if listener.isIpv6 then query t sock solIpv6 <|> query t sock solIp
      else query t sock solIp) = some o.addr := by
    unfold Answers at h
    split_ifs at h ⊢
    · rcases h with h | ⟨hnone, h⟩
      · rw [query_of_reports h]
        rfl
      · have hquery : query t sock solIpv6 = none := by
          rw [query, hnone]
          rfl
        rw [hquery, query_of_reports h]
        rfl
    · exact query_of_reports h
  rw [originalDst, if_pos hlinux, horig]
  by_cases hport : o.port = listener.port
  · simp [sameEndpoint, hport]
  · simp [sameEndpoint, hport]

/-- A direct connection is told from a redirected one by the listener's
address: the destination is kept unless it has the listener's port and the
listener has no address of its own. -/
theorem originalDst_redirected (hlinux : t.linux) (hacc : Accepted listener a)
    (h : Answers t sock listener o) :
    (o ≠ a ∧ o ≠ a.canonical → originalDst t sock listener =
      if listener.ip.isUnspecified ∧ o.port = listener.port then none else some o.addr) ∧
    (o = a ∨ o = a.canonical ∧ listener.ip.canonical = listener.ip →
      originalDst t sock listener = none) := by
  rw [originalDst_of_answers hlinux h]
  cases hunspecified : listener.ip.isUnspecified with
  | true =>
      refine ⟨fun _ => by simp, ?_⟩
      rintro (rfl | ⟨rfl, -⟩)
      · exact if_pos ⟨hacc.port_eq, .inr rfl⟩
      · exact if_pos ⟨hacc.port_eq, .inr rfl⟩
  | false =>
      have hip := hacc.ip_eq hunspecified
      constructor
      · rintro ⟨hne, -⟩
        rw [if_neg, if_neg (by simp)]
        rintro ⟨hport, hsame | hfalse⟩
        · exact hne (Endpoint.ext (hsame.trans hip.symm) (hport.trans hacc.port_eq.symm))
        · cases hfalse
      · rintro (rfl | ⟨rfl, hcanonical⟩)
        · exact if_pos ⟨hacc.port_eq, .inl hip⟩
        · refine if_pos ⟨hacc.port_eq, .inl ?_⟩
          rw [Endpoint.canonical, hip, hcanonical]

/-- A socket for which the kernel has an IPv4 destination. -/
def reporting (t : Target) (octets : Vector UInt8 4) (port : UInt16) : Socket :=
  fun level optname =>
    if level = solIp ∧ optname = soOriginalDst then
      some ⟨⟨(toNe16 t afInet ++ (toBe16 port ++ (octets.toList ++ List.replicate 20 0))).toArray,
        by simp [length_toBe16]⟩, 16⟩
    else none

theorem take_sixteen (t : Target) (octets : Vector UInt8 4) (port : UInt16) :
    (toNe16 t afInet ++ (toBe16 port ++ (octets.toList ++ List.replicate 20 0))).take 16 =
      toNe16 t afInet ++ (toBe16 port ++ (octets.toList ++ List.replicate 8 0)) := by
  have hlength : (toNe16 t afInet ++ (toBe16 port ++ (octets.toList ++
      List.replicate 8 0))).length = 16 := by simp [length_toBe16]
  have hsplit : toNe16 t afInet ++ (toBe16 port ++ (octets.toList ++ List.replicate 20 0)) =
      (toNe16 t afInet ++ (toBe16 port ++ (octets.toList ++ List.replicate 8 0))) ++
        List.replicate 12 0 := by
    rw [show List.replicate 20 (0 : UInt8) = List.replicate 8 0 ++ List.replicate 12 0 from rfl]
    simp only [List.append_assoc]
  rw [hsplit, List.take_left' hlength]

theorem answers_reporting (t : Target) (octets octets' : Vector UInt8 4) (port port' : UInt16) :
    Answers t (reporting t octets port) (.v4 octets' port') ⟨.v4 octets, port⟩ := by
  refine ⟨_, if_pos ⟨rfl, rfl⟩, ?_⟩
  change Encodes t (List.take 16 (toNe16 t afInet ++ (toBe16 port ++ (octets.toList ++ _)))) _
  rw [take_sixteen]
  exact .v4 rfl

/-- A connection that was headed for another host at the listener's own
port. -/
theorem not_originalDst_redirected :
    ¬∀ (t : Target) (sock : Socket) (listener : SocketAddr) (a o : Endpoint), t.linux →
      Accepted listener a → Answers t sock listener o →
      (o ≠ a → originalDst t sock listener = some o.addr) ∧
      (o = a → originalDst t sock listener = none) := by
  intro h
  have hanswers := answers_reporting ⟨true, false⟩ #v[10, 0, 0, 5] #v[0, 0, 0, 0] 9999 9999
  have hnone := originalDst_of_answers rfl hanswers
  have hsome := (h ⟨true, false⟩ _ (.v4 #v[0, 0, 0, 0] 9999) ⟨.v4 #v[10, 0, 0, 1], 9999⟩ _ rfl
    ⟨rfl, by decide⟩ hanswers).1 (by decide)
  rw [hsome] at hnone
  revert hnone
  decide

/-- A connection that was headed for another port. -/
theorem originalDst_redirected_elsewhere :
    originalDst ⟨true, false⟩ (reporting ⟨true, false⟩ #v[10, 0, 0, 5] 443)
      (.v4 #v[0, 0, 0, 0] 9999) = some (.v4 #v[10, 0, 0, 5] 443) := by
  have hredirected := originalDst_redirected (a := ⟨.v4 #v[10, 0, 0, 1], 9999⟩) rfl
    ⟨rfl, by decide⟩ (answers_reporting ⟨true, false⟩ #v[10, 0, 0, 5] #v[0, 0, 0, 0] 443 9999)
  exact hredirected.1 (by decide)

end Origdst

end KirbLaSnoop
