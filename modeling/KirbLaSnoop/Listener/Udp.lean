import Mathlib
import KirbLaSnoop.Lib.Table
import KirbLaSnoop.Listener.Effect

/-!
# The udp listener

One loop over datagrams and sweep ticks. Udp has no connections, so a source
address gets a connection id of its own until it has been silent for long
enough; sources for which the table has no room share one.
-/

namespace KirbLaSnoop

namespace Udp

/-- `display` renders an address, and `debug` a string as `{:?}` does. -/
structure Config (Addr : Type*) where
  name : String
  localAddr : String
  loopback : Bool
  profile : Option Compiled
  idleSecs : ℕ
  maxPeers : ℕ
  display : Addr → String
  debug : String → String

structure Peer where
  conn : ℕ
  lastSeen : ℕ
  deriving DecidableEq

/-- A listener that has panicked while it matched a rule is `crashed`. -/
structure State (Addr : Type*) where
  peers : Table Addr Peer
  overflowConn : Option ℕ
  overflowCount : ℕ
  crashed : Bool

/-- What the loop of the source waits for. A datagram comes with the clock's
reading and with what `send_to` says to a greeting and to a rule's reply; a
sweep with the order in which the table yields its entries. -/
inductive Input (Addr : Type*) where
  | datagram (src : Addr) (data : List UInt8) (now : ℕ) (banner rule : Except String Unit)
  | recvError (e : String)
  | sweep (now : ℕ) (order : List Addr)

variable {Addr : Type*} (cfg : Config Addr)

def State.new : State Addr := ⟨∅, none, 0, false⟩

def startup : List (Effect Addr) :=
  let listening := Effect.call (.listening .udp cfg.name cfg.localAddr
    (cfg.profile.elim "none" fun p => p.name))
  match cfg.profile with
  | none => [listening]
  | some p =>
      if p.responds && !cfg.loopback then
        let ratio := match p.maxResponseBytes with
          | some n => "a 1-byte datagram draws up to " ++ toString n ++ " bytes"
          | none => "replies mirror the request size"
        [listening, .call (.warn .udp cfg.name ("profile " ++ cfg.debug p.name ++
          " replies to unverified source addresses on a non-loopback bind. " ++
          "udp sources are trivially forged, so this is an open reflector: " ++ ratio ++
          ", sent wherever the sender claimed to be. bind loopback or an isolated " ++
          "interface unless that is intended"))]
      else [listening]

def reply (dst : Addr) (a : Action) (received : List UInt8) (conn : ℕ) (trigger : Trigger)
    (outcome : Except String Unit) : List (Effect Addr) :=
  if a.isSilent then []
  else
    match a.build Dns.reply received with
    | none => []
    | some payload =>
        if payload.isEmpty then []
        else
          match outcome with
          | .ok () =>
              [.sent dst conn trigger payload,
                .call (.data .udp cfg.name conn (cfg.display dst) .tx payload (some trigger.tag))]
          | .error e => [.call (.error .udp cfg.name (some conn) ("send: " ++ e))]

/-- The greeting of the profile, which is for the first datagram of a peer. -/
def greeting (src : Addr) (conn : ℕ) (data : List UInt8) (first : Bool)
    (outcome : Except String Unit) : List (Effect Addr) :=
  match cfg.profile.bind fun p => p.onConnect with
  | none => []
  | some a => if first then reply cfg src a data conn .onConnect outcome else []

def ruling (data : List UInt8) (first : Bool) : Except Panic (Option (String × Action)) :=
  match cfg.profile with
  | none => .ok none
  | some p => p.eval data first

def answer (src : Addr) (conn : ℕ) (data : List UInt8) (first : Bool)
    (outcome : Except String Unit) : List (Effect Addr) :=
  match ruling cfg data first with
  | .ok (some (name, a)) => reply cfg src a data conn (.rule name) outcome
  | _ => []

theorem reply_cases (dst : Addr) (a : Action) (received : List UInt8) (conn : ℕ)
    (trigger : Trigger) (outcome : Except String Unit) :
    reply cfg dst a received conn trigger outcome = [] ∨
      (∃ e, reply cfg dst a received conn trigger outcome =
        [.call (.error .udp cfg.name (some conn) ("send: " ++ e))]) ∨
      ∃ payload, a.isSilent = false ∧ a.build Dns.reply received = some payload ∧
        reply cfg dst a received conn trigger outcome =
          [.sent dst conn trigger payload,
            .call (.data .udp cfg.name conn (cfg.display dst) .tx payload (some trigger.tag))] := by
  unfold reply
  split
  · exact .inl rfl
  · next hsilent =>
      split
      · exact .inl rfl
      · next payload hbuild =>
          split
          · exact .inl rfl
          · cases outcome with
            | ok u => exact .inr (.inr ⟨payload, Bool.not_eq_true _ ▸ hsilent, hbuild, rfl⟩)
            | error e => exact .inr (.inl ⟨e, rfl⟩)

/-- The effects with which a profile speaks to `src`. -/
inductive Said (src : Addr) (conn : ℕ) (trigger : Trigger) : Effect Addr → Prop
  | sent (bytes : List UInt8) : Said src conn trigger (.sent src conn trigger bytes)
  | data (bytes : List UInt8) :
      Said src conn trigger
        (.call (.data .udp cfg.name conn (cfg.display src) .tx bytes (some trigger.tag)))
  | error (msg : String) :
      Said src conn trigger (.call (.error .udp cfg.name (some conn) msg))

theorem said_of_mem_reply {dst : Addr} {a : Action} {received : List UInt8} {conn : ℕ}
    {trigger : Trigger} {outcome : Except String Unit} {e : Effect Addr}
    (he : e ∈ reply cfg dst a received conn trigger outcome) : Said cfg dst conn trigger e := by
  rcases reply_cases cfg dst a received conn trigger outcome with h | ⟨msg, h⟩ | ⟨payload, -, -, h⟩
  · rw [h] at he
    cases he
  · rw [h, List.mem_singleton] at he
    rw [he]
    exact .error _
  · rw [h, List.mem_cons, List.mem_singleton] at he
    rcases he with rfl | rfl
    · exact .sent payload
    · exact .data payload

theorem said_of_mem_greeting {src : Addr} {conn : ℕ} {data : List UInt8} {first : Bool}
    {outcome : Except String Unit} {e : Effect Addr}
    (he : e ∈ greeting cfg src conn data first outcome) : Said cfg src conn .onConnect e := by
  unfold greeting at he
  split at he
  · cases he
  · split at he
    · exact said_of_mem_reply cfg he
    · cases he

theorem said_of_mem_answer {src : Addr} {conn : ℕ} {data : List UInt8} {first : Bool}
    {outcome : Except String Unit} {e : Effect Addr}
    (he : e ∈ answer cfg src conn data first outcome) :
    ∃ name, Said cfg src conn (.rule name) e := by
  unfold answer at he
  split at he
  · next name a _ => exact ⟨name, said_of_mem_reply cfg he⟩
  · cases he

@[simp] theorem greeting_false (src : Addr) (conn : ℕ) (data : List UInt8)
    (outcome : Except String Unit) : greeting cfg src conn data false outcome = [] := by
  unfold greeting
  split
  · rfl
  · exact if_neg Bool.false_ne_true

theorem sent_mem_answer {src : Addr} {conn : ℕ} {data payload : List UInt8} {first : Bool}
    {name : String} {a : Action} (hrule : ruling cfg data first = .ok (some (name, a)))
    (hspeaks : a.isSilent = false) (hbuild : a.build Dns.reply data = some payload)
    (hpayload : payload ≠ []) :
    .sent src conn (.rule name) payload ∈ answer cfg src conn data first (.ok ()) := by
  have hne : payload.isEmpty = false := List.isEmpty_eq_false_iff.mpr hpayload
  simp [answer, hrule, reply, hspeaks, hbuild, hne]

/-! ## The loop -/

variable [DecidableEq Addr]

def isFull (s : State Addr) : Bool := s.peers.size ≥ cfg.maxPeers

/-- A datagram of a source that is not in the table, which is full. -/
def overflow (next : ℕ) (s : State Addr) (src : Addr) (data : List UInt8) :
    Outcome (State Addr) Addr :=
  let logged := fun conn =>
    Effect.call (.data .udp cfg.name conn (cfg.display src) .rx data none)
  match s.overflowConn with
  | some conn =>
      { state := { s with overflowCount := s.overflowCount + 1 }
        took := none
        effects := [logged conn] }
  | none =>
      { state := { s with overflowConn := some next, overflowCount := s.overflowCount + 1 }
        took := some .overflow
        effects :=
          [.call (.openConn .udp cfg.name next cfg.localAddr "overflow" none),
            .call (.warn .udp cfg.name ("peer table hit " ++ toString cfg.maxPeers ++
              " entries. further new sources are captured under one overflow stream, " ++
              "untracked and unanswered. raise --udp-max-peers if this is legitimate traffic")),
            logged next] }

/-- A datagram of a source that is in the table, or finds room there. -/
def tracked (next : ℕ) (s : State Addr) (src : Addr) (data : List UInt8) (now : ℕ)
    (banner rule : Except String Unit) : Outcome (State Addr) Addr :=
  let first := (s.peers.get src).isNone
  let conn := (s.peers.get src).elim next Peer.conn
  { state :=
      { s with
        peers := s.peers.set src ⟨conn, now⟩
        crashed := !(ruling cfg data first).isOk }
    took := if first then some (.peer src) else none
    effects :=
      (if first then
        [.call (.openConn .udp cfg.name conn cfg.localAddr (cfg.display src) none)]
      else []) ++
        .call (.data .udp cfg.name conn (cfg.display src) .rx data none) ::
          (greeting cfg src conn data first banner ++ answer cfg src conn data first rule) }

def datagram (next : ℕ) (s : State Addr) (src : Addr) (data : List UInt8) (now : ℕ)
    (banner rule : Except String Unit) : Outcome (State Addr) Addr :=
  if (s.peers.get src).isNone && isFull cfg s then overflow cfg next s src data
  else tracked cfg next s src data now banner rule

/-- `now.saturating_sub(p.last_seen) < cutoff`, with a cutoff that saturates
at the largest `u64`. -/
def isFresh (now : ℕ) (p : Peer) : Bool :=
  now - p.lastSeen < min (cfg.idleSecs * 1000) (2 ^ 64 - 1)

/-- The closes of the peers that a sweep retires. -/
def retired (now : ℕ) (s : State Addr) (order : List Addr) : List (Effect Addr) :=
  order.filterMap fun src =>
    match s.peers.get src with
    | none => none
    | some p =>
        if isFresh cfg now p then none
        else some (.call (.close .udp cfg.name p.conn (cfg.display src) "idle timeout"))

def sweep (now : ℕ) (s : State Addr) (order : List Addr) : Outcome (State Addr) Addr :=
  let closes := retired cfg now s order
  let s := { s with peers := s.peers.retain fun _ p => isFresh cfg now p }
  match s.overflowConn with
  | some conn =>
      if isFull cfg s then ⟨s, none, closes⟩
      else
        { state := { s with overflowConn := none, overflowCount := 0 }
          took := none
          effects := closes ++ [.call (.close .udp cfg.name conn "overflow"
            (toString s.overflowCount ++ " untracked datagrams"))] }
  | none => ⟨s, none, closes⟩

/-- The order is one in which the table can yield its entries. -/
def Enumerates (order : List Addr) (s : State Addr) : Prop :=
  order.Nodup ∧ order.toFinset = s.peers.keys

instance (order : List Addr) (s : State Addr) : Decidable (Enumerates order s) :=
  inferInstanceAs (Decidable (_ ∧ _))

def handle (next : ℕ) (s : State Addr) (input : Input Addr) :
    Option (Outcome (State Addr) Addr) :=
  if s.crashed then none
  else
    match input with
    | .datagram src data now banner rule =>
        some (datagram cfg next s src data now banner rule)
    | .recvError e => some ⟨s, none, [.call (.error .udp cfg.name none ("recv: " ++ e))]⟩
    | .sweep now order => if Enumerates order s then some (sweep cfg now s order) else none

end Udp

end KirbLaSnoop
