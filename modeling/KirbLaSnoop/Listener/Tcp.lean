import Mathlib
import KirbLaSnoop.Lib.Transition
import KirbLaSnoop.Listener.Effect

/-!
# The tcp listener and its connections

An accept loop that starts one task for every connection. A task either
serves a profile or splices the client to an upstream; it awaits one thing at
a time, except that the two pumps of a splice take turns.
-/

namespace KirbLaSnoop

namespace Tcp

structure Config (Addr : Type*) where
  name : String
  localAddr : String
  profile : Option Compiled
  upstream : Option String
  display : Addr → String

/-- One direction of a splice; `writing` holds what `write_all` has left. -/
inductive Pump where
  | reading
  | writing (rest : List UInt8)
  | done
  deriving DecidableEq

/-- Where the task of a connection is. `crashed` is a panic in a rule. -/
inductive Stage where
  | start
  | reading (first : Bool)
  | splicing (rx tx : Pump)
  | ended
  | crashed
  deriving DecidableEq

/-- How `write_all` and `flush` end; a failed write may have sent some bytes. -/
inductive Sending where
  | done
  | writeFailed (written : ℕ) (e : String)
  | flushFailed (e : String)

/-- What a task waits for; a read of no bytes is the end of the stream. -/
inductive Input where
  | greet (sending : Sending)
  | read (res : Except String (List UInt8)) (sending : Sending)
  | connect (res : Except String Unit)
  | pumpRead (dir : Dir) (res : Except String (List UInt8))
  | pumpWrite (dir : Dir) (res : Except String ℕ)

variable {Addr : Type*} (cfg : Config Addr)

def startup : List (Effect Addr) :=
  let mode := match cfg.upstream, cfg.profile with
    | some up, _ => "forward->" ++ up
    | none, some p => p.name
    | none, none => "none"
  let listening := Effect.call (.listening .tcp cfg.name cfg.localAddr mode)
  if cfg.upstream.isSome && cfg.profile.any fun p => p.responds then
    [listening, .call (.warn .tcp cfg.name ("an upstream and a responding profile are both set; " ++
      "the upstream wins and the profile's rules will not fire"))]
  else [listening]

/-- A connection is opened by the loop and handed to a task of its own. -/
def accept (next : ℕ) (peer : Addr) (orig : Option String) : Outcome Unit Addr :=
  { state := ()
    took := some (.connection peer)
    effects :=
      [.call (.openConn .tcp cfg.name next cfg.localAddr (cfg.display peer) orig),
        .spawn next peer] }

def acceptError (e : String) : Outcome Unit Addr :=
  ⟨(), none, [.call (.error .tcp cfg.name none ("accept: " ++ e))]⟩

/-! ## A connection -/

variable (conn : ℕ) (peer : Addr)

/-- The result tells whether the action asks to hang up. -/
def send (a : Action) (received : List UInt8) (trigger : Trigger) (sending : Sending) :
    List (Effect Addr) × Except String Bool :=
  if a.isSilent then ([], .ok a.close)
  else
    match a.build Dns.replyTcp received with
    | none => ([], .ok a.close)
    | some payload =>
        let hangup := if a.close then [.shutdown conn .tx] else []
        if payload.isEmpty then (hangup, .ok a.close)
        else
          match sending with
          | .done =>
              (.sent peer conn trigger payload ::
                .call (.data .tcp cfg.name conn (cfg.display peer) .tx payload
                  (some trigger.tag)) :: hangup, .ok a.close)
          | .writeFailed written e =>
              ([.sent peer conn trigger (payload.take written)], .error e)
          | .flushFailed e => ([.sent peer conn trigger payload], .error e)

/-- What the task logs when `serve` or `forward` returns. -/
def finish (outcome : Except String String) : List (Effect Addr) :=
  match outcome with
  | .ok why => [.call (.close .tcp cfg.name conn (cfg.display peer) why)]
  | .error e =>
      [.call (.error .tcp cfg.name (some conn) e),
        .call (.close .tcp cfg.name conn (cfg.display peer) "error")]

/-- Go on after a send: hang up, fail, or wait for the next message. -/
def proceed (next : Stage) (sent : List (Effect Addr) × Except String Bool) :
    Stage × List (Effect Addr) :=
  match sent.2 with
  | .ok true => (.ended, sent.1 ++ finish cfg conn peer (.ok "profile close"))
  | .ok false => (next, sent.1)
  | .error e => (.ended, sent.1 ++ finish cfg conn peer (.error e))

def greet (sending : Sending) : Stage × List (Effect Addr) :=
  match cfg.profile.bind fun p => p.onConnect with
  | none => (.reading true, [])
  | some a => proceed cfg conn peer (.reading true) (send cfg conn peer a [] .onConnect sending)

/-- One turn of the loop of `serve`. -/
def read (first : Bool) (res : Except String (List UInt8)) (sending : Sending) :
    Stage × List (Effect Addr) :=
  match res with
  | .error e => (.ended, finish cfg conn peer (.error e))
  | .ok [] => (.ended, finish cfg conn peer (.ok "peer eof"))
  | .ok data =>
      let received := Effect.call (.data .tcp cfg.name conn (cfg.display peer) .rx data none)
      match cfg.profile with
      | none => (.reading false, [received])
      | some p =>
          match p.eval data first with
          | .error _ => (.crashed, [received])
          | .ok none => (.reading false, [received])
          | .ok (some (name, a)) =>
              let (stage, effects) := proceed cfg conn peer (.reading false)
                (send cfg conn peer a data (.rule name) sending)
              (stage, received :: effects)

def connect (upstream : String) (res : Except String Unit) : Stage × List (Effect Addr) :=
  match res with
  | .ok () => (.splicing .reading .reading, [])
  | .error e =>
      (.ended, .call (.error .tcp cfg.name (some conn) ("upstream " ++ upstream ++ ": " ++ e)) ::
        finish cfg conn peer (.ok "upstream unreachable"))

/-- A pump that reads; a reset counts as the end of the stream. -/
def pumpRead (dir : Dir) (res : Except String (List UInt8)) : Pump × List (Effect Addr) :=
  match res with
  | .error _ => (.done, [.shutdown conn dir])
  | .ok [] => (.done, [.shutdown conn dir])
  | .ok bs =>
      (.writing bs,
        [.call (.data .tcp cfg.name conn (cfg.display peer) dir bs (some "forward"))])

/-- A pump that writes; a write takes at least one byte, or fails. When it fails
the pump returns, and the far half, which it owns, is shut down as it is
dropped. -/
def pumpWrite (dir : Dir) (rest : List UInt8) (res : Except String ℕ) :
    Option (Pump × List (Effect Addr)) :=
  match res with
  | .error _ => some (.done, [.shutdown conn dir])
  | .ok n =>
      if 0 < n ∧ n < rest.length then
        some (.writing (rest.drop n), [.relayed conn dir (rest.take n)])
      else if n = rest.length then some (.reading, [.relayed conn dir rest])
      else none

/-- One turn of the pump that is in a state of its own. -/
def pump (dir : Dir) (state : Pump) (input : Input) : Option (Pump × List (Effect Addr)) :=
  match state, input with
  | .reading, .pumpRead _ res => some (pumpRead cfg conn peer dir res)
  | .writing rest, .pumpWrite _ res => pumpWrite conn dir rest res
  | _, _ => none

def join (rx tx : Pump) (effects : List (Effect Addr)) : Stage × List (Effect Addr) :=
  if rx = .done ∧ tx = .done then
    (.ended, effects ++ finish cfg conn peer (.ok "both directions closed"))
  else (.splicing rx tx, effects)

def Input.dir : Input → Dir
  | .pumpRead dir _ => dir
  | .pumpWrite dir _ => dir
  | _ => .rx

def handle (stage : Stage) (input : Input) : Option (Stage × List (Effect Addr)) :=
  match stage, cfg.upstream, input with
  | .start, none, .greet sending => some (greet cfg conn peer sending)
  | .start, some up, .connect res => some (connect cfg conn peer up res)
  | .reading first, _, .read res sending => some (read cfg conn peer first res sending)
  | .splicing rx tx, _, input =>
      match input.dir with
      | .rx => (pump cfg conn peer .rx rx input).map fun out => join cfg conn peer out.1 tx out.2
      | .tx => (pump cfg conn peer .tx tx input).map fun out => join cfg conn peer rx out.1 out.2
  | _, _, _ => none

def lts : Lts Stage Input (List (Effect Addr)) where
  step stage input := handle cfg conn peer stage input

/-! ## What a step of a connection can do -/

inductive Step : Stage → Input → Stage × List (Effect Addr) → Prop
  | greet (sending : Sending) (hserve : cfg.upstream = none) :
      Step .start (.greet sending) (greet cfg conn peer sending)
  | connect (up : String) (res : Except String Unit) (hforward : cfg.upstream = some up) :
      Step .start (.connect res) (connect cfg conn peer up res)
  | read (first : Bool) (res : Except String (List UInt8)) (sending : Sending) :
      Step (.reading first) (.read res sending) (read cfg conn peer first res sending)
  | pumpRx (rx tx : Pump) (input : Input) (out : Pump × List (Effect Addr))
      (hpump : pump cfg conn peer .rx rx input = some out) :
      Step (.splicing rx tx) input (join cfg conn peer out.1 tx out.2)
  | pumpTx (rx tx : Pump) (input : Input) (out : Pump × List (Effect Addr))
      (hpump : pump cfg conn peer .tx tx input = some out) :
      Step (.splicing rx tx) input (join cfg conn peer rx out.1 out.2)

theorem step_cases {stage : Stage} {input : Input} {out : Stage × List (Effect Addr)}
    (h : handle cfg conn peer stage input = some out) : Step cfg conn peer stage input out := by
  unfold handle at h
  split at h
  · next sending hserve =>
      obtain rfl := Option.some.inj h
      exact .greet sending hserve
  · next up res hforward =>
      obtain rfl := Option.some.inj h
      exact .connect up res hforward
  · obtain rfl := Option.some.inj h
    exact .read _ _ _
  · split at h
    · obtain ⟨out, hpump, rfl⟩ := Option.map_eq_some_iff.mp h
      exact .pumpRx _ _ _ out hpump
    · obtain ⟨out, hpump, rfl⟩ := Option.map_eq_some_iff.mp h
      exact .pumpTx _ _ _ out hpump
  · cases h

end Tcp

end KirbLaSnoop
