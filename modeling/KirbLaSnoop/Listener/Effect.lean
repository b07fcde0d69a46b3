import Mathlib
import KirbLaSnoop.Profile
import KirbLaSnoop.Log.Calls

/-!
# What a listener does

A listener handles one input at a time. What it does for it is a list of
effects in order: calls of the logger, bytes that leave, and tasks it starts.
-/

namespace KirbLaSnoop

inductive Trigger where
  | onConnect
  | rule (name : String)
  deriving DecidableEq

def Trigger.tag : Trigger → String
  | .onConnect => "on_connect"
  | .rule name => name

/-- `sent` are bytes of a profile that left for a peer, `relayed` bytes that
forwarding passed on. -/
inductive Effect (Addr : Type*) where
  | call (c : Call)
  | sent (dst : Addr) (conn : ℕ) (trigger : Trigger) (bytes : List UInt8)
  | relayed (conn : ℕ) (dir : Dir) (bytes : List UInt8)
  | shutdown (conn : ℕ) (dir : Dir)
  | spawn (conn : ℕ) (peer : Addr)
  deriving DecidableEq

inductive Owner (Addr : Type*) where
  | connection (peer : Addr)
  | peer (src : Addr)
  | overflow
  deriving DecidableEq

/-- The next state, the owner of the connection id that was taken if one was,
and what is done. -/
structure Outcome (σ Addr : Type*) where
  state : σ
  took : Option (Owner Addr)
  effects : List (Effect Addr)

/-- The id that will be given out next. -/
def Outcome.next {σ Addr : Type*} (out : Outcome σ Addr) (next : ℕ) : ℕ :=
  if out.took.isSome then next + 1 else next

/-- The payload of an action for a received message; none if there is no
reply to build. The transports differ in the framing of a dns reply. -/
def Action.build (reply : List UInt8 → Dns.Answer → Option (List UInt8)) (a : Action)
    (received : List UInt8) : Option (List UInt8) :=
  if a.echo then some received
  else
    match a.dns with
    | some ans => reply received ans
    | none => some a.payload

namespace Effect

variable {Addr : Type*}

def bytesOut : Effect Addr → ℕ
  | .sent _ _ _ bytes => bytes.length
  | _ => 0

def totalOut (effects : List (Effect Addr)) : ℕ := (effects.map bytesOut).sum

@[simp] theorem totalOut_nil : totalOut ([] : List (Effect Addr)) = 0 := rfl

@[simp] theorem totalOut_cons (e : Effect Addr) (es : List (Effect Addr)) :
    totalOut (e :: es) = e.bytesOut + totalOut es := by
  simp [totalOut]

@[simp] theorem totalOut_append (es es' : List (Effect Addr)) :
    totalOut (es ++ es') = totalOut es + totalOut es' := by
  simp [totalOut]

@[simp] theorem bytesOut_call (c : Call) : (Effect.call c : Effect Addr).bytesOut = 0 := rfl

@[simp] theorem bytesOut_sent (dst : Addr) (conn : ℕ) (trigger : Trigger) (bytes : List UInt8) :
    (Effect.sent dst conn trigger bytes).bytesOut = bytes.length := rfl

end Effect

end KirbLaSnoop
