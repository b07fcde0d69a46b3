import Mathlib
import KirbLaSnoop.Listener.PeerTable
import KirbLaSnoop.Listener.Tcp

/-!
# The listeners of one process

Any number of listeners and of connections share a logger. A thread handles
an input in one step and then performs the effects one by one; the others may
come in between. It takes its next input when all effects are performed, and
none after it has panicked.
-/

namespace KirbLaSnoop

inductive Listener (Addr : Type*) where
  | udp (cfg : Udp.Config Addr)
  | tcp (cfg : Tcp.Config Addr)

def Listener.startup {Addr : Type*} : Listener Addr → List (Effect Addr)
  | .udp cfg => Udp.startup cfg
  | .tcp cfg => Tcp.startup cfg

/-- The loop of a listener, or the task of a connection. -/
inductive Thread (ι : Type*) where
  | loop (i : ι)
  | task (conn : ℕ)
  deriving DecidableEq

structure Connection (ι Addr : Type*) where
  listener : ι
  peer : Addr
  stage : Tcp.Stage

structure Process (ι Addr : Type*) where
  log : Logger
  udp : ι → Udp.State Addr
  tasks : ℕ → Option (Connection ι Addr)
  pending : Thread ι → List (Effect Addr)

namespace Process

variable {ι Addr : Type*}

inductive Act (ι Addr : Type*) where
  | accept (i : ι) (peer : Addr) (orig : Option String)
  | acceptError (i : ι) (e : String)
  | turn (i : ι) (input : Udp.Input Addr)
  | step (conn : ℕ) (input : Tcp.Input)
  | perform (t : Thread ι) (e : Env)
  | flush (e : Env) (order : List Key)

/-- A connection id is given out, an input is handled, an effect happens. -/
inductive Seen (ι Addr : Type*) where
  | took (id : ℕ) (i : ι) (owner : Owner Addr)
  | handled (t : Thread ι) (effects : List (Effect Addr))
  | performed (t : Thread ι) (e : Effect Addr)

variable (net : ι → Listener Addr) (dp : Deps) (o : Options)

def start : Process ι Addr :=
  { log := .new
    udp := fun _ => .new
    tasks := fun _ => none
    pending := fun t =>
      match t with
      | .loop i => (net i).startup
      | .task _ => [] }

variable [DecidableEq ι]

def handled {σ : Type*} (p : Process ι Addr) (i : ι) (out : Outcome σ Addr) : Process ι Addr :=
  { p with
    log := if out.took.isSome then p.log.nextConnId.2 else p.log
    pending := Function.update p.pending (.loop i) out.effects }

def seenHandled {σ : Type*} (p : Process ι Addr) (i : ι) (out : Outcome σ Addr) :
    List (Seen ι Addr) :=
  (out.took.map fun owner => .took p.log.nextConn i owner).toList ++
    [.handled (.loop i) out.effects]

def turned (p : Process ι Addr) (i : ι) (out : Outcome (Udp.State Addr) Addr) : Process ι Addr :=
  { p.handled i out with udp := Function.update p.udp i out.state }

def stepped (p : Process ι Addr) (conn : ℕ) (c : Connection ι Addr)
    (out : Tcp.Stage × List (Effect Addr)) : Process ι Addr :=
  { p with
    tasks := Function.update p.tasks conn (some { c with stage := out.1 })
    pending := Function.update p.pending (.task conn) out.2 }

def drop (p : Process ι Addr) (t : Thread ι) (rest : List (Effect Addr)) : Process ι Addr :=
  { p with pending := Function.update p.pending t rest }

def call (p : Process ι Addr) (e : Env) (c : Call) : Process ι Addr :=
  { p with log := p.log.exec dp o e c }

def spawn (p : Process ι Addr) (i : ι) (conn : ℕ) (peer : Addr) : Process ι Addr :=
  { p with tasks := Function.update p.tasks conn (some ⟨i, peer, .start⟩) }

/-- An effect happens; what leaves for the network is not kept. -/
def realize (p : Process ι Addr) (t : Thread ι) (e : Env) (eff : Effect Addr) : Process ι Addr :=
  match eff, t with
  | .call c, _ => p.call dp o e c
  | .spawn conn peer, .loop i => p.spawn i conn peer
  | _, _ => p

def perform (p : Process ι Addr) (t : Thread ι) (e : Env) :
    Option (Process ι Addr × List (Seen ι Addr)) :=
  match p.pending t with
  | [] => none
  | eff :: rest => some ((p.drop t rest).realize dp o t e eff, [.performed t eff])

variable [DecidableEq Addr]

def lts : Lts (Process ι Addr) (Act ι Addr) (List (Seen ι Addr)) where
  step p a :=
    match a with
    | .accept i peer orig =>
        match net i, p.pending (.loop i) with
        | .tcp cfg, [] =>
            let out := Tcp.accept cfg p.log.nextConn peer orig
            some (p.handled i out, p.seenHandled i out)
        | _, _ => none
    | .acceptError i e =>
        match net i, p.pending (.loop i) with
        | .tcp cfg, [] =>
            let out : Outcome Unit Addr := Tcp.acceptError cfg e
            some (p.handled i out, p.seenHandled i out)
        | _, _ => none
    | .turn i input =>
        match net i, p.pending (.loop i) with
        | .udp cfg, [] =>
            (Udp.handle cfg p.log.nextConn (p.udp i) input).map fun out =>
              (p.turned i out, p.seenHandled i out)
        | _, _ => none
    | .step conn input =>
        match p.tasks conn, p.pending (.task conn) with
        | some c, [] =>
            match net c.listener with
            | .tcp cfg =>
                (Tcp.handle cfg conn c.peer c.stage input).map fun out =>
                  (p.stepped conn c out, [.handled (.task conn) out.2])
            | .udp _ => none
        | _, _ => none
    | .perform t e => p.perform dp o t e
    | .flush e order =>
        if p.log.Enumerates order then some (p.call dp o e (.flush order), []) else none

/-! ## What a step can do -/

inductive Move (p : Process ι Addr) : Process ι Addr → List (Seen ι Addr) → Prop
  | accept (i : ι) (cfg : Tcp.Config Addr) (peer : Addr) (orig : Option String)
      (hidle : p.pending (.loop i) = []) :
      Move p (p.handled i (Tcp.accept cfg p.log.nextConn peer orig))
        (p.seenHandled i (Tcp.accept cfg p.log.nextConn peer orig))
  | acceptError (i : ι) (cfg : Tcp.Config Addr) (e : String) (hidle : p.pending (.loop i) = []) :
      Move p (p.handled i (Tcp.acceptError cfg e)) (p.seenHandled i (Tcp.acceptError cfg e))
  | turn (i : ι) (cfg : Udp.Config Addr) (input : Udp.Input Addr)
      (out : Outcome (Udp.State Addr) Addr) (hidle : p.pending (.loop i) = [])
      (hturn : Udp.Turn cfg p.log.nextConn (p.udp i) input out) :
      Move p (p.turned i out) (p.seenHandled i out)
  | step (conn : ℕ) (c : Connection ι Addr) (cfg : Tcp.Config Addr) (input : Tcp.Input)
      (out : Tcp.Stage × List (Effect Addr)) (htask : p.tasks conn = some c)
      (hidle : p.pending (.task conn) = [])
      (hstep : Tcp.Step cfg conn c.peer c.stage input out) :
      Move p (p.stepped conn c out) [.handled (.task conn) out.2]
  | perform (t : Thread ι) (e : Env) (eff : Effect Addr) (rest : List (Effect Addr))
      (hp : p.pending t = eff :: rest) :
      Move p ((p.drop t rest).realize dp o t e eff) [.performed t eff]
  | flush (e : Env) (order : List Key) : Move p (p.call dp o e (.flush order)) []

theorem step_cases {p p' : Process ι Addr} {a : Act ι Addr} {seen : List (Seen ι Addr)}
    (h : (lts net dp o).step p a = some (p', seen)) : Move dp o p p' seen := by
  cases a with
  | accept i peer orig =>
      simp only [lts] at h
      split at h
      · next cfg hnet hidle =>
          obtain ⟨rfl, rfl⟩ := Prod.mk.inj (Option.some.inj h)
          exact .accept i cfg peer orig hidle
      · cases h
  | acceptError i e =>
      simp only [lts] at h
      split at h
      · next cfg hnet hidle =>
          obtain ⟨rfl, rfl⟩ := Prod.mk.inj (Option.some.inj h)
          exact .acceptError i cfg e hidle
      · cases h
  | turn i input =>
      simp only [lts] at h
      split at h
      · next cfg hnet hidle =>
          obtain ⟨out, hout, h⟩ := Option.map_eq_some_iff.mp h
          obtain ⟨rfl, rfl⟩ := Prod.mk.inj h
          exact .turn i cfg input out hidle (Udp.handle_cases cfg hout).2
      · cases h
  | step conn input =>
      simp only [lts] at h
      split at h
      · next c htask hidle =>
          split at h
          · next cfg hnet =>
              obtain ⟨out, hout, h⟩ := Option.map_eq_some_iff.mp h
              obtain ⟨rfl, rfl⟩ := Prod.mk.inj h
              exact .step conn c cfg input out htask hidle (Tcp.step_cases cfg conn c.peer hout)
          · cases h
      · cases h
  | perform t e =>
      simp only [lts, perform] at h
      split at h
      · cases h
      · next eff rest hp =>
          obtain ⟨rfl, rfl⟩ := Prod.mk.inj (Option.some.inj h)
          exact .perform t e eff rest hp
  | flush e order =>
      simp only [lts, Option.ite_none_right_eq_some] at h
      obtain ⟨rfl, rfl⟩ := Prod.mk.inj (Option.some.inj h.2)
      exact .flush e order

end Process

end KirbLaSnoop
