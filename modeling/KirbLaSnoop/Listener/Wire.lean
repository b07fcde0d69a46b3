import Mathlib
import KirbLaSnoop.Listener.Queue
import KirbLaSnoop.Listener.Splice

/-!
# From the wire to the log

What the network brings is logged under the id of its connection, byte for
byte and in order; and what a listener that answers itself has sent is logged
too, but for a send that is under way or has failed.
-/

namespace KirbLaSnoop

open Effect

namespace Effect

variable {Addr : Type*}

theorem conn_of_loggedFor {k : Key} {e : Effect Addr} (h : loggedFor k e ≠ []) :
    e.conn = some k.1 := by
  cases e with
  | call c =>
      cases c with
      | data proto name conn peer dir bs rule =>
          have hk : (conn, dir) = k := by
            by_contra hne
            exact h (if_neg hne)
          rw [← hk]
          rfl
      | _ => exact absurd rfl h
  | _ => exact absurd rfl h

/-- Only what is about a connection is logged under its id. -/
theorem logged_about (k : Key) (es : List (Effect Addr)) :
    logged k (about k.1 es) = logged k es := by
  induction es with
  | nil => rfl
  | cons e es ih =>
      rw [about_cons, logged_append, ih]
      by_cases he : e.conn = some k.1
      · have hself : about k.1 [e] = [e] := List.filter_cons_of_pos (decide_eq_true he)
        rw [hself]
        exact (logged_append k [e] es).symm
      · have hquiet : loggedFor k e = [] := by
          by_contra hne
          exact he (conn_of_loggedFor hne)
        have hnone : about k.1 [e] = [] :=
          about_eq_nil fun e' he' => List.mem_singleton.mp he' ▸ he
        rw [hnone]
        exact (congrArg (· ++ logged k es) hquiet).symm

theorem logged_eq_nil {k : Key} {es : List (Effect Addr)} (h : ∀ e ∈ es, loggedFor k e = []) :
    logged k es = [] :=
  List.flatMap_eq_nil_iff.mpr h

end Effect

/-! ## Udp -/

namespace Udp

variable {Addr : Type*} [DecidableEq Addr] {cfg : Config Addr}

/-- The id under which a datagram of `src` is logged: that of its peer, or of
the overflow stream, or a new one. -/
def connOf (cfg : Config Addr) (next : ℕ) (s : State Addr) (src : Addr) : ℕ :=
  match s.peers.get src with
  | some q => q.conn
  | none => if isFull cfg s then s.overflowConn.getD next else next

def received (cfg : Config Addr) (next : ℕ) (s : State Addr) (k : Key) : Input Addr → List UInt8
  | .datagram src data _ _ _ => if (connOf cfg next s src, .rx) = k then data else []
  | _ => []

omit [DecidableEq Addr] in
theorem loggedFor_said {src : Addr} {conn : ℕ} {trigger : Trigger} {e : Effect Addr}
    (h : Said cfg src conn trigger e) (id : ℕ) : loggedFor (id, .rx) e = [] := by
  cases h with
  | data bytes => exact if_neg (by simp)
  | _ => rfl

/-- A turn logs what its datagram brings. -/
theorem logged_turn {next : ℕ} {s : State Addr} {input : Input Addr}
    {out : Outcome (State Addr) Addr} (hturn : Turn cfg next s input out) (id : ℕ) :
    Effect.logged (id, .rx) out.effects = received cfg next s (id, .rx) input := by
  have hretired : ∀ now order, Effect.logged (id, .rx) (retired cfg now s order) = [] := by
    intro now order
    apply logged_eq_nil
    intro e he
    obtain ⟨src, q, -, -, -, rfl⟩ := (mem_retired cfg).mp he
    rfl
  cases hturn with
  | overflowMore src data now banner rule conn hnew hfull hconn =>
      simp [received, connOf, hnew, hconn, isFull, hfull, Effect.logged, loggedFor, Call.bytesFor]
  | overflowOpen src data now banner rule msg hnew hfull hconn =>
      simp [received, connOf, hnew, hconn, isFull, hfull, Effect.logged, loggedFor, Call.bytesFor]
  | newPeer src data now banner rule hnew hroom =>
      have hsaid : Effect.logged (id, .rx) (greeting cfg src next data true banner ++
          answer cfg src next data true rule) = [] := by
        apply logged_eq_nil
        intro e he
        obtain ⟨trigger, hsaid⟩ := said_of_mem_greeting_append_answer cfg he
        exact loggedFor_said hsaid id
      have hid : connOf cfg next s src = next := by
        simp [connOf, hnew, isFull, Nat.not_le.mpr hroom]
      rw [received, hid]
      simp only [Effect.logged, List.flatMap_cons] at hsaid ⊢
      rw [hsaid, List.append_nil]
      rfl
  | known src data now banner rule peer hget =>
      have hsaid : Effect.logged (id, .rx) (answer cfg src peer.conn data false rule) = [] := by
        apply logged_eq_nil
        intro e he
        obtain ⟨name, hsaid⟩ := said_of_mem_answer cfg he
        exact loggedFor_said hsaid id
      have hid : connOf cfg next s src = peer.conn := by
        simp only [connOf, hget]
      rw [received, hid]
      simp only [Effect.logged, List.flatMap_cons] at hsaid ⊢
      rw [hsaid, List.append_nil]
      rfl
  | recvError e => rfl
  | sweep now order => exact hretired now order
  | drained now order =>
      rw [Effect.logged_append, hretired]
      rfl

end Udp

/-! ## Tcp -/

namespace Tcp

variable {Addr : Type*} {cfg : Config Addr} {conn : ℕ} {peer : Addr}

def Input.received (conn : ℕ) (k : Key) : Input → List UInt8
  | .read (.ok data) _ => if (conn, .rx) = k then data else []
  | .pumpRead dir (.ok data) => if (conn, dir) = k then data else []
  | _ => []

/-- A connection with an upstream is spliced, one without is served. -/
def Stage.Fits (cfg : Config Addr) : Stage → Prop
  | .reading _ => cfg.upstream = none
  | .splicing _ _ => cfg.upstream ≠ none
  | _ => True

theorem logged_finish (k : Key) (outcome : Except String String) :
    logged k (finish cfg conn peer outcome) = [] := by
  cases outcome <;> rfl

theorem logged_send (a : Action) (data : List UInt8) (trigger : Trigger) (sending : Sending)
    (id : ℕ) : logged (id, .rx) (send cfg conn peer a data trigger sending).1 = [] := by
  unfold send
  split
  · rfl
  · split
    · rfl
    · have hhangup : logged (id, .rx)
          (if a.close then [.shutdown conn .tx] else [] : List (Effect Addr)) = [] := by
        split <;> rfl
      dsimp only
      split
      · exact hhangup
      · split
        · simp only [logged, List.flatMap_cons] at hhangup ⊢
          rw [hhangup]
          simp [loggedFor, Call.bytesFor]
        · rfl
        · rfl

theorem logged_proceed (k : Key) (next : Stage) (sent : List (Effect Addr) × Except String Bool) :
    logged k (proceed cfg conn peer next sent).2 = logged k sent.1 := by
  unfold proceed
  split
  · rw [logged_append, logged_finish, List.append_nil]
  · rfl
  · rw [logged_append, logged_finish, List.append_nil]

variable (cfg conn peer) in
theorem proceed_stage (next : Stage) (sent : List (Effect Addr) × Except String Bool) :
    (proceed cfg conn peer next sent).1 = next ∨ (proceed cfg conn peer next sent).1 = .ended := by
  unfold proceed
  split
  · exact .inr rfl
  · exact .inl rfl
  · exact .inr rfl

theorem logged_greet (sending : Sending) (id : ℕ) :
    logged (id, .rx) (greet cfg conn peer sending).2 = [] := by
  unfold greet
  split
  · rfl
  · rw [logged_proceed, logged_send]

theorem logged_read (first : Bool) (res : Except String (List UInt8)) (sending : Sending)
    (id : ℕ) :
    logged (id, .rx) (read cfg conn peer first res sending).2 =
      Input.received conn (id, .rx) (.read res sending) := by
  have hcons : ∀ (data : List UInt8) (es : List (Effect Addr)), logged (id, .rx) es = [] →
      logged (id, .rx) (.call (.data .tcp cfg.name conn (cfg.display peer) .rx data none) :: es) =
        if (conn, .rx) = (id, Dir.rx) then data else [] := by
    intro data es hes
    simp only [logged, List.flatMap_cons] at hes ⊢
    rw [hes, List.append_nil]
    rfl
  unfold read
  split
  · rw [logged_finish]
    rfl
  · rw [logged_finish, Input.received, ite_self]
  · dsimp only
    split
    · exact hcons _ _ rfl
    · split
      · exact hcons _ _ rfl
      · exact hcons _ _ rfl
      · apply hcons
        rw [logged_proceed, logged_send]

theorem logged_join (k : Key) (rx tx : Pump) (es : List (Effect Addr)) :
    logged k (join cfg conn peer rx tx es).2 = logged k es := by
  unfold join
  split
  · rw [logged_append, logged_finish, List.append_nil]
  · rfl

/-- What a splice logs is what its pumps read. -/
theorem logged_splice {stage : Stage} (hspliced : stage.Spliced) {input : Input}
    {out : Stage × List (Effect Addr)} (h : handle cfg conn peer stage input = some out)
    (k : Key) : logged k out.2 = input.received conn k := by
  obtain ⟨dir, q, es, hlane, hstep, rfl⟩ := splice_step cfg conn peer hspliced h
  have htaking : logged k (stage.taking cfg conn peer dir (q, es)).2 = logged k es := by
    cases dir <;> exact logged_join k _ _ es
  rw [htaking]
  obtain ⟨-, hpumps⟩ := lane_cases cfg conn peer hstep
  generalize stage.pump dir = p at hpumps
  cases hpumps with
  | atEnd res hres =>
      cases res with
      | error e => rfl
      | ok bs =>
          obtain rfl := hres bs rfl
          exact (ite_self _).symm
  | took bs => exact List.append_nil _
  | _ => rfl

/-- A task logs what it receives; what it sends by itself is no reception. -/
theorem logged_handle {stage : Stage} (hfits : stage.Fits cfg) {input : Input}
    {out : Stage × List (Effect Addr)} (h : handle cfg conn peer stage input = some out)
    {k : Key} (hk : k.2 = .rx ∨ cfg.upstream ≠ none) :
    logged k out.2 = input.received conn k := by
  obtain ⟨id, dir⟩ := k
  cases stage with
  | start =>
      cases step_cases cfg conn peer h with
      | greet sending hserve =>
          obtain rfl : dir = .rx := hk.resolve_right fun hne => hne hserve
          exact logged_greet sending id
      | connect up res hforward => cases res <;> rfl
  | reading first =>
      cases step_cases cfg conn peer h with
      | read _ res sending =>
          obtain rfl : dir = .rx := hk.resolve_right fun hne => hne hfits
          exact logged_read first res sending id
  | splicing rx tx => exact logged_splice (.splicing rx tx) h (id, dir)
  | ended => cases step_cases cfg conn peer h
  | crashed => cases step_cases cfg conn peer h

theorem fits_proceed {next : Stage} (hnext : next.Fits cfg)
    (sent : List (Effect Addr) × Except String Bool) :
    (proceed cfg conn peer next sent).1.Fits cfg := by
  rcases proceed_stage cfg conn peer next sent with heq | heq
  · rwa [heq]
  · rw [heq]
    trivial

theorem fits_join (hforward : cfg.upstream ≠ none) (rx tx : Pump) (es : List (Effect Addr)) :
    (join cfg conn peer rx tx es).1.Fits cfg := by
  unfold join
  split
  · trivial
  · exact hforward

theorem fits_handle {stage : Stage} (hfits : stage.Fits cfg) {input : Input}
    {out : Stage × List (Effect Addr)} (h : handle cfg conn peer stage input = some out) :
    out.1.Fits cfg := by
  cases step_cases cfg conn peer h with
  | greet sending hserve =>
      have hnext : (Stage.reading true).Fits cfg := hserve
      unfold greet
      split
      · exact hnext
      · exact fits_proceed hnext _
  | connect up res hforward =>
      cases res with
      | error e => trivial
      | ok u => exact Option.ne_none_iff_exists'.mpr ⟨up, hforward⟩
  | read first res sending =>
      have hnext : (Stage.reading false).Fits cfg := hfits
      unfold read
      split
      · trivial
      · trivial
      · dsimp only
        split
        · exact hnext
        · split
          · trivial
          · exact hnext
          · exact fits_proceed hnext _
  | pumpRx rx tx _ out hpump => exact fits_join hfits out.1 tx out.2
  | pumpTx rx tx _ out hpump => exact fits_join hfits rx out.1 out.2

end Tcp

/-! ## The process -/

/-- The listener splices its clients to an upstream. -/
def Listener.Forwards {Addr : Type*} : Listener Addr → Prop
  | .udp _ => False
  | .tcp cfg => cfg.upstream ≠ none

namespace Process

variable {ι Addr : Type*} [DecidableEq ι] [DecidableEq Addr] (net : ι → Listener Addr)

/-- What an action brings from the network for a stream. -/
def arrival (k : Key) (p : Process ι Addr) : Act ι Addr → List UInt8
  | .turn i input =>
      match net i with
      | .udp cfg => Udp.received cfg p.log.nextConn (p.udp i) k input
      | .tcp _ => []
  | .step conn input => input.received conn k
  | _ => []

/-- The bytes that the network has brought for a stream in a run. -/
def arrived (dp : Deps) (o : Options) (k : Key) (acts : List (Act ι Addr)) : List UInt8 :=
  (lts net dp o).gather (arrival net k) (start net) acts

variable {net} {dp : Deps} {o : Options} {p p' : Process ι Addr} {seen new : List (Seen ι Addr)}

theorem step_turn {i : ι} {input : Udp.Input Addr}
    (h : (lts net dp o).step p (.turn i input) = some (p', new)) :
    ∃ cfg out, net i = .udp cfg ∧ Udp.Turn cfg p.log.nextConn (p.udp i) input out ∧
      p' = p.turned i out ∧ new = p.seenHandled i out := by
  simp only [lts] at h
  split at h
  · next cfg hnet hidle =>
      obtain ⟨out, hout, h⟩ := Option.map_eq_some_iff.mp h
      obtain ⟨rfl, rfl⟩ := Prod.mk.inj h
      exact ⟨cfg, out, hnet, (Udp.handle_cases cfg hout).2, rfl, rfl⟩
  · cases h

theorem step_step {conn : ℕ} {input : Tcp.Input}
    (h : (lts net dp o).step p (.step conn input) = some (p', new)) :
    ∃ c cfg out, p.tasks conn = some c ∧ net c.listener = .tcp cfg ∧
      Tcp.handle cfg conn c.peer c.stage input = some out ∧ p' = p.stepped conn c out ∧
        new = [.handled (.task conn) out.2] := by
  simp only [lts] at h
  split at h
  · next c htask hidle =>
      split at h
      · next cfg hnet =>
          obtain ⟨out, hout, h⟩ := Option.map_eq_some_iff.mp h
          obtain ⟨rfl, rfl⟩ := Prod.mk.inj h
          exact ⟨c, cfg, out, htask, hnet, hout, rfl, rfl⟩
      · cases h
  · cases h

theorem step_accept {i : ι} {peer : Addr} {orig : Option String}
    (h : (lts net dp o).step p (.accept i peer orig) = some (p', new)) :
    ∃ cfg, net i = .tcp cfg ∧ p' = p.handled i (Tcp.accept cfg p.log.nextConn peer orig) ∧
      new = p.seenHandled i (Tcp.accept cfg p.log.nextConn peer orig) := by
  simp only [lts] at h
  split at h
  · next cfg hnet hidle =>
      obtain ⟨rfl, rfl⟩ := Prod.mk.inj (Option.some.inj h)
      exact ⟨cfg, hnet, rfl, rfl⟩
  · cases h

theorem step_acceptError {i : ι} {e : String}
    (h : (lts net dp o).step p (.acceptError i e) = some (p', new)) :
    ∃ cfg : Tcp.Config Addr, p' = p.handled i (Tcp.acceptError cfg e) ∧
      new = p.seenHandled i (Tcp.acceptError cfg e : Outcome Unit Addr) := by
  simp only [lts] at h
  split at h
  · next cfg hnet hidle =>
      obtain ⟨rfl, rfl⟩ := Prod.mk.inj (Option.some.inj h)
      exact ⟨cfg, rfl, rfl⟩
  · cases h

theorem step_perform {t : Thread ι} {e : Env}
    (h : (lts net dp o).step p (.perform t e) = some (p', new)) :
    ∃ eff rest, p.pending t = eff :: rest ∧ p' = (p.drop t rest).realize dp o t e eff ∧
      new = [.performed t eff] := by
  simp only [lts, perform] at h
  split at h
  · cases h
  · next eff rest hp =>
      obtain ⟨rfl, rfl⟩ := Prod.mk.inj (Option.some.inj h)
      exact ⟨eff, rest, hp, rfl, rfl⟩

theorem step_flush {e : Env} {order : List Key}
    (h : (lts net dp o).step p (.flush e order) = some (p', new)) :
    p.log.Enumerates order ∧ p' = p.call dp o e (.flush order) ∧ new = [] := by
  simp only [lts, Option.ite_none_right_eq_some] at h
  obtain ⟨rfl, rfl⟩ := Prod.mk.inj (Option.some.inj h.2)
  exact ⟨h.1, rfl, rfl⟩

/-- Every task is where its listener can have sent it. -/
def Fitting (net : ι → Listener Addr) (p : Process ι Addr) : Prop :=
  ∀ id c cfg, p.tasks id = some c → net c.listener = .tcp cfg → c.stage.Fits cfg

omit [DecidableEq Addr] [DecidableEq ι] in
theorem Fitting.spawn (h : Fitting net p) (i : ι) (conn : ℕ) (peer : Addr) :
    Fitting net (p.spawn i conn peer) := by
  intro id c cfg hc hnet
  change Function.update p.tasks conn (some ⟨i, peer, .start⟩) id = some c at hc
  by_cases hid : id = conn
  · subst hid
    rw [Function.update_self, Option.some.injEq] at hc
    subst hc
    trivial
  · rw [Function.update_of_ne hid] at hc
    exact h id c cfg hc hnet

omit [DecidableEq Addr] [DecidableEq ι] in
theorem Fitting.realize (h : Fitting net p) (t : Thread ι) (e : Env) (eff : Effect Addr) :
    Fitting net (p.realize dp o t e eff) := by
  unfold Process.realize
  split
  · exact h
  · exact h.spawn _ _ _
  · exact h

theorem fitting_run {acts : List (Act ι Addr)} {tr : List (List (Seen ι Addr))}
    (h : (lts net dp o).run (start net) acts = some (p, tr)) : Fitting net p := by
  apply (lts net dp o).run_invariant (Fitting net) ?_ ?_ h
  · intro id c cfg hc
    cases hc
  · intro u a v new hu hs
    cases a with
    | accept i peer orig =>
        obtain ⟨cfg, -, rfl, -⟩ := step_accept hs
        exact hu
    | acceptError i e =>
        obtain ⟨cfg, rfl, -⟩ := step_acceptError hs
        exact hu
    | turn i input =>
        obtain ⟨cfg, out, -, -, rfl, -⟩ := step_turn hs
        exact hu
    | step conn input =>
        obtain ⟨c, cfg, out, htask, hnet, hout, rfl, -⟩ := step_step hs
        intro id d cfg' hd hnet'
        change Function.update u.tasks conn (some { c with stage := out.1 }) id = some d at hd
        by_cases hid : id = conn
        · subst hid
          rw [Function.update_self, Option.some.injEq] at hd
          subst hd
          obtain rfl : cfg = cfg' := Listener.tcp.inj (hnet.symm.trans hnet')
          exact Tcp.fits_handle (hu id c cfg htask hnet) hout
        · rw [Function.update_of_ne hid] at hd
          exact hu id d cfg' hd hnet'
    | perform t e =>
        obtain ⟨eff, rest, -, rfl, -⟩ := step_perform hs
        have hdrop : Fitting net (u.drop t rest) := hu
        exact hdrop.realize t e eff
    | flush e order =>
        obtain ⟨-, rfl, -⟩ := step_flush hs
        exact hu

/-- The stream is one of what the network brings: received from a client, or
read from an upstream. -/
def Inbound (net : ι → Listener Addr) (k : Key) (seen : List (Seen ι Addr)) : Prop :=
  k.2 = .rx ∨ ∀ i w, (k.1, i, w) ∈ grants seen → (net i).Forwards

omit [DecidableEq ι] [DecidableEq Addr] in
theorem Inbound.of_append {k : Key} (h : Inbound net k (seen ++ new)) : Inbound net k seen :=
  h.imp_right fun hall i w hw => hall i w (mem_grants_append hw new)

/-- A step decides to log what it brings. -/
theorem logged_step (hinv : Inv p seen) (hqueued : Queued p seen) (hfit : Fitting net p)
    {a : Act ι Addr} (hs : (lts net dp o).step p a = some (p', new)) {k : Key}
    (hk : Inbound net k (seen ++ new)) : logged k (decided new) = arrival net k p a := by
  have hmove := step_cases net dp o hs
  have hinv' := hinv.move hmove
  have hqueued' := hqueued.move hinv hmove
  cases a with
  | accept i peer orig =>
      obtain ⟨cfg, -, -, rfl⟩ := step_accept hs
      rw [decided_seenHandled]
      rfl
  | acceptError i e =>
      obtain ⟨cfg, -, rfl⟩ := step_acceptError hs
      rw [decided_seenHandled]
      rfl
  | turn i input =>
      obtain ⟨cfg, out, hnet, hturn, rfl, rfl⟩ := step_turn hs
      obtain ⟨id, dir⟩ := k
      rw [decided_seenHandled]
      simp only [arrival, hnet]
      cases dir with
      | rx => exact Udp.logged_turn hturn id
      | tx =>
          have hforward := hk.resolve_left nofun
          have hnone : Udp.received cfg p.log.nextConn (p.udp i) (id, .tx) input = [] := by
            cases input with
            | datagram src data now banner rule => exact if_neg (by simp)
            | _ => rfl
          rw [hnone]
          apply logged_eq_nil
          intro e he
          by_contra hne
          have hself : (p.turned i out).pending (.loop i) = out.effects :=
            Function.update_self _ _ _
          obtain ⟨j, w, hw, hhome⟩ := hqueued'.atHome (.loop i) id e (hself ▸ he)
            (conn_of_loggedFor hne)
          have hji : j = i := by
            unfold home at hhome
            split at hhome
            · cases hhome
            · exact (Thread.loop.inj hhome).symm
          have hno := hforward j w hw
          rw [hji, hnet] at hno
          exact hno
  | step conn input =>
      obtain ⟨c, cfg, out, htask, hnet, hout, rfl, rfl⟩ := step_step hs
      have hdecided : decided [(.handled (.task conn) out.2 : Seen ι Addr)] = out.2 :=
        List.append_nil _
      rw [hdecided, arrival]
      by_cases hconn : conn = k.1
      · obtain ⟨id, dir⟩ := k
        obtain rfl : conn = id := hconn
        apply Tcp.logged_handle (hfit conn c cfg htask hnet) hout
        apply hk.imp_right
        intro hforward
        have hgrant := mem_grants_append (hinv.tasks conn c htask) [.handled (.task conn) out.2]
        have hno := hforward c.listener _ hgrant
        rwa [hnet] at hno
      · have hquiet : logged k out.2 = [] := by
          apply logged_eq_nil
          intro e he
          by_contra hne
          have hid := conn_of_loggedFor hne
          rw [Tcp.conn_of_step (Tcp.step_cases cfg conn c.peer hout) he] at hid
          exact hconn (Option.some.inj hid)
        rw [hquiet]
        have hkey : ∀ dir, (conn, dir) ≠ k := fun dir heq => hconn (congrArg Prod.fst heq)
        unfold Tcp.Input.received
        split
        · exact (if_neg (hkey _)).symm
        · exact (if_neg (hkey _)).symm
        · rfl
  | perform t e =>
      obtain ⟨eff, rest, -, -, rfl⟩ := step_perform hs
      rfl
  | flush e order =>
      obtain ⟨-, -, rfl⟩ := step_flush hs
      rfl

/-- What the threads have decided to log is what the network has brought. -/
theorem logged_decided {acts : List (Act ι Addr)} {tr : List (List (Seen ι Addr))}
    (h : (lts net dp o).run (start net) acts = some (p, tr)) {k : Key}
    (hk : Inbound net k tr.flatten) :
    logged k (decided tr.flatten) = arrived net dp o k acts := by
  have hall : Inbound net k tr.flatten →
      logged k (decided tr.flatten) = arrived net dp o k acts := by
    apply (lts net dp o).run_induction (fun acts _ tr => Inbound net k tr.flatten →
      logged k (decided tr.flatten) = arrived net dp o k acts) (fun _ => rfl) ?_ h
    intro as a rest u os v new _ hrun hu hs hin
    rw [List.flatten_append, List.flatten_singleton] at hin ⊢
    rw [decided_append, logged_append, hu hin.of_append,
      logged_step (inv_run hrun) (queued_run hrun) (fitting_run hrun) hs hin, arrived, arrived,
      (lts net dp o).gather_append _ hrun, (lts net dp o).gather_singleton _ hs]
  exact hall hk

/-- What was logged for a stream and what waits to be is what the network has
brought for it. -/
theorem logged_wire {acts : List (Act ι Addr)} {tr : List (List (Seen ι Addr))}
    (h : (lts net dp o).run (start net) acts = some (p, tr)) {id : ℕ} {i : ι} {w : Owner Addr}
    (hw : (id, i, w) ∈ grants tr.flatten) {dir : Dir} (hin : dir = .rx ∨ (net i).Forwards) :
    logged (id, dir) (happened tr.flatten) ++ logged (id, dir) (p.pending (p.home id i)) =
      arrived net dp o (id, dir) acts := by
  have hinbound : Inbound net (id, dir) tr.flatten := by
    apply hin.imp_right
    intro hforward j v hv
    obtain ⟨rfl, -⟩ := (inv_run h).unique hw hv
    exact hforward
  have horder := congrArg (logged (id, dir)) ((queued_run h).order id i w hw)
  rw [logged_append, logged_about (id, dir), logged_about (id, dir),
    logged_about (id, dir)] at horder
  rw [horder, logged_decided h hinbound]

end Process

end KirbLaSnoop
