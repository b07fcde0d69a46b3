import Mathlib
import KirbLaSnoop.Listener.Wire

/-!
# A panic stays where it is

A rule that panics ends the thread that has matched it: a connection, or the
loop of a udp listener, which is deaf from then on. Every other thread goes on
by itself, whatever the rest of the process does, and takes what the network
brings.
-/

namespace KirbLaSnoop

open Effect

namespace Udp

variable {Addr : Type*} [DecidableEq Addr] (cfg : Config Addr)

/-- A rule panics on the datagram. No rule is matched for a source that finds
no room in the table. -/
def Upsets (s : State Addr) (src : Addr) (data : List UInt8) : Prop :=
  (s.peers.get src = none → s.peers.size < cfg.maxPeers) ∧
    ∃ e, ruling cfg data (s.peers.get src).isNone = .error e

variable {cfg} {next : ℕ} {s : State Addr} {input : Input Addr} {out : Outcome (State Addr) Addr}

omit [DecidableEq Addr] in
theorem not_isOk_iff {data : List UInt8} {first : Bool} :
    (!(ruling cfg data first).isOk) = true ↔ ∃ e, ruling cfg data first = .error e := by
  cases ruling cfg data first with
  | ok found => simp [Except.isOk, Except.toBool]
  | error e => exact iff_of_true rfl ⟨e, rfl⟩

theorem crashed_turn (hturn : Turn cfg next s input out) (hup : s.crashed = false) :
    out.state.crashed = true ↔ ∃ src data now banner rule,
      input = .datagram src data now banner rule ∧ Upsets cfg s src data := by
  have hkept {P : Prop} (hP : ¬P) : s.crashed = true ↔ P := by
    rw [hup]
    exact iff_of_false Bool.false_ne_true hP
  cases hturn with
  | overflowMore src data now banner rule conn hnew hfull hconn =>
      refine hkept ?_
      rintro ⟨_, _, _, _, _, ⟨⟩, hroom, -⟩
      exact Nat.not_lt_of_le hfull (hroom hnew)
  | overflowOpen src data now banner rule msg hnew hfull hconn =>
      refine hkept ?_
      rintro ⟨_, _, _, _, _, ⟨⟩, hroom, -⟩
      exact Nat.not_lt_of_le hfull (hroom hnew)
  | newPeer src data now banner rule hnew hroom =>
      rw [not_isOk_iff]
      constructor
      · intro herror
        refine ⟨src, data, now, banner, rule, rfl, fun _ => hroom, ?_⟩
        rwa [hnew]
      · rintro ⟨_, _, _, _, _, ⟨⟩, -, herror⟩
        rwa [hnew] at herror
  | known src data now banner rule peer hget =>
      rw [not_isOk_iff]
      constructor
      · intro herror
        refine ⟨src, data, now, banner, rule, rfl, fun hnone => ?_, ?_⟩
        · cases hget.symm.trans hnone
        · rwa [hget]
      · rintro ⟨_, _, _, _, _, ⟨⟩, -, herror⟩
        rwa [hget] at herror
  | recvError e => exact hkept (by rintro ⟨_, _, _, _, _, ⟨⟩, -⟩)
  | sweep now order => exact hkept (by rintro ⟨_, _, _, _, _, ⟨⟩, -⟩)
  | drained now order => exact hkept (by rintro ⟨_, _, _, _, _, ⟨⟩, -⟩)

variable (cfg next s) in
/-- Every datagram is logged. -/
theorem logged_datagram (src : Addr) (data : List UInt8) (now : ℕ)
    (banner rule : Except String Unit) :
    ∃ id, .call (.data .udp cfg.name id (cfg.display src) .rx data none) ∈
      (datagram cfg next s src data now banner rule).effects := by
  unfold datagram
  split
  · unfold overflow
    split
    · next conn _ => exact ⟨conn, List.mem_cons_self⟩
    · exact ⟨next, List.mem_cons_of_mem _ (List.mem_cons_of_mem _ List.mem_cons_self)⟩
  · exact ⟨_, List.mem_append_right _ List.mem_cons_self⟩

end Udp

/-- So is every message. -/
theorem Tcp.logged_message {Addr : Type*} (cfg : Config Addr) (conn : ℕ) (peer : Addr)
    (first : Bool) {data : List UInt8} (hdata : data ≠ []) (sending : Sending) :
    .call (.data .tcp cfg.name conn (cfg.display peer) .rx data none) ∈
      (read cfg conn peer first (.ok data) sending).2 := by
  obtain ⟨d, ds, rfl⟩ := List.exists_cons_of_ne_nil hdata
  unfold read
  dsimp only
  split
  · exact List.mem_cons_self
  · split
    · exact List.mem_cons_self
    · exact List.mem_cons_self
    · exact List.mem_cons_self

namespace Process

variable {ι Addr : Type*} [DecidableEq ι] [DecidableEq Addr] (net : ι → Listener Addr)
  (dp : Deps) (o : Options)

/-- The thread that acts; the flush is done by `main`. -/
def Act.thread : Act ι Addr → Option (Thread ι)
  | .accept i _ _ => some (.loop i)
  | .acceptError i _ => some (.loop i)
  | .turn i _ => some (.loop i)
  | .step conn _ => some (.task conn)
  | .perform t _ => some t
  | .flush _ _ => none

/-- The act upsets the listener `i`. -/
def Upsets (i : ι) (p : Process ι Addr) (a : Act ι Addr) : Prop :=
  ∃ cfg src data now banner rule, net i = .udp cfg ∧
    a = .turn i (.datagram src data now banner rule) ∧ Udp.Upsets cfg (p.udp i) src data

/-- The thread can bring about by itself that `Q` holds, of the state and of
what is seen on the way. -/
def Manages (t : Thread ι) (p : Process ι Addr)
    (Q : Process ι Addr → List (Seen ι Addr) → Prop) : Prop :=
  ∃ more p' tr, (∀ a ∈ more, a.thread = some t) ∧
    (lts net dp o).run p more = some (p', tr) ∧ Q p' tr.flatten

variable {net dp o} {p p' : Process ι Addr} {new : List (Seen ι Addr)} {acts : List (Act ι Addr)}

/-! ## Deaf listeners -/

theorem awake_of_turn {i : ι} {input : Udp.Input Addr}
    (h : (lts net dp o).step p (.turn i input) = some (p', new)) : (p.udp i).crashed = false := by
  simp only [lts] at h
  split at h
  · next cfg hnet hidle =>
      obtain ⟨out, hout, -⟩ := Option.map_eq_some_iff.mp h
      exact (Udp.handle_cases cfg hout).1
  · cases h

omit [DecidableEq ι] [DecidableEq Addr] in
theorem udp_realize (p : Process ι Addr) (t : Thread ι) (e : Env) (eff : Effect Addr) :
    (p.realize dp o t e eff).udp = p.udp := by
  cases eff with
  | spawn conn peer => cases t <;> rfl
  | _ => rfl

theorem crashed_step {a : Act ι Addr} (hs : (lts net dp o).step p a = some (p', new)) (i : ι) :
    (p'.udp i).crashed = true ↔ (p.udp i).crashed = true ∨ Upsets net i p a := by
  have hkept (hudp : p'.udp = p.udp) (ha : ∀ input, a ≠ .turn i input) :
      (p'.udp i).crashed = true ↔ (p.udp i).crashed = true ∨ Upsets net i p a := by
    rw [hudp]
    refine (or_iff_left ?_).symm
    rintro ⟨cfg, src, data, now, banner, rule, -, heq, -⟩
    exact ha _ heq
  cases a with
  | accept j peer orig =>
      obtain ⟨cfg, -, rfl, -⟩ := step_accept hs
      exact hkept rfl nofun
  | acceptError j e =>
      obtain ⟨cfg, rfl, -⟩ := step_acceptError hs
      exact hkept rfl nofun
  | turn j input =>
      have hup := awake_of_turn hs
      obtain ⟨cfg, out, hnet, hturn, rfl, -⟩ := step_turn hs
      by_cases hj : i = j
      · subst hj
        have hself : (p.turned i out).udp i = out.state := Function.update_self _ _ _
        rw [hself, Udp.crashed_turn hturn hup, hup, or_iff_right Bool.false_ne_true]
        constructor
        · rintro ⟨src, data, now, banner, rule, rfl, hupsets⟩
          exact ⟨cfg, src, data, now, banner, rule, hnet, rfl, hupsets⟩
        · rintro ⟨cfg', src, data, now, banner, rule, hnet', ⟨⟩, hupsets⟩
          obtain rfl := Listener.udp.inj (hnet.symm.trans hnet')
          exact ⟨src, data, now, banner, rule, rfl, hupsets⟩
      · have hother : (p.turned j out).udp i = p.udp i := Function.update_of_ne hj _ _
        rw [hother]
        refine (or_iff_left ?_).symm
        rintro ⟨cfg', src, data, now, banner, rule, -, heq, -⟩
        exact hj (Act.turn.inj heq).1.symm
  | step conn input =>
      obtain ⟨c, cfg, out, -, -, -, rfl, -⟩ := step_step hs
      exact hkept rfl nofun
  | perform t e =>
      obtain ⟨eff, rest, -, rfl, -⟩ := step_perform hs
      exact hkept (udp_realize _ t e eff) nofun
  | flush e order =>
      obtain ⟨-, rfl, -⟩ := step_flush hs
      exact hkept rfl nofun

/-- A listener has crashed just when an input has upset it. -/
theorem crashed_run {tr : List (List (Seen ι Addr))}
    (h : (lts net dp o).run (start net) acts = some (p, tr)) (i : ι) :
    (p.udp i).crashed = true ↔
      ¬(lts net dp o).Throughout (start net) acts fun _ u a => ¬Upsets net i u a := by
  apply (lts net dp o).run_induction (fun acts p _ => (p.udp i).crashed = true ↔
    ¬(lts net dp o).Throughout (start net) acts fun _ u a => ¬Upsets net i u a) ?_ ?_ h
  · exact iff_of_false Bool.false_ne_true (not_not.mpr ((lts net dp o).throughout_nil _ _))
  · intro as a rest u os v new _ hrun hu hs
    rw [crashed_step hs, hu, (lts net dp o).throughout_concat hrun, not_and_or, not_not]

/-- One that has crashed takes nothing any more. -/
theorem deaf_run {i : ι} (hcrashed : (p.udp i).crashed = true)
    {more : List (Act ι Addr)} {tr : List (List (Seen ι Addr))}
    (h : (lts net dp o).run p more = some (p', tr)) (input : Udp.Input Addr) :
    .turn i input ∉ more := by
  suffices hall : (p'.udp i).crashed = true ∧ .turn i input ∉ more from hall.2
  apply (lts net dp o).run_induction (fun more p' _ => (p'.udp i).crashed = true ∧
    .turn i input ∉ more) ⟨hcrashed, List.not_mem_nil⟩ ?_ h
  rintro as a rest u os v new - - ⟨hu, hnot⟩ hs
  refine ⟨(crashed_step hs i).mpr (.inl hu), ?_⟩
  rw [List.mem_append, not_or, List.mem_singleton]
  refine ⟨hnot, ?_⟩
  rintro rfl
  cases hu.symm.trans (awake_of_turn hs)

/-! ## The others -/

omit [DecidableEq ι] [DecidableEq Addr] in
theorem pending_realize (p : Process ι Addr) (t : Thread ι) (e : Env) (eff : Effect Addr) :
    (p.realize dp o t e eff).pending = p.pending := by
  cases eff with
  | spawn conn peer => cases t <;> rfl
  | _ => rfl

omit [DecidableEq ι] [DecidableEq Addr] in
theorem tasks_realize (p : Process ι Addr) (conn : ℕ) (e : Env) (eff : Effect Addr) :
    (p.realize dp o (.task conn) e eff).tasks = p.tasks := by
  cases eff <;> rfl

omit [DecidableEq Addr] in
theorem pending_turned (p : Process ι Addr) (i : ι) (out : Outcome (Udp.State Addr) Addr) :
    (p.turned i out).pending (.loop i) = out.effects :=
  Function.update_self _ _ _

omit [DecidableEq Addr] in
theorem pending_stepped (p : Process ι Addr) (conn : ℕ) (c : Connection ι Addr)
    (out : Tcp.Stage × List (Effect Addr)) :
    (p.stepped conn c out).pending (.task conn) = out.2 :=
  Function.update_self _ _ _

/-- What is left of a thread when it has done all it has to do. -/
structure Drained (t : Thread ι) (p p' : Process ι Addr) (seen : List (Seen ι Addr)) : Prop where
  idle : p'.pending t = []
  udp : p'.udp = p.udp
  tasks : ∀ conn, t = .task conn → p'.tasks = p.tasks
  happened : happened seen = p.pending t

variable (net dp o) in
theorem step_of_pending {t : Thread ι} {eff : Effect Addr} {rest : List (Effect Addr)}
    (hp : p.pending t = eff :: rest) (e : Env) :
    (lts net dp o).step p (.perform t e) =
      some ((p.drop t rest).realize dp o t e eff, [.performed t eff]) := by
  simp [lts, perform, hp]

variable (net dp o) in
/-- A thread can do what it has to do without waiting for any other. -/
theorem drain (t : Thread ι) (e : Env) (p : Process ι Addr) :
    ∃ p' tr, (lts net dp o).run p (List.replicate (p.pending t).length (.perform t e)) =
      some (p', tr) ∧ Drained t p p' tr.flatten := by
  induction hp : p.pending t generalizing p with
  | nil => exact ⟨p, [], rfl, hp, rfl, fun _ _ => rfl, hp.symm⟩
  | cons eff rest ih =>
      have hrest : ((p.drop t rest).realize dp o t e eff).pending t = rest := by
        rw [pending_realize]
        exact Function.update_self _ _ _
      obtain ⟨p', tr, hrun, hdrained⟩ := ih _ hrest
      refine ⟨p', [.performed t eff] :: tr,
        (lts net dp o).run_cons_eq_some.mpr ⟨_, _, tr, step_of_pending net dp o hp e, hrun, rfl⟩,
        hdrained.idle, hdrained.udp.trans (udp_realize _ t e eff), ?_, ?_⟩
      · rintro conn rfl
        exact (hdrained.tasks conn rfl).trans (tasks_realize _ conn e eff)
      · rw [List.flatten_cons, happened_append, hdrained.happened, hrest, hp]
        rfl

/-- An idle thread that takes an input does all that it has decided to do. -/
theorem manages_of_step {t : Thread ι} {a : Act ι Addr} (ha : a.thread = some t)
    (hs : (lts net dp o).step p a = some (p', new)) {Q : Process ι Addr → List (Seen ι Addr) → Prop}
    (hQ : ∀ q seen, Drained t p' q seen → Q q (new ++ seen)) : Manages net dp o t p Q := by
  obtain ⟨q, tr, hrun, hdrained⟩ := drain net dp o t .quiet p'
  refine ⟨a :: List.replicate (p'.pending t).length (.perform t .quiet), q, new :: tr, ?_,
    (lts net dp o).run_cons_eq_some.mpr ⟨p', new, tr, hs, hrun, rfl⟩, hQ q _ hdrained⟩
  refine List.forall_mem_cons.mpr ⟨ha, fun b hb => ?_⟩
  rw [List.eq_of_mem_replicate hb]
  rfl

/-- A thread that is busy becomes idle first. -/
theorem manages_of_drained {t : Thread ι} {Q : Process ι Addr → List (Seen ι Addr) → Prop}
    (h : ∀ q seen, Drained t p q seen →
      Manages net dp o t q fun p' seen' => Q p' (seen ++ seen')) : Manages net dp o t p Q := by
  obtain ⟨q, tr, hrun, hdrained⟩ := drain net dp o t .quiet p
  obtain ⟨more, p', tr', hmine, hmore, hQ⟩ := h q _ hdrained
  refine ⟨List.replicate (p.pending t).length (.perform t .quiet) ++ more, p', tr ++ tr', ?_,
    (lts net dp o).run_append_eq_some.mpr ⟨q, tr, tr', hrun, hmore, rfl⟩, ?_⟩
  · refine List.forall_mem_append.mpr ⟨fun b hb => ?_, hmine⟩
    rw [List.eq_of_mem_replicate hb]
    rfl
  · rw [List.flatten_append]
    exact hQ

theorem manages_datagram {i : ι} {cfg : Udp.Config Addr} (hnet : net i = .udp cfg)
    (hup : (p.udp i).crashed = false) (src : Addr) (data : List UInt8) (now : ℕ)
    (banner rule : Except String Unit) :
    Manages net dp o (.loop i) p fun _ seen => ∃ id,
      .call (.data .udp cfg.name id (cfg.display src) .rx data none) ∈ happened seen := by
  apply manages_of_drained
  intro q seen hdrained
  have hup' : (q.udp i).crashed = false := hdrained.udp ▸ hup
  have hs : (lts net dp o).step q (.turn i (.datagram src data now banner rule)) =
      some (q.turned i (Udp.datagram cfg q.log.nextConn (q.udp i) src data now banner rule),
        q.seenHandled i
          (Udp.datagram cfg q.log.nextConn (q.udp i) src data now banner rule)) := by
    simp [lts, hnet, hdrained.idle, Udp.handle, hup']
  apply manages_of_step rfl hs
  intro q' seen' hdrained'
  obtain ⟨id, hid⟩ := Udp.logged_datagram cfg q.log.nextConn (q.udp i) src data now banner rule
  refine ⟨id, ?_⟩
  rw [happened_append, happened_append, hdrained'.happened, pending_turned]
  exact List.mem_append_right _ (List.mem_append_right _ hid)

theorem manages_accept {i : ι} {cfg : Tcp.Config Addr} (hnet : net i = .tcp cfg) (peer : Addr)
    (orig : Option String) :
    Manages net dp o (.loop i) p fun p' seen => ∃ id, (id, i, .connection peer) ∈ grants seen ∧
      .call (.openConn .tcp cfg.name id cfg.localAddr (cfg.display peer) orig) ∈ happened seen ∧
        p'.tasks id = some ⟨i, peer, .start⟩ := by
  apply manages_of_drained
  intro q seen hdrained
  have hs : (lts net dp o).step q (.accept i peer orig) =
      some (q.handled i (Tcp.accept cfg q.log.nextConn peer orig),
        q.seenHandled i (Tcp.accept cfg q.log.nextConn peer orig)) := by
    simp [lts, hnet, hdrained.idle]
  have hpending : (q.handled i (Tcp.accept cfg q.log.nextConn peer orig)).pending (.loop i) =
      [.call (.openConn .tcp cfg.name q.log.nextConn cfg.localAddr (cfg.display peer) orig),
        .spawn q.log.nextConn peer] := Function.update_self _ _ _
  have hopen := step_of_pending net dp o hpending .quiet
  have hlast : (((q.handled i (Tcp.accept cfg q.log.nextConn peer orig)).drop (.loop i)
      [.spawn q.log.nextConn peer]).realize dp o (.loop i) .quiet
        (.call (.openConn .tcp cfg.name q.log.nextConn cfg.localAddr (cfg.display peer)
          orig))).pending (.loop i) = [.spawn q.log.nextConn peer] := by
    rw [pending_realize]
    exact Function.update_self _ _ _
  have hspawn := step_of_pending net dp o hlast .quiet
  have hrun := (lts net dp o).run_cons_eq_some.mpr ⟨_, _, _, hs,
    (lts net dp o).run_cons_eq_some.mpr ⟨_, _, _, hopen,
      (lts net dp o).run_singleton_eq_some.mpr ⟨_, hspawn, rfl⟩, rfl⟩, rfl⟩
  refine ⟨_, _, _, by simp [Act.thread], hrun, q.log.nextConn, ?_, ?_,
    Function.update_self _ _ _⟩
  · rw [List.flatten_cons, ← List.append_assoc]
    exact mem_grants_append (granted_seenHandled rfl) _
  · rw [happened_append, List.flatten_cons, happened_append]
    exact List.mem_append_right _ (List.mem_append_right _ List.mem_cons_self)

theorem manages_read {id : ℕ} {c : Connection ι Addr} {cfg : Tcp.Config Addr} {first : Bool}
    (htask : p.tasks id = some c) (hnet : net c.listener = .tcp cfg)
    (hstage : c.stage = .reading first) {data : List UInt8} (hdata : data ≠ [])
    (sending : Tcp.Sending) :
    Manages net dp o (.task id) p fun _ seen =>
      .call (.data .tcp cfg.name id (cfg.display c.peer) .rx data none) ∈ happened seen := by
  apply manages_of_drained
  intro q seen hdrained
  have htask' : q.tasks id = some c := (hdrained.tasks id rfl) ▸ htask
  have hs : (lts net dp o).step q (.step id (.read (.ok data) sending)) =
      some (q.stepped id c (Tcp.read cfg id c.peer first (.ok data) sending),
        [.handled (.task id) (Tcp.read cfg id c.peer first (.ok data) sending).2]) := by
    simp [lts, htask', hnet, hdrained.idle, Tcp.handle, hstage]
  apply manages_of_step rfl hs
  intro q' seen' hdrained'
  rw [happened_append, happened_append, hdrained'.happened, pending_stepped]
  exact List.mem_append_right _
    (List.mem_append_right _ (Tcp.logged_message cfg id c.peer first hdata sending))

/-- In every run, a udp listener takes no more input from the moment that a
rule has panicked on one of its datagrams, and unless one has, it can log every
datagram that comes, without any other thread doing anything. So can a tcp
listener accept every client, and a connection that reads can log every
message, whoever else has panicked. -/
theorem panics_stay_local (acts : List (Act ι Addr)) (p : Process ι Addr)
    (tr : List (List (Seen ι Addr))) (h : (lts net dp o).run (start net) acts = some (p, tr)) :
    (∀ i, (¬(lts net dp o).Throughout (start net) acts fun _ u a => ¬Upsets net i u a) →
      ∀ more p' tr', (lts net dp o).run p more = some (p', tr') →
        ∀ input, .turn i input ∉ more) ∧
    (∀ i cfg, net i = .udp cfg →
      ((lts net dp o).Throughout (start net) acts fun _ u a => ¬Upsets net i u a) →
        ∀ src data, Manages net dp o (.loop i) p fun _ seen =>
          ∃ id, .call (.data .udp cfg.name id (cfg.display src) .rx data none) ∈ happened seen) ∧
    (∀ i cfg, net i = .tcp cfg → ∀ peer orig, Manages net dp o (.loop i) p fun p' seen =>
      ∃ id, (id, i, .connection peer) ∈ grants seen ∧
        .call (.openConn .tcp cfg.name id cfg.localAddr (cfg.display peer) orig) ∈ happened seen ∧
          p'.tasks id = some ⟨i, peer, .start⟩) ∧
    ∀ id c cfg first, p.tasks id = some c → net c.listener = .tcp cfg →
      c.stage = .reading first → ∀ data, data ≠ [] →
        Manages net dp o (.task id) p fun _ seen =>
          .call (.data .tcp cfg.name id (cfg.display c.peer) .rx data none) ∈ happened seen := by
  refine ⟨?_, ?_, fun i cfg hnet => manages_accept hnet, ?_⟩
  · intro i hupset more p' tr' hmore input
    exact deaf_run ((crashed_run h i).mpr hupset) hmore input
  · intro i cfg hnet hcalm src data
    have hup : (p.udp i).crashed = false := by
      rw [← Bool.not_eq_true, crashed_run h i, not_not]
      exact hcalm
    exact manages_datagram hnet hup src data 0 (.ok ()) (.ok ())
  · intro id c cfg first htask hnet hstage data hdata
    exact manages_read htask hnet hstage hdata .done

/-- Two udp listeners, one of which has a rule that panics on every message. -/
def tornUdp : Bool → Listener ℕ
  | false =>
      .udp ⟨"t", "l", true, some ⟨"torn", none, [⟨"all", { prefixHex := some "0€" },
        ⟨[], true, false, none⟩⟩]⟩, 1, 1, toString, id⟩
  | true => .udp ⟨"u", "l", true, none, 1, 1, toString, id⟩

def tornRun : List (Act Bool ℕ) :=
  [.perform (.loop false) .quiet, .turn false (.datagram 7 [1, 2] 0 (.ok ()) (.ok ()))]

theorem panics_stay_local_torn :
    ∃ p tr, (lts tornUdp .bare (.rawOnly ⟨0, 0⟩ 0)).run (start tornUdp) tornRun = some (p, tr) ∧
      (∀ more p' tr', (lts tornUdp .bare (.rawOnly ⟨0, 0⟩ 0)).run p more = some (p', tr') →
        ∀ input, .turn false input ∉ more) ∧
      Manages tornUdp .bare (.rawOnly ⟨0, 0⟩ 0) (.loop true) p fun _ seen =>
        ∃ id, .call (.data .udp "u" id "9" .rx [3] none) ∈ happened seen := by
  obtain ⟨p, tr, hrun, htorn, hwhole⟩ : ∃ p tr,
      (lts tornUdp .bare (.rawOnly ⟨0, 0⟩ 0)).run (start tornUdp) tornRun = some (p, tr) ∧
        (p.udp false).crashed = true ∧ (p.udp true).crashed = false :=
    ⟨_, _, rfl, rfl, rfl⟩
  obtain ⟨hdeaf, hhears, -, -⟩ := panics_stay_local tornRun p tr hrun
  refine ⟨p, tr, hrun, hdeaf false ((crashed_run hrun false).mp htorn), ?_⟩
  refine hhears true _ rfl ?_ 9 [3]
  rw [← not_not (a := (lts _ _ _).Throughout _ _ _), ← crashed_run hrun true, hwhole]
  exact Bool.false_ne_true

end Process

end KirbLaSnoop
