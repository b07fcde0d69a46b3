import Mathlib
import KirbLaSnoop.Listener.Idle
import KirbLaSnoop.Listener.Tcp

/-!
# What a profile says over a conversation

The two listeners each have their own copy of the rule engine. For profiles
that use neither dns nor the hangup, both say what `Compiled.conversation`
says: the greeting once, and then an answer to every message, of which the
first is marked.
-/

namespace KirbLaSnoop

/-- What an action that does not speak dns says to a message. -/
def Action.utterance (a : Action) (received : List UInt8) : Option (List UInt8) :=
  let payload := if a.echo then received else a.payload
  if payload.isEmpty then none else some payload

/-- Nothing about the action depends on the transport. -/
structure Action.Plain (a : Action) : Prop where
  dns : a.dns = none
  close : a.close = false

namespace Compiled

structure Plain (p : Compiled) : Prop where
  onConnect : ∀ a, p.onConnect = some a → a.Plain ∧ a.echo = false
  rules : ∀ r ∈ p.rules, r.action.Plain

abbrev Line := String × List UInt8

def greets (p : Compiled) : List Line :=
  match p.onConnect with
  | none => []
  | some a => ((a.utterance []).map fun payload => ("on_connect", payload)).toList

/-- The answer to one message; a panic says nothing. -/
def answers (p : Compiled) (first : Bool) (data : List UInt8) : List Line :=
  match p.eval data first with
  | .ok (some (name, a)) => ((a.utterance data).map fun payload => (name, payload)).toList
  | _ => []

def talk (p : Compiled) : Bool → List (List UInt8) → List Line
  | _, [] => []
  | first, data :: rest => p.answers first data ++ p.talk false rest

def conversation (p : Compiled) (messages : List (List UInt8)) : List Line :=
  p.greets ++ p.talk true messages

end Compiled

namespace Action

/-- What a plain action builds is what it says, on either transport. -/
theorem Plain.build_eq {a : Action} (h : a.Plain) (received : List UInt8)
    (reply : List UInt8 → Dns.Answer → Option (List UInt8)) :
    a.build reply received = some (if a.echo then received else a.payload) := by
  cases hecho : a.echo <;> simp [build, hecho, h.dns]

/-- A plain action says nothing because it is silent, or because there is
nothing in its payload. -/
theorem Plain.utterance_cases {a : Action} (h : a.Plain) (received : List UInt8)
    (reply : List UInt8 → Dns.Answer → Option (List UInt8)) :
    (a.utterance received = none ∧ (a.isSilent = true ∨ a.build reply received = some [])) ∨
      ∃ payload, a.utterance received = some payload ∧ a.isSilent = false ∧
        a.build reply received = some payload ∧ payload.isEmpty = false := by
  rw [h.build_eq]
  cases hpayload : (if a.echo then received else a.payload) with
  | nil => exact .inl ⟨by simp [utterance, hpayload], .inr rfl⟩
  | cons b bs =>
      refine .inr ⟨b :: bs, by simp [utterance, hpayload], ?_, rfl, rfl⟩
      cases hecho : a.echo with
      | true => simp [isSilent, hecho]
      | false =>
          rw [hecho] at hpayload
          simp only [Bool.false_eq_true, if_false] at hpayload
          simp [isSilent, hpayload]

end Action

namespace Effect

variable {Addr : Type*} [DecidableEq Addr]

def sentLine (dst : Addr) : Effect Addr → Option Compiled.Line
  | .sent dst' _ trigger bytes => if dst' = dst then some (trigger.tag, bytes) else none
  | _ => none

def loggedLine (id : ℕ) : Effect Addr → Option Compiled.Line
  | .call (.data _ _ conn _ .tx bytes rule) =>
      if conn = id then rule.map fun name => (name, bytes) else none
  | _ => none

/-- The lines that left for `dst` and those logged under `id` are these. -/
structure Speaks (dst : Addr) (id : ℕ) (lines : List Compiled.Line) (es : List (Effect Addr)) :
    Prop where
  sent : es.filterMap (sentLine dst) = lines
  logged : es.filterMap (loggedLine id) = lines

theorem Speaks.append {dst : Addr} {id : ℕ} {lines lines' : List Compiled.Line}
    {es es' : List (Effect Addr)} (h : Speaks dst id lines es) (h' : Speaks dst id lines' es') :
    Speaks dst id (lines ++ lines') (es ++ es') :=
  ⟨by rw [List.filterMap_append, h.sent, h'.sent],
    by rw [List.filterMap_append, h.logged, h'.logged]⟩

theorem speaks_nil (dst : Addr) (id : ℕ) : Speaks dst id [] ([] : List (Effect Addr)) :=
  ⟨rfl, rfl⟩

theorem speaks_of_forall {dst : Addr} {id : ℕ} {es : List (Effect Addr)}
    (h : ∀ e ∈ es, sentLine dst e = none ∧ loggedLine id e = none) : Speaks dst id [] es :=
  ⟨List.filterMap_eq_nil_iff.mpr fun e he => (h e he).1,
    List.filterMap_eq_nil_iff.mpr fun e he => (h e he).2⟩

theorem speaks_line (dst : Addr) (id : ℕ) (trigger : Trigger) (payload : List UInt8)
    (proto : Proto) (name peer : String) :
    Speaks dst id [(trigger.tag, payload)]
      [.sent dst id trigger payload,
        .call (.data proto name id peer .tx payload (some trigger.tag))] := by
  have hsent : sentLine dst (.sent dst id trigger payload) = some (trigger.tag, payload) :=
    if_pos rfl
  have hlogged : loggedLine id (.call (.data proto name id peer .tx payload (some trigger.tag)) :
      Effect Addr) = some (trigger.tag, payload) := if_pos rfl
  constructor
  · rw [List.filterMap_cons_some hsent]
    rfl
  · rw [List.filterMap_cons_none rfl, List.filterMap_cons_some hlogged, List.filterMap_nil]

end Effect

open Effect

/-! ## Tcp -/

namespace Tcp

variable {Addr : Type*} [DecidableEq Addr] (cfg : Config Addr) (conn : ℕ) (peer : Addr)

omit [DecidableEq Addr] in
theorem send_of_quiet {a : Action} {received : List UInt8} (hclose : a.close = false)
    (h : a.isSilent = true ∨ a.build Dns.replyTcp received = some []) (trigger : Trigger)
    (sending : Sending) :
    send cfg conn peer a received trigger sending = ([], .ok false) := by
  cases hsilent : a.isSilent with
  | true => simp [send, hsilent, hclose]
  | false =>
      have hbuild := h.resolve_left (by simp [hsilent])
      simp [send, hsilent, hbuild, hclose]

/-- A send that succeeds says the line and goes on. -/
theorem speaks_send {a : Action} (ha : a.Plain) (received : List UInt8) (trigger : Trigger) :
    Speaks peer conn ((a.utterance received).map fun payload => (trigger.tag, payload)).toList
        (send cfg conn peer a received trigger .done).1 ∧
      (send cfg conn peer a received trigger .done).2 = .ok false := by
  rcases ha.utterance_cases received Dns.replyTcp with
    ⟨hutterance, hquiet⟩ | ⟨payload, hutterance, hsilent, hbuild, hne⟩
  · rw [hutterance, send_of_quiet cfg conn peer ha.close hquiet]
    exact ⟨speaks_nil peer conn, rfl⟩
  · have hsend : send cfg conn peer a received trigger .done =
        ([.sent peer conn trigger payload, .call (.data .tcp cfg.name conn (cfg.display peer) .tx
          payload (some trigger.tag))], .ok false) := by
      simp [send, hsilent, hbuild, hne, ha.close]
    rw [hutterance, hsend]
    exact ⟨speaks_line peer conn trigger payload _ _ _, rfl⟩

def reads (messages : List (List UInt8)) : List Input :=
  messages.map fun data => .read (.ok data) .done

omit [DecidableEq Addr] in
theorem proceed_ok (next : Stage) {sent : List (Effect Addr) × Except String Bool}
    (h : sent.2 = .ok false) : proceed cfg conn peer next sent = (next, sent.1) := by
  simp [proceed, h]

theorem speaks_greet {p : Compiled} (hp : p.Plain) (hcfg : cfg.profile = some p) :
    Speaks peer conn p.greets (greet cfg conn peer .done).2 ∧
      (greet cfg conn peer .done).1 = .reading true := by
  cases ha : p.onConnect with
  | none =>
      have hgreets : p.greets = [] := by rw [Compiled.greets, ha]
      rw [hgreets, greet, hcfg, Option.bind_some, ha]
      exact ⟨speaks_nil peer conn, rfl⟩
  | some a =>
      obtain ⟨hspeaks, hok⟩ := speaks_send cfg conn peer (hp.onConnect a ha).1 [] .onConnect
      rw [Compiled.greets, ha, greet, hcfg, Option.bind_some, ha]
      dsimp only
      rw [proceed_ok cfg conn peer _ hok]
      exact ⟨hspeaks, rfl⟩

/-- One message: it is answered, and unless a rule panics the next one can come. -/
theorem speaks_read {p : Compiled} (hp : p.Plain) (hcfg : cfg.profile = some p) (first : Bool)
    {data : List UInt8} (hdata : data ≠ []) :
    Speaks peer conn (p.answers first data) (read cfg conn peer first (.ok data) .done).2 ∧
      ((read cfg conn peer first (.ok data) .done).1 = .reading false ∨
        (read cfg conn peer first (.ok data) .done).1 = .crashed) := by
  obtain ⟨b, bs, rfl⟩ := List.exists_cons_of_ne_nil hdata
  have hreceived : Speaks peer conn []
      [Effect.call (.data .tcp cfg.name conn (cfg.display peer) .rx (b :: bs) none)] :=
    speaks_of_forall (by simp [sentLine, loggedLine])
  cases heval : p.eval (b :: bs) first with
  | error e =>
      simp only [Compiled.answers, heval, read, hcfg]
      exact ⟨hreceived, .inr trivial⟩
  | ok found =>
      cases found with
      | none =>
          simp only [Compiled.answers, heval, read, hcfg]
          exact ⟨hreceived, .inl trivial⟩
      | some rule =>
          obtain ⟨name, a⟩ := rule
          obtain ⟨r, hr, -, rfl⟩ := Compiled.eval_mem heval
          obtain ⟨hspeaks, hok⟩ :=
            speaks_send cfg conn peer (hp.rules r hr) (b :: bs) (.rule name)
          simp only [Compiled.answers, heval, read, hcfg, proceed_ok cfg conn peer _ hok]
          exact ⟨hreceived.append hspeaks, .inl trivial⟩

theorem speaks_reads {p : Compiled} (hp : p.Plain) (hcfg : cfg.profile = some p) {first : Bool}
    {messages : List (List UInt8)} (hmessages : ∀ data ∈ messages, data ≠ []) {stage : Stage}
    {tr : List (List (Effect Addr))}
    (hrun : (lts cfg conn peer).run (.reading first) (reads messages) = some (stage, tr)) :
    Speaks peer conn (p.talk first messages) tr.flatten := by
  induction messages generalizing first tr with
  | nil =>
      obtain ⟨rfl, rfl⟩ := (lts cfg conn peer).run_nil_eq_some.mp hrun
      exact speaks_nil peer conn
  | cons data messages ih =>
      obtain ⟨u, es, os, hstep, hrest, rfl⟩ := (lts cfg conn peer).run_cons_eq_some.mp hrun
      obtain ⟨hspeaks, hstage⟩ :=
        speaks_read cfg conn peer hp hcfg first (hmessages data List.mem_cons_self)
      have hread : read cfg conn peer first (.ok data) .done = (u, es) := Option.some.inj hstep
      rw [hread] at hspeaks hstage
      rw [List.flatten_cons]
      refine hspeaks.append ?_
      rcases hstage with rfl | rfl
      · exact ih (fun data' hdata' => hmessages data' (List.mem_cons_of_mem _ hdata')) hrest
      · cases messages with
        | nil =>
            obtain ⟨rfl, rfl⟩ := (lts cfg conn peer).run_nil_eq_some.mp hrest
            exact speaks_nil peer conn
        | cons data' messages =>
            obtain ⟨u, es, os, hstep, -, -⟩ := (lts cfg conn peer).run_cons_eq_some.mp hrest
            cases hstep

end Tcp

/-! ## Udp -/

namespace Udp

variable {Addr : Type*} [DecidableEq Addr] (cfg : Config Addr)

omit [DecidableEq Addr] in
theorem reply_of_quiet {a : Action} {received : List UInt8}
    (h : a.isSilent = true ∨ a.build Dns.reply received = some []) (dst : Addr) (conn : ℕ)
    (trigger : Trigger) (outcome : Except String Unit) :
    reply cfg dst a received conn trigger outcome = [] := by
  cases hsilent : a.isSilent with
  | true => simp [reply, hsilent]
  | false =>
      have hbuild := h.resolve_left (by simp [hsilent])
      simp [reply, hsilent, hbuild]

theorem speaks_reply {a : Action} (ha : a.Plain) (received : List UInt8) (dst : Addr) (conn : ℕ)
    (trigger : Trigger) :
    Speaks dst conn ((a.utterance received).map fun payload => (trigger.tag, payload)).toList
      (reply cfg dst a received conn trigger (.ok ())) := by
  rcases ha.utterance_cases received Dns.reply with
    ⟨hutterance, hquiet⟩ | ⟨payload, hutterance, hsilent, hbuild, hne⟩
  · rw [hutterance, reply_of_quiet cfg hquiet]
    exact speaks_nil dst conn
  · have hreply : reply cfg dst a received conn trigger (.ok ()) =
        [.sent dst conn trigger payload, .call (.data .udp cfg.name conn (cfg.display dst) .tx
          payload (some trigger.tag))] := by
      simp [reply, hsilent, hbuild, hne]
    rw [hutterance, hreply]
    exact speaks_line dst conn trigger payload _ _ _

/-- The greeting does not depend on the datagram that calls for it. -/
theorem speaks_greeting {p : Compiled} (hp : p.Plain) (hcfg : cfg.profile = some p) (src : Addr)
    (conn : ℕ) (data : List UInt8) :
    Speaks src conn p.greets (greeting cfg src conn data true (.ok ())) := by
  rw [greeting, hcfg, Option.bind_some, Compiled.greets]
  cases ha : p.onConnect with
  | none => exact speaks_nil src conn
  | some a =>
      obtain ⟨hplain, hecho⟩ := hp.onConnect a ha
      have hsame : a.utterance [] = a.utterance data := by simp [Action.utterance, hecho]
      dsimp only
      rw [if_pos rfl, hsame]
      exact speaks_reply cfg hplain data src conn .onConnect

theorem speaks_answer {p : Compiled} (hp : p.Plain) (hcfg : cfg.profile = some p) (src : Addr)
    (conn : ℕ) (data : List UInt8) (first : Bool) :
    Speaks src conn (p.answers first data) (answer cfg src conn data first (.ok ())) := by
  cases heval : p.eval data first with
  | error e =>
      simp only [Compiled.answers, heval, answer, ruling, hcfg]
      exact speaks_nil src conn
  | ok found =>
      cases found with
      | none =>
          simp only [Compiled.answers, heval, answer, ruling, hcfg]
          exact speaks_nil src conn
      | some rule =>
          obtain ⟨name, a⟩ := rule
          obtain ⟨r, hr, -, rfl⟩ := Compiled.eval_mem heval
          simp only [Compiled.answers, heval, answer, ruling, hcfg]
          exact speaks_reply cfg (hp.rules r hr) data src conn (.rule name)

/-! ### The other sources -/

/-- The id `id` is that of `src` and of nobody else. -/
structure Owns (l : Loop Addr) (src : Addr) (id : ℕ) : Prop where
  taken : id < l.next
  own : ∀ src' p, l.listener.peers.get src' = some p → (src' = src ↔ p.conn = id)

theorem Owns.set {l : Loop Addr} {src src' : Addr} {id : ℕ} (h : Owns l src id) {q : Peer}
    (hq : src' = src ↔ q.conn = id) (src'' : Addr) (p : Peer)
    (hp : (l.listener.peers.set src' q).get src'' = some p) : src'' = src ↔ p.conn = id := by
  by_cases hsame : src'' = src'
  · subst hsame
    obtain rfl := Option.some.inj ((Table.get_set _ _ _).symm.trans hp)
    exact hq
  · exact h.own src'' p ((Table.get_set_ne _ _ hsame).symm.trans hp)

def Act.message (src : Addr) : Act Addr → Option (List UInt8)
  | .turn (.datagram src' data _ _ _) => if src' = src then some data else none
  | _ => none

theorem Act.message_eq_some {src : Addr} {a : Act Addr} {data : List UInt8}
    (h : a.message src = some data) :
    ∃ now banner rule, a = .turn (.datagram src data now banner rule) := by
  unfold Act.message at h
  split at h
  · rw [Option.ite_none_right_eq_some] at h
    obtain ⟨rfl, h⟩ := h
    obtain rfl := Option.some.inj h
    exact ⟨_, _, _, rfl⟩
  · cases h

theorem speaks_said_other {src src' : Addr} {conn id : ℕ} {es : List (Effect Addr)}
    (h : ∀ e ∈ es, ∃ trigger, Said cfg src' conn trigger e) (hsrc : src' ≠ src)
    (hid : conn ≠ id) : Speaks src id [] es := by
  apply speaks_of_forall
  intro e he
  obtain ⟨trigger, hsaid⟩ := h e he
  cases hsaid with
  | sent bytes => exact ⟨if_neg hsrc, rfl⟩
  | data bytes => exact ⟨rfl, if_neg hid⟩
  | error msg => exact ⟨rfl, rfl⟩

/-- A turn that is not a datagram of `src` says nothing to it and nothing in
its name. -/
theorem turn_other {next : ℕ} {s : State Addr} {input : Input Addr}
    {out : Outcome (State Addr) Addr} (hturn : Turn cfg next s input out) {src : Addr} {id : ℕ}
    (howns : Owns ⟨s, next⟩ src id) (hother : (Act.turn input).message src = none) :
    Speaks src id [] out.effects ∧ Owns ⟨out.state, out.next next⟩ src id := by
  have hrx : ∀ (conn : ℕ) (peer : String) (data : List UInt8), Speaks src id []
      [(.call (.data .udp cfg.name conn peer .rx data none) : Effect Addr)] :=
    fun conn peer data => speaks_of_forall (by simp [sentLine, loggedLine])
  have hretired : ∀ now order, Speaks src id [] (retired cfg now s order) := by
    intro now order
    apply speaks_of_forall
    intro e he
    obtain ⟨src', q, -, -, -, rfl⟩ := (mem_retired cfg).mp he
    exact ⟨rfl, rfl⟩
  have hretain : ∀ now src' p, (s.peers.retain fun _ q => isFresh cfg now q).get src' = some p →
      (src' = src ↔ p.conn = id) := fun now src' p hp => howns.own src' p (peers_of_retain hp)
  cases hturn with
  | overflowMore src' data now banner rule conn hnew hfull hconn =>
      exact ⟨hrx _ _ _, howns.taken, howns.own⟩
  | overflowOpen src' data now banner rule msg hnew hfull hconn =>
      refine ⟨speaks_of_forall (by simp [sentLine, loggedLine]), ?_, howns.own⟩
      exact Nat.lt_succ_of_lt howns.taken
  | newPeer src' data now banner rule hnew hroom =>
      have hsrc : src' ≠ src := by
        rintro rfl
        simp [Act.message] at hother
      have hid : next ≠ id := (Nat.ne_of_lt howns.taken).symm
      constructor
      · have hopened : Speaks src id []
            [(.call (.openConn .udp cfg.name next cfg.localAddr (cfg.display src') none) :
              Effect Addr)] := speaks_of_forall (by simp [sentLine, loggedLine])
        have hsaid : Speaks src id [] (greeting cfg src' next data true banner ++
            answer cfg src' next data true rule) :=
          speaks_said_other cfg (fun e he => said_of_mem_greeting_append_answer cfg he) hsrc hid
        exact hopened.append ((hrx _ _ _).append hsaid)
      · exact ⟨Nat.lt_succ_of_lt howns.taken, howns.set (iff_of_false hsrc hid)⟩
  | known src' data now banner rule peer hget =>
      have hsrc : src' ≠ src := by
        rintro rfl
        simp [Act.message] at hother
      have hid : peer.conn ≠ id := mt (howns.own src' peer hget).mpr hsrc
      constructor
      · have hsaid : Speaks src id [] (answer cfg src' peer.conn data false rule) :=
          speaks_said_other cfg (fun e he =>
            (said_of_mem_answer cfg he).elim fun name hsaid => ⟨_, hsaid⟩) hsrc hid
        exact (hrx _ _ _).append hsaid
      · exact ⟨howns.taken, howns.set (iff_of_false hsrc hid)⟩
  | recvError e => exact ⟨speaks_of_forall (by simp [sentLine, loggedLine]), howns⟩
  | sweep now order peers horder hpeers hkeep =>
      exact ⟨hretired now order, howns.taken, hpeers ▸ hretain now⟩
  | drained now order peers conn why horder hpeers hconn hroom =>
      refine ⟨(hretired now order).append ?_, howns.taken, hpeers ▸ hretain now⟩
      exact speaks_of_forall (by simp [sentLine, loggedLine])

theorem turn_own {p : Compiled} (hp : p.Plain) (hcfg : cfg.profile = some p) {next : ℕ}
    {s : State Addr} {src : Addr} {data : List UInt8} {now : ℕ} {out : Outcome (State Addr) Addr}
    (hturn : Turn cfg next s (.datagram src data now (.ok ()) (.ok ())) out) {id : ℕ}
    (howns : Owns ⟨s, next⟩ src id) (hin : src ∈ s.peers) :
    Speaks src id (p.answers false data) out.effects ∧
      Owns ⟨out.state, out.next next⟩ src id := by
  obtain ⟨q, hq⟩ := Table.mem_iff_get.mp hin
  have hid : q.conn = id := (howns.own src q hq).mp rfl
  cases hturn with
  | known _ _ _ _ _ peer hget =>
      obtain rfl := Option.some.inj (hget.symm.trans hq)
      constructor
      · have hrx : Speaks src id []
            [(.call (.data .udp cfg.name peer.conn (cfg.display src) .rx data none) :
              Effect Addr)] := speaks_of_forall (by simp [sentLine, loggedLine])
        exact hrx.append (hid ▸ speaks_answer cfg hp hcfg src peer.conn data false)
      · exact ⟨howns.taken, howns.set (iff_of_true rfl hid)⟩
  | newPeer _ _ _ _ _ hnew hroom => cases hnew.symm.trans hq
  | overflowMore _ _ _ _ _ conn hnew hfull hconn => cases hnew.symm.trans hq
  | overflowOpen _ _ _ _ _ msg hnew hfull hconn => cases hnew.symm.trans hq

theorem turn_first {p : Compiled} (hp : p.Plain) (hcfg : cfg.profile = some p) {next : ℕ}
    {s : State Addr} {src : Addr} {data : List UInt8} {now : ℕ} {out : Outcome (State Addr) Addr}
    (hturn : Turn cfg next s (.datagram src data now (.ok ()) (.ok ())) out)
    (hnew : s.peers.get src = none) (hroom : s.peers.size < cfg.maxPeers)
    (htaken : ∀ src p, s.peers.get src = some p → p.conn < next) :
    Speaks src next (p.greets ++ p.answers true data) out.effects ∧
      Owns ⟨out.state, out.next next⟩ src next := by
  cases hturn with
  | newPeer _ _ _ _ _ hnew hroom =>
      constructor
      · have hlogged : Speaks src next []
            [(.call (.openConn .udp cfg.name next cfg.localAddr (cfg.display src) none) :
                Effect Addr),
              .call (.data .udp cfg.name next (cfg.display src) .rx data none)] :=
          speaks_of_forall (by simp [sentLine, loggedLine])
        exact hlogged.append ((speaks_greeting cfg hp hcfg src next data).append
          (speaks_answer cfg hp hcfg src next data true))
      · refine ⟨Nat.lt_succ_self next, fun src' q hq => ?_⟩
        by_cases hsame : src' = src
        · subst hsame
          obtain rfl := Option.some.inj ((Table.get_set _ _ _).symm.trans hq)
          exact iff_of_true rfl rfl
        · have hold := htaken src' q ((Table.get_set_ne _ _ hsame).symm.trans hq)
          exact iff_of_false hsame (Nat.ne_of_lt hold)
  | known _ _ _ _ _ peer hget => cases hnew.symm.trans hget
  | overflowMore _ _ _ _ _ conn _ hfull hconn => exact absurd hroom (Nat.not_lt_of_le hfull)
  | overflowOpen _ _ _ _ _ msg _ hfull hconn => exact absurd hroom (Nat.not_lt_of_le hfull)

/-! ### Runs -/

def Act.Delivers (src : Addr) (a : Act Addr) : Prop :=
  ∀ data now banner rule, a = .turn (.datagram src data now banner rule) →
    banner = .ok () ∧ rule = .ok ()

def StaysTracked (src : Addr) (l : Loop Addr) (acts : List (Act Addr)) : Prop :=
  (lts cfg).Throughout l acts fun _ u a => (a.message src).isSome = true → src ∈ u.listener.peers

def messages (src : Addr) (acts : List (Act Addr)) : List (List UInt8) :=
  acts.filterMap (Act.message src)

theorem speaks_later {p : Compiled} (hp : p.Plain) (hcfg : cfg.profile = some p) {src : Addr}
    {id : ℕ} {acts : List (Act Addr)} {l l' : Loop Addr} {tr : List (List (Effect Addr))}
    (hrun : (lts cfg).run l acts = some (l', tr)) (howns : Owns l src id)
    (htracked : StaysTracked cfg src l acts) (hdelivers : ∀ a ∈ acts, a.Delivers src) :
    Speaks src id (p.talk false (messages src acts)) tr.flatten := by
  induction acts generalizing l tr with
  | nil =>
      obtain ⟨rfl, rfl⟩ := (lts cfg).run_nil_eq_some.mp hrun
      exact speaks_nil src id
  | cons a acts ih =>
      obtain ⟨u, es, os, hstep, hrest, rfl⟩ := (lts cfg).run_cons_eq_some.mp hrun
      have hnext := Lts.Throughout.tail _ htracked hstep
      rw [List.flatten_cons]
      cases hmessage : a.message src with
      | none =>
          obtain ⟨hspeaks, howns'⟩ : Speaks src id [] es ∧ Owns u src id := by
            rcases lts_cases cfg hstep with
              ⟨input, out, rfl, -, hturn, rfl, rfl⟩ | ⟨n, -, rfl, rfl⟩
            · exact turn_other cfg hturn howns hmessage
            · exact ⟨speaks_nil src id, Nat.lt_add_right n howns.taken, howns.own⟩
          rw [messages, List.filterMap_cons_none hmessage]
          exact hspeaks.append
            (ih hrest howns' hnext fun b hb => hdelivers b (List.mem_cons_of_mem _ hb))
      | some data =>
          have hin := Lts.Throughout.head _ htracked (by rw [hmessage]; rfl)
          obtain ⟨hspeaks, howns'⟩ :
              Speaks src id (p.answers false data) es ∧ Owns u src id := by
            obtain ⟨now, banner, rule, rfl⟩ := Act.message_eq_some hmessage
            obtain ⟨rfl, rfl⟩ := hdelivers _ List.mem_cons_self data now banner rule rfl
            rcases lts_cases cfg hstep with
              ⟨input, out, hinput, -, hturn, rfl, rfl⟩ | ⟨n, hothers, -⟩
            · obtain rfl := Act.turn.inj hinput
              exact turn_own cfg hp hcfg hturn howns hin
            · cases hothers
          rw [messages, List.filterMap_cons_some hmessage, Compiled.talk]
          exact hspeaks.append
            (ih hrest howns' hnext fun b hb => hdelivers b (List.mem_cons_of_mem _ hb))

/-- A conversation with a source that is not in the table, for which there is
room. -/
theorem speaks_run {p : Compiled} (hp : p.Plain) (hcfg : cfg.profile = some p) {src : Addr}
    {data : List UInt8} {now : ℕ} {rest : List (Act Addr)} {l l' : Loop Addr}
    {effects : List (Effect Addr)} {tr : List (List (Effect Addr))}
    (hrun : (lts cfg).run l (.turn (.datagram src data now (.ok ()) (.ok ())) :: rest) =
      some (l', tr))
    (hsound : Sound cfg l effects) (hnew : l.listener.peers.get src = none)
    (hroom : l.listener.peers.size < cfg.maxPeers)
    (htracked : ∀ u es, (lts cfg).step l (.turn (.datagram src data now (.ok ()) (.ok ()))) =
      some (u, es) → StaysTracked cfg src u rest)
    (hdelivers : ∀ a ∈ rest, a.Delivers src) :
    Speaks src l.next (p.conversation (data :: messages src rest)) tr.flatten := by
  obtain ⟨u, es, os, hstep, hlater, rfl⟩ := (lts cfg).run_cons_eq_some.mp hrun
  obtain ⟨hspeaks, howns⟩ :
      Speaks src l.next (p.greets ++ p.answers true data) es ∧ Owns u src l.next := by
    rcases lts_cases cfg hstep with ⟨input, out, hinput, -, hturn, rfl, rfl⟩ | ⟨n, hothers, -⟩
    · obtain rfl := Act.turn.inj hinput
      exact turn_first cfg hp hcfg hturn hnew hroom hsound.taken
    · cases hothers
  rw [List.flatten_cons, Compiled.conversation, Compiled.talk, ← List.append_assoc]
  exact hspeaks.append (speaks_later cfg hp hcfg hlater howns (htracked u es hstep) hdelivers)

end Udp

/-- For a profile that uses neither dns nor the hangup and does not echo in its
greeting, the same messages draw the same replies over tcp and over udp, and
the log says so in both. -/
theorem answers_alike {p : Compiled} (hp : p.Plain) {Addr Addr' : Type*} [DecidableEq Addr]
    [DecidableEq Addr'] (ucfg : Udp.Config Addr) (tcfg : Tcp.Config Addr')
    (hudp : ucfg.profile = some p) (htcp : tcfg.profile = some p) (hserve : tcfg.upstream = none)
    (first : ℕ) {before : List (Udp.Act Addr)} {l : Udp.Loop Addr}
    {tr₀ : List (List (Effect Addr))}
    (hbefore : (Udp.lts ucfg).run (.start first) before = some (l, tr₀))
    {src : Addr} (hnew : l.listener.peers.get src = none)
    (hroom : l.listener.peers.size < ucfg.maxPeers) {data : List UInt8} {now : ℕ}
    {rest : List (Udp.Act Addr)} {l' : Udp.Loop Addr} {utr : List (List (Effect Addr))}
    (hurun : (Udp.lts ucfg).run l (.turn (.datagram src data now (.ok ()) (.ok ())) :: rest) =
      some (l', utr))
    (htracked : ∀ u es, (Udp.lts ucfg).step l
      (.turn (.datagram src data now (.ok ()) (.ok ()))) = some (u, es) →
        Udp.StaysTracked ucfg src u rest)
    (hdelivers : ∀ a ∈ rest, a.Delivers src)
    (hmessages : ∀ m ∈ data :: Udp.messages src rest, m ≠ [])
    (conn : ℕ) (peer : Addr') {stage : Tcp.Stage} {ttr : List (List (Effect Addr'))}
    (htrun : (Tcp.lts tcfg conn peer).run .start
      (.greet .done :: Tcp.reads (data :: Udp.messages src rest)) = some (stage, ttr)) :
    utr.flatten.filterMap (sentLine src) = ttr.flatten.filterMap (sentLine peer) ∧
      utr.flatten.filterMap (loggedLine l.next) = ttr.flatten.filterMap (loggedLine conn) ∧
      utr.flatten.filterMap (sentLine src) = utr.flatten.filterMap (loggedLine l.next) := by
  have hu := Udp.speaks_run ucfg hp hudp hurun (Udp.sound_run ucfg first hbefore) hnew hroom
    htracked hdelivers
  have ht : Speaks peer conn (p.conversation (data :: Udp.messages src rest)) ttr.flatten := by
    obtain ⟨u, es, os, hstep, hreads, rfl⟩ :=
      (Tcp.lts tcfg conn peer).run_cons_eq_some.mp htrun
    have hgreet : Tcp.greet tcfg conn peer .done = (u, es) := by
      simp only [Tcp.lts, Tcp.handle, hserve] at hstep
      exact Option.some.inj hstep
    obtain ⟨hspeaks, hstage⟩ := Tcp.speaks_greet tcfg conn peer hp htcp
    rw [hgreet] at hspeaks hstage
    obtain rfl := hstage
    rw [List.flatten_cons]
    exact hspeaks.append (Tcp.speaks_reads tcfg conn peer hp htcp hmessages hreads)
  exact ⟨hu.sent.trans ht.sent.symm, hu.logged.trans ht.logged.symm,
    hu.sent.trans hu.logged.symm⟩

/-- A greeting, a rule for the first message and one that mirrors the others. -/
def mirrorProfile : Compiled :=
  { name := "p"
    onConnect := some ⟨[1], false, false, none⟩
    rules :=
      [⟨"hello", { firstOnly := some true }, ⟨[2, 2], false, false, none⟩⟩,
        ⟨"mirror", {}, ⟨[], true, false, none⟩⟩] }

theorem mirrorProfile_plain : mirrorProfile.Plain := by
  constructor
  · intro a ha
    obtain rfl := Option.some.inj ha
    exact ⟨⟨rfl, rfl⟩, rfl⟩
  · intro r hr
    simp only [mirrorProfile, List.mem_cons, List.not_mem_nil, or_false] at hr
    rcases hr with rfl | rfl
    · exact ⟨rfl, rfl⟩
    · exact ⟨rfl, rfl⟩

/-- Two messages, between which another source is heard on the udp side. -/
theorem answers_alike_mirror :
    let ucfg : Udp.Config ℕ := ⟨"u", "l", true, some mirrorProfile, 1, 2, toString, id⟩
    let tcfg : Tcp.Config ℕ := ⟨"t", "l", some mirrorProfile, none, toString⟩
    ∃ l' utr stage ttr, (Udp.lts ucfg).run (.start 1)
          [.turn (.datagram 5 [8] 0 (.ok ()) (.ok ())), .turn (.datagram 6 [9] 0 (.ok ()) (.ok ())),
            .turn (.datagram 5 [7] 0 (.ok ()) (.ok ()))] = some (l', utr) ∧
      (Tcp.lts tcfg 3 9).run .start
          (.greet .done :: Tcp.reads [[8], [7]]) = some (stage, ttr) ∧
      utr.flatten.filterMap (sentLine 5) = ttr.flatten.filterMap (sentLine 9) ∧
      ttr.flatten.filterMap (sentLine 9) =
        [("on_connect", [1]), ("hello", [2, 2]), ("mirror", [7])] := by
  intro ucfg tcfg
  have htracked : ∀ u es, (Udp.lts ucfg).step (.start 1)
      (.turn (.datagram 5 [8] 0 (.ok ()) (.ok ()))) = some (u, es) →
        Udp.StaysTracked ucfg 5 u [.turn (.datagram 6 [9] 0 (.ok ()) (.ok ())),
          .turn (.datagram 5 [7] 0 (.ok ()) (.ok ()))] := by
    intro u es hstep
    obtain rfl := (Prod.mk.inj (Option.some.inj hstep)).1
    refine Lts.throughout_cons _ _ _ _ _ (fun h => by cases h) fun v out hv => ?_
    obtain rfl := (Prod.mk.inj (Option.some.inj hv)).1
    refine Lts.throughout_cons _ _ _ _ _ (fun _ => ?_) fun w out hw => Lts.throughout_nil _ _ _
    exact Table.mem_iff_get.mpr ⟨⟨1, 0⟩, by decide +kernel⟩
  have hdelivers : ∀ a ∈ [Udp.Act.turn (.datagram 6 [9] 0 (.ok ()) (.ok ())),
      .turn (.datagram 5 [7] 0 (.ok ()) (.ok ()))], a.Delivers 5 := by
    rintro a ha data now banner rule rfl
    simp at ha
    exact ⟨ha.2.2.1, ha.2.2.2⟩
  refine ⟨_, _, _, _, rfl, rfl, ?_, by decide +kernel⟩
  exact (answers_alike mirrorProfile_plain ucfg tcfg rfl rfl rfl 1 (Lts.run_nil _ _)
    (Table.get_empty 5) (by decide) rfl htracked hdelivers (by decide) 3 9
    rfl).1

end KirbLaSnoop
