import Mathlib
import KirbLaSnoop.Listener.Replies
import KirbLaSnoop.Profile.Meaning

/-!
# What a process says

A process sends what its profiles mean: a greeting, as the first thing on a
connection, and after each message at most one reply, which is the one that
the profile has for that message. Nothing else leaves, and nothing for anyone
but the peer of the connection.
-/

namespace KirbLaSnoop

open Effect

namespace Effect

variable {Addr : Type*}

/-- The message that the effect tells of. -/
def heard : Effect Addr → Option (List UInt8)
  | .call (.data _ _ _ _ .rx bs none) => some bs
  | _ => none

def said : Effect Addr → Option Trigger
  | .sent _ _ trigger _ => some trigger
  | _ => none

def heardIn (es : List (Effect Addr)) : List (List UInt8) := es.filterMap heard

theorem heardIn_append (es es' : List (Effect Addr)) :
    heardIn (es ++ es') = heardIn es ++ heardIn es' :=
  List.filterMap_append

theorem heardIn_eq_nil {es : List (Effect Addr)} (h : ∀ e ∈ es, e.heard = none) :
    heardIn es = [] :=
  List.filterMap_eq_nil_iff.mpr h

/-- Nothing was heard or said. -/
def Silence (es : List (Effect Addr)) : Prop := ∀ e ∈ es, e.heard = none ∧ e.said = none

theorem silence_append {es es' : List (Effect Addr)} (h : Silence es) (h' : Silence es') :
    Silence (es ++ es') :=
  List.forall_mem_append.mpr ⟨h, h'⟩

end Effect

/-- What greets and what answers: a profile, or what it was compiled to. -/
structure Voice where
  greets : Action → Prop
  answers : List UInt8 → Bool → String → Action → Prop

/-- What the profile itself means, if there is one. -/
def Profile.voice (source : Option (Loader × Profile)) : Voice where
  greets a := ∃ L p r, source = some (L, p) ∧ p.onConnect = some r ∧ r.Means L a
  answers data first name a := ∃ L p i r, source = some (L, p) ∧ p.Wins data first i ∧
    p.rules[i]? = some r ∧ name = r.title i ∧ r.Does L a

namespace Listener

variable {Addr : Type*}

def profile : Listener Addr → Option Compiled
  | .udp cfg => cfg.profile
  | .tcp cfg => cfg.profile

def voice (l : Listener Addr) : Voice where
  greets a := ∃ c, l.profile = some c ∧ c.onConnect = some a
  answers data first name a := ∃ c, l.profile = some c ∧ c.eval data first = .ok (some (name, a))

def reply : Listener Addr → List UInt8 → Dns.Answer → Option (List UInt8)
  | .udp _ => Dns.reply
  | .tcp _ => Dns.replyTcp

/-- What a greeting is built from, if it is time for one. A tcp connection is
greeted before anything is read, a udp peer for its first datagram. -/
def greeted : Listener Addr → List (List UInt8) → Option (List UInt8)
  | .udp _, [data] => some data
  | .tcp _, [] => some []
  | _, _ => none

end Listener

/-- What is compiled is what loading the source gives. -/
def Loads (source : Option (Loader × Profile)) (compiled : Option Compiled) : Prop :=
  Option.Rel (fun s c => load s.1 s.2 = .ok c) source compiled

/-- A listener greets and answers as its profile means. -/
theorem voice_of_loads {Addr : Type*} {l : Listener Addr} {source : Option (Loader × Profile)}
    (h : Loads source l.profile) :
    (∀ a, l.voice.greets a → (Profile.voice source).greets a) ∧
      ∀ data first name a, l.voice.answers data first name a →
        (Profile.voice source).answers data first name a := by
  have hsource {c : Compiled} (hc : l.profile = some c) :
      ∃ L p, source = some (L, p) ∧ load L p = .ok c := by
    rw [hc] at h
    cases h with
    | some hload => exact ⟨_, _, rfl, hload⟩
  constructor
  · rintro a ⟨c, hc, honConnect⟩
    obtain ⟨L, p, rfl, hload⟩ := hsource hc
    have hgreeting := (load_keeps hload).1
    rw [honConnect] at hgreeting
    cases hr : p.onConnect with
    | none =>
        rw [hr] at hgreeting
        cases hgreeting
    | some r =>
        rw [hr] at hgreeting
        exact ⟨L, p, r, rfl, hr, Option.rel_some_some.mp hgreeting⟩
  · rintro data first name a ⟨c, hc, heval⟩
    obtain ⟨L, p, rfl, hload⟩ := hsource hc
    obtain ⟨i, r, hrule⟩ := (eval_eq_ok_iff hload heval name a).mp rfl
    exact ⟨L, p, i, r, rfl, hrule⟩

/-- What there is to send on a connection on which `before` has happened. -/
inductive Voice.Due {Addr : Type*} (V : Voice) (l : Listener Addr) (before : List (Effect Addr)) :
    Trigger → List UInt8 → Prop
  | greeting (a : Action) (received payload : List UInt8) (ha : V.greets a)
      (hquiet : ∀ e ∈ before, e.said = none)
      (hfirst : l.greeted (heardIn before) = some received)
      (hbuild : a.build l.reply received = some payload) : Due V l before .onConnect payload
  | answer (name : String) (a : Action) (front since : List (Effect Addr)) (e : Effect Addr)
      (data payload : List UInt8) (hbefore : before = front ++ e :: since)
      (hheard : e.heard = some data)
      (hsince : ∀ e ∈ since, e.heard = none ∧ ∀ name, e.said ≠ some (.rule name))
      (ha : V.answers data (heardIn front).isEmpty name a)
      (hbuild : a.build l.reply data = some payload) : Due V l before (.rule name) payload

/-- What is sent is due, whole if no send `fails`, and is for the owner of the
connection. -/
def Warranted {Addr : Type*} (V : Voice) (l : Listener Addr) (w : Owner Addr) (fails : Prop)
    (before : List (Effect Addr)) (e : Effect Addr) : Prop :=
  ∀ dst conn trigger bytes, e = .sent dst conn trigger bytes →
    (w = .connection dst ∨ w = .peer dst) ∧
      ∃ payload, V.Due l before trigger payload ∧ bytes <+: payload ∧ (¬fails → bytes = payload)

def Heeds {Addr : Type*} (V : Voice) (l : Listener Addr) (w : Owner Addr) (fails : Prop)
    (before es : List (Effect Addr)) : Prop :=
  EachStep (fun done => Warranted V l w fails (before ++ done)) es

section Heeds

variable {Addr : Type*} {V : Voice} {l : Listener Addr} {w : Owner Addr} {fails : Prop}
  {before es es' : List (Effect Addr)}

theorem heeds_append :
    Heeds V l w fails before (es ++ es') ↔
      Heeds V l w fails before es ∧ Heeds V l w fails (before ++ es) es' := by
  simp only [Heeds, EachStep.append_iff, List.append_assoc]

theorem heeds_cons_iff {e : Effect Addr} :
    Heeds V l w fails before (e :: es) ↔
      Heeds V l w fails before [e] ∧ Heeds V l w fails (before ++ [e]) es := by
  rw [← List.singleton_append, heeds_append]

theorem heeds_quiet (h : ∀ e ∈ es, e.said = none) : Heeds V l w fails before es := by
  rintro done e later rfl dst conn trigger bytes rfl
  cases h _ (List.mem_append_right _ List.mem_cons_self)

theorem heeds_singleton {e : Effect Addr} (h : Warranted V l w fails before e) :
    Heeds V l w fails before [e] := by
  have hlast : Heeds V l w fails before ([] ++ [e]) :=
    EachStep.concat_iff.mpr ⟨EachStep.nil _, (List.append_nil before).symm ▸ h⟩
  exact hlast

/-- Only the first effect can be a send. -/
theorem heeds_cons {e : Effect Addr} (he : Warranted V l w fails before e)
    (hes : ∀ e ∈ es, e.said = none) : Heeds V l w fails before (e :: es) :=
  heeds_cons_iff.mpr ⟨heeds_singleton he, heeds_quiet hes⟩

theorem Voice.Due.imp {V' : Voice} {trigger : Trigger} {payload : List UInt8}
    (h : V.Due l before trigger payload) (hgreets : ∀ a, V.greets a → V'.greets a)
    (hanswers : ∀ data first name a, V.answers data first name a → V'.answers data first name a) :
    V'.Due l before trigger payload := by
  cases h with
  | greeting a received payload ha hquiet hfirst hbuild =>
      exact .greeting a received payload (hgreets a ha) hquiet hfirst hbuild
  | answer name a front since e data payload hbefore hheard hsince ha hbuild =>
      exact .answer name a front since e data payload hbefore hheard hsince
        (hanswers _ _ _ _ ha) hbuild

theorem Heeds.imp (h : Heeds V l w fails before es) {fails' : Prop} (hfails : fails → fails') :
    Heeds V l w fails' before es := by
  refine EachStep.imp h fun done e hwarrant dst conn trigger bytes he => ?_
  obtain ⟨hdst, payload, hdue, hprefix, hwhole⟩ := hwarrant dst conn trigger bytes he
  exact ⟨hdst, payload, hdue, hprefix, fun hnot => hwhole (hnot ∘ hfails)⟩

end Heeds

/-! ## Tcp -/

namespace Tcp

variable {Addr : Type*} {cfg : Config Addr} {conn : ℕ} {peer : Addr} {V : Voice}
  {before : List (Effect Addr)}

variable (cfg conn peer) in
theorem said_finish (outcome : Except String String) :
    ∀ e ∈ finish cfg conn peer outcome, e.said = none := by
  cases outcome <;> simp [finish, said]

variable (cfg conn peer) in
theorem heard_finish (outcome : Except String String) :
    ∀ e ∈ finish cfg conn peer outcome, e.heard = none := by
  cases outcome <;> simp [finish, heard]

variable (cfg conn peer) in
theorem heard_send (a : Action) (received : List UInt8) (trigger : Trigger) (sending : Sending) :
    ∀ e ∈ (send cfg conn peer a received trigger sending).1, e.heard = none := by
  unfold send
  cases sending <;> split <;> (try split) <;> (try split) <;> (try split) <;> simp [heard]

theorem heeds_send {a : Action} {received : List UInt8} {trigger : Trigger}
    (hdue : ∀ payload, a.build Dns.replyTcp received = some payload →
      V.Due (.tcp cfg) before trigger payload) (sending : Sending) :
    Heeds V (.tcp cfg) (.connection peer) (sending ≠ .done) before
      (send cfg conn peer a received trigger sending).1 := by
  unfold send
  split
  · exact heeds_quiet (List.forall_mem_nil _)
  · split
    · exact heeds_quiet (List.forall_mem_nil _)
    · next payload hbuild =>
        have hangup : ∀ e ∈ (if a.close then [.shutdown conn .tx] else [] : List (Effect Addr)),
            e.said = none := by
          split <;> simp [said]
        have hwarrant {bytes : List UInt8} (hcut : bytes <+: payload)
            (hwhole : sending = .done → bytes = payload) :
            Warranted V (.tcp cfg) (.connection peer) (sending ≠ .done) before
              (.sent peer conn trigger bytes) := by
          rintro dst _ _ _ ⟨⟩
          exact ⟨.inl rfl, payload, hdue payload hbuild, hcut, fun h => hwhole (not_not.mp h)⟩
        dsimp only
        split
        · exact heeds_quiet hangup
        · cases sending with
          | done =>
              apply heeds_cons (hwarrant List.prefix_rfl fun _ => rfl)
              exact List.forall_mem_cons.mpr ⟨rfl, hangup⟩
          | writeFailed written e => exact heeds_singleton (hwarrant (List.take_prefix _ _) nofun)
          | flushFailed e => exact heeds_singleton (hwarrant List.prefix_rfl fun _ => rfl)

theorem heeds_proceed {fails : Prop} (next : Stage) {sent : List (Effect Addr) × Except String Bool}
    (h : Heeds V (.tcp cfg) (.connection peer) fails before sent.1) :
    Heeds V (.tcp cfg) (.connection peer) fails before (proceed cfg conn peer next sent).2 := by
  unfold proceed
  split
  · exact heeds_append.mpr ⟨h, heeds_quiet (said_finish cfg conn peer _)⟩
  · exact h
  · exact heeds_append.mpr ⟨h, heeds_quiet (said_finish cfg conn peer _)⟩

variable (cfg conn peer) in
theorem heard_proceed (next : Stage) {sent : List (Effect Addr) × Except String Bool}
    (h : ∀ e ∈ sent.1, e.heard = none) :
    ∀ e ∈ (proceed cfg conn peer next sent).2, e.heard = none := by
  unfold proceed
  split
  · exact List.forall_mem_append.mpr ⟨h, heard_finish cfg conn peer _⟩
  · exact h
  · exact List.forall_mem_append.mpr ⟨h, heard_finish cfg conn peer _⟩

/-- A task knows of the past of its connection only whether it has heard
anything. -/
def Placed (before : List (Effect Addr)) : Stage → Prop
  | .start => Silence before
  | .reading first => first = (heardIn before).isEmpty
  | _ => True

theorem placed_append {es es' : List (Effect Addr)} {stage : Stage} (h : Placed es stage)
    (h' : Silence es') : Placed (es ++ es') stage := by
  cases stage with
  | start => exact silence_append h h'
  | reading first =>
      rw [Placed, heardIn_append, heardIn_eq_nil fun e he => (h' e he).1, List.append_nil]
      exact h
  | _ => trivial

theorem placed_proceed {es : List (Effect Addr)} {next : Stage} (h : Placed es next)
    (sent : List (Effect Addr) × Except String Bool) :
    Placed es (proceed cfg conn peer next sent).1 := by
  unfold proceed
  split
  · trivial
  · exact h
  · trivial

theorem said_pump {dir : Dir} {state : Pump} {input : Input} {out : Pump × List (Effect Addr)}
    (h : pump cfg conn peer dir state input = some out) : ∀ e ∈ out.2, e.said = none := by
  unfold pump at h
  split at h
  · obtain rfl := Option.some.inj h
    unfold pumpRead
    split <;> simp [said]
  · unfold pumpWrite at h
    split at h
    · obtain rfl := Option.some.inj h
      simp [said]
    · split_ifs at h
      · obtain rfl := Option.some.inj h
        simp [said]
      · obtain rfl := Option.some.inj h
        simp [said]
  · cases h

theorem heeds_join {fails : Prop} (rx tx : Pump) {es : List (Effect Addr)}
    (h : ∀ e ∈ es, e.said = none) :
    Heeds V (.tcp cfg) (.connection peer) fails before (join cfg conn peer rx tx es).2 ∧
      Placed (before ++ (join cfg conn peer rx tx es).2) (join cfg conn peer rx tx es).1 := by
  unfold join
  split
  · exact ⟨heeds_quiet (List.forall_mem_append.mpr ⟨h, said_finish cfg conn peer _⟩), trivial⟩
  · exact ⟨heeds_quiet h, trivial⟩

theorem heeds_greet (hplaced : Placed before .start) (sending : Sending) :
    Heeds (Listener.voice (.tcp cfg)) (.tcp cfg) (.connection peer) (sending ≠ .done) before
        (greet cfg conn peer sending).2 ∧
      Placed (before ++ (greet cfg conn peer sending).2) (greet cfg conn peer sending).1 := by
  have hunheard : heardIn before = [] := heardIn_eq_nil fun e he => (hplaced e he).1
  have hreading {es : List (Effect Addr)} (hes : ∀ e ∈ es, e.heard = none) :
      Placed (before ++ es) (.reading true) := by
    rw [Placed, heardIn_append, hunheard, heardIn_eq_nil hes]
    rfl
  unfold greet
  split
  · exact ⟨heeds_quiet (List.forall_mem_nil _), hreading (List.forall_mem_nil _)⟩
  · next a ha =>
      obtain ⟨c, hc, honConnect⟩ := Option.bind_eq_some_iff.mp ha
      have hsend := heard_send cfg conn peer a [] .onConnect sending
      refine ⟨heeds_proceed _ (heeds_send (fun payload hbuild => ?_) sending),
        placed_proceed (hreading (heard_proceed cfg conn peer _ hsend)) _⟩
      refine .greeting a [] payload ⟨c, hc, honConnect⟩ (fun e he => (hplaced e he).2) ?_ hbuild
      rw [hunheard]
      rfl

theorem heeds_read {first : Bool} (hplaced : Placed before (.reading first))
    (res : Except String (List UInt8)) (sending : Sending) :
    Heeds (Listener.voice (.tcp cfg)) (.tcp cfg) (.connection peer) (sending ≠ .done) before
        (read cfg conn peer first res sending).2 ∧
      Placed (before ++ (read cfg conn peer first res sending).2)
        (read cfg conn peer first res sending).1 := by
  unfold read
  split
  · exact ⟨heeds_quiet (said_finish cfg conn peer (.error _)), trivial⟩
  · exact ⟨heeds_quiet (said_finish cfg conn peer (.ok _)), trivial⟩
  · next data _ =>
      have hreading (es : List (Effect Addr)) : Placed (before ++
          .call (.data .tcp cfg.name conn (cfg.display peer) .rx data none) :: es)
            (.reading false) := by
        rw [Placed, heardIn_append]
        simp [heardIn, heard]
      have hquiet {es : List (Effect Addr)} (hes : ∀ e ∈ es, e.said = none) :
          Heeds (Listener.voice (.tcp cfg)) (.tcp cfg) (.connection peer) (sending ≠ .done) before
            (.call (.data .tcp cfg.name conn (cfg.display peer) .rx data none) :: es) :=
        heeds_quiet (List.forall_mem_cons.mpr ⟨rfl, hes⟩)
      dsimp only
      split
      · exact ⟨hquiet (List.forall_mem_nil _), hreading []⟩
      · next c hc =>
          split
          · exact ⟨hquiet (List.forall_mem_nil _), trivial⟩
          · exact ⟨hquiet (List.forall_mem_nil _), hreading []⟩
          · next name a heval =>
              refine ⟨?_, placed_proceed (hreading _) _⟩
              apply heeds_cons_iff.mpr
              refine ⟨hquiet (List.forall_mem_nil _), heeds_proceed _ (heeds_send ?_ sending)⟩
              intro payload hbuild
              exact .answer name a before [] _ data payload rfl rfl (List.forall_mem_nil _)
                ⟨c, hc, hplaced ▸ heval⟩ hbuild

/-- What a task sends is due. -/
theorem heeds_handle {stage : Stage} (hplaced : Placed before stage) {input : Input}
    {out : Stage × List (Effect Addr)} (h : handle cfg conn peer stage input = some out) :
    Heeds (Listener.voice (.tcp cfg)) (.tcp cfg) (.connection peer) input.Fails before out.2 ∧
      Placed (before ++ out.2) out.1 := by
  cases step_cases cfg conn peer h with
  | greet sending hserve => exact heeds_greet hplaced sending
  | connect up res hforward =>
      cases res with
      | ok u => exact ⟨heeds_quiet (List.forall_mem_nil _), trivial⟩
      | error e =>
          exact ⟨heeds_quiet (List.forall_mem_cons.mpr ⟨rfl, said_finish cfg conn peer _⟩), trivial⟩
  | read first res sending => exact heeds_read hplaced res sending
  | pumpRx rx tx _ out hpump => exact heeds_join out.1 tx (said_pump hpump)
  | pumpTx rx tx _ out hpump => exact heeds_join rx out.1 (said_pump hpump)

end Tcp

/-! ## Udp -/

namespace Udp

variable {Addr : Type*} {cfg : Config Addr} {V : Voice} {before : List (Effect Addr)}

theorem heeds_reply {src : Addr} {a : Action} {received : List UInt8} {trigger : Trigger}
    (hdue : ∀ payload, a.build Dns.reply received = some payload →
      V.Due (.udp cfg) before trigger payload) (conn : ℕ) (outcome : Except String Unit) :
    Heeds V (.udp cfg) (.peer src) False before
      (reply cfg src a received conn trigger outcome) := by
  rcases reply_cases cfg src a received conn trigger outcome with
    h | ⟨e, h⟩ | ⟨payload, -, hbuild, h⟩
  · rw [h]
    exact heeds_quiet (List.forall_mem_nil _)
  · rw [h]
    exact heeds_quiet (List.forall_mem_singleton.mpr rfl)
  · rw [h]
    refine heeds_cons ?_ (List.forall_mem_singleton.mpr rfl)
    rintro dst _ _ _ ⟨⟩
    exact ⟨.inr rfl, payload, hdue payload hbuild, List.prefix_rfl, fun _ => rfl⟩

theorem heeds_greeting {src : Addr} {data : List UInt8} (hquiet : ∀ e ∈ before, e.said = none)
    (hfirst : heardIn before = [data]) (conn : ℕ) (outcome : Except String Unit) :
    Heeds (Listener.voice (.udp cfg)) (.udp cfg) (.peer src) False before
      (greeting cfg src conn data true outcome) := by
  unfold greeting
  split
  · exact heeds_quiet (List.forall_mem_nil _)
  · next a ha =>
      obtain ⟨c, hc, honConnect⟩ := Option.bind_eq_some_iff.mp ha
      rw [if_pos rfl]
      refine heeds_reply (fun payload hbuild => ?_) conn outcome
      refine .greeting a data payload ⟨c, hc, honConnect⟩ hquiet ?_ hbuild
      rw [hfirst]
      rfl

theorem heeds_answer {src : Addr} (front : List (Effect Addr)) {since : List (Effect Addr)}
    {e : Effect Addr} {data : List UInt8} (hheard : e.heard = some data)
    (hsince : ∀ e ∈ since, e.heard = none ∧ ∀ name, e.said ≠ some (.rule name)) (conn : ℕ)
    (outcome : Except String Unit) :
    Heeds (Listener.voice (.udp cfg)) (.udp cfg) (.peer src) False (front ++ e :: since)
      (answer cfg src conn data (heardIn front).isEmpty outcome) := by
  unfold answer
  split
  · next name a hrule =>
      refine heeds_reply (fun payload hbuild => ?_) conn outcome
      refine .answer name a front since e data payload rfl hheard hsince ?_ hbuild
      unfold ruling at hrule
      split at hrule
      · cases hrule
      · next c hc => exact ⟨c, hc, hrule⟩
  · exact heeds_quiet (List.forall_mem_nil _)

/-- A greeting is neither a message nor the reply of a rule. -/
theorem since_greeting {src : Addr} {conn : ℕ} {data : List UInt8} {first : Bool}
    {outcome : Except String Unit} : ∀ e ∈ greeting cfg src conn data first outcome,
      e.heard = none ∧ ∀ name, e.said ≠ some (.rule name) := by
  intro e he
  cases said_of_mem_greeting cfg he <;> simp [heard, said]

variable [DecidableEq Addr] {next : ℕ} {s : State Addr} {input : Input Addr}
  {out : Outcome (State Addr) Addr}

omit [DecidableEq Addr] in
theorem conn_newPeer (conn : ℕ) (src : Addr) (data : List UInt8)
    (banner rule : Except String Unit) :
    ∀ e ∈ .call (.openConn .udp cfg.name conn cfg.localAddr (cfg.display src) none) ::
        .call (.data .udp cfg.name conn (cfg.display src) .rx data none) ::
          (greeting cfg src conn data true banner ++ answer cfg src conn data true rule),
      e.conn = some conn := by
  refine List.forall_mem_cons.mpr ⟨rfl, List.forall_mem_cons.mpr ⟨rfl, fun e he => ?_⟩⟩
  obtain ⟨trigger, hsaid⟩ := said_of_mem_greeting_append_answer cfg he
  exact conn_of_said hsaid

omit [DecidableEq Addr] in
theorem conn_known (conn : ℕ) (src : Addr) (data : List UInt8) (rule : Except String Unit) :
    ∀ e ∈ .call (.data .udp cfg.name conn (cfg.display src) .rx data none) ::
        answer cfg src conn data false rule, e.conn = some conn := by
  refine List.forall_mem_cons.mpr ⟨rfl, fun e he => ?_⟩
  obtain ⟨name, hsaid⟩ := said_of_mem_answer cfg he
  exact conn_of_said hsaid

/-- What a turn says, it says to the source of a datagram, new or known; the
others it hears are those that share a connection. -/
theorem turn_said (hturn : Turn cfg next s input out) (id : ℕ) :
    Silence (about id out.effects) ∨
      ((∀ e ∈ about id out.effects, e.said = none) ∧
        (s.overflowConn = some id ∨ id = next ∧ out.took = some .overflow)) ∨
      (∃ src data now banner rule, input = .datagram src data now banner rule ∧ id = next ∧
        out.took = some (.peer src) ∧
        about id out.effects =
          [.call (.openConn .udp cfg.name next cfg.localAddr (cfg.display src) none)] ++
            .call (.data .udp cfg.name next (cfg.display src) .rx data none) ::
              (greeting cfg src next data true banner ++ answer cfg src next data true rule)) ∨
      ∃ src q data now banner rule, input = .datagram src data now banner rule ∧
        s.peers.get src = some q ∧ id = q.conn ∧
        about id out.effects =
          .call (.data .udp cfg.name q.conn (cfg.display src) .rx data none) ::
            answer cfg src q.conn data false rule := by
  have hsilent {es : List (Effect Addr)} (hes : Silence es) : Silence (about id es) :=
    fun e he => hes e (mem_about.mp he).1
  have hretired : ∀ now order, Silence (retired cfg now s order) := by
    intro now order e he
    obtain ⟨src, q, -, -, -, rfl⟩ := (mem_retired cfg).mp he
    exact ⟨rfl, rfl⟩
  cases hturn with
  | overflowMore src data now banner rule conn hnew hfull hconn =>
      rw [about_of_forall conn (List.forall_mem_singleton.mpr rfl)]
      split
      · next hid => exact .inr (.inl ⟨List.forall_mem_singleton.mpr rfl, .inl (hid ▸ hconn)⟩)
      · exact .inl (List.forall_mem_nil _)
  | overflowOpen src data now banner rule msg hnew hfull hconn =>
      by_cases hid : id = next
      · refine .inr (.inl ⟨fun e he => ?_, .inr ⟨hid, rfl⟩⟩)
        have hsaid : ∀ e ∈ ([.call (.openConn .udp cfg.name next cfg.localAddr "overflow" none),
            .call (.warn .udp cfg.name msg),
            .call (.data .udp cfg.name next (cfg.display src) .rx data none)] :
              List (Effect Addr)), e.said = none := by
          simp [said]
        exact hsaid e (mem_about.mp he).1
      · rw [about_eq_nil]
        · exact .inl (List.forall_mem_nil _)
        · simp [Effect.conn, Call.conn, Ne.symm hid]
  | newPeer src data now banner rule hnew hroom =>
      rw [about_of_forall next (conn_newPeer next src data banner rule)]
      split
      · next hid =>
          exact .inr (.inr (.inl ⟨src, data, now, banner, rule, rfl, hid.symm, rfl, rfl⟩))
      · exact .inl (List.forall_mem_nil _)
  | known src data now banner rule peer hget =>
      rw [about_of_forall peer.conn (conn_known peer.conn src data rule)]
      split
      · next hid =>
          exact .inr (.inr (.inr ⟨src, peer, data, now, banner, rule, rfl, hget, hid.symm, rfl⟩))
      · exact .inl (List.forall_mem_nil _)
  | recvError e => exact .inl (hsilent (List.forall_mem_singleton.mpr ⟨rfl, rfl⟩))
  | sweep now order => exact .inl (hsilent (hretired now order))
  | drained now order =>
      exact .inl (hsilent (silence_append (hretired now order)
        (List.forall_mem_singleton.mpr ⟨rfl, rfl⟩)))

/-- What a turn sends is due. -/
theorem heeds_turn (hturn : Turn cfg next s input out) {id : ℕ} {w : Owner Addr}
    (hnew : id = next → before = [] ∧ ∀ w', out.took = some w' → w = w')
    (hknown : ∀ src q, s.peers.get src = some q → q.conn = id → w = .peer src ∧ heardIn before ≠ []) :
    Heeds (Listener.voice (.udp cfg)) (.udp cfg) w False before (about id out.effects) := by
  rcases turn_said hturn id with hsilent | ⟨hquiet, -⟩ |
    ⟨src, data, now, banner, rule, -, hid, htook, heq⟩ |
    ⟨src, q, data, now, banner, rule, -, hget, hid, heq⟩
  · exact heeds_quiet fun e he => (hsilent e he).2
  · exact heeds_quiet hquiet
  · obtain ⟨rfl, howner⟩ := hnew hid
    obtain rfl := howner _ htook
    rw [heq]
    refine heeds_append.mpr ⟨heeds_quiet (List.forall_mem_singleton.mpr rfl), ?_⟩
    refine heeds_cons_iff.mpr ⟨heeds_quiet (List.forall_mem_singleton.mpr rfl), ?_⟩
    refine heeds_append.mpr ⟨heeds_greeting (by simp [said]) rfl next banner, ?_⟩
    rw [List.append_assoc]
    exact heeds_answer [_] rfl since_greeting next rule
  · obtain ⟨rfl, hheard⟩ := hknown src q hget hid.symm
    rw [heq]
    refine heeds_cons_iff.mpr ⟨heeds_quiet (List.forall_mem_singleton.mpr rfl), ?_⟩
    rw [← List.isEmpty_eq_false_iff.mpr hheard]
    exact heeds_answer before rfl (List.forall_mem_nil _) q.conn rule

/-- A turn is about the id that it takes, a peer, or the overflow. -/
theorem conn_of_turn (hturn : Turn cfg next s input out) {e : Effect Addr} (he : e ∈ out.effects)
    {id : ℕ} (hid : e.conn = some id) :
    (id = next ∧ ∃ w, out.took = some w ∧ ∀ peer, w ≠ .connection peer) ∨
      (∃ src q, s.peers.get src = some q ∧ q.conn = id) ∨ s.overflowConn = some id := by
  have hretired : ∀ now order, e ∈ retired cfg now s order →
      ∃ src q, s.peers.get src = some q ∧ q.conn = id := by
    intro now order he
    obtain ⟨src, q, -, hq, -, rfl⟩ := (mem_retired cfg).mp he
    exact ⟨src, q, hq, Option.some.inj hid⟩
  cases hturn with
  | overflowMore src data now banner rule conn hnew hfull hconn =>
      obtain rfl := List.mem_singleton.mp he
      exact .inr (.inr (hconn.trans hid))
  | overflowOpen src data now banner rule msg hnew hfull hconn =>
      simp only [List.mem_cons, List.not_mem_nil, or_false] at he
      rcases he with rfl | rfl | rfl
      · exact .inl ⟨(Option.some.inj hid).symm, .overflow, rfl, nofun⟩
      · cases hid
      · exact .inl ⟨(Option.some.inj hid).symm, .overflow, rfl, nofun⟩
  | newPeer src data now banner rule hnew hroom =>
      have hown := conn_newPeer next src data banner rule e he
      refine .inl ⟨Option.some.inj (hid.symm.trans hown), .peer src, rfl, ?_⟩
      rintro peer ⟨⟩
  | known src data now banner rule peer hget =>
      have hown := conn_known peer.conn src data rule e he
      exact .inr (.inl ⟨src, peer, hget, Option.some.inj (hown.symm.trans hid)⟩)
  | recvError msg =>
      obtain rfl := List.mem_singleton.mp he
      cases hid
  | sweep now order => exact .inr (.inl (hretired now order he))
  | drained now order peers conn why horder hpeers hconn =>
      rcases List.mem_append.mp he with he | he
      · exact .inr (.inl (hretired now order he))
      · obtain rfl := List.mem_singleton.mp he
        exact .inr (.inr (hconn.trans hid))

/-- Who is in the table has been heard. -/
theorem heard_turn (hturn : Turn cfg next s input out) {src : Addr} {q : Peer}
    (hq : out.state.peers.get src = some q) :
    (∃ src' q', s.peers.get src' = some q' ∧ q'.conn = q.conn) ∨
      q.conn = next ∧ heardIn (about next out.effects) ≠ [] := by
  have hold (h : s.peers.get src = some q) : ∃ src' q', s.peers.get src' = some q' ∧
      q'.conn = q.conn := ⟨src, q, h, rfl⟩
  cases hturn with
  | overflowMore => exact .inl (hold hq)
  | overflowOpen => exact .inl (hold hq)
  | newPeer src' data now banner rule hnew hroom =>
      rcases peers_of_set hq with rfl | hq
      · refine .inr ⟨rfl, ?_⟩
        apply List.ne_nil_of_mem (a := data)
        refine List.mem_filterMap.mpr
          ⟨.call (.data .udp cfg.name next (cfg.display src') .rx data none),
            mem_about.mpr ⟨?_, rfl⟩, rfl⟩
        exact List.mem_cons_of_mem _ List.mem_cons_self
      · exact .inl (hold hq)
  | known src' data now banner rule peer hget =>
      rcases peers_of_set hq with rfl | hq
      · exact .inl ⟨src', peer, hget, rfl⟩
      · exact .inl (hold hq)
  | recvError => exact .inl (hold hq)
  | sweep now order peers horder hpeers =>
      subst hpeers
      exact .inl (hold (peers_of_retain hq))
  | drained now order peers conn why horder hpeers =>
      subst hpeers
      exact .inl (hold (peers_of_retain hq))

end Udp

/-! ## The process -/

namespace Process

variable {ι Addr : Type*} [DecidableEq ι] [DecidableEq Addr] {net : ι → Listener Addr}
  {dp : Deps} {o : Options} {p p' : Process ι Addr} {seen new : List (Seen ι Addr)}
  {acts : List (Act ι Addr)}

/-- All that was decided to be sent was due, and the threads know of each
connection whether a message has come. -/
structure Spoken (net : ι → Listener Addr) (p : Process ι Addr) (seen : List (Seen ι Addr))
    (acts : List (Act ι Addr)) : Prop where
  heeds : ∀ id i w, (id, i, w) ∈ grants seen →
    Heeds (net i).voice (net i) w (∃ a ∈ acts, a.Fails id) [] (about id (decided seen))
  waiting : ∀ id i peer, (id, i, .connection peer) ∈ grants seen → p.tasks id = none →
    Silence (about id (decided seen))
  placed : ∀ id c, p.tasks id = some c → Tcp.Placed (about id (decided seen)) c.stage
  peers : ∀ i src q, (p.udp i).peers.get src = some q → heardIn (about q.conn (decided seen)) ≠ []

omit [DecidableEq ι] [DecidableEq Addr] in
theorem about_ungranted (hqueued : Queued p seen) {id : ℕ}
    (h : ∀ i w, (id, i, w) ∉ grants seen) : about id (decided seen) = [] := by
  apply about_eq_nil
  intro e he hid
  obtain ⟨i, w, hw⟩ := hqueued.named id e (.inr he) hid
  exact h i w hw

omit [DecidableEq ι] in
theorem about_decided_next (hinv : Inv p seen) (hqueued : Queued p seen) :
    about p.log.nextConn (decided seen) = [] :=
  about_ungranted hqueued fun _ _ hw => (hinv.lt_next hw).false

omit [DecidableEq ι] in
/-- What a step decides is due if it is after what was decided before. -/
theorem Spoken.heeds_step (h : Spoken net p seen acts) (hqueued : Queued p seen)
    (hinv' : Inv p' (seen ++ new)) (a : Act ι Addr)
    (hnew : ∀ id i w, (id, i, w) ∈ grants (seen ++ new) →
      Heeds (net i).voice (net i) w (a.Fails id) (about id (decided seen)) (about id (decided new)))
    (id : ℕ) (i : ι) (w : Owner Addr) (hw : (id, i, w) ∈ grants (seen ++ new)) :
    Heeds (net i).voice (net i) w (∃ a' ∈ acts ++ [a], a'.Fails id) []
      (about id (decided (seen ++ new))) := by
  rw [decided_append, about_append]
  refine heeds_append.mpr ⟨?_, (hnew id i w hw).imp ?_⟩
  · by_cases hgrant : ∃ j v, (id, j, v) ∈ grants seen
    · obtain ⟨j, v, hv⟩ := hgrant
      obtain ⟨rfl, rfl⟩ := hinv'.unique hw (mem_grants_append hv new)
      refine (h.heeds id i w hv).imp ?_
      rintro ⟨b, hb, hfails⟩
      exact ⟨b, List.mem_append_left _ hb, hfails⟩
    · rw [about_ungranted hqueued fun j v hv => hgrant ⟨j, v, hv⟩]
      exact heeds_quiet (List.forall_mem_nil _)
  · exact fun hfails => ⟨a, List.mem_append_right _ List.mem_cons_self, hfails⟩

omit [DecidableEq ι] in
/-- A step that leaves the tasks alone, and hears and says nothing for their
connections. -/
theorem Spoken.extend (h : Spoken net p seen acts) (hinv : Inv p seen) (hqueued : Queued p seen)
    (hinv' : Inv p' (seen ++ new)) (htasks : p'.tasks = p.tasks) (a : Act ι Addr)
    (hnew : ∀ id i w, (id, i, w) ∈ grants (seen ++ new) →
      Heeds (net i).voice (net i) w (a.Fails id) (about id (decided seen)) (about id (decided new)))
    (hsilent : ∀ id i peer, (id, i, .connection peer) ∈ grants (seen ++ new) →
      Silence (about id (decided new)))
    (hpeers : ∀ i src q, (p'.udp i).peers.get src = some q →
      (∃ src' q', (p.udp i).peers.get src' = some q' ∧ q'.conn = q.conn) ∨
        heardIn (about q.conn (decided new)) ≠ []) :
    Spoken net p' (seen ++ new) (acts ++ [a]) := by
  refine ⟨h.heeds_step hqueued hinv' a hnew, ?_, ?_, ?_⟩
  · intro id i peer hw hnone
    rw [decided_append, about_append]
    apply silence_append ?_ (hsilent id i peer hw)
    by_cases hgrant : ∃ j v, (id, j, v) ∈ grants seen
    · obtain ⟨j, v, hv⟩ := hgrant
      obtain ⟨rfl, rfl⟩ := hinv'.unique hw (mem_grants_append hv new)
      exact h.waiting id i peer hv (htasks ▸ hnone)
    · rw [about_ungranted hqueued fun j v hv => hgrant ⟨j, v, hv⟩]
      exact List.forall_mem_nil _
  · intro id c hc
    rw [decided_append, about_append]
    rw [htasks] at hc
    exact Tcp.placed_append (h.placed id c hc)
      (hsilent id c.listener c.peer (mem_grants_append (hinv.tasks id c hc) new))
  · intro i src q hq
    rw [decided_append, about_append, heardIn_append]
    rcases hpeers i src q hq with ⟨src', q', hq', hconn⟩ | hheard
    · exact List.append_ne_nil_of_left_ne_nil (hconn ▸ h.peers i src' q' hq') _
    · exact List.append_ne_nil_of_right_ne_nil _ hheard

omit [DecidableEq ι] in
/-- A step after which nothing new is heard or said. -/
theorem Spoken.quiet (h : Spoken net p seen acts) (hinv : Inv p seen) (hqueued : Queued p seen)
    (hinv' : Inv p' (seen ++ new)) (htasks : p'.tasks = p.tasks) (hudp : p'.udp = p.udp)
    (hsilent : Silence (decided new)) (a : Act ι Addr) :
    Spoken net p' (seen ++ new) (acts ++ [a]) := by
  have habout : ∀ id, Silence (about id (decided new)) :=
    fun id e he => hsilent e (mem_about.mp he).1
  apply h.extend hinv hqueued hinv' htasks a
  · exact fun id i w _ => heeds_quiet fun e he => (habout id e he).2
  · exact fun id i peer _ => habout id
  · exact fun i src q hq => .inl ⟨src, q, hudp ▸ hq, rfl⟩

/-- What a turn is about, its listener knows: the id is new, or that of a peer
that it has heard. -/
theorem Spoken.own (h : Spoken net p seen acts) (hinv : Inv p seen) (hqueued : Queued p seen)
    {i : ι} {out : Outcome (Udp.State Addr) Addr}
    (hinv' : Inv (p.turned i out) (seen ++ p.seenHandled i out))
    (hqueued' : Queued (p.turned i out) (seen ++ p.seenHandled i out)) {id : ℕ} {j : ι}
    {w : Owner Addr} (hw : (id, j, w) ∈ grants (seen ++ p.seenHandled i out))
    (hne : about id out.effects ≠ []) :
    j = i ∧
      (id = p.log.nextConn → about id (decided seen) = [] ∧ ∀ w', out.took = some w' → w = w') ∧
        ∀ src q, (p.udp i).peers.get src = some q → q.conn = id →
          w = .peer src ∧ heardIn (about id (decided seen)) ≠ [] := by
  have hself : (p.turned i out).pending (.loop i) = out.effects := Function.update_self _ _ _
  obtain ⟨e, he⟩ := List.exists_mem_of_ne_nil _ hne
  obtain ⟨he, hid⟩ := mem_about.mp he
  obtain ⟨k, v, hv, hhome⟩ := hqueued'.atHome (.loop i) id e (hself ▸ he) hid
  obtain rfl : k = i := by
    unfold home at hhome
    split at hhome
    · cases hhome
    · exact (Thread.loop.inj hhome).symm
  obtain ⟨rfl, rfl⟩ := hinv'.unique hw hv
  refine ⟨rfl, ?_, ?_⟩
  · rintro rfl
    refine ⟨about_decided_next hinv hqueued, fun w' htook => ?_⟩
    exact (hinv'.unique hw (granted_seenHandled htook)).2
  · rintro src q hq rfl
    exact ⟨(hinv'.unique hw (mem_grants_append (hinv.peers j src q hq) _)).2, h.peers j src q hq⟩

/-- A turn is about no connection that has been accepted. -/
theorem about_turned_connection (hinv : Inv p seen) {i : ι} {cfg : Udp.Config Addr}
    {input : Udp.Input Addr} {out : Outcome (Udp.State Addr) Addr}
    (hturn : Udp.Turn cfg p.log.nextConn (p.udp i) input out)
    (hinv' : Inv (p.turned i out) (seen ++ p.seenHandled i out)) {id : ℕ} {j : ι} {peer : Addr}
    (hw : (id, j, .connection peer) ∈ grants (seen ++ p.seenHandled i out)) :
    about id out.effects = [] := by
  apply about_eq_nil
  intro e he hid
  rcases Udp.conn_of_turn hturn he hid with ⟨rfl, w, htook, hw'⟩ | ⟨src, q, hq, rfl⟩ | hover
  · exact hw' peer (hinv'.unique (granted_seenHandled htook) hw).2
  · cases (hinv'.unique hw (mem_grants_append (hinv.peers i src q hq) _)).2
  · cases (hinv'.unique hw (mem_grants_append (hinv.overflow i id hover) _)).2

theorem Spoken.turned (h : Spoken net p seen acts) (hinv : Inv p seen) (hqueued : Queued p seen)
    {i : ι} {cfg : Udp.Config Addr} (hnet : net i = .udp cfg) {input : Udp.Input Addr}
    {out : Outcome (Udp.State Addr) Addr} (hturn : Udp.Turn cfg p.log.nextConn (p.udp i) input out)
    (hinv' : Inv (p.turned i out) (seen ++ p.seenHandled i out))
    (hqueued' : Queued (p.turned i out) (seen ++ p.seenHandled i out)) (a : Act ι Addr) :
    Spoken net (p.turned i out) (seen ++ p.seenHandled i out) (acts ++ [a]) := by
  apply h.extend hinv hqueued hinv' rfl a
  · intro id j w hw
    rw [decided_seenHandled]
    by_cases hquiet : about id out.effects = []
    · rw [hquiet]
      exact heeds_quiet (List.forall_mem_nil _)
    · obtain ⟨rfl, hnew, hknown⟩ := h.own hinv hqueued hinv' hqueued' hw hquiet
      rw [hnet]
      exact (Udp.heeds_turn hturn hnew hknown).imp False.elim
  · intro id j peer hw
    rw [decided_seenHandled, about_turned_connection hinv hturn hinv' hw]
    exact List.forall_mem_nil _
  · intro j src q hq
    by_cases hj : j = i
    · subst hj
      have hout : (p.turned j out).udp j = out.state := Function.update_self _ _ _
      rw [hout] at hq
      rw [decided_seenHandled]
      exact (Udp.heard_turn hturn hq).imp_right fun ⟨hconn, hheard⟩ => hconn ▸ hheard
    · have hother : (p.turned i out).udp j = p.udp j := Function.update_of_ne hj _ _
      exact .inl ⟨src, q, hother ▸ hq, rfl⟩

theorem Spoken.stepped (h : Spoken net p seen acts) (hinv : Inv p seen) (hqueued : Queued p seen)
    {conn : ℕ} {c : Connection ι Addr} (htask : p.tasks conn = some c) {cfg : Tcp.Config Addr}
    (hnet : net c.listener = .tcp cfg) {input : Tcp.Input} {out : Tcp.Stage × List (Effect Addr)}
    (hout : Tcp.handle cfg conn c.peer c.stage input = some out)
    (hinv' : Inv (p.stepped conn c out) (seen ++ [.handled (.task conn) out.2])) :
    Spoken net (p.stepped conn c out) (seen ++ [.handled (.task conn) out.2])
      (acts ++ [.step conn input]) := by
  obtain ⟨hheeds, hplaced⟩ := Tcp.heeds_handle (h.placed conn c htask) hout
  have hdecided : decided [(.handled (.task conn) out.2 : Seen ι Addr)] = out.2 :=
    List.append_nil _
  have habout := about_of_forall conn fun e he =>
    Tcp.conn_of_step (Tcp.step_cases cfg conn c.peer hout) he
  have hgrant := mem_grants_append (hinv.tasks conn c htask) [.handled (.task conn) out.2]
  have hother : ∀ id, id ≠ conn → (p.stepped conn c out).tasks id = p.tasks id :=
    fun id hid => Function.update_of_ne hid _ _
  have hself : (p.stepped conn c out).tasks conn = some { c with stage := out.1 } :=
    Function.update_self _ _ _
  have hsame : ∀ id, id ≠ conn →
      about id (decided (seen ++ [.handled (.task conn) out.2])) = about id (decided seen) := by
    intro id hid
    rw [decided_append, hdecided, about_append, habout, if_neg (Ne.symm hid), List.append_nil]
  refine ⟨h.heeds_step hqueued hinv' _ ?_, ?_, ?_, ?_⟩
  · intro id i w hw
    rw [hdecided, habout]
    split
    · next hid =>
        subst hid
        obtain ⟨rfl, rfl⟩ := hinv'.unique hw hgrant
        rw [hnet]
        exact hheeds.imp fun hfails => ⟨rfl, hfails⟩
    · exact heeds_quiet (List.forall_mem_nil _)
  · intro id i peer hw hnone
    by_cases hid : id = conn
    · subst hid
      cases hself.symm.trans hnone
    · rw [hsame id hid]
      rw [hother id hid] at hnone
      rw [grants_append] at hw
      exact h.waiting id i peer ((List.append_nil (grants seen)) ▸ hw) hnone
  · intro id d hd
    by_cases hid : id = conn
    · subst hid
      obtain rfl := Option.some.inj (hself.symm.trans hd)
      rw [decided_append, hdecided, about_append, habout, if_pos rfl]
      exact hplaced
    · rw [hsame id hid]
      exact h.placed id d ((hother id hid).symm.trans hd)
  · intro i src q hq
    rw [decided_append, about_append, heardIn_append]
    exact List.append_ne_nil_of_left_ne_nil (h.peers i src q hq) _

omit [DecidableEq ι] in
theorem Spoken.spawned (h : Spoken net p seen acts) {i : ι} {conn : ℕ} {peer : Addr}
    (hnone : p.tasks conn = none) (hgrant : (conn, i, .connection peer) ∈ grants seen) :
    Spoken net (p.spawn i conn peer) seen acts := by
  refine ⟨h.heeds, ?_, ?_, h.peers⟩
  · intro id j q hw hnone'
    apply h.waiting id j q hw
    by_cases hid : id = conn
    · exact hid ▸ hnone
    · exact (Function.update_of_ne hid _ _).symm.trans hnone'
  · intro id c hc
    by_cases hid : id = conn
    · subst hid
      have hself : (p.spawn i id peer).tasks id = some ⟨i, peer, .start⟩ :=
        Function.update_self _ _ _
      obtain rfl := Option.some.inj (hself.symm.trans hc)
      exact h.waiting id i peer hgrant hnone
    · exact h.placed id c ((Function.update_of_ne hid _ _).symm.trans hc)

theorem Spoken.step (h : Spoken net p seen acts) (hinv : Inv p seen) (hqueued : Queued p seen)
    {a : Act ι Addr} (hs : (lts net dp o).step p a = some (p', new)) :
    Spoken net p' (seen ++ new) (acts ++ [a]) := by
  have hmove := step_cases net dp o hs
  have hinv' := hinv.move hmove
  have hqueued' := hqueued.move hinv hmove
  cases a with
  | accept i peer orig =>
      obtain ⟨cfg, -, rfl, rfl⟩ := step_accept hs
      apply h.quiet hinv hqueued hinv' rfl rfl
      rw [decided_seenHandled]
      simp [Silence, Tcp.accept, heard, said]
  | acceptError i e =>
      obtain ⟨cfg, rfl, rfl⟩ := step_acceptError hs
      apply h.quiet hinv hqueued hinv' rfl rfl
      rw [decided_seenHandled]
      simp [Silence, Tcp.acceptError, heard, said]
  | turn i input =>
      obtain ⟨cfg, out, hnet, hturn, rfl, rfl⟩ := step_turn hs
      exact h.turned hinv hqueued hnet hturn hinv' hqueued' _
  | step conn input =>
      obtain ⟨c, cfg, out, htask, hnet, hout, rfl, rfl⟩ := step_step hs
      exact h.stepped hinv hqueued htask hnet hout hinv'
  | perform t e =>
      obtain ⟨eff, rest, hp, rfl, rfl⟩ := step_perform hs
      have hdrop : Spoken net (p.drop t rest) (seen ++ [.performed t eff])
          (acts ++ [.perform t e]) :=
        h.quiet hinv hqueued (hinv.drop hp) rfl rfl (List.forall_mem_nil _) _
      cases eff with
      | call c => exact ⟨hdrop.heeds, hdrop.waiting, hdrop.placed, hdrop.peers⟩
      | spawn conn peer =>
          obtain ⟨-, hnone, i, rfl, hgrant⟩ := hinv.spawns t [] conn peer rest hp
          exact hdrop.spawned hnone (mem_grants_append hgrant _)
      | _ => exact hdrop
  | flush e order =>
      obtain ⟨-, rfl, rfl⟩ := step_flush hs
      exact h.quiet hinv hqueued hinv' rfl rfl (List.forall_mem_nil _) _

theorem spoken_run {tr : List (List (Seen ι Addr))}
    (h : (lts net dp o).run (start net) acts = some (p, tr)) : Spoken net p tr.flatten acts := by
  apply (lts net dp o).run_induction (fun acts p tr => Spoken net p tr.flatten acts) ?_ ?_ h
  · refine ⟨?_, ?_, ?_, ?_⟩
    · intro id i w hw
      cases hw
    · intro id i peer hw
      cases hw
    · intro id c hc
      cases hc
    · intro i src q hq
      cases hq
  · intro as a rest u os v new _ hrun hu hs
    rw [List.flatten_append, List.flatten_singleton]
    exact hu.step (inv_run hrun) (queued_run hrun) hs

/-- What has been sent on a connection is due, by the profile as it is
written. -/
theorem due_of_run {source : ι → Option (Loader × Profile)}
    (hsource : ∀ i, Loads (source i) (net i).profile) {tr : List (List (Seen ι Addr))}
    (h : (lts net dp o).run (start net) acts = some (p, tr)) {id : ℕ} {i : ι} {w : Owner Addr}
    (hw : (id, i, w) ∈ grants tr.flatten) {before later : List (Effect Addr)} {dst : Addr}
    {conn : ℕ} {trigger : Trigger} {bytes : List UInt8}
    (heq : about id (happened tr.flatten) = before ++ .sent dst conn trigger bytes :: later) :
    (w = .connection dst ∨ w = .peer dst) ∧
      ∃ payload, (Profile.voice (source i)).Due (net i) before trigger payload ∧
        bytes <+: payload ∧ ((∀ a ∈ acts, ¬a.Fails id) → bytes = payload) := by
  have hvoice := voice_of_loads (hsource i)
  have hall := (spoken_run h).heeds id i w hw
  rw [← (queued_run h).order id i w hw] at hall
  have hhappened := (heeds_append.mp hall).1
  obtain ⟨hdst, payload, hdue, hprefix, hwhole⟩ :=
    hhappened before _ later heq dst conn trigger bytes rfl
  refine ⟨hdst, payload, hdue.imp hvoice.1 hvoice.2, hprefix, fun hfine => hwhole ?_⟩
  rintro ⟨a, ha, hfails⟩
  exact hfine a ha hfails

/-- In every run, what is sent on a connection is for its owner, and is what
the profile of the listener, as it is written, means for what has happened on
the connection before: the greeting if nothing was said yet, or the reply to
the last message if no rule has replied to it. A failed send may cut it
short. -/
theorem sent_as_meant (source : ι → Option (Loader × Profile))
    (hsource : ∀ i, Loads (source i) (net i).profile)
    (acts : List (Act ι Addr)) (p : Process ι Addr) (tr : List (List (Seen ι Addr)))
    (h : (lts net dp o).run (start net) acts = some (p, tr)) :
    (∀ e ∈ happened tr.flatten, e.said ≠ none →
      ∃ id i w, e.conn = some id ∧ (id, i, w) ∈ grants tr.flatten) ∧
    ∀ id i w, (id, i, w) ∈ grants tr.flatten →
      ∀ before dst conn trigger bytes later,
        about id (happened tr.flatten) = before ++ .sent dst conn trigger bytes :: later →
          (w = .connection dst ∨ w = .peer dst) ∧
            ∃ payload, (Profile.voice (source i)).Due (net i) before trigger payload ∧
              bytes <+: payload ∧ ((∀ a ∈ acts, ¬a.Fails id) → bytes = payload) := by
  constructor
  · intro e he hsaid
    cases e with
    | sent dst conn trigger bytes =>
        obtain ⟨i, w, hw⟩ := (queued_run h).named conn _ (.inl he) rfl
        exact ⟨conn, i, w, rfl, hw⟩
    | _ => exact absurd rfl hsaid
  · intro id i w hw before dst conn trigger bytes later heq
    exact due_of_run hsource h hw heq

/-- The profile behind the listener that sends everything back. -/
def echoSource : Unit → Option (Loader × Profile) := fun _ =>
  some (⟨"", fun _ => none, fun _ => none, fun _ => none⟩,
    ⟨"echo", none, [⟨some "all", { any := some true }, some { echo := true }⟩]⟩)

theorem loads_echo : ∀ u, Loads (echoSource u) (echoUdp u).profile :=
  fun _ => Option.rel_some_some.mpr rfl

theorem echoed_run :
    ∃ p tr before later,
      (lts echoUdp .bare (.rawOnly ⟨0, 0⟩ 0)).run (start echoUdp) echoed = some (p, tr) ∧
        grants tr.flatten = [(1, (), .peer 7)] ∧
        about 1 (happened tr.flatten) = before ++ .sent 7 1 (.rule "all") [1, 2] :: later :=
  ⟨_, _, [.call (.openConn .udp "u" 1 "l" "7" none), .call (.data .udp "u" 1 "7" .rx [1, 2] none)],
    [.call (.data .udp "u" 1 "7" .tx [1, 2] (some "all"))], rfl, rfl, rfl⟩

theorem not_fails_echoed : ∀ a ∈ echoed, ¬a.Fails 1 := by
  intro a ha
  simp only [echoed, List.mem_cons, List.not_mem_nil, or_false] at ha
  rcases ha with rfl | rfl | rfl | rfl | rfl | rfl <;> exact id

theorem sent_as_meant_echo :
    ∃ p tr before later, (lts echoUdp .bare (.rawOnly ⟨0, 0⟩ 0)).run (start echoUdp) echoed =
        some (p, tr) ∧
      about 1 (happened tr.flatten) = before ++ .sent 7 1 (.rule "all") [1, 2] :: later ∧
      (Profile.voice (echoSource ())).Due (echoUdp ()) before (.rule "all") [1, 2] := by
  obtain ⟨p, tr, before, later, hrun, hgrants, habout⟩ := echoed_run
  obtain ⟨-, payload, hdue, -, hwhole⟩ := (sent_as_meant echoSource loads_echo echoed p tr hrun).2
    1 () (.peer 7) (hgrants ▸ List.mem_cons_self) before 7 1 (.rule "all") [1, 2] later habout
  exact ⟨p, tr, before, later, hrun, habout, hwhole not_fails_echoed ▸ hdue⟩

end Process

end KirbLaSnoop
