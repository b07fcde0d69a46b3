import Mathlib
import KirbLaSnoop.Listener.ToDisk

/-!
# What a listener has sent

A reply is logged right after it was sent. So of the bytes that a listener
sends by itself at most one send is not in the log: the one that is under way,
or one that failed and ended its connection.
-/

namespace KirbLaSnoop

open Effect

namespace Effect

variable {Addr : Type*}

def sentFor (id : ℕ) : Effect Addr → List UInt8
  | .sent _ conn _ bytes => if conn = id then bytes else []
  | _ => []

/-- The bytes sent for a connection. -/
def sentTo (id : ℕ) (es : List (Effect Addr)) : List UInt8 := es.flatMap (sentFor id)

/-- The bytes that are sent but not yet logged. A send is logged before the
next one. -/
def pay (owed : List UInt8) : Effect Addr → Option (List UInt8)
  | .sent _ _ _ bytes => if owed = [] then some bytes else none
  | .call (.data _ _ _ _ .tx bytes _) => if bytes = owed then some [] else none
  | _ => some owed

def pays (owed : List UInt8) (es : List (Effect Addr)) : Option (List UInt8) := es.foldlM pay owed

@[simp] theorem pays_nil (owed : List UInt8) : pays owed ([] : List (Effect Addr)) = some owed :=
  rfl

@[simp] theorem pays_cons (owed : List UInt8) (e : Effect Addr) (es : List (Effect Addr)) :
    pays owed (e :: es) = (pay owed e).bind fun owed => pays owed es := rfl

theorem pays_append (owed : List UInt8) (es es' : List (Effect Addr)) :
    pays owed (es ++ es') = (pays owed es).bind fun owed => pays owed es' :=
  List.foldlM_append

theorem pays_extend {owed owed' owed'' : List UInt8} {es es' : List (Effect Addr)}
    (h : pays owed es = some owed') (h' : pays owed' es' = some owed'') :
    pays owed (es ++ es') = some owed'' := by
  rw [pays_append, h]
  exact h'

theorem pays_of_append {owed owed'' : List UInt8} {es es' : List (Effect Addr)}
    (h : pays owed (es ++ es') = some owed'') : ∃ owed', pays owed es = some owed' := by
  rw [pays_append, Option.bind_eq_some_iff] at h
  obtain ⟨owed', howed', -⟩ := h
  exact ⟨owed', howed'⟩

/-- Effects that neither send nor log a reply. -/
theorem pays_quiet {owed : List UInt8} {es : List (Effect Addr)}
    (h : ∀ e ∈ es, pay owed e = some owed) : pays owed es = some owed := by
  induction es with
  | nil => rfl
  | cons e es ih =>
      rw [pays_cons, h e List.mem_cons_self, Option.bind_some]
      exact ih fun e' he' => h e' (List.mem_cons_of_mem _ he')

theorem sentTo_append (id : ℕ) (es es' : List (Effect Addr)) :
    sentTo id (es ++ es') = sentTo id es ++ sentTo id es' :=
  List.flatMap_append

theorem sentTo_about (id : ℕ) (es : List (Effect Addr)) :
    sentTo id (about id es) = sentTo id es := by
  induction es with
  | nil => rfl
  | cons e es ih =>
      rw [about_cons, sentTo_append, ih]
      by_cases he : e.conn = some id
      · have hself : about id [e] = [e] := List.filter_cons_of_pos (decide_eq_true he)
        rw [hself]
        exact (sentTo_append id [e] es).symm
      · have hnone : about id [e] = [] :=
          about_eq_nil fun e' he' => List.mem_singleton.mp he' ▸ he
        have hquiet : sentFor id e = [] := by
          cases e with
          | sent dst conn trigger bytes => exact if_neg fun heq => he (congrArg some heq)
          | _ => rfl
        rw [hnone]
        exact (congrArg (· ++ sentTo id es) hquiet).symm

/-- What was sent is what was logged, and the last send if it is owed. -/
theorem sent_of_pays {id : ℕ} {es : List (Effect Addr)} (hes : ∀ e ∈ es, e.conn = some id)
    {owed : List UInt8} (h : pays [] es = some owed) :
    sentTo id es = logged (id, .tx) es ++ owed ∧
      (owed = [] ∨ ∃ dst trigger, .sent dst id trigger owed ∈ es) := by
  induction es using List.reverseRecOn generalizing owed with
  | nil =>
      obtain rfl := Option.some.inj h
      exact ⟨rfl, .inl rfl⟩
  | append_singleton es e ih =>
      rw [pays_append, Option.bind_eq_some_iff] at h
      obtain ⟨owed', howed', hlast⟩ := h
      rw [pays_cons, Option.bind_eq_some_iff] at hlast
      obtain ⟨owed'', hpay, hend⟩ := hlast
      obtain rfl := Option.some.inj hend
      have he := hes e (List.mem_append_right _ List.mem_cons_self)
      obtain ⟨hsent, hmem⟩ := ih (fun e he => hes e (List.mem_append_left _ he)) howed'
      rw [sentTo_append, logged_append, hsent]
      have hquiet : pay owed' e = some owed' → sentTo id [e] = [] → logged (id, .tx) [e] = [] →
          logged (id, .tx) es ++ owed' ++ sentTo id [e] =
              logged (id, .tx) es ++ logged (id, .tx) [e] ++ owed'' ∧
            (owed'' = [] ∨ ∃ dst trigger, .sent dst id trigger owed'' ∈ es ++ [e]) := by
        intro hkeep hnone hnone'
        obtain rfl := Option.some.inj (hkeep.symm.trans hpay)
        rw [hnone, hnone', List.append_nil, List.append_nil]
        refine ⟨rfl, hmem.imp_right ?_⟩
        rintro ⟨dst, trigger, hin⟩
        exact ⟨dst, trigger, List.mem_append_left _ hin⟩
      cases e with
      | sent dst conn trigger bytes =>
          obtain rfl : conn = id := Option.some.inj he
          obtain ⟨rfl, hbytes⟩ := Option.ite_none_right_eq_some.mp hpay
          obtain rfl := Option.some.inj hbytes
          refine ⟨?_, .inr ⟨dst, trigger, List.mem_append_right _ List.mem_cons_self⟩⟩
          simp [sentTo, sentFor, logged, loggedFor]
      | call c =>
          cases c with
          | data proto name conn peer dir bytes rule =>
              cases dir with
              | rx =>
                  apply hquiet rfl rfl
                  simp [logged, loggedFor, Call.bytesFor]
              | tx =>
                  obtain rfl : conn = id := Option.some.inj he
                  obtain ⟨rfl, hnone⟩ := Option.ite_none_right_eq_some.mp hpay
                  obtain rfl := Option.some.inj hnone
                  refine ⟨?_, .inl rfl⟩
                  simp [sentTo, sentFor, logged, loggedFor, Call.bytesFor]
          | _ => exact hquiet rfl rfl rfl
      | _ => exact hquiet rfl rfl rfl

theorem about_of_forall (conn : ℕ) {es : List (Effect Addr)} (h : ∀ e ∈ es, e.conn = some conn)
    (id : ℕ) : about id es = if conn = id then es else [] := by
  split
  · next heq => exact List.filter_eq_self.mpr fun e he => decide_eq_true (heq ▸ h e he)
  · next hne =>
      apply about_eq_nil
      intro e he hid
      exact hne (Option.some.inj ((h e he).symm.trans hid))

end Effect

/-! ## What one input makes a listener send -/

namespace Udp

variable {Addr : Type*} [DecidableEq Addr] {cfg : Config Addr}

omit [DecidableEq Addr] in
theorem pays_reply (dst : Addr) (a : Action) (received : List UInt8) (conn : ℕ)
    (trigger : Trigger) (outcome : Except String Unit) :
    pays [] (reply cfg dst a received conn trigger outcome) = some [] := by
  rcases reply_cases cfg dst a received conn trigger outcome with h | ⟨msg, h⟩ | ⟨payload, -, -, h⟩
  · rw [h, pays_nil]
  · rw [h]
    rfl
  · rw [h]
    simp [pay]

omit [DecidableEq Addr] in
theorem pays_greeting (src : Addr) (conn : ℕ) (data : List UInt8) (first : Bool)
    (outcome : Except String Unit) :
    pays [] (greeting cfg src conn data first outcome) = some [] := by
  unfold greeting
  split
  · rfl
  · split
    · exact pays_reply src _ data conn .onConnect outcome
    · rfl

omit [DecidableEq Addr] in
theorem pays_answer (src : Addr) (conn : ℕ) (data : List UInt8) (first : Bool)
    (outcome : Except String Unit) :
    pays [] (answer cfg src conn data first outcome) = some [] := by
  unfold answer
  split
  · exact pays_reply src _ data conn _ outcome
  · rfl

omit [DecidableEq Addr] in
theorem conn_of_said {src : Addr} {conn : ℕ} {trigger : Trigger} {e : Effect Addr}
    (h : Said cfg src conn trigger e) : e.conn = some conn := by
  cases h <;> rfl

/-- Whatever a turn sends it also logs. -/
theorem pays_turn {next : ℕ} {s : State Addr} {input : Input Addr}
    {out : Outcome (State Addr) Addr} (hturn : Turn cfg next s input out) (id : ℕ) :
    pays [] (about id out.effects) = some [] := by
  have hquiet : ∀ es : List (Effect Addr), (∀ e ∈ es, pay [] e = some []) →
      pays [] (about id es) = some [] :=
    fun es h => pays_quiet fun e he => h e (mem_about.mp he).1
  have hretired : ∀ now order, ∀ e ∈ retired cfg now s order, pay [] e = some [] := by
    intro now order e he
    obtain ⟨src, q, -, -, -, rfl⟩ := (mem_retired cfg).mp he
    rfl
  cases hturn with
  | overflowMore src data now banner rule conn hnew hfull hconn => exact hquiet _ (by simp [pay])
  | overflowOpen src data now banner rule msg hnew hfull hconn => exact hquiet _ (by simp [pay])
  | newPeer src data now banner rule hnew hroom =>
      rw [about_of_forall next]
      · split
        · exact pays_extend (pays_greeting src next data true banner)
            (pays_answer src next data true rule)
        · rfl
      · simp only [List.forall_mem_cons]
        refine ⟨rfl, rfl, ?_⟩
        intro e he
        obtain ⟨trigger, hsaid⟩ := said_of_mem_greeting_append_answer cfg he
        exact conn_of_said hsaid
  | known src data now banner rule peer hget =>
      rw [about_of_forall peer.conn]
      · split
        · exact pays_answer src peer.conn data false rule
        · rfl
      · simp only [List.forall_mem_cons]
        refine ⟨rfl, ?_⟩
        intro e he
        obtain ⟨name, hsaid⟩ := said_of_mem_answer cfg he
        exact conn_of_said hsaid
  | recvError e => exact hquiet _ (by simp [pay])
  | sweep now order => exact hquiet _ (hretired now order)
  | drained now order =>
      apply hquiet
      intro e he
      rcases List.mem_append.mp he with he | he
      · exact hretired now order e he
      · rw [List.mem_singleton.mp he]
        rfl

end Udp

namespace Tcp

variable {Addr : Type*} {cfg : Config Addr} {conn : ℕ} {peer : Addr}

/-- A write or a flush of the reply to this input has failed. -/
def Input.Fails : Input → Prop
  | .greet sending => sending ≠ .done
  | .read _ sending => sending ≠ .done
  | _ => False

variable (cfg conn peer) in
theorem pays_finish (owed : List UInt8) (outcome : Except String String) :
    pays owed (finish cfg conn peer outcome) = some owed := by
  cases outcome <;> rfl

variable (cfg conn peer) in
theorem pays_send (a : Action) (received : List UInt8) (trigger : Trigger) (sending : Sending) :
    ∃ owed, pays [] (send cfg conn peer a received trigger sending).1 = some owed ∧
      (owed = [] ∨ sending ≠ .done ∧
        ∃ e, (send cfg conn peer a received trigger sending).2 = .error e) := by
  unfold send
  split
  · exact ⟨[], rfl, .inl rfl⟩
  · split
    · exact ⟨[], rfl, .inl rfl⟩
    · have hhangup : pays []
          (if a.close then [.shutdown conn .tx] else [] : List (Effect Addr)) = some [] := by
        split <;> rfl
      dsimp only
      split
      · exact ⟨[], hhangup, .inl rfl⟩
      · split
        · refine ⟨[], ?_, .inl rfl⟩
          simp [pay, hhangup]
        · exact ⟨_, rfl, .inr ⟨nofun, _, rfl⟩⟩
        · exact ⟨_, rfl, .inr ⟨nofun, _, rfl⟩⟩

theorem pays_proceed (next : Stage) {sent : List (Effect Addr) × Except String Bool}
    {owed : List UInt8} (h : pays [] sent.1 = some owed) :
    pays [] (proceed cfg conn peer next sent).2 = some owed := by
  unfold proceed
  split
  · exact pays_extend h (pays_finish cfg conn peer owed _)
  · exact h
  · exact pays_extend h (pays_finish cfg conn peer owed _)

theorem pays_proceed_send (next : Stage) (a : Action) (received : List UInt8) (trigger : Trigger)
    (sending : Sending) :
    ∃ owed,
      pays [] (proceed cfg conn peer next
        (send cfg conn peer a received trigger sending)).2 = some owed ∧
      (owed = [] ∨ sending ≠ .done ∧
        (proceed cfg conn peer next (send cfg conn peer a received trigger sending)).1 =
          .ended) := by
  obtain ⟨owed, hpays, howed⟩ := pays_send cfg conn peer a received trigger sending
  refine ⟨owed, pays_proceed next hpays, howed.imp_right ?_⟩
  rintro ⟨hfail, e, he⟩
  refine ⟨hfail, ?_⟩
  unfold proceed
  rw [he]

/-- Whatever a served connection sends is also logged, but for a failed send,
which is its last. -/
theorem pays_handle (hserve : cfg.upstream = none) {stage : Stage} (hfits : stage.Fits cfg)
    {input : Input} {out : Stage × List (Effect Addr)}
    (h : handle cfg conn peer stage input = some out) :
    ∃ owed, pays [] out.2 = some owed ∧ (owed = [] ∨ input.Fails ∧ out.1 = .ended) := by
  cases step_cases cfg conn peer h with
  | greet sending _ =>
      unfold greet
      split
      · exact ⟨[], rfl, .inl rfl⟩
      · exact pays_proceed_send _ _ _ _ _
  | connect up res hforward => cases hserve.symm.trans hforward
  | read first res sending =>
      unfold read
      split
      · exact ⟨[], pays_finish cfg conn peer [] (.error _), .inl rfl⟩
      · exact ⟨[], pays_finish cfg conn peer [] (.ok _), .inl rfl⟩
      · dsimp only
        split
        · exact ⟨[], rfl, .inl rfl⟩
        · split
          · exact ⟨[], rfl, .inl rfl⟩
          · exact ⟨[], rfl, .inl rfl⟩
          · exact pays_proceed_send _ _ _ _ _
  | pumpRx rx tx _ out hpump => exact absurd hserve hfits
  | pumpTx rx tx _ out hpump => exact absurd hserve hfits

end Tcp

/-! ## The process -/

namespace Process

variable {ι Addr : Type*} [DecidableEq ι] [DecidableEq Addr] {net : ι → Listener Addr}
  {dp : Deps} {o : Options} {p p' : Process ι Addr} {seen new : List (Seen ι Addr)}

/-- A send of the connection has failed. -/
def Act.Fails (id : ℕ) : Act ι Addr → Prop
  | .step conn input => conn = id ∧ input.Fails
  | _ => False

/-- All that was decided to be sent for an id was decided to be logged, but
for the last send of a connection that a failed send has ended. -/
def Settled (p : Process ι Addr) (seen : List (Seen ι Addr)) (acts : List (Act ι Addr)) (id : ℕ) :
    Prop :=
  ∃ owed, pays [] (about id (decided seen)) = some owed ∧
    (owed = [] ∨ (∃ c, p.tasks id = some c ∧ c.stage = .ended) ∧ ∃ a ∈ acts, a.Fails id)

omit [DecidableEq ι] [DecidableEq Addr] in
theorem Settled.keep {acts : List (Act ι Addr)} {id : ℕ} (h : Settled p seen acts id)
    (htasks : ∀ c, p.tasks id = some c → p'.tasks id = some c)
    (hquiet : ∀ owed, (owed = [] ∨ ∃ c, p.tasks id = some c) →
      pays owed (about id (decided new)) = some owed) (a : Act ι Addr) :
    Settled p' (seen ++ new) (acts ++ [a]) id := by
  obtain ⟨owed, hpays, howed⟩ := h
  refine ⟨owed, ?_, ?_⟩
  · rw [decided_append, about_append]
    exact pays_extend hpays (hquiet owed (howed.imp_right fun ⟨⟨c, hc, _⟩, _⟩ => ⟨c, hc⟩))
  · apply howed.imp_right
    rintro ⟨⟨c, hc, hended⟩, b, hb, hfails⟩
    exact ⟨⟨c, htasks c hc, hended⟩, b, List.mem_append_left _ hb, hfails⟩

theorem Settled.step (hinv : Inv p seen) (hqueued : Queued p seen) (hfit : Fitting net p)
    {acts : List (Act ι Addr)} {id : ℕ} (h : Settled p seen acts id)
    {a : Act ι Addr} (hs : (lts net dp o).step p a = some (p', new))
    (hserves : ∀ i w, (id, i, w) ∈ grants (seen ++ new) → ¬(net i).Forwards) :
    Settled p' (seen ++ new) (acts ++ [a]) id := by
  have hmove := step_cases net dp o hs
  have hinv' := hinv.move hmove
  have hqueued' := hqueued.move hinv hmove
  cases a with
  | accept i peer orig =>
      obtain ⟨cfg, -, rfl, rfl⟩ := step_accept hs
      apply h.keep (fun _ hc => hc)
      intro owed _
      rw [decided_seenHandled]
      apply pays_quiet
      intro e he
      simp only [mem_about, Tcp.accept, List.mem_cons, List.not_mem_nil, or_false] at he
      rcases he.1 with rfl | rfl <;> rfl
  | acceptError i e =>
      obtain ⟨cfg, rfl, rfl⟩ := step_acceptError hs
      apply h.keep (fun _ hc => hc)
      intro owed _
      rw [decided_seenHandled]
      rfl
  | turn i input =>
      obtain ⟨cfg, out, -, hturn, rfl, rfl⟩ := step_turn hs
      apply h.keep (fun _ hc => hc)
      intro owed howed
      rw [decided_seenHandled]
      rcases howed with rfl | ⟨c, hc⟩
      · exact Udp.pays_turn hturn id
      · have hnone : about id out.effects = [] := by
          apply about_eq_nil
          intro e he hid
          have hself : (p.turned i out).pending (.loop i) = out.effects :=
            Function.update_self _ _ _
          obtain ⟨j, w, hw, hhome⟩ := hqueued'.atHome (.loop i) id e (hself ▸ he) hid
          have htask : (p.turned i out).tasks id = some c := hc
          rw [home_eq_task htask] at hhome
          cases hhome
        rw [hnone]
        rfl
  | step conn input =>
      obtain ⟨c, cfg, out, htask, hnet, hout, rfl, rfl⟩ := step_step hs
      have hstep := Tcp.step_cases cfg conn c.peer hout
      by_cases hid : conn = id
      · subst hid
        have hgrant := mem_grants_append (hinv.tasks conn c htask) [.handled (.task conn) out.2]
        have hserve : cfg.upstream = none := by
          have hno := hserves c.listener _ hgrant
          rw [hnet] at hno
          exact not_not.mp hno
        obtain ⟨owed, hpays, howed⟩ := h
        have hrunning := (Tcp.told_step cfg conn c.peer hstep).1
        obtain rfl : owed = [] := by
          rcases howed with rfl | ⟨⟨d, hd, hended⟩, -⟩
          · rfl
          · obtain rfl := Option.some.inj (htask.symm.trans hd)
            exact absurd hended hrunning
        obtain ⟨owed, hpays', howed'⟩ := Tcp.pays_handle hserve (hfit conn c cfg htask hnet) hout
        have hall : about conn out.2 = out.2 := by
          rw [about_of_forall conn fun e he => Tcp.conn_of_step hstep he, if_pos rfl]
        have hdecided : decided [(.handled (.task conn) out.2 : Seen ι Addr)] = out.2 :=
          List.append_nil _
        refine ⟨owed, ?_, ?_⟩
        · rw [decided_append, hdecided, about_append, hall]
          exact pays_extend hpays hpays'
        · apply howed'.imp_right
          rintro ⟨hfails, hended⟩
          exact ⟨⟨_, Function.update_self _ _ _, hended⟩, _,
            List.mem_append_right _ List.mem_cons_self, rfl, hfails⟩
      · have hsame : (p.stepped conn c out).tasks id = p.tasks id :=
          Function.update_of_ne (Ne.symm hid) _ _
        apply h.keep (fun _ hc => hsame.trans hc)
        intro owed _
        have hdecided : decided [(.handled (.task conn) out.2 : Seen ι Addr)] = out.2 :=
          List.append_nil _
        rw [hdecided, about_of_forall conn fun e he => Tcp.conn_of_step hstep he, if_neg hid]
        rfl
  | perform t e =>
      obtain ⟨eff, rest, hp, rfl, rfl⟩ := step_perform hs
      apply h.keep ?_ fun _ _ => rfl
      intro c hc
      cases eff with
      | spawn conn peer =>
          obtain ⟨-, hnone, i, rfl, -⟩ := hinv.spawns t [] conn peer rest hp
          have hne : id ≠ conn := by
            rintro rfl
            cases hnone.symm.trans hc
          exact (Function.update_of_ne hne _ _).trans hc
      | _ => exact hc
  | flush e order =>
      obtain ⟨-, rfl, rfl⟩ := step_flush hs
      exact h.keep (fun _ hc => hc) (fun _ _ => rfl) _

theorem settled_run {acts : List (Act ι Addr)} {tr : List (List (Seen ι Addr))}
    (h : (lts net dp o).run (start net) acts = some (p, tr)) {id : ℕ}
    (hserves : ∀ i w, (id, i, w) ∈ grants tr.flatten → ¬(net i).Forwards) :
    Settled p tr.flatten acts id := by
  have hall : (∀ i w, (id, i, w) ∈ grants tr.flatten → ¬(net i).Forwards) →
      Settled p tr.flatten acts id := by
    apply (lts net dp o).run_induction (fun acts p tr =>
      (∀ i w, (id, i, w) ∈ grants tr.flatten → ¬(net i).Forwards) →
        Settled p tr.flatten acts id) (fun _ => ⟨[], rfl, .inl rfl⟩) ?_ h
    intro as a rest u os v new _ hrun hu hs hserves
    rw [List.flatten_append, List.flatten_singleton] at hserves ⊢
    exact (hu fun i w hw => hserves i w (mem_grants_append hw new)).step (inv_run hrun)
      (queued_run hrun) (fitting_run hrun) hs hserves
  exact hall hserves

/-- In every run, what a listener has sent for a connection by itself is what
it has logged as sent, but for the send that comes last: that one is among the
effects that wait to be logged, or else has failed. The raw files are a capture
of what was logged, on disk up to what the buffer of an open stream holds. -/
theorem replies_to_disk (hraw : o.raw = true) (acts : List (Act ι Addr))
    (hgood : ∀ a ∈ acts, a.Good ∧ a.isFlush = false) (p : Process ι Addr)
    (tr : List (List (Seen ι Addr))) (h : (lts net dp o).run (start net) acts = some (p, tr))
    (id : ℕ) (i : ι) (w : Owner Addr) (hw : (id, i, w) ∈ grants tr.flatten)
    (hserves : ¬(net i).Forwards) (cap : ℕ) :
    (∃ owed, sentTo id (happened tr.flatten) = logged (id, .tx) (happened tr.flatten) ++ owed ∧
      (owed = [] ∨ ∃ dst trigger, .sent dst id trigger owed ∈ happened tr.flatten)) ∧
      ((∀ a ∈ acts, ¬a.Fails id) →
        sentTo id (happened tr.flatten) ++ sentTo id (p.pending (p.home id i)) =
          logged (id, .tx) (happened tr.flatten) ++ logged (id, .tx) (p.pending (p.home id i))) ∧
      Logger.Keeps o (id, .tx) (logged (id, .tx) (happened tr.flatten))
        (decide (.closed ∈ made id tr.flatten)) p.log ∧
      ∃ b, Buffered.Leaves dp o cap (callsMade net dp o acts) b ∧
        b.Lags cap (id, .tx) (decide (.closed ∈ made id tr.flatten)) p.log := by
  have hall : ∀ j v, (id, j, v) ∈ grants tr.flatten → ¬(net j).Forwards := by
    intro j v hv
    obtain ⟨rfl, -⟩ := (inv_run h).unique hw hv
    exact hserves
  obtain ⟨last, hlast, hsettled⟩ := settled_run h hall
  have horder := (queued_run h).order id i w hw
  have habout : ∀ es : List (Effect Addr), ∀ e ∈ about id es, e.conn = some id :=
    fun es e he => (mem_about.mp he).2
  refine ⟨?_, ?_, (kept_run hraw hgood h).2 (id, .tx), lags_run hraw hgood h cap (id, .tx)⟩
  · obtain ⟨owed, hpays⟩ := pays_of_append (horder ▸ hlast)
    obtain ⟨hsent, hmem⟩ := sent_of_pays (habout _) hpays
    rw [sentTo_about, logged_about (id, .tx)] at hsent
    refine ⟨owed, hsent, hmem.imp_right ?_⟩
    rintro ⟨dst, trigger, hin⟩
    exact ⟨dst, trigger, (mem_about.mp hin).1⟩
  · intro hfine
    obtain ⟨hsent, -⟩ := sent_of_pays (habout _) hlast
    have hnone : last = [] := by
      rcases hsettled with hnone | ⟨-, a, ha, hfails⟩
      · exact hnone
      · exact absurd hfails (hfine a ha)
    rw [hnone, List.append_nil, ← horder, sentTo_append, logged_append, sentTo_about, sentTo_about,
      logged_about (id, .tx), logged_about (id, .tx)] at hsent
    exact hsent

/-- A udp listener that sends everything back, and a datagram that it has
answered. -/
def echoUdp : Unit → Listener ℕ := fun _ =>
  .udp ⟨"u", "l", true, some ⟨"echo", none, [⟨"all", { any := some true },
    ⟨[], true, false, none⟩⟩]⟩, 1, 1, toString, id⟩

def echoed : List (Act Unit ℕ) :=
  [.perform (.loop ()) .quiet, .turn () (.datagram 7 [1, 2] 0 (.ok ()) (.ok ())),
    .perform (.loop ()) .quiet, .perform (.loop ()) .quiet, .perform (.loop ()) .quiet,
    .perform (.loop ()) .quiet]

theorem replies_to_disk_echo :
    ∃ p tr, (lts echoUdp .bare (.rawOnly ⟨0, 0⟩ 0)).run (start echoUdp) echoed = some (p, tr) ∧
      sentTo 1 (happened tr.flatten) = [1, 2] ∧ logged (1, .tx) (happened tr.flatten) = [1, 2] ∧
        Logger.Keeps (.rawOnly ⟨0, 0⟩ 0) (1, .tx) (logged (1, .tx) (happened tr.flatten)) false
          p.log := by
  have hrun : ∃ p tr, (lts echoUdp .bare (.rawOnly ⟨0, 0⟩ 0)).run (start echoUdp) echoed =
      some (p, tr) ∧ grants tr.flatten = [(1, (), .peer 7)] ∧ .closed ∉ made 1 tr.flatten ∧
        sentTo 1 (happened tr.flatten) = [1, 2] ∧ p.pending (p.home 1 ()) = [] :=
    ⟨_, _, rfl, rfl, by decide, rfl, rfl⟩
  obtain ⟨p, tr, hrun, hgrants, hopen, hsent, hidle⟩ := hrun
  have hgood : ∀ a ∈ echoed, a.Good ∧ a.isFlush = false := by
    intro a ha
    simp only [echoed, List.mem_cons, List.not_mem_nil, or_false] at ha
    rcases ha with rfl | rfl | rfl | rfl | rfl | rfl
    · exact ⟨Env.quiet_good, rfl⟩
    · exact ⟨trivial, rfl⟩
    all_goals exact ⟨Env.quiet_good, rfl⟩
  have hfine : ∀ a ∈ echoed, ¬a.Fails 1 := by
    intro a ha
    simp only [echoed, List.mem_cons, List.not_mem_nil, or_false] at ha
    rcases ha with rfl | rfl | rfl | rfl | rfl | rfl <;> exact id
  obtain ⟨-, hall, hkeeps, -⟩ := replies_to_disk rfl echoed hgood p tr hrun 1 () (.peer 7)
    (hgrants ▸ List.mem_cons_self) id 8192
  have heven := hall hfine
  have hnone : sentTo 1 (p.pending (p.home 1 ())) = [] := by rw [hidle]; rfl
  have hnone' : logged (1, .tx) (p.pending (p.home 1 ())) = [] := by rw [hidle]; rfl
  rw [hnone, hnone', List.append_nil, List.append_nil, hsent] at heven
  rw [decide_eq_false hopen] at hkeeps
  exact ⟨p, tr, hrun, hsent, heven.symm, hkeeps⟩

end Process

end KirbLaSnoop
