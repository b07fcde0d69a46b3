import Mathlib
import KirbLaSnoop.Lib.Response
import KirbLaSnoop.Listener.Spoken

/-!
# No message goes unanswered

What a process says is due; here is the converse. As long as no send fails,
whatever is due on a connection is sent, and before anything else is heard
there.
-/

namespace KirbLaSnoop

open Effect

section Duty

variable {Addr : Type*} {V : Voice} {l : Listener Addr} {before : List (Effect Addr)}
  {trigger : Trigger} {payload : List UInt8}

/-- What is due after more has happened, but nothing was heard, was due before. -/
theorem Voice.Due.of_append {q : List (Effect Addr)} (hq : ∀ e ∈ q, ¬e.heard ≠ none)
    (h : V.Due l (before ++ q) trigger payload) :
    V.Due l before trigger payload ∧ ∀ e ∈ q, e.said ≠ some trigger := by
  have hunheard : ∀ e ∈ q, e.heard = none := fun e he => not_not.mp (hq e he)
  cases h with
  | greeting a received _ ha hquiet hfirst hbuild =>
      rw [heardIn_append, heardIn_eq_nil hunheard, List.append_nil] at hfirst
      obtain ⟨hbefore, hsaid⟩ := List.forall_mem_append.mp hquiet
      refine ⟨.greeting a received payload ha hbefore hfirst hbuild, fun e he => ?_⟩
      rw [hsaid e he]
      exact (Option.some_ne_none _).symm
  | answer name a front since e data _ hbefore hheard hsince ha hbuild =>
      have hnot : e ∉ q := fun he => Option.some_ne_none data (hheard.symm.trans (hunheard e he))
      rcases List.append_eq_append_iff.mp hbefore with ⟨rest, rfl, rfl⟩ | ⟨rest, rfl, hrest⟩
      · exact absurd (List.mem_append_right _ List.mem_cons_self) hnot
      · rcases List.cons_eq_append_iff.mp hrest with ⟨rfl, rfl⟩ | ⟨rest, rfl, rfl⟩
        · exact absurd List.mem_cons_self hnot
        · obtain ⟨hrest, hlater⟩ := List.forall_mem_append.mp hsince
          exact ⟨.answer name a front rest e data payload rfl hheard hrest ha hbuild,
            fun e he => (hlater e he).2 name⟩

/-- To send what is due before the next message is heard. -/
def Voice.duty (V : Voice) (l : Listener Addr) :
    Obligation (Effect Addr) (Trigger × List UInt8) where
  Stirs e := e.heard ≠ none
  Serves r e := ∃ dst conn, e = .sent dst conn r.1 r.2
  Due before r := V.Due l before r.1 r.2 ∧ r.2 ≠ []
  of_append := by
    rintro before q r hq ⟨hdue, hne⟩
    obtain ⟨hold, hsaid⟩ := hdue.of_append hq
    refine ⟨⟨hold, hne⟩, ?_⟩
    rintro _ he ⟨dst, conn, rfl⟩
    exact hsaid _ he rfl

theorem quiet_stirs {es : List (Effect Addr)} (h : ∀ e ∈ es, e.heard = none) :
    ∀ e ∈ es, ¬(V.duty l).Stirs e := fun e he => not_not.mpr (h e he)

/-- Right after a message, a greeting or the answer to the message may be due. -/
theorem due_heard {e : Effect Addr} {data : List UInt8} (hheard : e.heard = some data)
    (h : V.Due l (before ++ [e]) trigger payload) :
    (trigger = .onConnect ∧ ∃ a received, V.greets a ∧
      l.greeted (heardIn before ++ [data]) = some received ∧
        a.build l.reply received = some payload) ∨
      ∃ name a, trigger = .rule name ∧ V.answers data (heardIn before).isEmpty name a ∧
        a.build l.reply data = some payload := by
  cases h with
  | greeting a received _ ha hquiet hfirst hbuild =>
      have hlast : heardIn [e] = [data] := List.filterMap_cons_some hheard
      rw [heardIn_append, hlast] at hfirst
      exact .inl ⟨rfl, a, received, ha, hfirst, hbuild⟩
  | answer name a front since e' data' _ hbefore hheard' hsince ha hbuild =>
      rcases List.eq_nil_or_concat since with rfl | ⟨since, last, rfl⟩
      · obtain ⟨rfl, heq⟩ := List.append_inj' hbefore rfl
        obtain rfl := List.singleton_inj.mp heq
        obtain rfl := Option.some.inj (hheard.symm.trans hheard')
        exact .inr ⟨name, a, rfl, ha, hbuild⟩
      · rw [List.concat_eq_append, ← List.cons_append, ← List.append_assoc] at hbefore
        obtain ⟨-, heq⟩ := List.append_inj' hbefore rfl
        obtain rfl := List.singleton_inj.mp heq
        have hlast := (hsince e (by simp)).1
        rw [hheard] at hlast
        cases hlast

/-- On a connection that has been silent only a greeting can be due, and it is
due all the time. -/
theorem due_silent (h : Silence before) (hdue : V.Due l before trigger payload) :
    trigger = .onConnect ∧ ∃ a received, V.greets a ∧ l.greeted [] = some received ∧
      a.build l.reply received = some payload := by
  have hunheard : heardIn before = [] := heardIn_eq_nil fun e he => (h e he).1
  cases hdue with
  | greeting a received _ ha hquiet hfirst hbuild =>
      exact ⟨rfl, a, received, ha, hunheard ▸ hfirst, hbuild⟩
  | answer name a front since e data _ hbefore hheard hsince ha hbuild =>
      have hnone := (h e (hbefore ▸ List.mem_append_right _ List.mem_cons_self)).1
      rw [hheard] at hnone
      cases hnone

theorem due_of_silent {more : List (Effect Addr)} (h : Silence (before ++ more))
    (hdue : V.Due l before trigger payload) : V.Due l (before ++ more) trigger payload := by
  obtain ⟨hbefore, hmore⟩ := List.forall_mem_append.mp h
  obtain ⟨rfl, a, received, ha, hfirst, hbuild⟩ := due_silent hbefore hdue
  refine .greeting a received payload ha (fun e he => (h e he).2) ?_ hbuild
  rw [heardIn_eq_nil fun e he => (h e he).1]
  exact hfirst

theorem build_of_isSilent {a : Action} (h : a.isSilent = true)
    (reply : List UInt8 → Dns.Answer → Option (List UInt8)) (received : List UInt8) :
    a.build reply received = some [] := by
  simp only [Action.isSilent, Bool.and_eq_true, Bool.not_eq_true', Option.isNone_iff_eq_none,
    List.isEmpty_iff] at h
  obtain ⟨⟨hpayload, hecho⟩, hdns⟩ := h
  simp [Action.build, hecho, hdns, hpayload]

theorem not_isSilent {a : Action} {reply : List UInt8 → Dns.Answer → Option (List UInt8)}
    {received : List UInt8} (hbuild : a.build reply received = some payload)
    (hne : payload ≠ []) : a.isSilent ≠ true := by
  intro hsilent
  rw [build_of_isSilent hsilent, Option.some.injEq] at hbuild
  exact hne hbuild.symm

/-- A profile without torn patterns is greeted and answered with all it means. -/
theorem voice_of_meaning {source : Option (Loader × Profile)} (h : Loads source l.profile)
    (hwhole : ∀ L p, source = some (L, p) → ∀ r ∈ p.rules, r.matcher.HexWhole) :
    (∀ a, (Profile.voice source).greets a → l.voice.greets a) ∧
      ∀ data first name a, (Profile.voice source).answers data first name a →
        l.voice.answers data first name a := by
  have hloaded {L : Loader} {p : Profile} (hsource : source = some (L, p)) :
      ∃ c, l.profile = some c ∧ load L p = .ok c := by
    rw [hsource] at h
    cases hprofile : l.profile with
    | none =>
        rw [hprofile] at h
        cases h
    | some c =>
        rw [hprofile] at h
        cases h with
        | some hload => exact ⟨c, rfl, hload⟩
  constructor
  · rintro a ⟨L, p, r, hsource, hr, hmeans⟩
    obtain ⟨c, hc, hload⟩ := hloaded hsource
    have hgreeting := (load_keeps hload).1
    rw [hr] at hgreeting
    cases ha : c.onConnect with
    | none =>
        rw [ha] at hgreeting
        cases hgreeting
    | some a' =>
        rw [ha] at hgreeting
        have hmeans' := Option.rel_some_some.mp hgreeting
        rw [← compileRespond_eq_ok_iff] at hmeans hmeans'
        obtain rfl := Except.ok.inj (hmeans'.symm.trans hmeans)
        exact ⟨c, hc, ha⟩
  · rintro data first name a ⟨L, p, i, r, hsource, hrule⟩
    obtain ⟨c, hc, hload⟩ := hloaded hsource
    obtain ⟨found, hfound⟩ := eval_load hload (hwhole L p hsource) data first
    obtain rfl := (eval_eq_ok_iff hload hfound name a).mpr ⟨i, r, hrule⟩
    exact ⟨c, hc, hfound⟩

end Duty

/-! ## Tcp -/

namespace Tcp

variable {Addr : Type*} {cfg : Config Addr} {conn : ℕ} {peer : Addr} {V : Voice}
  {before : List (Effect Addr)}

theorem follows_send {a : Action} {received payload : List UInt8} (trigger : Trigger)
    (hbuild : a.build Dns.replyTcp received = some payload) (hne : payload ≠ []) :
    (V.duty (.tcp cfg)).Follows (trigger, payload)
      (send cfg conn peer a received trigger .done).1 := by
  have hempty : payload.isEmpty = false := List.isEmpty_eq_false_iff.mpr hne
  unfold send
  rw [if_neg (not_isSilent hbuild hne), hbuild]
  dsimp only
  rw [hempty]
  have hserves : (V.duty (.tcp cfg)).Serves (trigger, payload)
      (.sent peer conn trigger payload) := ⟨peer, conn, rfl⟩
  exact Obligation.follows_cons hserves _

theorem follows_proceed {r : Trigger × List UInt8} (next : Stage)
    {sent : List (Effect Addr) × Except String Bool}
    (h : (V.duty (.tcp cfg)).Follows r sent.1) :
    (V.duty (.tcp cfg)).Follows r (proceed cfg conn peer next sent).2 := by
  unfold proceed
  split
  · exact h.append _
  · exact h
  · exact h.append _

/-- Where a task is, and what that tells of its connection: it is served
promptly once it is greeted, unless it is forwarded. -/
def Attends (V : Voice) (l : Listener Addr) (es : List (Effect Addr)) : Stage → Prop
  | .start => Silence es
  | .reading first => (V.duty l).Prompt es ∧ first = (heardIn es).isEmpty
  | .splicing _ _ => heardIn es = []
  | .ended => heardIn es = [] ∨ (V.duty l).Prompt es
  | .crashed => (V.duty l).Prompt es

theorem attends_proceed {l : Listener Addr} {es : List (Effect Addr)} {first : Bool}
    (hprompt : (V.duty l).Prompt es) (hfirst : first = (heardIn es).isEmpty)
    (sent : List (Effect Addr) × Except String Bool) :
    Attends V l es (proceed cfg conn peer (.reading first) sent).1 := by
  unfold proceed
  split
  · exact .inr hprompt
  · exact ⟨hprompt, hfirst⟩
  · exact .inr hprompt

theorem attends_quiet {l : Listener Addr} {es es' : List (Effect Addr)} {stage : Stage}
    (h : Attends V l es stage) (hsilent : Silence es') : Attends V l (es ++ es') stage := by
  have hunheard : ∀ e ∈ es', e.heard = none := fun e he => (hsilent e he).1
  have hheard : heardIn (es ++ es') = heardIn es := by
    rw [heardIn_append, heardIn_eq_nil hunheard, List.append_nil]
  cases stage with
  | start => exact silence_append h hsilent
  | reading first => exact ⟨h.1.quiet (quiet_stirs hunheard), hheard ▸ h.2⟩
  | splicing rx tx => exact hheard.trans h
  | ended => exact h.imp hheard.trans fun hprompt => hprompt.quiet (quiet_stirs hunheard)
  | crashed => exact Obligation.Prompt.quiet h (quiet_stirs hunheard)

theorem attends_greet (h : Silence before) :
    Attends (Listener.voice (.tcp cfg)) (.tcp cfg) (before ++ (greet cfg conn peer .done).2)
      (greet cfg conn peer .done).1 := by
  have hunheard : heardIn before = [] := heardIn_eq_nil fun e he => (h e he).1
  have hprompt {es : List (Effect Addr)} (hes : ∀ e ∈ es, e.heard = none)
      (hfollows : ∀ a payload, Listener.voice (.tcp cfg) |>.greets a →
        a.build Dns.replyTcp [] = some payload → payload ≠ [] →
          ((Listener.voice (.tcp cfg)).duty (.tcp cfg)).Follows (.onConnect, payload) es) :
      ((Listener.voice (.tcp cfg)).duty (.tcp cfg)).Prompt (before ++ es) := by
    apply Obligation.prompt_of_quiet (quiet_stirs fun e he => (h e he).1) (quiet_stirs hes)
    · rintro front ⟨more, rfl⟩ r ⟨hdue, hne⟩
      exact ⟨due_of_silent h hdue, hne⟩
    · rintro ⟨trigger, payload⟩ ⟨hdue, hne⟩
      obtain ⟨rfl, a, received, ha, hfirst, hbuild⟩ := due_silent h hdue
      obtain rfl := Option.some.inj hfirst
      exact hfollows a payload ha hbuild hne
  have hheard {es : List (Effect Addr)} (hes : ∀ e ∈ es, e.heard = none) :
      true = (heardIn (before ++ es)).isEmpty := by
    rw [heardIn_append, hunheard, heardIn_eq_nil hes]
    rfl
  unfold greet
  split
  · next hnone =>
      have hnil := List.forall_mem_nil fun e : Effect Addr => e.heard = none
      refine ⟨hprompt hnil ?_, hheard hnil⟩
      rintro a payload ⟨c, hc, honConnect⟩
      rw [Listener.profile] at hc
      rw [hc, Option.bind_some, honConnect] at hnone
      cases hnone
  · next a ha =>
      have hsend := heard_proceed cfg conn peer (.reading true)
        (heard_send cfg conn peer a [] .onConnect .done)
      refine attends_proceed (hprompt hsend ?_) (hheard hsend) _
      rintro a' payload ⟨c, hc, honConnect⟩ hbuild hne
      rw [Listener.profile] at hc
      rw [hc, Option.bind_some, honConnect] at ha
      obtain rfl := Option.some.inj ha
      exact follows_proceed _ (follows_send .onConnect hbuild hne)

variable (conn peer) in
/-- A message is read and what is due by it is sent. -/
theorem prompt_read (h : ((Listener.voice (.tcp cfg)).duty (.tcp cfg)).Prompt before)
    (data : List UInt8) {es : List (Effect Addr)} (hes : ∀ e ∈ es, e.heard = none)
    (hfollows : ∀ name a payload,
      (Listener.voice (.tcp cfg)).answers data (heardIn before).isEmpty name a →
        a.build Dns.replyTcp data = some payload → payload ≠ [] →
          ((Listener.voice (.tcp cfg)).duty (.tcp cfg)).Follows (.rule name, payload) es) :
    ((Listener.voice (.tcp cfg)).duty (.tcp cfg)).Prompt
      (before ++ .call (.data .tcp cfg.name conn (cfg.display peer) .rx data none) :: es) := by
  apply h.stir (quiet_stirs hes)
  rintro ⟨trigger, payload⟩ ⟨hdue, hne⟩
  rcases due_heard rfl hdue with ⟨rfl, a, received, -, hfirst, -⟩ | ⟨name, a, rfl, ha, hbuild⟩
  · simp [Listener.greeted] at hfirst
  · exact hfollows name a payload ha hbuild hne

theorem attends_read {first : Bool}
    (h : Attends (Listener.voice (.tcp cfg)) (.tcp cfg) before (.reading first))
    (res : Except String (List UInt8)) :
    Attends (Listener.voice (.tcp cfg)) (.tcp cfg)
      (before ++ (read cfg conn peer first res .done).2)
        (read cfg conn peer first res .done).1 := by
  obtain ⟨hprompt, hfirst⟩ := h
  unfold read
  split
  · exact .inr (hprompt.quiet (quiet_stirs (heard_finish cfg conn peer (.error _))))
  · exact .inr (hprompt.quiet (quiet_stirs (heard_finish cfg conn peer (.ok _))))
  · next data _ =>
      have hlater (es : List (Effect Addr)) : false = (heardIn (before ++
          .call (.data .tcp cfg.name conn (cfg.display peer) .rx data none) :: es)).isEmpty := by
        rw [heardIn_append]
        simp [heardIn, heard]
      have hunanswered (hno : ∀ name a,
          ¬(Listener.voice (.tcp cfg)).answers data (heardIn before).isEmpty name a) :=
        prompt_read conn peer hprompt data (List.forall_mem_nil _)
          fun name a _ ha => absurd ha (hno name a)
      dsimp only
      split
      · next hnone =>
          refine ⟨hunanswered ?_, hlater []⟩
          rintro name a ⟨c, hc, -⟩
          cases hnone.symm.trans hc
      · next c hc =>
          have heval {name : String} {a : Action}
              (ha : (Listener.voice (.tcp cfg)).answers data (heardIn before).isEmpty name a) :
              c.eval data first = .ok (some (name, a)) := by
            obtain ⟨c', hc', ha⟩ := ha
            obtain rfl := Option.some.inj (hc.symm.trans hc')
            rwa [hfirst]
          split
          · next herror =>
              refine hunanswered fun name a ha => ?_
              cases herror.symm.trans (heval ha)
          · next hnone =>
              refine ⟨hunanswered fun name a ha => ?_, hlater []⟩
              cases hnone.symm.trans (heval ha)
          · next name a hsome =>
              have hsend := heard_proceed cfg conn peer
                (.reading false) (heard_send cfg conn peer a data (.rule name) .done)
              refine attends_proceed (prompt_read conn peer hprompt data hsend ?_) (hlater _) _
              intro name' a' payload ha hbuild hne
              obtain ⟨rfl, rfl⟩ : name = name' ∧ a = a' := by
                simpa using hsome.symm.trans (heval ha)
              exact follows_proceed _ (follows_send (.rule name) hbuild hne)

theorem heard_pump {dir : Dir} {state : Pump} {input : Input} {out : Pump × List (Effect Addr)}
    (h : pump cfg conn peer dir state input = some out) : ∀ e ∈ out.2, e.heard = none := by
  unfold pump at h
  split at h
  · obtain rfl := Option.some.inj h
    unfold pumpRead
    split <;> simp [heard]
  · unfold pumpWrite at h
    split at h
    · obtain rfl := Option.some.inj h
      simp [heard]
    · split_ifs at h
      · obtain rfl := Option.some.inj h
        simp [heard]
      · obtain rfl := Option.some.inj h
        simp [heard]
  · cases h

theorem attends_join {l : Listener Addr} (h : heardIn before = []) (rx tx : Pump)
    {es : List (Effect Addr)} (hes : ∀ e ∈ es, e.heard = none) :
    Attends V l (before ++ (join cfg conn peer rx tx es).2) (join cfg conn peer rx tx es).1 := by
  have hunheard {es : List (Effect Addr)} (hes : ∀ e ∈ es, e.heard = none) :
      heardIn (before ++ es) = [] := by
    rw [heardIn_append, h, heardIn_eq_nil hes]
    rfl
  unfold join
  split
  · exact .inl (hunheard (List.forall_mem_append.mpr ⟨hes, heard_finish cfg conn peer _⟩))
  · exact hunheard hes

/-- A task that has not failed to send serves its connection promptly. -/
theorem attends_handle {stage : Stage} {input : Input}
    (h : Attends (Listener.voice (.tcp cfg)) (.tcp cfg) before stage) (hfine : ¬input.Fails)
    {out : Stage × List (Effect Addr)} (hout : handle cfg conn peer stage input = some out) :
    Attends (Listener.voice (.tcp cfg)) (.tcp cfg) (before ++ out.2) out.1 := by
  cases step_cases cfg conn peer hout with
  | greet sending hserve =>
      obtain rfl : sending = .done := not_not.mp hfine
      exact attends_greet h
  | connect up res hforward =>
      have hunheard : heardIn before = [] := heardIn_eq_nil fun e he => (h e he).1
      cases res with
      | ok u => exact (List.append_nil before).symm ▸ hunheard
      | error e =>
          refine .inl ?_
          rw [heardIn_append, hunheard, heardIn_eq_nil]
          · rfl
          · exact List.forall_mem_cons.mpr ⟨rfl, heard_finish cfg conn peer _⟩
  | read first res sending =>
      obtain rfl : sending = .done := not_not.mp hfine
      exact attends_read h res
  | pumpRx rx tx _ out hpump => exact attends_join h out.1 tx (heard_pump hpump)
  | pumpTx rx tx _ out hpump => exact attends_join h rx out.1 (heard_pump hpump)

end Tcp

/-! ## Udp -/

namespace Udp

variable {Addr : Type*} {cfg : Config Addr} {V : Voice} {before : List (Effect Addr)}

theorem follows_reply {src : Addr} {a : Action} {received payload : List UInt8} (conn : ℕ)
    (trigger : Trigger) (hbuild : a.build Dns.reply received = some payload)
    (hne : payload ≠ []) :
    (V.duty (.udp cfg)).Follows (trigger, payload)
      (reply cfg src a received conn trigger (.ok ())) := by
  have hempty : payload.isEmpty = false := List.isEmpty_eq_false_iff.mpr hne
  have hserves : (V.duty (.udp cfg)).Serves (trigger, payload)
      (.sent src conn trigger payload) := ⟨src, conn, rfl⟩
  unfold reply
  rw [if_neg (not_isSilent hbuild hne), hbuild]
  dsimp only
  rw [hempty]
  exact Obligation.follows_cons hserves _

theorem follows_greeting {src : Addr} {conn : ℕ} {data payload : List UInt8} {a : Action}
    (ha : (Listener.voice (.udp cfg)).greets a) (hbuild : a.build Dns.reply data = some payload)
    (hne : payload ≠ []) :
    (V.duty (.udp cfg)).Follows (.onConnect, payload)
      (greeting cfg src conn data true (.ok ())) := by
  obtain ⟨c, hc, honConnect⟩ := ha
  rw [Listener.profile] at hc
  unfold greeting
  rw [hc, Option.bind_some, honConnect]
  exact follows_reply conn .onConnect hbuild hne

theorem follows_answer {src : Addr} {conn : ℕ} {data payload : List UInt8} {first : Bool}
    {name : String} {a : Action} (ha : (Listener.voice (.udp cfg)).answers data first name a)
    (hbuild : a.build Dns.reply data = some payload) (hne : payload ≠ []) :
    (V.duty (.udp cfg)).Follows (.rule name, payload)
      (answer cfg src conn data first (.ok ())) := by
  obtain ⟨c, hc, heval⟩ := ha
  rw [Listener.profile] at hc
  have hruling : ruling cfg data first = .ok (some (name, a)) := by
    unfold ruling
    rw [hc]
    exact heval
  unfold answer
  rw [hruling]
  exact follows_reply conn (.rule name) hbuild hne

theorem heard_answer {src : Addr} {conn : ℕ} {data : List UInt8} {first : Bool}
    {outcome : Except String Unit} :
    ∀ e ∈ answer cfg src conn data first outcome, e.heard = none := by
  intro e he
  obtain ⟨name, hsaid⟩ := said_of_mem_answer cfg he
  cases hsaid <;> rfl

/-- The first datagram of a peer is greeted and answered. -/
theorem prompt_first {src : Addr} (conn : ℕ) (data : List UInt8) :
    ((Listener.voice (.udp cfg)).duty (.udp cfg)).Prompt
      ([.call (.openConn .udp cfg.name conn cfg.localAddr (cfg.display src) none)] ++
        .call (.data .udp cfg.name conn (cfg.display src) .rx data none) ::
          (greeting cfg src conn data true (.ok ()) ++
            answer cfg src conn data true (.ok ()))) := by
  have hgreeting : ∀ e ∈ greeting cfg src conn data true (.ok ()), e.heard = none :=
    fun e he => (since_greeting e he).1
  apply Obligation.Prompt.stir
  · apply Obligation.prompt_of_forall
    rintro before hbefore ⟨trigger, payload⟩ ⟨hdue, -⟩
    have hsilent : Silence before := by
      intro e he
      rw [List.mem_singleton.mp (hbefore.subset he)]
      exact ⟨rfl, rfl⟩
    obtain ⟨-, a, received, -, hfirst, -⟩ := due_silent hsilent hdue
    cases hfirst
  · exact quiet_stirs (List.forall_mem_append.mpr ⟨hgreeting, heard_answer⟩)
  · rintro ⟨trigger, payload⟩ ⟨hdue, hne⟩
    rcases due_heard rfl hdue with
      ⟨rfl, a, received, ha, hfirst, hbuild⟩ | ⟨name, a, rfl, ha, hbuild⟩
    · obtain rfl := Option.some.inj hfirst
      exact (follows_greeting ha hbuild hne).append _
    · exact (follows_answer ha hbuild hne).after (quiet_stirs hgreeting)

/-- A later one is answered. -/
theorem prompt_known {src : Addr} {conn : ℕ} (data : List UInt8)
    (h : ((Listener.voice (.udp cfg)).duty (.udp cfg)).Prompt before)
    (hheard : heardIn before ≠ []) :
    ((Listener.voice (.udp cfg)).duty (.udp cfg)).Prompt
      (before ++ .call (.data .udp cfg.name conn (cfg.display src) .rx data none) ::
        answer cfg src conn data false (.ok ())) := by
  apply h.stir (quiet_stirs heard_answer)
  rintro ⟨trigger, payload⟩ ⟨hdue, hne⟩
  rcases due_heard rfl hdue with ⟨rfl, a, received, -, hfirst, -⟩ | ⟨name, a, rfl, ha, hbuild⟩
  · obtain ⟨d, ds, hds⟩ := List.exists_cons_of_ne_nil hheard
    rw [hds] at hfirst
    cases ds <;> cases hfirst
  · rw [List.isEmpty_eq_false_iff.mpr hheard] at ha
    exact follows_answer ha hbuild hne

variable [DecidableEq Addr] {next : ℕ} {s : State Addr} {input : Input Addr}
  {out : Outcome (State Addr) Addr}

/-- Both replies to this datagram of the source are delivered. -/
def Input.DeliversTo (peer : Addr) (input : Input Addr) : Prop :=
  ∀ data now banner rule, input = .datagram peer data now banner rule →
    banner = .ok () ∧ rule = .ok ()

theorem prompt_took (hturn : Turn cfg next s input out) {peer : Addr}
    (htook : out.took = some (.peer peer)) (hfine : input.DeliversTo peer) :
    ((Listener.voice (.udp cfg)).duty (.udp cfg)).Prompt (about next out.effects) := by
  cases hturn with
  | newPeer src data now banner rule hnew hroom =>
      obtain rfl := Owner.peer.inj (Option.some.inj htook)
      obtain ⟨rfl, rfl⟩ := hfine data now banner rule rfl
      rw [about_of_forall next (conn_newPeer next src data (.ok ()) (.ok ())), if_pos rfl]
      exact prompt_first next data
  | _ => cases htook

theorem prompt_turn (peer : Addr) (hturn : Turn cfg next s input out) {id : ℕ}
    (h : ((Listener.voice (.udp cfg)).duty (.udp cfg)).Prompt before) (hold : id ≠ next)
    (hover : s.overflowConn ≠ some id)
    (hknown : ∀ src q, s.peers.get src = some q → q.conn = id →
      src = peer ∧ heardIn before ≠ [])
    (hfine : input.DeliversTo peer) :
    ((Listener.voice (.udp cfg)).duty (.udp cfg)).Prompt (before ++ about id out.effects) := by
  rcases turn_said hturn id with hsilent | ⟨-, hconn | ⟨hnext, -⟩⟩ | ⟨-, -, -, -, -, -, hnext, -⟩ |
    ⟨src, q, data, now, banner, rule, rfl, hget, rfl, heq⟩
  · exact h.quiet (quiet_stirs fun e he => (hsilent e he).1)
  · exact absurd hconn hover
  · exact absurd hnext hold
  · exact absurd hnext hold
  · obtain ⟨rfl, hheard⟩ := hknown src q hget rfl
    obtain ⟨-, rfl⟩ := hfine data now banner rule rfl
    rw [heq]
    exact prompt_known data h hheard

end Udp

/-! ## The process -/

namespace Process

variable {ι Addr : Type*} [DecidableEq ι] [DecidableEq Addr] {net : ι → Listener Addr}
  {dp : Deps} {o : Options} {p p' : Process ι Addr} {seen new : List (Seen ι Addr)}
  {acts : List (Act ι Addr)}

/-- A send for the owner of the connection has failed. -/
def Act.Loses (id : ℕ) (i : ι) (w : Owner Addr) : Act ι Addr → Prop
  | .turn j input => j = i ∧ ∃ peer, w = .peer peer ∧ ¬input.DeliversTo peer
  | .step conn input => conn = id ∧ input.Fails
  | _ => False

/-- Where no send has failed, what was due was decided to be sent. -/
structure Punctual (net : ι → Listener Addr) (p : Process ι Addr) (seen : List (Seen ι Addr))
    (acts : List (Act ι Addr)) : Prop where
  tasks : ∀ id c, p.tasks id = some c →
    (∀ a ∈ acts, ¬a.Loses id c.listener (.connection c.peer)) →
      Tcp.Attends (net c.listener).voice (net c.listener) (about id (decided seen)) c.stage
  peers : ∀ id i peer, (id, i, .peer peer) ∈ grants seen →
    (∀ a ∈ acts, ¬a.Loses id i (.peer peer)) →
      ((net i).voice.duty (net i)).Prompt (about id (decided seen))

omit [DecidableEq ι] [DecidableEq Addr] in
theorem not_loses_of_append {a : Act ι Addr} {id : ℕ} {i : ι} {w : Owner Addr}
    (h : ∀ b ∈ acts ++ [a], ¬b.Loses id i w) :
    (∀ b ∈ acts, ¬b.Loses id i w) ∧ ¬a.Loses id i w :=
  ⟨fun b hb => h b (List.mem_append_left _ hb),
    h a (List.mem_append_right _ List.mem_cons_self)⟩

omit [DecidableEq ι] [DecidableEq Addr] in
/-- A step after which nothing new is heard or said, and no peer is new. -/
theorem Punctual.quiet (h : Punctual net p seen acts)
    (hgrants : ∀ id i peer, (id, i, .peer peer) ∉ grants new) (htasks : p'.tasks = p.tasks)
    (hsilent : Silence (decided new)) (a : Act ι Addr) :
    Punctual net p' (seen ++ new) (acts ++ [a]) := by
  have habout : ∀ id, Silence (about id (decided new)) :=
    fun id e he => hsilent e (mem_about.mp he).1
  constructor
  · intro id c hc hfine
    rw [decided_append, about_append]
    rw [htasks] at hc
    exact Tcp.attends_quiet (h.tasks id c hc (not_loses_of_append hfine).1) (habout id)
  · intro id i peer hw hfine
    rw [grants_append] at hw
    rw [decided_append, about_append]
    rcases List.mem_append.mp hw with hw | hw
    · exact (h.peers id i peer hw (not_loses_of_append hfine).1).quiet
        (quiet_stirs fun e he => (habout id e he).1)
    · exact absurd hw (hgrants id i peer)

theorem Punctual.turned (h : Punctual net p seen acts) (hspoken : Spoken net p seen acts)
    (hinv : Inv p seen) (hqueued : Queued p seen) {i : ι} {cfg : Udp.Config Addr}
    (hnet : net i = .udp cfg) {input : Udp.Input Addr} {out : Outcome (Udp.State Addr) Addr}
    (hturn : Udp.Turn cfg p.log.nextConn (p.udp i) input out)
    (hinv' : Inv (p.turned i out) (seen ++ p.seenHandled i out))
    (hqueued' : Queued (p.turned i out) (seen ++ p.seenHandled i out)) :
    Punctual net (p.turned i out) (seen ++ p.seenHandled i out) (acts ++ [.turn i input]) := by
  constructor
  · intro id c hc hfine
    have hgrant := mem_grants_append (hinv.tasks id c hc) (p.seenHandled i out)
    rw [decided_append, about_append, decided_seenHandled,
      about_turned_connection hinv hturn hinv' hgrant, List.append_nil]
    exact h.tasks id c hc (not_loses_of_append hfine).1
  · intro id j peer hw hfine
    obtain ⟨hbefore, hlast⟩ := not_loses_of_append hfine
    rw [decided_append, about_append, decided_seenHandled]
    rw [grants_append, grants_seenHandled] at hw
    rcases List.mem_append.mp hw with hold | hnew
    · have hprompt := h.peers id j peer hold hbefore
      by_cases hquiet : about id out.effects = []
      · rw [hquiet, List.append_nil]
        exact hprompt
      · have hgrant := mem_grants_append hold (p.seenHandled i out)
        obtain ⟨rfl, -, hknown⟩ := hspoken.own hinv hqueued hinv' hqueued' hgrant hquiet
        rw [hnet] at hprompt ⊢
        refine Udp.prompt_turn peer hturn hprompt ?_ ?_ ?_ ?_
        · rintro rfl
          exact (hinv.lt_next hold).false
        · intro hover
          cases (hinv.unique hold (hinv.overflow j id hover)).2
        · intro src q hq hid
          obtain ⟨hpeer, hheard⟩ := hknown src q hq hid
          exact ⟨(Owner.peer.inj hpeer).symm, hheard⟩
        · exact not_not.mp fun hnot => hlast ⟨rfl, peer, rfl, hnot⟩
    · obtain ⟨w, htook, heq⟩ := Option.map_eq_some_iff.mp (Option.mem_toList.mp hnew)
      obtain ⟨rfl, hrest⟩ := Prod.mk.inj heq
      obtain ⟨rfl, rfl⟩ := Prod.mk.inj hrest
      rw [about_decided_next hinv hqueued, List.nil_append, hnet]
      exact Udp.prompt_took hturn htook
        (not_not.mp fun hnot => hlast ⟨rfl, peer, rfl, hnot⟩)

theorem Punctual.stepped (h : Punctual net p seen acts) (hinv : Inv p seen) {conn : ℕ}
    {c : Connection ι Addr} (htask : p.tasks conn = some c) {cfg : Tcp.Config Addr}
    (hnet : net c.listener = .tcp cfg) {input : Tcp.Input} {out : Tcp.Stage × List (Effect Addr)}
    (hout : Tcp.handle cfg conn c.peer c.stage input = some out) :
    Punctual net (p.stepped conn c out) (seen ++ [.handled (.task conn) out.2])
      (acts ++ [.step conn input]) := by
  have hdecided : decided [(.handled (.task conn) out.2 : Seen ι Addr)] = out.2 :=
    List.append_nil _
  have habout := about_of_forall conn fun e he =>
    Tcp.conn_of_step (Tcp.step_cases cfg conn c.peer hout) he
  have hsame : ∀ id, id ≠ conn →
      about id (decided (seen ++ [.handled (.task conn) out.2])) = about id (decided seen) := by
    intro id hid
    rw [decided_append, hdecided, about_append, habout, if_neg (Ne.symm hid), List.append_nil]
  constructor
  · intro id d hd hfine
    obtain ⟨hbefore, hlast⟩ := not_loses_of_append hfine
    by_cases hid : id = conn
    · subst hid
      have hself : (p.stepped id c out).tasks id = some { c with stage := out.1 } :=
        Function.update_self _ _ _
      obtain rfl := Option.some.inj (hself.symm.trans hd)
      have hattends := h.tasks id c htask hbefore
      rw [decided_append, hdecided, about_append, habout, if_pos rfl]
      rw [hnet] at hattends ⊢
      exact Tcp.attends_handle hattends (fun hfails => hlast ⟨rfl, hfails⟩) hout
    · rw [hsame id hid]
      have hother : (p.stepped conn c out).tasks id = p.tasks id := Function.update_of_ne hid _ _
      exact h.tasks id d (hother.symm.trans hd) hbefore
  · intro id i peer hw hfine
    rw [grants_append] at hw
    have hgrant : (id, i, .peer peer) ∈ grants seen := (List.append_nil (grants seen)) ▸ hw
    have hid : id ≠ conn := by
      rintro rfl
      cases (hinv.unique hgrant (hinv.tasks id c htask)).2
    rw [hsame id hid]
    exact h.peers id i peer hgrant (not_loses_of_append hfine).1

omit [DecidableEq ι] in
theorem Punctual.spawned (h : Punctual net p seen acts) (hspoken : Spoken net p seen acts) {i : ι}
    {conn : ℕ} {peer : Addr} (hnone : p.tasks conn = none)
    (hgrant : (conn, i, .connection peer) ∈ grants seen) :
    Punctual net (p.spawn i conn peer) seen acts := by
  refine ⟨fun id c hc hfine => ?_, h.peers⟩
  by_cases hid : id = conn
  · subst hid
    have hself : (p.spawn i id peer).tasks id = some ⟨i, peer, .start⟩ :=
      Function.update_self _ _ _
    obtain rfl := Option.some.inj (hself.symm.trans hc)
    exact hspoken.waiting id i peer hgrant hnone
  · exact h.tasks id c ((Function.update_of_ne hid _ _).symm.trans hc) hfine

theorem Punctual.step (h : Punctual net p seen acts) (hspoken : Spoken net p seen acts)
    (hinv : Inv p seen) (hqueued : Queued p seen) {a : Act ι Addr}
    (hs : (lts net dp o).step p a = some (p', new)) :
    Punctual net p' (seen ++ new) (acts ++ [a]) := by
  have hmove := step_cases net dp o hs
  have hinv' := hinv.move hmove
  have hqueued' := hqueued.move hinv hmove
  cases a with
  | accept i peer orig =>
      obtain ⟨cfg, -, rfl, rfl⟩ := step_accept hs
      refine h.quiet ?_ ?_ ?_ _
      · simp [grants_seenHandled, Tcp.accept]
      · rfl
      · rw [decided_seenHandled]
        simp [Silence, Tcp.accept, heard, said]
  | acceptError i e =>
      obtain ⟨cfg, rfl, rfl⟩ := step_acceptError hs
      refine h.quiet ?_ ?_ ?_ _
      · simp [grants_seenHandled, Tcp.acceptError]
      · rfl
      · rw [decided_seenHandled]
        simp [Silence, Tcp.acceptError, heard, said]
  | turn i input =>
      obtain ⟨cfg, out, hnet, hturn, rfl, rfl⟩ := step_turn hs
      exact h.turned hspoken hinv hqueued hnet hturn hinv' hqueued'
  | step conn input =>
      obtain ⟨c, cfg, out, htask, hnet, hout, rfl, rfl⟩ := step_step hs
      exact h.stepped hinv htask hnet hout
  | perform t e =>
      obtain ⟨eff, rest, hp, rfl, rfl⟩ := step_perform hs
      have hdrop : Punctual net (p.drop t rest) (seen ++ [.performed t eff])
          (acts ++ [.perform t e]) := by
        refine h.quiet ?_ ?_ ?_ _
        · exact fun _ _ _ => List.not_mem_nil
        · rfl
        · exact List.forall_mem_nil _
      have hspoken' : Spoken net (p.drop t rest) (seen ++ [.performed t eff])
          (acts ++ [.perform t e]) :=
        hspoken.quiet hinv hqueued (hinv.drop hp) rfl rfl (List.forall_mem_nil _) _
      cases eff with
      | call c => exact ⟨hdrop.tasks, hdrop.peers⟩
      | spawn conn peer =>
          obtain ⟨-, hnone, i, rfl, hgrant⟩ := hinv.spawns t [] conn peer rest hp
          exact hdrop.spawned hspoken' hnone (mem_grants_append hgrant _)
      | _ => exact hdrop
  | flush e order =>
      obtain ⟨-, rfl, rfl⟩ := step_flush hs
      refine h.quiet ?_ ?_ ?_ _
      · exact fun _ _ _ => List.not_mem_nil
      · rfl
      · exact List.forall_mem_nil _

theorem punctual_run {tr : List (List (Seen ι Addr))}
    (h : (lts net dp o).run (start net) acts = some (p, tr)) :
    Punctual net p tr.flatten acts := by
  apply (lts net dp o).run_induction (fun acts p tr => Punctual net p tr.flatten acts) ?_ ?_ h
  · constructor
    · intro id c hc
      cases hc
    · intro id i peer hw
      cases hw
  · intro as a rest u os v new _ hrun hu hs
    rw [List.flatten_append, List.flatten_singleton]
    exact hu.step (spoken_run hrun) (inv_run hrun) (queued_run hrun) hs

/-- Once a message has been heard on a connection, it is served promptly. -/
theorem prompt_of_run {tr : List (List (Seen ι Addr))}
    (h : (lts net dp o).run (start net) acts = some (p, tr)) {id : ℕ} {i : ι} {w : Owner Addr}
    (hw : (id, i, w) ∈ grants tr.flatten) (hshared : w ≠ .overflow)
    (hfine : ∀ a ∈ acts, ¬a.Loses id i w) (hheard : heardIn (about id (decided tr.flatten)) ≠ []) :
    ((net i).voice.duty (net i)).Prompt (about id (decided tr.flatten)) := by
  have hpunctual := punctual_run h
  cases w with
  | overflow => exact absurd rfl hshared
  | peer src => exact hpunctual.peers id i src hw hfine
  | connection src =>
      cases htask : p.tasks id with
      | none =>
          have hsilent := (spoken_run h).waiting id i src hw htask
          exact absurd (heardIn_eq_nil fun e he => (hsilent e he).1) hheard
      | some c =>
          obtain ⟨rfl, heq⟩ := (inv_run h).unique hw ((inv_run h).tasks id c htask)
          obtain rfl := Owner.connection.inj heq
          have hattends := hpunctual.tasks id c htask hfine
          cases hstage : c.stage with
          | start =>
              rw [hstage] at hattends
              exact absurd (heardIn_eq_nil fun e he => (hattends e he).1) hheard
          | reading first =>
              rw [hstage] at hattends
              exact hattends.1
          | splicing rx tx =>
              rw [hstage] at hattends
              exact absurd hattends hheard
          | ended =>
              rw [hstage] at hattends
              exact hattends.resolve_left hheard
          | crashed =>
              rw [hstage] at hattends
              exact hattends

/-- In every run, as long as no send for the owner of a connection fails: what
the profile of the listener, as it is written, means for what has happened on
the connection, a greeting or a reply, has been sent or waits to be, before any
other message is logged. -/
theorem due_is_sent (source : ι → Option (Loader × Profile))
    (hsource : ∀ i, Loads (source i) (net i).profile)
    (hwhole : ∀ i L pr, source i = some (L, pr) → ∀ r ∈ pr.rules, r.matcher.HexWhole)
    (acts : List (Act ι Addr)) (p : Process ι Addr) (tr : List (List (Seen ι Addr)))
    (h : (lts net dp o).run (start net) acts = some (p, tr)) (id : ℕ) (i : ι) (w : Owner Addr)
    (hw : (id, i, w) ∈ grants tr.flatten) (hshared : w ≠ .overflow)
    (hfine : ∀ a ∈ acts, ¬a.Loses id i w)
    (hheard : heardIn (about id (happened tr.flatten)) ≠ []) (before after : List (Effect Addr))
    (heq : about id (happened tr.flatten) = before ++ after) (trigger : Trigger)
    (payload : List UInt8)
    (hdue : (Profile.voice (source i)).Due (net i) before trigger payload)
    (hne : payload ≠ []) :
    ∃ since dst conn later, after ++ about id (p.pending (p.home id i)) =
      since ++ .sent dst conn trigger payload :: later ∧ ∀ e ∈ since, e.heard = none := by
  have horder := (queued_run h).order id i w hw
  have hall : heardIn (about id (decided tr.flatten)) ≠ [] := by
    rw [← horder, heardIn_append]
    exact List.append_ne_nil_of_left_ne_nil hheard _
  have hvoice := voice_of_meaning (hsource i) (hwhole i)
  have hprompt := prompt_of_run h hw hshared hfine hall
  rw [← horder, heq, List.append_assoc] at hprompt
  obtain ⟨since, _, later, hcut, ⟨dst, conn, rfl⟩, hquiet⟩ :=
    hprompt before _ rfl (trigger, payload) ⟨hdue.imp hvoice.1 hvoice.2, hne⟩
  exact ⟨since, dst, conn, later, hcut, fun e he => not_not.mp (hquiet e he)⟩

theorem due_is_sent_echo :
    ∃ p tr, (lts echoUdp .bare (.rawOnly ⟨0, 0⟩ 0)).run (start echoUdp) echoed = some (p, tr) ∧
      ∃ since dst conn later,
        [.sent 7 1 (.rule "all") [1, 2],
            .call (.data .udp "u" 1 "7" .tx [1, 2] (some "all"))] ++
            about 1 (p.pending (p.home 1 ())) =
          since ++ .sent dst conn (.rule "all") [1, 2] :: later ∧
            ∀ e ∈ since, e.heard = none := by
  obtain ⟨p, tr, hrun, hgrants, habout⟩ :
      ∃ p tr, (lts echoUdp .bare (.rawOnly ⟨0, 0⟩ 0)).run (start echoUdp) echoed =
        some (p, tr) ∧ grants tr.flatten = [(1, (), .peer 7)] ∧
          about 1 (happened tr.flatten) =
            [.call (.openConn .udp "u" 1 "l" "7" none),
                .call (.data .udp "u" 1 "7" .rx [1, 2] none)] ++
              [.sent 7 1 (.rule "all") [1, 2],
                .call (.data .udp "u" 1 "7" .tx [1, 2] (some "all"))] :=
    ⟨_, _, rfl, rfl, rfl⟩
  have hwhole : ∀ i L pr, echoSource i = some (L, pr) →
      ∀ r ∈ pr.rules, r.matcher.HexWhole := by
    rintro i L pr ⟨⟩ r hr
    obtain rfl := List.mem_singleton.mp hr
    simp [Match.HexWhole]
  have hfine : ∀ a ∈ echoed, ¬a.Loses 1 () (.peer 7) := by
    intro a ha
    simp only [echoed, List.mem_cons, List.not_mem_nil, or_false] at ha
    rcases ha with rfl | rfl | rfl | rfl | rfl | rfl
    · exact id
    · rintro ⟨-, peer, ⟨⟩, hlost⟩
      apply hlost
      rintro data now banner rule ⟨⟩
      exact ⟨rfl, rfl⟩
    all_goals exact id
  have hdue : (Profile.voice (echoSource ())).Due (echoUdp ())
      [.call (.openConn .udp "u" 1 "l" "7" none), .call (.data .udp "u" 1 "7" .rx [1, 2] none)]
        (.rule "all") [1, 2] := by
    have hvoice := voice_of_loads (loads_echo ())
    refine .answer "all" ⟨[], true, false, none⟩ [.call (.openConn .udp "u" 1 "l" "7" none)] []
      (.call (.data .udp "u" 1 "7" .rx [1, 2] none)) [1, 2] [1, 2] rfl rfl
      (List.forall_mem_nil _) ?_ rfl
    exact hvoice.2 [1, 2] true "all" _ ⟨_, rfl, rfl⟩
  refine ⟨p, tr, hrun, due_is_sent echoSource loads_echo hwhole echoed p tr hrun 1 () (.peer 7)
    (hgrants ▸ List.mem_cons_self) ?_ hfine ?_ _ _ habout (.rule "all") [1, 2] hdue ?_⟩
  · rintro ⟨⟩
  · rw [habout]
    exact List.cons_ne_nil _ _
  · exact List.cons_ne_nil _ _

end Process

end KirbLaSnoop
