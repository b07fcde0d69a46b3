import Mathlib
import KirbLaSnoop.Listener.ConnLifecycle
import KirbLaSnoop.Log.Share

/-!
# The effects of one connection stay in order

Whatever is about a connection id waits with one thread, its home. So the
threads may take turns as they like: the effects about an id happen in the
order in which they were decided, and none is lost or happens twice.
-/

namespace KirbLaSnoop

open Effect

namespace Effect

variable {Addr : Type*}

/-- The connection id that an effect is about. -/
def conn : Effect Addr → Option ℕ
  | .call c => c.conn
  | .sent _ conn _ _ => some conn
  | .relayed conn _ _ => some conn
  | .shutdown conn _ => some conn
  | .spawn conn _ => some conn

def about (id : ℕ) (es : List (Effect Addr)) : List (Effect Addr) :=
  es.filter fun e => e.conn = some id

@[simp] theorem about_nil (id : ℕ) : about id ([] : List (Effect Addr)) = [] := rfl

@[simp] theorem about_append (id : ℕ) (es es' : List (Effect Addr)) :
    about id (es ++ es') = about id es ++ about id es' :=
  List.filter_append ..

theorem about_cons (id : ℕ) (e : Effect Addr) (es : List (Effect Addr)) :
    about id (e :: es) = about id [e] ++ about id es :=
  about_append id [e] es

theorem mem_about {id : ℕ} {e : Effect Addr} {es : List (Effect Addr)} :
    e ∈ about id es ↔ e ∈ es ∧ e.conn = some id := by
  rw [about, List.mem_filter, decide_eq_true_eq]

theorem about_eq_nil {id : ℕ} {es : List (Effect Addr)} (h : ∀ e ∈ es, e.conn ≠ some id) :
    about id es = [] :=
  List.filter_eq_nil_iff.mpr fun e he => by simpa using h e he

theorem use_ne_none_of_conn {c : Call} {id : ℕ} (h : c.conn = some id) :
    c.use id ≠ none := by
  cases c with
  | openConn proto name conn localAddr peer orig => simp [Call.use, Option.some.inj h]
  | data proto name conn peer dir bs rule => simp [Call.use, Option.some.inj h]
  | close proto name conn peer why => simp [Call.use, Option.some.inj h]
  | error proto name conn msg => simp [Call.use, show conn = some id from h]
  | _ => cases h

theorem uses_ne_nil {es : List (Effect Addr)} {c : Call} {id : ℕ} (hmem : .call c ∈ es)
    (h : c.conn = some id) : uses id es ≠ [] := by
  obtain ⟨u, hu⟩ := Option.ne_none_iff_exists'.mp (use_ne_none_of_conn h)
  exact List.ne_nil_of_mem (List.mem_filterMap.mpr ⟨_, hmem, hu⟩)

end Effect

variable {ι Addr : Type*} [DecidableEq Addr]

theorem Udp.uses_of_conn {cfg : Config Addr} {next : ℕ} {s : State Addr} {input : Input Addr}
    {out : Outcome (State Addr) Addr} (hturn : Turn cfg next s input out) {e : Effect Addr}
    (he : e ∈ out.effects) {id : ℕ} (hid : e.conn = some id) : uses id out.effects ≠ [] := by
  rcases turn_effects cfg hturn he with ⟨c, rfl⟩ | ⟨dst, conn, trigger, bytes, rfl, -⟩
  · exact uses_ne_nil he hid
  · obtain rfl := Option.some.inj hid
    have hretired : ∀ now order, .sent dst conn trigger bytes ∉ retired cfg now s order := by
      intro now order hmem
      obtain ⟨src, q, -, -, -, hq⟩ := (mem_retired cfg).mp hmem
      cases hq
    cases hturn with
    | overflowMore => simp at he
    | overflowOpen => simp at he
    | newPeer src data now banner rule hnew hroom =>
        obtain ⟨_, hsaid⟩ := said_of_mem_greeting_append_answer cfg
          (by simpa only [List.mem_cons, reduceCtorEq, false_or] using he)
        cases hsaid
        exact uses_ne_nil List.mem_cons_self rfl
    | known src data now banner rule peer hget =>
        obtain ⟨_, hsaid⟩ := said_of_mem_answer cfg
          (by simpa only [List.mem_cons, reduceCtorEq, false_or] using he)
        cases hsaid
        exact uses_ne_nil List.mem_cons_self rfl
    | recvError => simp at he
    | sweep now order => exact absurd he (hretired now order)
    | drained now order =>
        rcases List.mem_append.mp he with he | he
        · exact absurd he (hretired now order)
        · simp at he

omit [DecidableEq Addr] in
theorem Tcp.conn_of_step {cfg : Config Addr} {conn : ℕ} {peer : Addr} {stage : Stage}
    {input : Input} {out : Stage × List (Effect Addr)} (hstep : Step cfg conn peer stage input out)
    {e : Effect Addr} (he : e ∈ out.2) : e.conn = some conn := by
  have hgoes : ∀ e : Effect Addr, Goes conn e → e.conn = some conn := by
    intro e h
    cases h <;> rfl
  rcases (told_step cfg conn peer hstep).2 with ⟨-, hall⟩ | ⟨-, before, why, hall, heq⟩
  · exact hgoes e (hall e he)
  · rw [heq] at he
    rcases List.mem_append.mp he with he | he
    · exact hgoes e (hall e he)
    · rw [List.mem_singleton.mp he]
      rfl

namespace Process

/-- The effects that have happened, and those that the threads have decided. -/
def happened (seen : List (Seen ι Addr)) : List (Effect Addr) :=
  seen.filterMap fun
    | .performed _ e => some e
    | _ => none

def decided (seen : List (Seen ι Addr)) : List (Effect Addr) :=
  seen.flatMap fun
    | .handled _ es => es
    | _ => []

omit [DecidableEq Addr] in
theorem happened_append (seen seen' : List (Seen ι Addr)) :
    happened (seen ++ seen') = happened seen ++ happened seen' :=
  List.filterMap_append

omit [DecidableEq Addr] in
theorem decided_append (seen seen' : List (Seen ι Addr)) :
    decided (seen ++ seen') = decided seen ++ decided seen' :=
  List.flatMap_append

omit [DecidableEq Addr] in
theorem happened_seenHandled {σ : Type*} (p : Process ι Addr) (i : ι) (out : Outcome σ Addr) :
    happened (p.seenHandled i out) = [] := by
  cases h : out.took <;> simp [happened, seenHandled, h]

omit [DecidableEq Addr] in
theorem decided_seenHandled {σ : Type*} (p : Process ι Addr) (i : ι) (out : Outcome σ Addr) :
    decided (p.seenHandled i out) = out.effects := by
  cases h : out.took <;> simp [decided, seenHandled, h]

/-- What is about an id waits at its home. -/
def AtHome (p : Process ι Addr) (seen : List (Seen ι Addr)) : Prop :=
  ∀ t id e, e ∈ p.pending t → e.conn = some id →
    ∃ i w, (id, i, w) ∈ grants seen ∧ t = p.home id i

/-- What is about an id has happened in the order decided, up to what waits. -/
structure Queued (p : Process ι Addr) (seen : List (Seen ι Addr)) : Prop where
  atHome : AtHome p seen
  named : ∀ id e, e ∈ happened seen ∨ e ∈ decided seen → e.conn = some id →
    ∃ i w, (id, i, w) ∈ grants seen
  order : ∀ id i w, (id, i, w) ∈ grants seen →
    about id (happened seen) ++ about id (p.pending (p.home id i)) = about id (decided seen)

variable [DecidableEq ι] {p p' : Process ι Addr} {seen new : List (Seen ι Addr)}

/-- A thread that had nothing to do is handed some effects. -/
theorem Queued.hand (h : Queued p seen) (hinv' : Inv p' (seen ++ new)) {t : Thread ι}
    {es : List (Effect Addr)} (hidle : p.pending t = [])
    (hpending : p'.pending = Function.update p.pending t es)
    (hhome : ∀ id i, p'.home id i = p.home id i) (hhappened : happened new = [])
    (hdecided : decided new = es)
    (hes : ∀ e ∈ es, ∀ id, e.conn = some id →
      ∃ i w, (id, i, w) ∈ grants (seen ++ new) ∧ t = p'.home id i) :
    Queued p' (seen ++ new) := by
  have hathome : AtHome p' (seen ++ new) := by
    intro t' id e he hid
    rw [hpending] at he
    by_cases ht : t' = t
    · subst ht
      rw [Function.update_self] at he
      exact hes e he id hid
    · rw [Function.update_of_ne ht] at he
      obtain ⟨i, w, hw, heq⟩ := h.atHome t' id e he hid
      exact ⟨i, w, mem_grants_append hw _, heq.trans (hhome id i).symm⟩
  refine ⟨hathome, ?_, ?_⟩
  · intro id e he hid
    rw [happened_append, hhappened, List.append_nil, decided_append, hdecided,
      List.mem_append] at he
    rcases he with he | he | he
    · obtain ⟨i, w, hw⟩ := h.named id e (.inl he) hid
      exact ⟨i, w, mem_grants_append hw _⟩
    · obtain ⟨i, w, hw⟩ := h.named id e (.inr he) hid
      exact ⟨i, w, mem_grants_append hw _⟩
    · obtain ⟨i, w, hw, -⟩ := hes e he id hid
      exact ⟨i, w, hw⟩
  · intro id i w hw
    have hold : about id (happened seen) ++ about id (p.pending (p'.home id i)) =
        about id (decided seen) := by
      by_cases hgrant : ∃ j v, (id, j, v) ∈ grants seen
      · obtain ⟨j, v, hv⟩ := hgrant
        obtain ⟨rfl, -⟩ := hinv'.unique hw (mem_grants_append hv _)
        rw [hhome]
        exact h.order id i v hv
      · have hquiet : ∀ e, e ∈ happened seen ∨ e ∈ decided seen → e.conn ≠ some id :=
          fun e he hid => hgrant (h.named id e he hid)
        have hpend : about id (p.pending (p'.home id i)) = [] := by
          apply about_eq_nil
          intro e he hid
          obtain ⟨j, v, hv, -⟩ := h.atHome _ id e he hid
          exact hgrant ⟨j, v, hv⟩
        rw [about_eq_nil fun e he => hquiet e (.inl he), hpend,
          about_eq_nil fun e he => hquiet e (.inr he)]
        rfl
    rw [happened_append, hhappened, List.append_nil, decided_append, hdecided, about_append,
      ← hold, hpending]
    by_cases ht : p'.home id i = t
    · rw [ht, Function.update_self, hidle, about_nil, List.append_nil]
    · have hforeign : about id es = [] := by
        apply about_eq_nil
        intro e he hid
        obtain ⟨j, v, hv, heq⟩ := hes e he id hid
        obtain ⟨rfl, -⟩ := hinv'.unique hw hv
        exact ht heq.symm
      rw [Function.update_of_ne ht, hforeign, List.append_nil]

theorem Queued.drop (h : Queued p seen) (hinv : Inv p seen) {t : Thread ι} {eff : Effect Addr}
    {rest : List (Effect Addr)} (hp : p.pending t = eff :: rest) :
    Queued (p.drop t rest) (seen ++ [.performed t eff]) := by
  have hgrants : grants (seen ++ [.performed t eff]) = grants seen := by
    rw [grants_append]
    exact List.append_nil _
  have hhappened : happened (seen ++ [.performed t eff]) = happened seen ++ [eff] :=
    happened_append _ _
  have hdecided : decided (seen ++ [.performed t eff]) = decided seen := by
    rw [decided_append]
    exact List.append_nil _
  have hself : (p.drop t rest).pending t = rest := Function.update_self _ _ _
  have hother : ∀ t', t' ≠ t → (p.drop t rest).pending t' = p.pending t' :=
    fun t' ht' => Function.update_of_ne ht' _ _
  have hhome : ∀ id i, (p.drop t rest).home id i = p.home id i := fun _ _ => rfl
  constructor
  · intro t' id e he hid
    rw [hgrants]
    apply h.atHome t' id e ?_ hid
    by_cases ht : t' = t
    · subst ht
      rw [hself] at he
      rw [hp]
      exact List.mem_cons_of_mem _ he
    · rwa [hother t' ht] at he
  · intro id e he hid
    rw [hgrants]
    rw [hhappened, hdecided, List.mem_append, or_assoc] at he
    rcases he with he | he | he
    · exact h.named id e (.inl he) hid
    · rw [List.mem_singleton] at he
      subst he
      obtain ⟨i, w, hw, -⟩ := h.atHome t id e (hp ▸ List.mem_cons_self) hid
      exact ⟨i, w, hw⟩
    · exact h.named id e (.inr he) hid
  · intro id i w hw
    rw [hgrants] at hw
    have hold := h.order id i w hw
    rw [hhappened, hdecided, about_append, hhome, ← hold]
    by_cases ht : p.home id i = t
    · rw [ht, hself, hp, about_cons id eff rest, List.append_assoc]
    · have hforeign : about id [eff] = [] := by
        apply about_eq_nil
        intro e he hid
        obtain rfl := List.mem_singleton.mp he
        obtain ⟨j, v, hv, heq⟩ := h.atHome t id e (hp ▸ List.mem_cons_self) hid
        obtain ⟨rfl, -⟩ := hinv.unique hw hv
        exact ht heq.symm
      rw [hother _ ht, hforeign, List.append_nil]

omit [DecidableEq ι] in
theorem Queued.spawn (h : Queued p seen) (hinv : Inv p seen) {i : ι} {conn : ℕ} {peer : Addr}
    (hidle : p.pending (.loop i) = []) (hnone : p.tasks conn = none)
    (hgrant : (conn, i, .connection peer) ∈ grants seen) :
    Queued (p.spawn i conn peer) seen := by
  have hhome : ∀ id j w, (id, j, w) ∈ grants seen →
      (p.spawn i conn peer).home id j = p.home id j ∨
        p.pending (p.home id j) = [] ∧ p.pending ((p.spawn i conn peer).home id j) = [] := by
    intro id j w hw
    by_cases hid : id = conn
    · subst hid
      obtain ⟨rfl, -⟩ := hinv.unique hw hgrant
      have hnow : (p.spawn j id peer).tasks id = some ⟨j, peer, .start⟩ :=
        Function.update_self _ _ _
      rw [home_eq_loop hnone, home_eq_task hnow]
      exact .inr ⟨hidle, hinv.idle id hnone⟩
    · exact .inl (home_congr (Function.update_of_ne hid _ _) j)
  refine ⟨?_, h.named, ?_⟩
  · intro t id e he hid
    obtain ⟨j, w, hw, rfl⟩ := h.atHome t id e he hid
    rcases hhome id j w hw with hsame | ⟨hempty, -⟩
    · exact ⟨j, w, hw, hsame.symm⟩
    · have hmem : e ∈ p.pending (p.home id j) := he
      rw [hempty] at hmem
      cases hmem
  · intro id j w hw
    have hold := h.order id j w hw
    change about id (happened seen) ++ about id (p.pending ((p.spawn i conn peer).home id j)) = _
    rcases hhome id j w hw with hsame | ⟨hempty, hempty'⟩
    · rw [hsame]
      exact hold
    · rw [hempty']
      rwa [hempty] at hold

theorem Queued.realize (h : Queued p seen) (hinv : Inv p seen) {t : Thread ι} {eff : Effect Addr}
    {rest : List (Effect Addr)} (hp : p.pending t = eff :: rest) (dp : Deps) (o : Options)
    (e : Env) :
    Queued ((p.drop t rest).realize dp o t e eff) (seen ++ [.performed t eff]) := by
  have hdrop := h.drop hinv hp
  cases eff with
  | call c => exact ⟨hdrop.atHome, hdrop.named, hdrop.order⟩
  | spawn conn peer =>
      obtain ⟨hrest, hnone, i, rfl, hgrant⟩ := hinv.spawns t [] conn peer rest hp
      have hself : (p.drop (.loop i) rest).pending (.loop i) = [] :=
        (Function.update_self _ _ _).trans hrest
      exact hdrop.spawn (hinv.drop hp) hself hnone (mem_grants_append hgrant _)
  | _ => exact hdrop

theorem Queued.handled (h : Queued p seen) {σ : Type*} {i : ι} {out : Outcome σ Addr}
    (udp : ι → Udp.State Addr) (hidle : p.pending (.loop i) = [])
    (hinv' : Inv { p.handled i out with udp := udp } (seen ++ p.seenHandled i out))
    (hes : ∀ e ∈ out.effects, ∀ id, e.conn = some id → uses id out.effects ≠ []) :
    Queued { p.handled i out with udp := udp } (seen ++ p.seenHandled i out) := by
  apply h.hand hinv' hidle rfl (fun _ _ => rfl) (happened_seenHandled p i out)
    (decided_seenHandled p i out)
  intro e he id hid
  have hself : ({ p.handled i out with udp := udp } : Process ι Addr).pending (.loop i) =
      out.effects := Function.update_self _ _ _
  exact hinv'.silent (.loop i) id (hself ▸ hes e he id hid)

variable {net : ι → Listener Addr} {dp : Deps} {o : Options}

theorem Queued.move (h : Queued p seen) (hinv : Inv p seen) (hmove : Move dp o p p' new) :
    Queued p' (seen ++ new) := by
  have hinv' := hinv.move hmove
  cases hmove with
  | accept i cfg peer orig hidle =>
      have hopens : ∀ e ∈ (Tcp.accept cfg p.log.nextConn peer orig).effects, ∀ id,
          e.conn = some id →
            uses id (Tcp.accept cfg p.log.nextConn peer orig).effects ≠ [] := by
        intro e he id hid
        simp only [Tcp.accept, List.mem_cons, List.not_mem_nil, or_false] at he
        rcases he with rfl | rfl
        · exact uses_ne_nil List.mem_cons_self hid
        · exact uses_ne_nil List.mem_cons_self hid
      exact h.handled p.udp hidle hinv' hopens
  | acceptError i cfg msg hidle =>
      have hnone : ∀ e ∈ (Tcp.acceptError cfg msg : Outcome Unit Addr).effects, ∀ id,
          e.conn = some id → uses id (Tcp.acceptError cfg msg : Outcome Unit Addr).effects ≠ [] := by
        intro e he id hid
        obtain rfl := List.mem_singleton.mp he
        cases hid
      exact h.handled p.udp hidle hinv' hnone
  | turn i cfg input out hidle hturn =>
      exact h.handled _ hidle hinv' fun e he id hid => Udp.uses_of_conn hturn he hid
  | step conn c cfg input out htask hidle hstep =>
      have hnow : (p.stepped conn c out).tasks conn = some { c with stage := out.1 } :=
        Function.update_self _ _ _
      apply h.hand hinv' hidle rfl ?_ rfl (List.append_nil _)
      · intro e he id hid
        obtain rfl : conn = id := Option.some.inj ((Tcp.conn_of_step hstep he).symm.trans hid)
        have hgrant := hinv'.tasks conn _ hnow
        exact ⟨c.listener, .connection c.peer, hgrant, (home_eq_task hnow _).symm⟩
      · intro id i
        by_cases hid : id = conn
        · subst hid
          rw [home_eq_task hnow, home_eq_task htask]
        · exact home_congr (Function.update_of_ne hid _ _) i
  | perform t e eff rest hp => exact h.realize hinv hp dp o e
  | flush e order =>
      rw [List.append_nil]
      exact ⟨h.atHome, h.named, h.order⟩

theorem queued_run {acts : List (Act ι Addr)} {tr : List (List (Seen ι Addr))}
    (h : (lts net dp o).run (start net) acts = some (p, tr)) : Queued p tr.flatten := by
  have hboth : Inv p tr.flatten ∧ Queued p tr.flatten := by
    apply (lts net dp o).run_induction
      (fun _ p tr => Inv p tr.flatten ∧ Queued p tr.flatten) ?_ ?_ h
    · refine ⟨inv_start net, ?_, ?_, ?_⟩
      · intro t id e he hid
        cases t with
        | loop i =>
            obtain ⟨c, rfl⟩ := Listener.call_of_mem_startup he
            exact absurd ((net i).uses_startup id) (uses_ne_nil he hid)
        | task conn => cases he
      · rintro id e (he | he) <;> cases he
      · intro id i w hw
        cases hw
    · intro as a rest u os v new _ _ hu hs
      rw [List.flatten_append, List.flatten_singleton]
      have hmove := step_cases net dp o hs
      exact ⟨hu.1.move hmove, hu.2.move hu.1 hmove⟩
  exact hboth.2

end Process

end KirbLaSnoop
