import Mathlib
import KirbLaSnoop.Lib.Lifecycle
import KirbLaSnoop.Listener.PeerTable

/-!
# How the udp listener uses connection ids

The calls of a turn, read as uses of one id, take the id from its stage
before the turn to its stage after it.
-/

namespace KirbLaSnoop

open Lifecycle

def Call.use (id : ℕ) : Call → Option Use
  | .openConn _ _ conn _ _ _ => if conn = id then some .opened else none
  | .data _ _ conn _ _ _ _ => if conn = id then some .used else none
  | .error _ _ conn _ => if conn = some id then some .used else none
  | .close _ _ conn _ _ => if conn = id then some .closed else none
  | _ => none

namespace Effect

variable {Addr : Type*}

def use (id : ℕ) : Effect Addr → Option Use
  | .call c => c.use id
  | _ => none

def uses (id : ℕ) (es : List (Effect Addr)) : List Use := es.filterMap (use id)

@[simp] theorem uses_nil (id : ℕ) : uses id ([] : List (Effect Addr)) = [] := rfl

@[simp] theorem uses_cons (id : ℕ) (e : Effect Addr) (es : List (Effect Addr)) :
    uses id (e :: es) = (e.use id).toList ++ uses id es := by
  cases h : e.use id <;> simp [uses, h]

@[simp] theorem uses_append (id : ℕ) (es es' : List (Effect Addr)) :
    uses id (es ++ es') = uses id es ++ uses id es' :=
  List.filterMap_append

theorem uses_eq_nil {id : ℕ} {es : List (Effect Addr)} (h : ∀ e ∈ es, e.use id = none) :
    uses id es = [] :=
  List.filterMap_eq_nil_iff.mpr h

theorem uses_of_forall {conn id : ℕ} {es : List (Effect Addr)}
    (h : ∀ e ∈ es, e.use id = none ∨ conn = id ∧ e.use id = some .used) :
    (conn ≠ id → uses id es = []) ∧ ∀ u ∈ uses id es, u = .used := by
  constructor
  · intro hne
    apply uses_eq_nil
    intro e he
    exact (h e he).resolve_right fun hused => hne hused.1
  · intro u hu
    obtain ⟨e, he, hu⟩ := List.mem_filterMap.mp hu
    rcases h e he with hnone | ⟨-, hused⟩
    · cases hnone.symm.trans hu
    · exact Option.some.inj (hu.symm.trans hused)

end Effect

open Effect

variable {Addr : Type*}

namespace Udp

variable (cfg : Config Addr)

theorem use_of_said {src : Addr} {conn : ℕ} {trigger : Trigger} {e : Effect Addr}
    (h : Said cfg src conn trigger e) (id : ℕ) :
    e.use id = none ∨ conn = id ∧ e.use id = some .used := by
  by_cases hid : conn = id
  · cases h with
    | sent bytes => exact .inl rfl
    | data bytes => exact .inr ⟨hid, if_pos hid⟩
    | error msg => exact .inr ⟨hid, if_pos (congrArg some hid)⟩
  · left
    cases h with
    | sent bytes => rfl
    | data bytes => exact if_neg hid
    | error msg => exact if_neg fun hsome => hid (Option.some.inj hsome)

theorem uses_said {src : Addr} {conn : ℕ} {es : List (Effect Addr)}
    (h : ∀ e ∈ es, ∃ trigger, Said cfg src conn trigger e) (id : ℕ) :
    (conn ≠ id → uses id es = []) ∧ ∀ u ∈ uses id es, u = .used := by
  apply uses_of_forall
  intro e he
  obtain ⟨trigger, hsaid⟩ := h e he
  exact use_of_said cfg hsaid id

/-- A profile only uses the id of the peer it speaks to. -/
theorem uses_spoken (src : Addr) (conn : ℕ) (data : List UInt8) (first : Bool)
    (banner rule : Except String Unit) (id : ℕ) :
    (conn ≠ id → uses id (greeting cfg src conn data first banner) ++
        uses id (answer cfg src conn data first rule) = []) ∧
      ∀ u ∈ uses id (greeting cfg src conn data first banner) ++
        uses id (answer cfg src conn data first rule), u = .used := by
  rw [← uses_append]
  exact uses_said cfg (fun e he => said_of_mem_greeting_append_answer cfg he) id

variable [DecidableEq Addr]

/-- The stage of an id that the listener has taken for an owner. -/
def stage (s : State Addr) (id : ℕ) : Owner Addr → Stage
  | .connection _ => .live
  | .peer src => if (s.peers.get src).map Peer.conn = some id then .live else .done
  | .overflow => if s.overflowConn = some id then .live else .done

/-- The id is that of a peer in the table or of the overflow stream. -/
def Holds (s : State Addr) (id : ℕ) : Prop :=
  (∃ src q, s.peers.get src = some q ∧ q.conn = id) ∨ s.overflowConn = some id

/-- A turn names the id it takes and ids that the listener holds. -/
theorem turn_names {next : ℕ} {s : State Addr} {input : Input Addr}
    {out : Outcome (State Addr) Addr} (hturn : Turn cfg next s input out) {id : ℕ}
    (hid : uses id out.effects ≠ []) : Holds s id ∨ id = next ∧ out.took.isSome := by
  cases hturn with
  | overflowMore src data now banner rule conn hnew hfull hconn =>
      by_cases heq : conn = id
      · exact .inl (.inr (heq ▸ hconn))
      · simp [use, Call.use, heq] at hid
  | overflowOpen src data now banner rule msg hnew hfull hconn =>
      by_cases heq : next = id
      · exact .inr ⟨heq.symm, rfl⟩
      · simp [use, Call.use, heq] at hid
  | newPeer src data now banner rule hnew hroom =>
      by_cases heq : next = id
      · exact .inr ⟨heq.symm, rfl⟩
      · have hsaid := (uses_spoken cfg src next data true banner rule id).1 heq
        simp [use, Call.use, heq, hsaid] at hid
  | known src data now banner rule peer hget =>
      by_cases heq : peer.conn = id
      · exact .inl (.inl ⟨src, peer, hget, heq⟩)
      · have hsaid := (uses_spoken cfg src peer.conn data false banner rule id).1 heq
        simp only [greeting_false, uses_nil, List.nil_append] at hsaid
        simp [use, Call.use, heq, hsaid] at hid
  | recvError e => simp [use, Call.use] at hid
  | sweep now order peers horder hpeers hkeep =>
      obtain ⟨u, hu⟩ := List.exists_mem_of_ne_nil _ hid
      obtain ⟨e, he, hu⟩ := List.mem_filterMap.mp hu
      obtain ⟨src, q, -, hq, -, rfl⟩ := (mem_retired cfg).mp he
      simp only [use, Call.use, Option.ite_none_right_eq_some] at hu
      exact .inl (.inl ⟨src, q, hq, hu.1⟩)
  | drained now order peers conn why horder hpeers hconn hroom =>
      obtain ⟨u, hu⟩ := List.exists_mem_of_ne_nil _ hid
      obtain ⟨e, he, hu⟩ := List.mem_filterMap.mp hu
      rcases List.mem_append.mp he with he | he
      · obtain ⟨src, q, -, hq, -, rfl⟩ := (mem_retired cfg).mp he
        simp only [use, Call.use, Option.ite_none_right_eq_some] at hu
        exact .inl (.inl ⟨src, q, hq, hu.1⟩)
      · rw [List.mem_singleton] at he
        subst he
        simp only [use, Call.use, Option.ite_none_right_eq_some] at hu
        exact .inl (.inr (hu.1 ▸ hconn))

/-- The ids held after a turn: those held before it, and the one taken. -/
theorem turn_peers {next : ℕ} {s : State Addr} {input : Input Addr}
    {out : Outcome (State Addr) Addr} (hturn : Turn cfg next s input out) {src : Addr} {q : Peer}
    (hq : out.state.peers.get src = some q) :
    (∃ q', s.peers.get src = some q' ∧ q'.conn = q.conn) ∨
      q.conn = next ∧ out.took = some (.peer src) := by
  cases hturn with
  | newPeer src' data now banner rule hnew hroom =>
      dsimp only at hq
      by_cases hsame : src = src'
      · subst hsame
        rw [Table.get_set, Option.some.injEq] at hq
        exact .inr ⟨by rw [← hq], rfl⟩
      · rw [Table.get_set_ne _ _ hsame] at hq
        exact .inl ⟨q, hq, rfl⟩
  | known src' data now banner rule peer hget =>
      dsimp only at hq
      by_cases hsame : src = src'
      · subst hsame
        rw [Table.get_set, Option.some.injEq] at hq
        exact .inl ⟨peer, hget, by rw [← hq]⟩
      · rw [Table.get_set_ne _ _ hsame] at hq
        exact .inl ⟨q, hq, rfl⟩
  | sweep now order peers horder hpeers hkeep =>
      subst hpeers
      exact .inl ⟨q, peers_of_retain hq, rfl⟩
  | drained now order peers conn why horder hpeers hconn hroom =>
      subst hpeers
      exact .inl ⟨q, peers_of_retain hq, rfl⟩
  | _ => exact .inl ⟨q, hq, rfl⟩

theorem turn_overflowConn {next : ℕ} {s : State Addr} {input : Input Addr}
    {out : Outcome (State Addr) Addr} (hturn : Turn cfg next s input out) {id : ℕ}
    (hid : out.state.overflowConn = some id) :
    s.overflowConn = some id ∨ id = next ∧ out.took = some .overflow := by
  cases hturn with
  | overflowOpen src data now banner rule msg hnew hfull hconn =>
      exact .inr ⟨(Option.some.inj hid).symm, rfl⟩
  | drained now order peers conn why horder hpeers hconn hroom => cases hid
  | _ => exact .inl hid

theorem filterMap_of_unique {α β : Type*} {g : α → Option β} {l : List α} {x : α} (hl : l.Nodup)
    (hx : x ∈ l) (hg : ∀ y ∈ l, y ≠ x → g y = none) : l.filterMap g = (g x).toList := by
  obtain ⟨pre, post, rfl⟩ := List.append_of_mem hx
  have hpre : pre.filterMap g = [] := by
    apply List.filterMap_eq_nil_iff.mpr
    intro y hy
    apply hg y (List.mem_append_left _ hy)
    rintro rfl
    exact (List.nodup_append.mp hl).2.2 y hy y List.mem_cons_self rfl
  have hpost : post.filterMap g = [] := by
    apply List.filterMap_eq_nil_iff.mpr
    intro y hy
    apply hg y (List.mem_append_right _ (List.mem_cons_of_mem _ hy))
    rintro rfl
    exact (List.nodup_cons.mp (List.nodup_append.mp hl).2.1).1 hy
  rw [List.filterMap_append, hpre, List.nil_append]
  cases hgx : g x with
  | none => rw [List.filterMap_cons_none hgx, hpost, Option.toList_none]
  | some b => rw [List.filterMap_cons_some hgx, hpost, Option.toList_some]

theorem uses_retired_of_not (now : ℕ) {s : State Addr} (order : List Addr) {id : ℕ}
    (h : ∀ src q, s.peers.get src = some q → q.conn ≠ id) :
    uses id (retired cfg now s order) = [] := by
  apply uses_eq_nil
  intro e he
  obtain ⟨src, q, -, hq, -, rfl⟩ := (mem_retired cfg).mp he
  exact if_neg (h src q hq)

/-- A sweep closes the id of a peer once, if the peer is retired. -/
theorem uses_retired (now : ℕ) {s : State Addr} {order : List Addr} (horder : Enumerates order s)
    {id : ℕ} {src : Addr} {q : Peer} (hq : s.peers.get src = some q) (hid : q.conn = id)
    (honly : ∀ src' q', s.peers.get src' = some q' → q'.conn = id → src' = src) :
    uses id (retired cfg now s order) = if isFresh cfg now q then [] else [.closed] := by
  have hsrc : src ∈ order := by
    rw [← List.mem_toFinset, horder.2, Finmap.mem_keys]
    exact Table.mem_iff_get.mpr ⟨q, hq⟩
  unfold uses retired
  rw [List.filterMap_filterMap, filterMap_of_unique horder.1 hsrc]
  · cases hfresh : isFresh cfg now q with
    | true => simp [hq, hfresh]
    | false => simp [hq, hfresh, use, Call.use, hid]
  · intro src' _ hne
    cases hq' : s.peers.get src' with
    | none => rfl
    | some q' =>
        have hid' : q'.conn ≠ id := fun h => hne (honly src' q' hq' h)
        cases hfresh : isFresh cfg now q' with
        | true => simp [hfresh]
        | false => simp [hfresh, use, Call.use, hid']

/-- A turn takes the id of a peer from stage to stage. -/
theorem turn_peer_id {next : ℕ} {s : State Addr} {input : Input Addr}
    {out : Outcome (State Addr) Addr} (hturn : Turn cfg next s input out) {id : ℕ} {src : Addr}
    {q : Peer} (hq : s.peers.get src = some q) (hid : q.conn = id) (hnext : next ≠ id)
    (honly : ∀ src' q', s.peers.get src' = some q' → q'.conn = id → src' = src)
    (hover : s.overflowConn ≠ some id) :
    after .live (uses id out.effects) = some (stage out.state id (.peer src)) := by
  have hretained : ∀ now, after .live (if isFresh cfg now q then [] else [.closed]) =
      some (stage { s with peers := s.peers.retain fun _ p => isFresh cfg now p } id
        (.peer src)) := by
    intro now
    cases hfresh : isFresh cfg now q with
    | true => simp [stage, Table.get_retain, hq, hfresh, hid]
    | false => simp [stage, Table.get_retain, hq, hfresh, Stage.next]
  cases hturn with
  | overflowMore src' data now banner rule conn hnew hfull hconn =>
      have hne : conn ≠ id := by
        rintro rfl
        exact hover hconn
      simp [use, Call.use, hne, stage, hq, hid]
  | overflowOpen src' data now banner rule msg hnew hfull hconn =>
      simp [use, Call.use, hnext, stage, hq, hid]
  | newPeer src' data now banner rule hnew hroom =>
      have hne : src ≠ src' := by
        rintro rfl
        cases hq.symm.trans hnew
      have hsaid := (uses_spoken cfg src' next data true banner rule id).1 hnext
      simp [use, Call.use, hnext, hsaid, stage, Table.get_set_ne _ _ hne, hq, hid]
  | known src' data now banner rule peer hget =>
      by_cases hsame : src' = src
      · subst hsame
        obtain rfl : peer = q := Option.some.inj (hget.symm.trans hq)
        have hused := after_used (uses_spoken cfg src' peer.conn data false banner rule id).2
        simpa [use, Call.use, hid, Stage.next, stage] using hused
      · have hne : peer.conn ≠ id := fun h => hsame (honly src' peer hget h)
        have hsaid := (uses_spoken cfg src' peer.conn data false banner rule id).1 hne
        simp only [greeting_false, uses_nil, List.nil_append] at hsaid
        simp [use, Call.use, hne, hsaid, stage, Table.get_set_ne _ _ (Ne.symm hsame), hq, hid]
  | recvError e => simp [use, Call.use, stage, hq, hid]
  | sweep now order peers horder hpeers hkeep =>
      subst hpeers
      rw [uses_retired cfg now horder hq hid honly]
      exact hretained now
  | drained now order peers conn why horder hpeers hconn hroom =>
      subst hpeers
      have hne : conn ≠ id := by
        rintro rfl
        exact hover hconn
      have hclose : uses id ([.call (.close .udp cfg.name conn "overflow" why)] :
          List (Effect Addr)) = [] := by
        simp [use, Call.use, hne]
      rw [uses_append, uses_retired cfg now horder hq hid honly, hclose, List.append_nil]
      exact hretained now

theorem turn_overflow_id {next : ℕ} {s : State Addr} {input : Input Addr}
    {out : Outcome (State Addr) Addr} (hturn : Turn cfg next s input out) {id : ℕ}
    (hid : s.overflowConn = some id) (hnext : next ≠ id)
    (hpeers : ∀ src q, s.peers.get src = some q → q.conn ≠ id) :
    after .live (uses id out.effects) = some (stage out.state id .overflow) := by
  cases hturn with
  | overflowMore src data now banner rule conn hnew hfull hconn =>
      obtain rfl : conn = id := Option.some.inj (hconn.symm.trans hid)
      simp [use, Call.use, Stage.next, stage, hconn]
  | overflowOpen src data now banner rule msg hnew hfull hconn => cases hconn.symm.trans hid
  | newPeer src data now banner rule hnew hroom =>
      have hsaid := (uses_spoken cfg src next data true banner rule id).1 hnext
      simp [use, Call.use, hnext, hsaid, stage, hid]
  | known src data now banner rule peer hget =>
      have hsaid := (uses_spoken cfg src peer.conn data false banner rule id).1
        (hpeers src peer hget)
      simp only [greeting_false, uses_nil, List.nil_append] at hsaid
      simp [use, Call.use, hpeers src peer hget, hsaid, stage, hid]
  | recvError e => simp [use, Call.use, stage, hid]
  | sweep now order peers horder _ hkeep =>
      rw [uses_retired_of_not cfg now order hpeers]
      simp [stage, hid]
  | drained now order peers conn why horder _ hconn hroom =>
      obtain rfl : conn = id := Option.some.inj (hconn.symm.trans hid)
      rw [uses_append, uses_retired_of_not cfg now order hpeers]
      simp [use, Call.use, Stage.next, stage]

theorem turn_took {next : ℕ} {s : State Addr} {input : Input Addr}
    {out : Outcome (State Addr) Addr} (hturn : Turn cfg next s input out) {w : Owner Addr}
    (hw : out.took = some w) :
    after .fresh (uses next out.effects) = some .live ∧ stage out.state next w = .live := by
  cases hturn with
  | overflowOpen src data now banner rule msg hnew hfull hconn =>
      cases hw
      simp [use, Call.use, Stage.next, stage]
  | newPeer src data now banner rule hnew hroom =>
      cases hw
      have hused := after_used (uses_spoken cfg src next data true banner rule next).2
      refine ⟨?_, by simp [stage]⟩
      simpa [use, Call.use, Stage.next] using hused
  | _ => cases hw

/-- A turn takes every id that was given to an owner from stage to stage. -/
theorem turn_stage {next : ℕ} {s : State Addr} {input : Input Addr}
    {out : Outcome (State Addr) Addr} (hturn : Turn cfg next s input out) {id : ℕ}
    {w : Owner Addr} (hnext : next ≠ id)
    (hpeer : ∀ src q, s.peers.get src = some q → q.conn = id → w = .peer src)
    (hover : s.overflowConn = some id → w = .overflow) (hw : ∀ peer, w ≠ .connection peer) :
    after (stage s id w) (uses id out.effects) = some (stage out.state id w) := by
  have hquiet : ¬ Holds s id → uses id out.effects = [] := by
    intro hnot
    by_contra huses
    rcases turn_names cfg hturn huses with hholds | ⟨heq, -⟩
    · exact hnot hholds
    · exact hnext heq.symm
  cases w with
  | connection peer => exact absurd rfl (hw peer)
  | peer src =>
      have hnot : s.overflowConn ≠ some id := by
        intro h
        cases hover h
      by_cases hheld : (s.peers.get src).map Peer.conn = some id
      · obtain ⟨q, hq, hid⟩ := Option.map_eq_some_iff.mp hheld
        have hlast := turn_peer_id cfg hturn hq hid hnext
          (fun src' q' hq' hid' => (Owner.peer.inj (hpeer src' q' hq' hid')).symm) hnot
        simpa only [stage, hheld, if_true] using hlast
      · have huses : uses id out.effects = [] := by
          apply hquiet
          rintro (⟨src', q, hq, hid⟩ | hconn)
          · obtain rfl : src = src' := Owner.peer.inj (hpeer src' q hq hid)
            exact hheld (by rw [hq, Option.map_some, hid])
          · exact hnot hconn
        have hafter : (out.state.peers.get src).map Peer.conn ≠ some id := by
          intro h
          obtain ⟨q, hq, hid⟩ := Option.map_eq_some_iff.mp h
          rcases turn_peers cfg hturn hq with ⟨q', hq', hsame⟩ | ⟨htaken, -⟩
          · exact hheld (by rw [hq', Option.map_some, hsame, hid])
          · exact hnext (htaken.symm.trans hid)
        simp only [stage, hheld, hafter, if_false, huses, after_nil]
  | overflow =>
      have hnot : ∀ src q, s.peers.get src = some q → q.conn ≠ id := by
        intro src q hq hid
        cases hpeer src q hq hid
      by_cases hheld : s.overflowConn = some id
      · have hlast := turn_overflow_id cfg hturn hheld hnext hnot
        simpa only [stage, hheld, if_true] using hlast
      · have huses : uses id out.effects = [] := by
          apply hquiet
          rintro (⟨src', q, hq, hid⟩ | hconn)
          · exact hnot src' q hq hid
          · exact hheld hconn
        have hafter : out.state.overflowConn ≠ some id := by
          intro h
          rcases turn_overflowConn cfg hturn h with hold | ⟨htaken, -⟩
          · exact hheld hold
          · exact hnext htaken.symm
        simp only [stage, hheld, hafter, if_false, huses, after_nil]

/-- Every effect of a turn is a call or bytes that leave; a greeting leaves
only along with the call that opens the peer's id. -/
theorem turn_effects {next : ℕ} {s : State Addr} {input : Input Addr}
    {out : Outcome (State Addr) Addr} (hturn : Turn cfg next s input out) {e : Effect Addr}
    (he : e ∈ out.effects) :
    (∃ c, e = .call c) ∨ ∃ dst conn trigger bytes, e = .sent dst conn trigger bytes ∧
      (trigger = .onConnect →
        ∃ c, .call c ∈ out.effects ∧ c.use conn = some .opened) := by
  have hretired : ∀ now order, e ∈ retired cfg now s order → ∃ c, e = .call c := by
    intro now order he
    obtain ⟨src, q, -, -, -, rfl⟩ := (mem_retired cfg).mp he
    exact ⟨_, rfl⟩
  cases hturn with
  | overflowMore src data now banner rule conn hnew hfull hconn =>
      rw [List.mem_singleton] at he
      exact .inl ⟨_, he⟩
  | overflowOpen src data now banner rule msg hnew hfull hconn =>
      simp only [List.mem_cons, List.not_mem_nil, or_false] at he
      rcases he with rfl | rfl | rfl <;> exact .inl ⟨_, rfl⟩
  | newPeer src data now banner rule hnew hroom =>
      rcases List.mem_cons.mp he with rfl | he
      · exact .inl ⟨_, rfl⟩
      · rcases List.mem_cons.mp he with rfl | he
        · exact .inl ⟨_, rfl⟩
        · obtain ⟨trigger, hsaid⟩ := said_of_mem_greeting_append_answer cfg he
          cases hsaid with
          | sent bytes =>
              exact .inr ⟨src, next, trigger, bytes, rfl,
                fun _ => ⟨_, List.mem_cons_self, if_pos rfl⟩⟩
          | data bytes => exact .inl ⟨_, rfl⟩
          | error msg => exact .inl ⟨_, rfl⟩
  | known src data now banner rule peer hget =>
      rcases List.mem_cons.mp he with rfl | he
      · exact .inl ⟨_, rfl⟩
      · obtain ⟨name, hsaid⟩ := said_of_mem_answer cfg he
        cases hsaid with
        | sent bytes => exact .inr ⟨src, peer.conn, .rule name, bytes, rfl, nofun⟩
        | data bytes => exact .inl ⟨_, rfl⟩
        | error msg => exact .inl ⟨_, rfl⟩
  | recvError msg =>
      rw [List.mem_singleton] at he
      exact .inl ⟨_, he⟩
  | sweep now order peers horder hpeers hkeep => exact .inl (hretired now order he)
  | drained now order peers conn why horder hpeers hconn hroom =>
      rcases List.mem_append.mp he with he | he
      · exact .inl (hretired now order he)
      · rw [List.mem_singleton] at he
        exact .inl ⟨_, he⟩

omit [DecidableEq Addr] in
theorem uses_startup (id : ℕ) : uses id (startup cfg) = [] := by
  unfold startup
  split
  · rfl
  · split <;> rfl

end Udp

end KirbLaSnoop
