import Mathlib
import KirbLaSnoop.Listener.Uses

/-!
# Idle peers

A source keeps its connection id as long as its datagrams come often enough.
A sweep between two of them reads the clock before the second one does, so it
cannot find the source idle.
-/

namespace KirbLaSnoop

open Lifecycle Effect

namespace Udp

variable {Addr : Type*} [DecidableEq Addr] (cfg : Config Addr)

/-! ## The clock -/

/-- The reading of the clock in an action, if it takes one. -/
def Act.reading : Act Addr → Option ℕ
  | .turn (.datagram _ _ now _ _) => some now
  | .turn (.sweep now _) => some now
  | _ => none

def Act.heard (src : Addr) : Act Addr → Option ℕ
  | .turn (.datagram src' _ now _ _) => if src' = src then some now else none
  | _ => none

/-- The clock does not go back, and its readings are below `2 ^ 63`. -/
structure Clock (acts : List (Act Addr)) : Prop where
  sorted : (acts.filterMap Act.reading).Pairwise (· ≤ ·)
  small : ∀ now ∈ acts.filterMap Act.reading, now < 2 ^ 63

/-- The gaps between consecutive datagrams of `src` are shorter than the idle
time. -/
def Steady (src : Addr) (acts : List (Act Addr)) : Prop :=
  (acts.filterMap (Act.heard src)).IsChain fun t t' => t' - t < cfg.idleSecs * 1000

theorem Act.reading_of_heard {src : Addr} {a : Act Addr} {t : ℕ} (h : a.heard src = some t) :
    a.reading = some t := by
  unfold Act.heard at h
  split at h
  · rw [Option.ite_none_right_eq_some] at h
    exact h.2
  · cases h

omit [DecidableEq Addr] in
theorem Clock.tail {a : Act Addr} {acts : List (Act Addr)} (h : Clock (a :: acts)) :
    Clock acts := by
  cases hread : a.reading with
  | none =>
      have hsame : (a :: acts).filterMap Act.reading = acts.filterMap Act.reading :=
        List.filterMap_cons_none hread
      exact ⟨hsame ▸ h.sorted, hsame ▸ h.small⟩
  | some now =>
      have hcons : (a :: acts).filterMap Act.reading = now :: acts.filterMap Act.reading :=
        List.filterMap_cons_some hread
      exact ⟨(List.pairwise_cons.mp (hcons ▸ h.sorted)).2,
        fun t ht => h.small t (hcons ▸ List.mem_cons_of_mem _ ht)⟩

theorem Clock.le {a : Act Addr} {acts : List (Act Addr)} (h : Clock (a :: acts)) {now : ℕ}
    (hread : a.reading = some now) {src : Addr} {t : ℕ}
    (ht : t ∈ acts.filterMap (Act.heard src)) : now ≤ t ∧ t < 2 ^ 63 := by
  have hcons : (a :: acts).filterMap Act.reading = now :: acts.filterMap Act.reading :=
    List.filterMap_cons_some hread
  obtain ⟨b, hb, hheard⟩ := List.mem_filterMap.mp ht
  have hmem : t ∈ acts.filterMap Act.reading :=
    List.mem_filterMap.mpr ⟨b, hb, Act.reading_of_heard hheard⟩
  refine ⟨(List.pairwise_cons.mp (hcons ▸ h.sorted)).1 t hmem, ?_⟩
  exact h.small t (hcons ▸ List.mem_cons_of_mem _ hmem)

omit [DecidableEq Addr] in
/-- Below `2 ^ 63` the saturation of the cutoff makes no difference. -/
theorem isFresh_iff {now : ℕ} (hnow : now < 2 ^ 63) (p : Peer) :
    isFresh cfg now p = true ↔ now - p.lastSeen < cfg.idleSecs * 1000 := by
  rw [isFresh, decide_eq_true_eq]
  omega

/-! ## One turn -/

/-- The id under which an effect logs a received message. -/
def rxConn : Effect Addr → Option ℕ
  | .call (.data _ _ conn _ .rx _ _) => some conn
  | _ => none

def rxConns (es : List (Effect Addr)) : List ℕ := es.filterMap rxConn

omit [DecidableEq Addr] in
theorem rxConns_said {src : Addr} {conn : ℕ} {es : List (Effect Addr)}
    (h : ∀ e ∈ es, ∃ trigger, Said cfg src conn trigger e) : rxConns es = [] := by
  apply List.filterMap_eq_nil_iff.mpr
  intro e he
  obtain ⟨trigger, hsaid⟩ := h e he
  cases hsaid <;> rfl

omit [DecidableEq Addr] in
theorem rxConns_rx (conn : ℕ) (name peer : String) (data : List UInt8)
    (es : List (Effect Addr)) :
    rxConns (.call (.data .udp name conn peer .rx data none) :: es) = conn :: rxConns es :=
  rfl

omit [DecidableEq Addr] in
theorem rxConns_opened (conn : ℕ) (name localAddr peer : String) (es : List (Effect Addr)) :
    rxConns (.call (.openConn .udp name conn localAddr peer none) :: es) = rxConns es :=
  rfl

/-- A datagram of a source that is tracked or finds room is logged under the
id that the table then holds. -/
theorem turn_tracked {next : ℕ} {s : State Addr} {src : Addr} {data : List UInt8} {now : ℕ}
    {banner rule : Except String Unit} {out : Outcome (State Addr) Addr}
    (hturn : Turn cfg next s (.datagram src data now banner rule) out)
    (htracked : (∃ p, s.peers.get src = some p) ∨ s.peers.size < cfg.maxPeers) :
    ∃ id, out.state.peers.get src = some ⟨id, now⟩ ∧ rxConns out.effects = [id] ∧
      ∀ p, s.peers.get src = some p → p.conn = id := by
  cases hturn with
  | overflowMore _ _ _ _ _ conn hnew hfull hconn =>
      rcases htracked with ⟨p, hp⟩ | hroom
      · cases hnew.symm.trans hp
      · exact absurd hroom (Nat.not_lt_of_le hfull)
  | overflowOpen _ _ _ _ _ msg hnew hfull hconn =>
      rcases htracked with ⟨p, hp⟩ | hroom
      · cases hnew.symm.trans hp
      · exact absurd hroom (Nat.not_lt_of_le hfull)
  | newPeer _ _ _ _ _ hnew hroom =>
      refine ⟨next, Table.get_set _ _ _, ?_, fun p hp => ?_⟩
      · rw [rxConns_opened, rxConns_rx,
          rxConns_said cfg fun e he => said_of_mem_greeting_append_answer cfg he]
      · cases hnew.symm.trans hp
  | known _ _ _ _ _ peer hget =>
      refine ⟨peer.conn, Table.get_set _ _ _, ?_, fun p hp => ?_⟩
      · rw [rxConns_rx, rxConns_said cfg fun e he =>
          (said_of_mem_answer cfg he).elim fun name hsaid => ⟨_, hsaid⟩]
      · rw [Option.some.inj (hp.symm.trans hget)]

/-- What a turn does to a source in the table: its own datagram renews it, a
sweep keeps it while it is fresh, and nothing else touches it. -/
theorem turn_known {next : ℕ} {s : State Addr} {input : Input Addr}
    {out : Outcome (State Addr) Addr} (hturn : Turn cfg next s input out) {src : Addr} {p : Peer}
    (hp : s.peers.get src = some p) :
    (∃ data now banner rule, input = .datagram src data now banner rule ∧
        out.state.peers.get src = some ⟨p.conn, now⟩ ∧ rxConns out.effects = [p.conn]) ∨
      (∃ now order, input = .sweep now order ∧
        out.state.peers.get src = if isFresh cfg now p then some p else none) ∨
      (Act.turn input).heard src = none ∧ out.state.peers.get src = some p := by
  have hretain : ∀ now, (s.peers.retain fun _ q => isFresh cfg now q).get src =
      if isFresh cfg now p then some p else none := by
    intro now
    rw [Table.get_retain, hp, Option.filter_some]
  cases input with
  | datagram src' data now banner rule =>
      by_cases hsame : src' = src
      · subst hsame
        obtain ⟨id, hget, hrx, hid⟩ := turn_tracked cfg hturn (.inl ⟨p, hp⟩)
        obtain rfl := hid p hp
        exact .inl ⟨data, now, banner, rule, rfl, hget, hrx⟩
      · refine .inr (.inr ⟨if_neg hsame, ?_⟩)
        cases hturn with
        | newPeer => exact (Table.get_set_ne _ _ (Ne.symm hsame)).trans hp
        | known => exact (Table.get_set_ne _ _ (Ne.symm hsame)).trans hp
        | overflowMore => exact hp
        | overflowOpen => exact hp
  | recvError e =>
      cases hturn
      exact .inr (.inr ⟨rfl, hp⟩)
  | sweep now order =>
      refine .inr (.inl ⟨now, order, rfl, ?_⟩)
      cases hturn with
      | sweep _ _ peers horder hpeers hkeep => exact hpeers ▸ hretain now
      | drained _ _ peers conn why horder hpeers hconn hroom => exact hpeers ▸ hretain now

/-! ## Runs -/

theorem step_known {l u : Loop Addr} {a : Act Addr} {es : List (Effect Addr)}
    (hstep : (lts cfg).step l a = some (u, es)) {src : Addr} {p : Peer}
    (hp : l.listener.peers.get src = some p) :
    (∃ now, a.heard src = some now ∧ u.listener.peers.get src = some ⟨p.conn, now⟩ ∧
        rxConns es = [p.conn]) ∨
      (∃ now, a.heard src = none ∧ a.reading = some now ∧
        u.listener.peers.get src = if isFresh cfg now p then some p else none) ∨
      a.heard src = none ∧ u.listener.peers.get src = some p := by
  rcases lts_cases cfg hstep with ⟨input, out, rfl, -, hturn, rfl, rfl⟩ | ⟨n, rfl, rfl, rfl⟩
  · rcases turn_known cfg hturn hp with
      ⟨data, now, banner, rule, rfl, hget, hrx⟩ | ⟨now, order, rfl, hget⟩ | ⟨hheard, hget⟩
    · exact .inl ⟨now, if_pos rfl, hget, hrx⟩
    · exact .inr (.inl ⟨now, rfl, rfl, hget⟩)
    · exact .inr (.inr ⟨hheard, hget⟩)
  · exact .inr (.inr ⟨rfl, hp⟩)

/-- From a state that tracks `src` since `t` under `id`, every datagram of
`src` is logged under `id`. -/
theorem stable_run {src : Addr} {id : ℕ} {acts : List (Act Addr)} {l l' : Loop Addr} {t : ℕ}
    {tr : List (List (Effect Addr))} (hrun : (lts cfg).run l acts = some (l', tr))
    (hget : l.listener.peers.get src = some ⟨id, t⟩) (hclock : Clock acts)
    (hgaps : (t :: acts.filterMap (Act.heard src)).IsChain
      fun t t' => t' - t < cfg.idleSecs * 1000) :
    ∀ x ∈ acts.zip tr, (x.1.heard src).isSome = true → rxConns x.2 = [id] := by
  induction acts generalizing l t tr with
  | nil => simp
  | cons a acts ih =>
      obtain ⟨u, es, os, hstep, hrest, rfl⟩ := (lts cfg).run_cons_eq_some.mp hrun
      rw [List.zip_cons_cons, List.forall_mem_cons]
      rcases step_known cfg hstep hget with
        ⟨now, hheard, hnext, hrx⟩ | ⟨now, hheard, hread, hnext⟩ | ⟨hheard, hnext⟩
      · rw [List.filterMap_cons_some hheard, List.isChain_cons_cons] at hgaps
        exact ⟨fun _ => hrx, ih hrest hnext hclock.tail hgaps.2⟩
      · rw [List.filterMap_cons_none hheard] at hgaps
        refine ⟨by simp [hheard], ?_⟩
        cases hheards : acts.filterMap (Act.heard src) with
        | nil =>
            intro x hx hsome
            have hnone := List.filterMap_eq_nil_iff.mp hheards x.1 (List.of_mem_zip hx).1
            rw [hnone] at hsome
            cases hsome
        | cons t' ts =>
            -- the sweep reads the clock no later than the next datagram does
            have hlater := hclock.le hread (hheards ▸ List.mem_cons_self)
            have hgap := (List.isChain_cons_cons.mp (hheards ▸ hgaps)).1
            have hfresh : isFresh cfg now ⟨id, t⟩ = true := by
              rw [isFresh_iff cfg (by omega)]
              dsimp only
              omega
            rw [hfresh, if_pos rfl] at hnext
            exact ih hrest hnext hclock.tail hgaps
      · rw [List.filterMap_cons_none hheard] at hgaps
        exact ⟨by simp [hheard], ih hrest hnext hclock.tail hgaps⟩

/-- The ids of two sources in the table differ. -/
def Apart (l : Loop Addr) : Prop :=
  ∀ src src' p p', l.listener.peers.get src = some p → l.listener.peers.get src' = some p' →
    p.conn = p'.conn → src = src'

theorem apart_turn {next : ℕ} {s : State Addr} {input : Input Addr}
    {out : Outcome (State Addr) Addr} (hturn : Turn cfg next s input out)
    (htaken : ∀ src p, s.peers.get src = some p → p.conn < next) (hapart : Apart ⟨s, next⟩) :
    Apart ⟨out.state, out.next next⟩ := by
  intro src src' p p' hp hp' hconn
  rcases turn_peers cfg hturn hp with ⟨q, hq, hqp⟩ | ⟨hnew, htook⟩
  · rcases turn_peers cfg hturn hp' with ⟨q', hq', hqp'⟩ | ⟨hnew', htook'⟩
    · exact hapart src src' q q' hq hq' (hqp.trans (hconn.trans hqp'.symm))
    · have hlt := htaken src q hq
      omega
  · rcases turn_peers cfg hturn hp' with ⟨q', hq', hqp'⟩ | ⟨hnew', htook'⟩
    · have hlt := htaken src' q' hq'
      omega
    · exact Owner.peer.inj (Option.some.inj (htook.symm.trans htook'))

theorem apart_run (first : ℕ) {acts : List (Act Addr)} {l : Loop Addr}
    {tr : List (List (Effect Addr))} (h : (lts cfg).run (.start first) acts = some (l, tr)) :
    Apart l := by
  refine ((lts cfg).run_induction (fun _ l tr => Sound cfg l tr.flatten ∧ Apart l)
    ⟨sound_start cfg first, ?_⟩ ?_ h).2
  · intro src src' p p' hp
    simp [Loop.start, State.new] at hp
  · rintro as a rest u os v o - - ⟨hsound, hapart⟩ hs
    refine ⟨?_, ?_⟩
    · rw [List.flatten_append, List.flatten_singleton]
      exact sound_step cfg hsound hs
    · rcases lts_cases cfg hs with ⟨input, out, rfl, -, hturn, rfl, rfl⟩ | ⟨n, rfl, rfl, rfl⟩
      · exact apart_turn cfg hturn hsound.taken hapart
      · exact hapart

/-- What a sweep leaves in the table, and what it does with the id of every
source that was there. -/
theorem sweep_retires {l m : Loop Addr} {es effects : List (Effect Addr)} {now : ℕ}
    {order : List Addr} (hsound : Sound cfg l effects) (hapart : Apart l)
    (hstep : (lts cfg).step l (.turn (.sweep now order)) = some (m, es)) (src : Addr) :
    m.listener.peers.get src = (l.listener.peers.get src).filter (isFresh cfg now) ∧
      ∀ p, l.listener.peers.get src = some p →
        uses p.conn es = if isFresh cfg now p then [] else [.closed] := by
  rcases lts_cases cfg hstep with ⟨input, out, hinput, -, hturn, rfl, rfl⟩ | ⟨n, hothers, -⟩
  · obtain rfl := Act.turn.inj hinput
    have honly : ∀ p, l.listener.peers.get src = some p →
        ∀ src' p', l.listener.peers.get src' = some p' → p'.conn = p.conn → src' = src :=
      fun p hp src' p' hp' hconn => hapart src' src p' p hp' hp hconn
    cases hturn with
    | sweep _ _ peers horder hpeers hkeep =>
        refine ⟨hpeers ▸ Table.get_retain _ _ _, fun p hp => ?_⟩
        exact uses_retired cfg now horder hp rfl (honly p hp)
    | drained _ _ peers conn why horder hpeers hconn hroom =>
        refine ⟨hpeers ▸ Table.get_retain _ _ _, fun p hp => ?_⟩
        have hother : conn ≠ p.conn := ((hsound.apart conn hconn).2 src p hp).symm
        rw [uses_append, uses_retired cfg now horder hp rfl (honly p hp)]
        simp [use, Call.use, hother]
  · cases hothers

/-- A source that is in the table, or finds room there, keeps one id as long
as its datagrams come within the idle time of each other; a sweep retires
exactly the sources that have been silent for the idle time, and closes each
of them once. -/
theorem stable_conn_id (first : ℕ) {acts : List (Act Addr)} {l : Loop Addr}
    {tr : List (List (Effect Addr))} (hrun : (lts cfg).run (.start first) acts = some (l, tr)) :
    (∀ src data t banner rule rest l' os,
      (lts cfg).run l (.turn (.datagram src data t banner rule) :: rest) = some (l', os) →
      (src ∈ l.listener.peers ∨ l.listener.peers.size < cfg.maxPeers) →
      Clock (.turn (.datagram src data t banner rule) :: rest) →
      Steady cfg src (.turn (.datagram src data t banner rule) :: rest) →
        ∃ id, ∀ x ∈ (Act.turn (.datagram src data t banner rule) :: rest).zip os,
          (x.1.heard src).isSome = true → rxConns x.2 = [id]) ∧
    ∀ now order m es, (lts cfg).step l (.turn (.sweep now order)) = some (m, es) → now < 2 ^ 63 →
      ∀ src, m.listener.peers.get src =
          (l.listener.peers.get src).filter (fun p => now - p.lastSeen < cfg.idleSecs * 1000) ∧
        ∀ p, l.listener.peers.get src = some p →
          uses p.conn es = if now - p.lastSeen < cfg.idleSecs * 1000 then [] else [.closed] := by
  constructor
  · intro src data t banner rule rest l' os hrest htracked hclock hsteady
    obtain ⟨u, es, os, hstep, hlater, rfl⟩ := (lts cfg).run_cons_eq_some.mp hrest
    obtain ⟨id, hget, hrx⟩ : ∃ id, u.listener.peers.get src = some ⟨id, t⟩ ∧ rxConns es = [id] := by
      rcases lts_cases cfg hstep with ⟨input, out, hinput, -, hturn, rfl, rfl⟩ | ⟨n, hothers, -⟩
      · obtain rfl := Act.turn.inj hinput
        obtain ⟨id, hget, hrx, -⟩ := turn_tracked cfg hturn (htracked.imp_left Table.mem_iff_get.mp)
        exact ⟨id, hget, hrx⟩
      · cases hothers
    have hheard : (Act.turn (.datagram src data t banner rule)).heard src = some t := if_pos rfl
    rw [Steady, List.filterMap_cons_some hheard] at hsteady
    refine ⟨id, ?_⟩
    rw [List.zip_cons_cons, List.forall_mem_cons]
    exact ⟨fun _ => hrx, stable_run cfg hlater hget hclock.tail hsteady⟩
  · intro now order m es hstep hnow src
    obtain ⟨hget, huses⟩ :=
      sweep_retires cfg (sound_run cfg first hrun) (apart_run cfg first hrun) hstep src
    have hfresh : isFresh cfg now = fun p => decide (now - p.lastSeen < cfg.idleSecs * 1000) := by
      funext p
      rw [Bool.eq_iff_iff, isFresh_iff cfg hnow p, decide_eq_true_eq]
    rw [hfresh] at hget
    refine ⟨hget, fun p hp => ?_⟩
    rw [huses p hp]
    exact if_congr (isFresh_iff cfg hnow p) rfl rfl

/-- A peer that is heard twice within a second, with a sweep in between, and a
second later no more. -/
def twice : List (Act ℕ) :=
  [.turn (.datagram 5 [1] 0 (.ok ()) (.ok ())), .turn (.sweep 500 [5]),
    .turn (.datagram 5 [2] 999 (.ok ()) (.ok ()))]

theorem stable_conn_id_twice :
    let cfg : Config ℕ := ⟨"u", "l", true, none, 1, 1, toString, id⟩
    ∃ l m tr es, (lts cfg).run (.start 1) twice = some (l, tr) ∧
      (∃ id, ∀ x ∈ twice.zip tr, (x.1.heard 5).isSome = true → rxConns x.2 = [id]) ∧
      (lts cfg).step l (.turn (.sweep 1999 [5])) = some (m, es) ∧
      m.listener.peers.get 5 = none ∧ uses 1 es = [.closed] := by
  have hclock : Clock twice := ⟨by decide, by decide⟩
  have hsteady : Steady (⟨"u", "l", true, none, 1, 1, toString, id⟩ : Config ℕ) 5 twice := by
    change List.IsChain _ [0, 999]
    simp
  have hstart := stable_conn_id (⟨"u", "l", true, none, 1, 1, toString, id⟩ : Config ℕ) 1
    (Lts.run_nil _ _)
  have hlater := stable_conn_id (⟨"u", "l", true, none, 1, 1, toString, id⟩ : Config ℕ) 1
    (show _ = some (_, _) from rfl : (lts _).run (.start 1) twice = some (_, _))
  refine ⟨_, _, _, _, rfl, ?_, rfl, ?_, ?_⟩
  · exact hstart.1 5 [1] 0 _ _ _ _ _ rfl (Or.inr (by decide)) hclock hsteady
  · exact (hlater.2 1999 [5] _ _ rfl (by decide) 5).1
  · exact (hlater.2 1999 [5] _ _ rfl (by decide) 5).2 ⟨1, 999⟩ rfl

end Udp

end KirbLaSnoop
