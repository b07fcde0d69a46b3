import Mathlib
import KirbLaSnoop.Lib.Transition
import KirbLaSnoop.Listener.Udp

/-!
# The peer table

What a turn of the udp loop can do, and what holds of the table and of the
overflow stream after any sequence of turns. Other tasks may take connection
ids between two turns.
-/

namespace KirbLaSnoop

namespace Udp

variable {Addr : Type*} [DecidableEq Addr] (cfg : Config Addr)

/-! ## What a turn can do -/

inductive Turn (next : ℕ) (s : State Addr) : Input Addr → Outcome (State Addr) Addr → Prop
  | overflowMore (src : Addr) (data : List UInt8) (now : ℕ) (banner rule : Except String Unit)
      (conn : ℕ) (hnew : s.peers.get src = none) (hfull : cfg.maxPeers ≤ s.peers.size)
      (hconn : s.overflowConn = some conn) :
      Turn next s (.datagram src data now banner rule)
        ⟨{ s with overflowCount := s.overflowCount + 1 }, none,
          [.call (.data .udp cfg.name conn (cfg.display src) .rx data none)]⟩
  | overflowOpen (src : Addr) (data : List UInt8) (now : ℕ) (banner rule : Except String Unit)
      (msg : String) (hnew : s.peers.get src = none) (hfull : cfg.maxPeers ≤ s.peers.size)
      (hconn : s.overflowConn = none) :
      Turn next s (.datagram src data now banner rule)
        ⟨{ s with overflowConn := some next, overflowCount := s.overflowCount + 1 },
          some .overflow,
          [.call (.openConn .udp cfg.name next cfg.localAddr "overflow" none),
            .call (.warn .udp cfg.name msg),
            .call (.data .udp cfg.name next (cfg.display src) .rx data none)]⟩
  | newPeer (src : Addr) (data : List UInt8) (now : ℕ) (banner rule : Except String Unit)
      (hnew : s.peers.get src = none) (hroom : s.peers.size < cfg.maxPeers) :
      Turn next s (.datagram src data now banner rule)
        ⟨{ s with
            peers := s.peers.set src ⟨next, now⟩
            crashed := !(ruling cfg data true).isOk }, some (.peer src),
          .call (.openConn .udp cfg.name next cfg.localAddr (cfg.display src) none) ::
            .call (.data .udp cfg.name next (cfg.display src) .rx data none) ::
              (greeting cfg src next data true banner ++ answer cfg src next data true rule)⟩
  | known (src : Addr) (data : List UInt8) (now : ℕ) (banner rule : Except String Unit)
      (peer : Peer) (hget : s.peers.get src = some peer) :
      Turn next s (.datagram src data now banner rule)
        ⟨{ s with
            peers := s.peers.set src ⟨peer.conn, now⟩
            crashed := !(ruling cfg data false).isOk }, none,
          .call (.data .udp cfg.name peer.conn (cfg.display src) .rx data none) ::
            answer cfg src peer.conn data false rule⟩
  | recvError (e : String) :
      Turn next s (.recvError e) ⟨s, none, [.call (.error .udp cfg.name none ("recv: " ++ e))]⟩
  | sweep (now : ℕ) (order : List Addr) (peers : Table Addr Peer) (horder : Enumerates order s)
      (hpeers : peers = s.peers.retain fun _ p => isFresh cfg now p)
      (hkeep : s.overflowConn = none ∨ cfg.maxPeers ≤ peers.size) :
      Turn next s (.sweep now order)
        ⟨{ s with peers := peers }, none, retired cfg now s order⟩
  | drained (now : ℕ) (order : List Addr) (peers : Table Addr Peer) (conn : ℕ) (why : String)
      (horder : Enumerates order s)
      (hpeers : peers = s.peers.retain fun _ p => isFresh cfg now p)
      (hconn : s.overflowConn = some conn) (hroom : peers.size < cfg.maxPeers) :
      Turn next s (.sweep now order)
        ⟨{ s with peers := peers, overflowConn := none, overflowCount := 0 }, none,
          retired cfg now s order ++ [.call (.close .udp cfg.name conn "overflow" why)]⟩

theorem turn_datagram (next : ℕ) (s : State Addr) (src : Addr) (data : List UInt8) (now : ℕ)
    (banner rule : Except String Unit) :
    Turn cfg next s (.datagram src data now banner rule)
      (datagram cfg next s src data now banner rule) := by
  cases hget : s.peers.get src with
  | some peer =>
      have hturn : Turn cfg next s (.datagram src data now banner rule) _ :=
        .known src data now banner rule peer hget
      simpa [datagram, tracked, hget] using hturn
  | none =>
      by_cases hfull : cfg.maxPeers ≤ s.peers.size
      · cases hconn : s.overflowConn with
        | some conn =>
            have hturn : Turn cfg next s (.datagram src data now banner rule) _ :=
              .overflowMore src data now banner rule conn hget hfull hconn
            simpa [datagram, overflow, isFull, hget, hfull, hconn] using hturn
        | none =>
            have hturn : Turn cfg next s (.datagram src data now banner rule) _ :=
              .overflowOpen src data now banner rule
                ("peer table hit " ++ toString cfg.maxPeers ++
                  " entries. further new sources are captured under one overflow stream, " ++
                  "untracked and unanswered. raise --udp-max-peers if this is legitimate traffic")
                hget hfull hconn
            simpa [datagram, overflow, isFull, hget, hfull, hconn] using hturn
      · have hturn : Turn cfg next s (.datagram src data now banner rule) _ :=
          .newPeer src data now banner rule hget (Nat.lt_of_not_le hfull)
        simpa [datagram, tracked, isFull, hget, hfull] using hturn

theorem turn_sweep (next now : ℕ) (s : State Addr) (order : List Addr)
    (horder : Enumerates order s) :
    Turn cfg next s (.sweep now order) (sweep cfg now s order) := by
  cases hconn : s.overflowConn with
  | none =>
      have hturn : Turn cfg next s (.sweep now order) _ :=
        .sweep now order _ horder rfl (.inl hconn)
      simpa [sweep, hconn] using hturn
  | some conn =>
      by_cases hfull : cfg.maxPeers ≤ (s.peers.retain fun _ p => isFresh cfg now p).size
      · have hturn : Turn cfg next s (.sweep now order) _ :=
          .sweep now order _ horder rfl (.inr hfull)
        simpa [sweep, hconn, isFull, hfull] using hturn
      · have hturn : Turn cfg next s (.sweep now order) _ :=
          .drained now order _ conn (toString s.overflowCount ++ " untracked datagrams") horder
            rfl hconn (Nat.lt_of_not_le hfull)
        simpa [sweep, hconn, isFull, hfull] using hturn

theorem handle_cases {next : ℕ} {s : State Addr} {input : Input Addr}
    {out : Outcome (State Addr) Addr} (h : handle cfg next s input = some out) :
    s.crashed = false ∧ Turn cfg next s input out := by
  unfold handle at h
  rw [Option.ite_none_left_eq_some, Bool.not_eq_true] at h
  obtain ⟨hup, h⟩ := h
  refine ⟨hup, ?_⟩
  cases input with
  | datagram src data now banner rule =>
      cases h
      exact turn_datagram cfg next s src data now banner rule
  | recvError e =>
      cases h
      exact .recvError e
  | sweep now order =>
      dsimp only at h
      rw [Option.ite_none_right_eq_some] at h
      obtain ⟨horder, h⟩ := h
      cases h
      exact turn_sweep cfg next now s order horder

/-! ## What the effects say -/

/-- The effect is a datagram logged under the id. -/
def isDatagramOf (id : ℕ) : Effect Addr → Bool
  | .call (.data _ _ conn _ .rx _ _) => conn = id
  | _ => false

def logged (id : ℕ) (effects : List (Effect Addr)) : ℕ := effects.countP (isDatagramOf id)

def answered : Effect Addr → Option Addr
  | .sent dst _ _ _ => some dst
  | _ => none

omit [DecidableEq Addr] in
theorem logged_append (id : ℕ) (es es' : List (Effect Addr)) :
    logged id (es ++ es') = logged id es + logged id es' :=
  List.countP_append

omit [DecidableEq Addr] in
theorem not_datagram_of_said {src : Addr} {conn : ℕ} {trigger : Trigger} {e : Effect Addr}
    (h : Said cfg src conn trigger e) (id : ℕ) : isDatagramOf id e = false := by
  cases h <;> rfl

omit [DecidableEq Addr] in
theorem logged_said {src : Addr} {conn : ℕ} {es : List (Effect Addr)}
    (h : ∀ e ∈ es, ∃ trigger, Said cfg src conn trigger e) (id : ℕ) : logged id es = 0 := by
  apply List.countP_eq_zero.mpr
  intro e he
  obtain ⟨trigger, hsaid⟩ := h e he
  rw [not_datagram_of_said cfg hsaid id]
  exact Bool.false_ne_true

omit [DecidableEq Addr] in
theorem said_of_mem_greeting_append_answer {src : Addr} {conn : ℕ} {data : List UInt8}
    {first : Bool} {banner rule : Except String Unit} {e : Effect Addr}
    (he : e ∈ greeting cfg src conn data first banner ++ answer cfg src conn data first rule) :
    ∃ trigger, Said cfg src conn trigger e := by
  rcases List.mem_append.mp he with he | he
  · exact ⟨_, said_of_mem_greeting cfg he⟩
  · obtain ⟨name, hsaid⟩ := said_of_mem_answer cfg he
    exact ⟨_, hsaid⟩

theorem mem_retired {now : ℕ} {s : State Addr} {order : List Addr} {e : Effect Addr} :
    e ∈ retired cfg now s order ↔
      ∃ src p, src ∈ order ∧ s.peers.get src = some p ∧ isFresh cfg now p = false ∧
        e = .call (.close .udp cfg.name p.conn (cfg.display src) "idle timeout") := by
  unfold retired
  rw [List.mem_filterMap]
  constructor
  · rintro ⟨src, hsrc, he⟩
    split at he
    · cases he
    · next p hp =>
        rw [Option.ite_none_left_eq_some, Bool.not_eq_true] at he
        obtain ⟨hidle, he⟩ := he
        exact ⟨src, p, hsrc, hp, hidle, (Option.some.inj he).symm⟩
  · rintro ⟨src, p, hsrc, hp, hidle, rfl⟩
    exact ⟨src, hsrc, by simp [hp, hidle]⟩

theorem logged_retired (id now : ℕ) (s : State Addr) (order : List Addr) :
    logged id (retired cfg now s order) = 0 := by
  apply List.countP_eq_zero.mpr
  intro e he
  obtain ⟨src, p, -, -, -, rfl⟩ := (mem_retired cfg).mp he
  exact Bool.false_ne_true

/-! ## Runs -/

/-- A listener and the id that the logger will give out next. -/
structure Loop (Addr : Type*) where
  listener : State Addr
  next : ℕ

/-- A turn of the loop; or the tasks of other listeners take `n` ids. -/
inductive Act (Addr : Type*) where
  | turn (input : Input Addr)
  | others (n : ℕ)

def lts : Lts (Loop Addr) (Act Addr) (List (Effect Addr)) where
  step l a :=
    match a with
    | .turn input =>
        (handle cfg l.next l.listener input).map fun out =>
          (⟨out.state, out.next l.next⟩, out.effects)
    | .others n => some (⟨l.listener, l.next + n⟩, [])

def Loop.start (first : ℕ) : Loop Addr := ⟨.new, first⟩

/-- What holds of a listener after it has done `effects`. -/
structure Sound (l : Loop Addr) (effects : List (Effect Addr)) : Prop where
  size : l.listener.peers.size ≤ cfg.maxPeers
  counting : l.listener.overflowConn.isSome ↔ 0 < l.listener.overflowCount
  overflow : ∀ id, l.listener.overflowConn = some id →
    l.listener.overflowCount = logged id effects ∧ l.listener.peers.size = cfg.maxPeers
  taken : ∀ src p, l.listener.peers.get src = some p → p.conn < l.next
  apart : ∀ id, l.listener.overflowConn = some id →
    id < l.next ∧ ∀ src p, l.listener.peers.get src = some p → p.conn ≠ id
  fresh : ∀ id, l.next ≤ id → logged id effects = 0

theorem sound_start (first : ℕ) : Sound cfg (Loop.start first : Loop Addr) [] := by
  refine ⟨Nat.zero_le _, by simp [Loop.start, State.new], ?_, ?_, ?_, fun _ _ => rfl⟩
  · intro id hid
    cases hid
  · intro src p hp
    simp [Loop.start, State.new] at hp
  · intro id hid
    cases hid

theorem sound_others {l : Loop Addr} {effects : List (Effect Addr)} (h : Sound cfg l effects)
    (n : ℕ) : Sound cfg ⟨l.listener, l.next + n⟩ effects := by
  refine ⟨h.size, h.counting, h.overflow, ?_, ?_, ?_⟩
  · intro src p hp
    exact Nat.lt_add_right n (h.taken src p hp)
  · intro id hid
    exact ⟨Nat.lt_add_right n (h.apart id hid).1, (h.apart id hid).2⟩
  · intro id hid
    exact h.fresh id (Nat.le_of_add_right_le hid)

omit [DecidableEq Addr] in
theorem logged_rx (id conn : ℕ) (name peer : String) (data : List UInt8)
    (es : List (Effect Addr)) :
    logged id (.call (.data .udp name conn peer .rx data none) :: es) =
      logged id es + if conn = id then 1 else 0 := by
  simp [logged, List.countP_cons, isDatagramOf]

omit [DecidableEq Addr] in
theorem logged_cons_of_not (id : ℕ) {e : Effect Addr} (he : isDatagramOf id e = false)
    (es : List (Effect Addr)) : logged id (e :: es) = logged id es :=
  List.countP_cons_of_neg (by rw [he]; exact Bool.false_ne_true)

theorem peers_of_set {peers : Table Addr Peer} {src src' : Addr} {p p' : Peer}
    (h : (peers.set src p).get src' = some p') : p' = p ∨ peers.get src' = some p' := by
  rw [Table.get_set_eq] at h
  split at h
  · exact .inl (Option.some.inj h).symm
  · exact .inr h

theorem peers_of_retain {peers : Table Addr Peer} {keep : Addr → Peer → Bool} {src : Addr}
    {p : Peer} (h : (peers.retain keep).get src = some p) : peers.get src = some p := by
  rw [Table.get_retain, Option.filter_eq_some_iff] at h
  exact h.1

/-- A turn that takes no id, leaves the overflow stream alone and logs
datagrams under the ids of tracked sources only. -/
theorem Sound.keep {l : Loop Addr} {effects new : List (Effect Addr)} (h : Sound cfg l effects)
    {peers : Table Addr Peer} (crashed : Bool) (hsize : peers.size ≤ cfg.maxPeers)
    (hfull : l.listener.overflowConn.isSome → cfg.maxPeers ≤ peers.size)
    (hpeers : ∀ src p, peers.get src = some p →
      ∃ src' q, l.listener.peers.get src' = some q ∧ q.conn = p.conn)
    (hlog : ∀ id, logged id new ≠ 0 → ∃ src p, l.listener.peers.get src = some p ∧ p.conn = id) :
    Sound cfg ⟨{ l.listener with peers := peers, crashed := crashed }, l.next⟩
      (effects ++ new) := by
  have hsame : ∀ id, (∀ src p, l.listener.peers.get src = some p → p.conn ≠ id) →
      logged id (effects ++ new) = logged id effects := by
    intro id hid
    have hnone : logged id new = 0 := by
      by_contra hsome
      obtain ⟨src, p, hp, hconn⟩ := hlog id hsome
      exact hid src p hp hconn
    rw [logged_append, hnone, Nat.add_zero]
  refine ⟨hsize, h.counting, ?_, ?_, ?_, ?_⟩
  · intro id hid
    refine ⟨?_, le_antisymm hsize (hfull (Option.isSome_of_eq_some hid))⟩
    rw [hsame id (h.apart id hid).2]
    exact (h.overflow id hid).1
  · intro src p hp
    obtain ⟨src', q, hq, hconn⟩ := hpeers src p hp
    exact hconn ▸ h.taken src' q hq
  · intro id hid
    refine ⟨(h.apart id hid).1, fun src p hp => ?_⟩
    obtain ⟨src', q, hq, hconn⟩ := hpeers src p hp
    exact hconn ▸ (h.apart id hid).2 src' q hq
  · intro id hid
    rw [hsame id fun src p hp => Nat.ne_of_lt (Nat.lt_of_lt_of_le (h.taken src p hp) hid)]
    exact h.fresh id hid

theorem Sound.openOverflow {l : Loop Addr} {effects new : List (Effect Addr)}
    (h : Sound cfg l effects) (hfull : cfg.maxPeers ≤ l.listener.peers.size)
    (hconn : l.listener.overflowConn = none)
    (hlog : ∀ id, logged id new = if l.next = id then 1 else 0) :
    Sound cfg ⟨{ l.listener with
        overflowConn := some l.next, overflowCount := l.listener.overflowCount + 1 }, l.next + 1⟩
      (effects ++ new) := by
  have hcount : l.listener.overflowCount = 0 := by
    have hnone := h.counting
    simp only [hconn, Option.isSome_none, Bool.false_eq_true, false_iff] at hnone
    omega
  refine ⟨h.size, by simp, ?_, ?_, ?_, ?_⟩
  · intro id hid
    obtain rfl : l.next = id := Option.some.inj hid
    refine ⟨?_, le_antisymm h.size hfull⟩
    rw [logged_append, hlog, if_pos rfl, h.fresh _ le_rfl, hcount]
  · intro src p hp
    exact Nat.lt_succ_of_lt (h.taken src p hp)
  · intro id hid
    obtain rfl : l.next = id := Option.some.inj hid
    exact ⟨Nat.lt_succ_self _, fun src p hp => Nat.ne_of_lt (h.taken src p hp)⟩
  · intro id hid
    have hlt : l.next < id := hid
    rw [logged_append, hlog, if_neg (Nat.ne_of_lt hlt), h.fresh id hlt.le]

/-- A new source takes an id, which cannot happen while there is an overflow
stream. -/
theorem Sound.addPeer {l : Loop Addr} {effects new : List (Effect Addr)} (h : Sound cfg l effects)
    {src : Addr} (now : ℕ) (crashed : Bool) (hnew : l.listener.peers.get src = none)
    (hroom : l.listener.peers.size < cfg.maxPeers)
    (hlog : ∀ id, logged id new = if l.next = id then 1 else 0) :
    Sound cfg ⟨{ l.listener with
        peers := l.listener.peers.set src ⟨l.next, now⟩, crashed := crashed }, l.next + 1⟩
      (effects ++ new) := by
  have hnone : l.listener.overflowConn = none := by
    cases hconn : l.listener.overflowConn with
    | none => rfl
    | some id => exact absurd (h.overflow id hconn).2 (Nat.ne_of_lt hroom)
  refine ⟨?_, h.counting, ?_, ?_, ?_, ?_⟩
  · dsimp only
    rw [Table.size_set_of_get_eq_none _ hnew]
    exact hroom
  · intro id hid
    exact absurd (hnone.symm.trans hid) nofun
  · intro src' p hp
    rcases peers_of_set hp with rfl | hp
    · exact Nat.lt_succ_self _
    · exact Nat.lt_succ_of_lt (h.taken src' p hp)
  · intro id hid
    exact absurd (hnone.symm.trans hid) nofun
  · intro id hid
    have hlt : l.next < id := hid
    rw [logged_append, hlog, if_neg (Nat.ne_of_lt hlt), h.fresh id hlt.le]

theorem sound_turn {l : Loop Addr} {effects : List (Effect Addr)} (h : Sound cfg l effects)
    {input : Input Addr} {out : Outcome (State Addr) Addr}
    (hturn : Turn cfg l.next l.listener input out) :
    Sound cfg ⟨out.state, out.next l.next⟩ (effects ++ out.effects) := by
  cases hturn with
  | overflowMore src data now banner rule conn hnew hfull hconn =>
      have hlog : ∀ id, logged id (effects ++
          [.call (.data .udp cfg.name conn (cfg.display src) .rx data none)]) =
            logged id effects + if conn = id then 1 else 0 := by
        intro id
        rw [logged_append, logged_rx]
        exact congrArg _ (Nat.zero_add _)
      refine ⟨h.size, ?_, ?_, h.taken, h.apart, ?_⟩
      · simp [hconn]
      · intro id hid
        obtain rfl : conn = id := Option.some.inj (hconn.symm.trans hid)
        refine ⟨?_, (h.overflow conn hconn).2⟩
        rw [hlog, if_pos rfl, (h.overflow conn hconn).1]
      · intro id hid
        have hne : conn ≠ id := Nat.ne_of_lt (Nat.lt_of_lt_of_le (h.apart conn hconn).1 hid)
        rw [hlog, if_neg hne, h.fresh id hid]
  | overflowOpen src data now banner rule msg hnew hfull hconn =>
      apply h.openOverflow cfg hfull hconn
      intro id
      rw [logged_cons_of_not id rfl, logged_cons_of_not id rfl, logged_rx]
      exact Nat.zero_add _
  | newPeer src data now banner rule hnew hroom =>
      apply h.addPeer cfg now _ hnew hroom
      intro id
      rw [logged_cons_of_not id rfl, logged_rx,
        logged_said cfg fun e he => said_of_mem_greeting_append_answer cfg he, Nat.zero_add]
  | known src data now banner rule peer hget =>
      have hsize : (l.listener.peers.set src ⟨peer.conn, now⟩).size = l.listener.peers.size :=
        Table.size_set_of_get_eq_some _ hget
      have hsaid : ∀ e ∈ answer cfg src peer.conn data false rule,
          ∃ trigger, Said cfg src peer.conn trigger e := by
        intro e he
        obtain ⟨name, hsaid⟩ := said_of_mem_answer cfg he
        exact ⟨_, hsaid⟩
      apply h.keep cfg _ (hsize.trans_le h.size)
      · intro hconn
        obtain ⟨id, hid⟩ := Option.isSome_iff_exists.mp hconn
        exact ((h.overflow id hid).2.symm.trans hsize.symm).le
      · intro src' p hp
        rcases peers_of_set hp with rfl | hp
        · exact ⟨src, peer, hget, rfl⟩
        · exact ⟨src', p, hp, rfl⟩
      · intro id hlogged
        rw [logged_rx, logged_said cfg hsaid, Nat.zero_add] at hlogged
        exact ⟨src, peer, hget, of_not_not fun hne => hlogged (if_neg hne)⟩
  | recvError e =>
      apply h.keep cfg l.listener.crashed h.size
      · intro hconn
        obtain ⟨id, hid⟩ := Option.isSome_iff_exists.mp hconn
        exact (h.overflow id hid).2.ge
      · exact fun src p hp => ⟨src, p, hp, rfl⟩
      · intro id hlogged
        exact absurd rfl hlogged
  | sweep now order peers horder hpeers hkeep =>
      subst hpeers
      have hsize := Table.size_retain_le (fun _ p => isFresh cfg now p) l.listener.peers
      apply h.keep cfg l.listener.crashed (hsize.trans h.size)
      · intro hconn
        rcases hkeep with hnone | hfull
        · rw [hnone] at hconn
          cases hconn
        · exact hfull
      · exact fun src p hp => ⟨src, p, peers_of_retain hp, rfl⟩
      · intro id hlogged
        exact absurd (logged_retired cfg id now l.listener order) hlogged
  | drained now order peers conn why horder hpeers hconn hroom =>
      subst hpeers
      have hlog : ∀ id, logged id (effects ++ (retired cfg now l.listener order ++
          [.call (.close .udp cfg.name conn "overflow" why)])) = logged id effects := by
        intro id
        rw [logged_append, logged_append, logged_retired, logged_cons_of_not id rfl]
        rfl
      refine ⟨hroom.le, by simp, ?_, ?_, ?_, ?_⟩
      · intro id hid
        cases hid
      · intro src p hp
        exact h.taken src p (peers_of_retain hp)
      · intro id hid
        cases hid
      · intro id hid
        exact (hlog id).trans (h.fresh id hid)

theorem lts_cases {l l' : Loop Addr} {a : Act Addr} {effects : List (Effect Addr)}
    (h : (lts cfg).step l a = some (l', effects)) :
    (∃ input out, a = .turn input ∧ l.listener.crashed = false ∧
        Turn cfg l.next l.listener input out ∧ l' = ⟨out.state, out.next l.next⟩ ∧
        effects = out.effects) ∨
      ∃ n, a = .others n ∧ l' = ⟨l.listener, l.next + n⟩ ∧ effects = [] := by
  cases a with
  | turn input =>
      obtain ⟨out, hout, h⟩ := Option.map_eq_some_iff.mp h
      obtain ⟨hup, hturn⟩ := handle_cases cfg hout
      obtain ⟨rfl, rfl⟩ := Prod.mk.inj h
      exact .inl ⟨input, out, rfl, hup, hturn, rfl, rfl⟩
  | others n =>
      obtain ⟨rfl, rfl⟩ := Prod.mk.inj (Option.some.inj h)
      exact .inr ⟨n, rfl, rfl, rfl⟩

theorem sound_step {l l' : Loop Addr} {a : Act Addr} {effects new : List (Effect Addr)}
    (h : Sound cfg l effects) (hstep : (lts cfg).step l a = some (l', new)) :
    Sound cfg l' (effects ++ new) := by
  rcases lts_cases cfg hstep with ⟨input, out, -, -, hturn, rfl, rfl⟩ | ⟨n, -, rfl, rfl⟩
  · exact sound_turn cfg h hturn
  · rw [List.append_nil]
    exact sound_others cfg h n

theorem sound_run (first : ℕ) {acts : List (Act Addr)} {l : Loop Addr}
    {tr : List (List (Effect Addr))} (h : (lts cfg).run (.start first) acts = some (l, tr)) :
    Sound cfg l tr.flatten := by
  apply (lts cfg).run_induction (fun _ l tr => Sound cfg l tr.flatten) (sound_start cfg first) ?_ h
  intro as a rest u os v o _ _ hu hs
  rw [List.flatten_append, List.flatten_singleton]
  exact sound_step cfg hu hs

/-! ## Who is answered -/

omit [DecidableEq Addr] in
theorem answered_said {src dst : Addr} {conn : ℕ} {trigger : Trigger} {e : Effect Addr}
    (h : Said cfg src conn trigger e) (he : answered e = some dst) : dst = src := by
  cases h with
  | sent bytes => exact (Option.some.inj he).symm
  | data bytes => cases he
  | error msg => cases he

/-- Only a datagram's source is answered, and only if the table holds it. -/
theorem answered_turn {next : ℕ} {s : State Addr} {input : Input Addr}
    {out : Outcome (State Addr) Addr} (hturn : Turn cfg next s input out) {e : Effect Addr}
    (he : e ∈ out.effects) {dst : Addr} (hdst : answered e = some dst) :
    dst ∈ out.state.peers ∧
      ∃ data now banner rule, input = .datagram dst data now banner rule := by
  cases hturn with
  | overflowMore src data now banner rule conn hnew hfull hconn =>
      rw [List.mem_singleton] at he
      subst he
      cases hdst
  | overflowOpen src data now banner rule msg hnew hfull hconn =>
      simp only [List.mem_cons, List.not_mem_nil, or_false] at he
      rcases he with rfl | rfl | rfl <;> cases hdst
  | newPeer src data now banner rule hnew hroom =>
      rw [List.mem_cons, List.mem_cons] at he
      rcases he with rfl | rfl | he
      · cases hdst
      · cases hdst
      · obtain ⟨trigger, hsaid⟩ := said_of_mem_greeting_append_answer cfg he
        obtain rfl := answered_said cfg hsaid hdst
        exact ⟨Table.mem_iff_get.mpr ⟨_, Table.get_set _ _ _⟩, data, now, banner, rule, rfl⟩
  | known src data now banner rule peer hget =>
      rw [List.mem_cons] at he
      rcases he with rfl | he
      · cases hdst
      · obtain ⟨name, hsaid⟩ := said_of_mem_answer cfg he
        obtain rfl := answered_said cfg hsaid hdst
        exact ⟨Table.mem_iff_get.mpr ⟨_, Table.get_set _ _ _⟩, data, now, banner, rule, rfl⟩
  | recvError msg =>
      rw [List.mem_singleton] at he
      subst he
      cases hdst
  | sweep now order peers horder hpeers hkeep =>
      obtain ⟨src, p, -, -, -, rfl⟩ := (mem_retired cfg).mp he
      cases hdst
  | drained now order peers conn why horder hpeers hconn hroom =>
      rcases List.mem_append.mp he with he | he
      · obtain ⟨src, p, -, -, -, rfl⟩ := (mem_retired cfg).mp he
        cases hdst
      · rw [List.mem_singleton] at he
        subst he
        cases hdst

def Act.isSweep : Act Addr → Bool
  | .turn (.sweep _ _) => true
  | _ => false

/-- Only a sweep takes a source out of the table. -/
theorem peers_grow {l l' : Loop Addr} {a : Act Addr} {effects : List (Effect Addr)}
    (hstep : (lts cfg).step l a = some (l', effects)) (ha : a.isSweep = false) {src : Addr}
    (hsrc : src ∈ l.listener.peers) : src ∈ l'.listener.peers := by
  have hset : ∀ src' p, src ∈ l.listener.peers.set src' p := by
    intro src' p
    obtain ⟨old, hold⟩ := Table.mem_iff_get.mp hsrc
    by_cases hsame : src = src'
    · exact Table.mem_iff_get.mpr ⟨p, by rw [hsame, Table.get_set]⟩
    · exact Table.mem_iff_get.mpr ⟨old, by rw [Table.get_set_ne _ _ hsame, hold]⟩
  rcases lts_cases cfg hstep with ⟨input, out, rfl, -, hturn, rfl, rfl⟩ | ⟨n, rfl, rfl, rfl⟩
  · cases hturn with
    | newPeer src' data now banner rule hnew hroom => exact hset src' _
    | known src' data now banner rule peer hget => exact hset src' _
    | sweep => cases ha
    | drained => cases ha
    | _ => exact hsrc
  · exact hsrc

def addresses (effects : List (Effect Addr)) : Finset Addr :=
  (effects.filterMap answered).toFinset

theorem addresses_subset {l l' : Loop Addr} {bs : List (Act Addr)}
    {os : List (List (Effect Addr))} (hrun : (lts cfg).run l bs = some (l', os))
    (hbs : ∀ a ∈ bs, a.isSweep = false) : addresses os.flatten ⊆ l'.listener.peers.keys := by
  apply (lts cfg).run_induction
    (fun _ l os => addresses os.flatten ⊆ l.listener.peers.keys) (Finset.empty_subset _) ?_ hrun
  intro as a rest u os v o hacts _ hu hs
  have ha : a.isSweep = false := hbs a (by simp [hacts])
  intro dst hdst
  rw [addresses, List.flatten_append, List.flatten_singleton, List.filterMap_append,
    List.toFinset_append, Finset.mem_union] at hdst
  rw [Finmap.mem_keys]
  rcases hdst with hold | hnew
  · exact peers_grow cfg hs ha (Finmap.mem_keys.mp (hu hold))
  · rw [List.mem_toFinset, List.mem_filterMap] at hnew
    obtain ⟨e, he, hdst⟩ := hnew
    rcases lts_cases cfg hs with ⟨input, out, -, -, hturn, rfl, rfl⟩ | ⟨n, -, rfl, rfl⟩
    · exact (answered_turn cfg hturn he hdst).1
    · cases he

theorem known_answered {l : Loop Addr} (hup : l.listener.crashed = false) {src : Addr}
    {peer : Peer} (hget : l.listener.peers.get src = some peer) (data : List UInt8) (now : ℕ)
    (banner rule : Except String Unit) :
    ∃ l', (lts cfg).step l (.turn (.datagram src data now banner rule)) =
      some (l', .call (.data .udp cfg.name peer.conn (cfg.display src) .rx data none) ::
        answer cfg src peer.conn data false rule) := by
  have hout : handle cfg l.next l.listener (.datagram src data now banner rule) =
      some (datagram cfg l.next l.listener src data now banner rule) := by
    simp [handle, hup]
  have heffects : (datagram cfg l.next l.listener src data now banner rule).effects =
      .call (.data .udp cfg.name peer.conn (cfg.display src) .rx data none) ::
        answer cfg src peer.conn data false rule := by
    simp [datagram, tracked, hget]
  refine ⟨⟨(datagram cfg l.next l.listener src data now banner rule).state,
    (datagram cfg l.next l.listener src data now banner rule).next l.next⟩, ?_⟩
  simp only [lts, hout, Option.map_some]
  rw [heffects]

/-- The table is bounded, the overflow stream is open just while the table is
full and datagrams go into it, and only tracked sources are answered. -/
theorem peer_table_invariant (first : ℕ) {acts : List (Act Addr)} {l : Loop Addr}
    {tr : List (List (Effect Addr))} (h : (lts cfg).run (.start first) acts = some (l, tr)) :
    l.listener.peers.size ≤ cfg.maxPeers ∧
    (l.listener.overflowConn.isSome ↔ 0 < l.listener.overflowCount) ∧
    (∀ id, l.listener.overflowConn = some id →
      l.listener.overflowCount = logged id tr.flatten ∧ l.listener.peers.size = cfg.maxPeers) ∧
    (∀ a l' effects, (lts cfg).step l a = some (l', effects) →
      ∀ dst conn trigger bytes, .sent dst conn trigger bytes ∈ effects →
        dst ∈ l'.listener.peers ∧
          ∃ data now banner rule, a = .turn (.datagram dst data now banner rule)) ∧
    (∀ bs l' os, (lts cfg).run l bs = some (l', os) → (∀ a ∈ bs, a.isSweep = false) →
      (addresses os.flatten).card ≤ cfg.maxPeers) ∧
    (∀ src peer data now banner name a payload, l.listener.crashed = false →
      l.listener.peers.get src = some peer → ruling cfg data false = .ok (some (name, a)) →
      a.isSilent = false → a.build Dns.reply data = some payload → payload ≠ [] →
        ∃ l' effects, (lts cfg).step l (.turn (.datagram src data now banner (.ok ()))) =
            some (l', effects) ∧
          .sent src peer.conn (.rule name) payload ∈ effects) := by
  have hsound := sound_run cfg first h
  refine ⟨hsound.size, hsound.counting, hsound.overflow, ?_, ?_, ?_⟩
  · intro a l' effects hstep dst conn trigger bytes hmem
    rcases lts_cases cfg hstep with ⟨input, out, rfl, -, hturn, rfl, rfl⟩ | ⟨n, rfl, rfl, rfl⟩
    · obtain ⟨hin, data, now, banner, rule, rfl⟩ := answered_turn cfg hturn hmem rfl
      exact ⟨hin, data, now, banner, rule, rfl⟩
    · cases hmem
  · intro bs l' os hrun hbs
    have hreach := sound_run cfg first ((lts cfg).run_append_eq_some.mpr ⟨l, tr, os, h, hrun, rfl⟩)
    calc (addresses os.flatten).card
        ≤ l'.listener.peers.keys.card := Finset.card_le_card (addresses_subset cfg hrun hbs)
      _ = l'.listener.peers.size := (Table.size_eq_card_keys _).symm
      _ ≤ cfg.maxPeers := hreach.size
  · intro src peer data now banner name a payload hup hget hrule hspeaks hbuild hpayload
    obtain ⟨l', hstep⟩ := known_answered cfg hup hget data now banner (.ok ())
    exact ⟨l', _, hstep,
      List.mem_cons_of_mem _ (sent_mem_answer cfg hrule hspeaks hbuild hpayload)⟩

/-- Two sources and room for one: the second goes to the overflow stream. -/
theorem peer_table_invariant_flood :
    let mirror : Action := ⟨[], true, false, none⟩
    let cfg : Config ℕ :=
      ⟨"u", "l", true, some ⟨"p", none, [⟨"r", {}, mirror⟩]⟩, 1, 1, toString, id⟩
    ∃ l tr, (lts cfg).run (.start 1) [.turn (.datagram 5 [1] 0 (.ok ()) (.ok ())),
        .turn (.datagram 6 [2, 3] 0 (.ok ()) (.ok ()))] = some (l, tr) ∧
      l.listener.overflowConn = some 2 ∧ l.listener.peers.size ≤ 1 ∧
        l.listener.overflowCount = logged 2 tr.flatten := by
  refine ⟨_, _, rfl, rfl, ?_⟩
  have h := @peer_table_invariant ℕ _
    ⟨"u", "l", true, some ⟨"p", none, [⟨"r", {}, ⟨[], true, false, none⟩⟩]⟩, 1, 1, toString, id⟩ 1
    [.turn (.datagram 5 [1] 0 (.ok ()) (.ok ())), .turn (.datagram 6 [2, 3] 0 (.ok ()) (.ok ()))]
    _ _ rfl
  exact ⟨h.1, (h.2.2.1 2 rfl).1⟩

end Udp

end KirbLaSnoop
