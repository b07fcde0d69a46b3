import Mathlib
import KirbLaSnoop.Listener.Counted

/-!
# What the closing summary tells

The counters of a process are those of its event log and what calls that have
only begun have added, and once nothing waits they are the traffic that the
network has brought.
-/

namespace KirbLaSnoop

open Effect Lifecycle

/-- A sum over the things of a list, key by key. -/
theorem sum_by_key {α κ : Type*} [DecidableEq κ] (key : α → Option κ) (f : α → ℕ) {ks : List κ}
    (hks : ks.Nodup) {xs : List α} (hxs : ∀ x ∈ xs, f x ≠ 0 → ∃ k ∈ ks, key x = some k) :
    (xs.map f).sum =
      (ks.map fun k => (xs.map fun x => if key x = some k then f x else 0).sum).sum := by
  have hone : ∀ x, (f x ≠ 0 → ∃ k ∈ ks, key x = some k) →
      (ks.map fun k => if key x = some k then f x else 0).sum = f x := by
    intro x hx
    by_cases hzero : f x = 0
    · simp [hzero]
    · obtain ⟨k, hk, hkey⟩ := hx hzero
      have hother : ∀ j, j ≠ k → j ∈ ks → (if key x = some j then f x else 0) = 0 :=
        fun j hj _ => if_neg fun h => hj (Option.some.inj (h.symm.trans hkey))
      rw [List.sum_map_eq_nsmul_single k _ hother, List.count_eq_one_of_mem hks hk, one_smul,
        if_pos hkey]
  induction xs with
  | nil => simp
  | cons x xs ih =>
      simp only [List.map_cons, List.sum_cons, List.sum_map_add]
      rw [hone x (hxs x List.mem_cons_self), ih fun y hy => hxs y (List.mem_cons_of_mem x hy)]

theorem Lifecycle.count_opened_of_shape {st : Stage} {us : List Use} (h : Shape st us)
    (hst : st ≠ .fresh) : us.count .opened = 1 := by
  cases st with
  | fresh => exact absurd rfl hst
  | live =>
      obtain ⟨n, rfl⟩ := h
      simp [List.count_replicate]
  | done =>
      obtain ⟨n, rfl⟩ := h
      simp [List.count_replicate]

/-! ## The counters and the network -/

namespace Effect

variable {Addr : Type*}

theorem conn_of_due {t : Tally} {e : Effect Addr} (h : Stats.due t e.adds ≠ 0) :
    ∃ id, e.conn = some id := by
  cases e with
  | call c =>
      cases c with
      | openConn proto name conn localAddr peer orig => exact ⟨conn, rfl⟩
      | data proto name conn peer dir bs rule => exact ⟨conn, rfl⟩
      | _ => exact absurd rfl h
  | _ => exact absurd rfl h

theorem length_loggedFor (id : ℕ) (dir : Dir) (e : Effect Addr) :
    (loggedFor (id, dir) e).length =
      if e.conn = some id then Stats.due dir.bytes e.adds else 0 := by
  cases e with
  | call c =>
      cases c with
      | data proto name conn peer d bs rule =>
          by_cases hconn : conn = id
          · cases d <;> cases dir <;>
              simp [loggedFor, Call.bytesFor, Effect.conn, Call.conn, adds, ofCall, Call.adds,
                Stats.due, Dir.bytes, Dir.msgs, hconn]
          · simp [loggedFor, Call.bytesFor, Effect.conn, Call.conn, hconn]
      | openConn proto name conn localAddr peer orig =>
          cases dir <;>
            simp [loggedFor, Call.bytesFor, adds, ofCall, Call.adds, Stats.due, Dir.bytes]
      | _ => simp [loggedFor, Call.bytesFor, adds, ofCall, Call.adds, Stats.due]
  | _ => simp [loggedFor, adds, ofCall, Stats.due]

theorem count_opened (id : ℕ) (e : Effect Addr) :
    (e.use id).toList.count .opened =
      if e.conn = some id then Stats.due .conns e.adds else 0 := by
  cases e with
  | call c =>
      cases c with
      | openConn proto name c localAddr peer orig =>
          by_cases hconn : c = id <;>
            simp [use, Call.use, Effect.conn, Call.conn, adds, ofCall, Call.adds, Stats.due, hconn]
      | data proto name c peer d bs rule =>
          by_cases hconn : c = id <;> cases d <;>
            simp [use, Call.use, Effect.conn, Call.conn, adds, ofCall, Call.adds, Stats.due,
              Dir.bytes, Dir.msgs, hconn]
      | close proto name c peer why =>
          by_cases hconn : c = id <;>
            simp [use, Call.use, adds, ofCall, Call.adds, Stats.due, hconn]
      | error proto name c msg =>
          by_cases hconn : c = some id <;>
            simp [use, Call.use, adds, ofCall, Call.adds, Stats.due, hconn]
      | _ => simp [use, Call.use, adds, ofCall, Call.adds, Stats.due]
  | _ => simp [use, adds, ofCall, Stats.due]

end Effect

namespace Process

variable {ι Addr : Type*} [DecidableEq ι] [DecidableEq Addr] {net : ι → Listener Addr}
  {dp : Deps} {o : Options} {p p' : Process ι Addr} {seen : List (Seen ι Addr)}

/-- What the calls of a run bring is what its effects bring; the flush, which
no thread decides on, brings nothing. -/
theorem flatMap_callsMade {β : Type*} (f : Call → List β) (hflush : ∀ order, f (.flush order) = [])
    {acts : List (Act ι Addr)} {tr : List (List (Seen ι Addr))}
    (h : (lts net dp o).run (start net) acts = some (p, tr)) :
    ((callsMade net dp o acts).flatMap fun a => f a.2) =
      (happened tr.flatten).flatMap (Effect.ofCall f) := by
  apply (lts net dp o).run_induction (fun acts _ tr =>
    ((callsMade net dp o acts).flatMap fun a => f a.2) =
      (happened tr.flatten).flatMap (Effect.ofCall f)) rfl ?_ h
  intro as a rest u os v new _ hrun hu hs
  rw [callsMade_append_singleton hrun hs, List.flatMap_append, hu, List.flatten_append,
    List.flatten_singleton, happened_append, List.flatMap_append]
  congr 1
  cases a with
  | accept i peer orig =>
      obtain ⟨cfg, -, -, rfl⟩ := step_accept hs
      rw [happened_seenHandled]
      rfl
  | acceptError i e =>
      obtain ⟨cfg, -, rfl⟩ := step_acceptError hs
      rw [happened_seenHandled]
      rfl
  | turn i input =>
      obtain ⟨cfg, out, -, -, -, rfl⟩ := step_turn hs
      rw [happened_seenHandled]
      rfl
  | step conn input =>
      obtain ⟨c, cfg, out, -, -, -, -, rfl⟩ := step_step hs
      rfl
  | perform t e =>
      obtain ⟨eff, rest, hp, -, rfl⟩ := step_perform hs
      simp only [callMade, hp]
      cases eff <;> rfl
  | flush e order =>
      obtain ⟨-, -, rfl⟩ := step_flush hs
      exact (List.append_nil _).trans (hflush order)

/-- The calls of a run add what its effects add. -/
theorem adds_callsMade {acts : List (Act ι Addr)} {tr : List (List (Seen ι Addr))}
    (h : (lts net dp o).run (start net) acts = some (p, tr)) :
    ((callsMade net dp o acts).flatMap fun a => a.2.adds) =
      (happened tr.flatten).flatMap Effect.adds :=
  flatMap_callsMade Call.adds (fun _ => rfl) h

omit [DecidableEq ι] [DecidableEq Addr] in
theorem made_eq_uses (id : ℕ) (seen : List (Seen ι Addr)) :
    made id seen = uses id (happened seen) := by
  induction seen with
  | nil => rfl
  | cons s seen ih =>
      have hsplit : ∀ ss : List (Seen ι Addr), made id (s :: ss) = made id [s] ++ made id ss :=
        fun ss => made_append id [s] ss
      have hsplit' : happened (s :: seen) = happened [s] ++ happened seen :=
        happened_append [s] seen
      rw [hsplit, hsplit', uses_append, ih]
      congr 1
      cases s with
      | performed t e => exact made_performed id t e
      | _ => rfl

omit [DecidableEq ι] in
/-- What is added to a counter, id by id. -/
theorem due_by_conn (hinv : Inv p seen) (hqueued : Queued p seen) (t : Tally) :
    Stats.due t ((happened seen).flatMap Effect.adds) =
      ((grants seen).map fun g => ((happened seen).map fun e =>
        if e.conn = some g.1 then Stats.due t e.adds else 0).sum).sum := by
  have hnodup : ((grants seen).map Prod.fst).Nodup := hinv.ids ▸ List.nodup_range'
  have hnamed : ∀ e ∈ happened seen, Stats.due t e.adds ≠ 0 →
      ∃ id ∈ (grants seen).map Prod.fst, e.conn = some id := by
    intro e he hdue
    obtain ⟨id, hid⟩ := e.conn_of_due hdue
    obtain ⟨i, w, hw⟩ := hqueued.named id e (.inl he) hid
    exact ⟨id, List.mem_map_of_mem hw, hid⟩
  rw [Stats.due_flatMap, sum_by_key Effect.conn (fun e => Stats.due t e.adds) hnodup hnamed,
    List.map_map]
  rfl

omit [DecidableEq ι] [DecidableEq Addr] in
theorem sum_length_logged (id : ℕ) (dir : Dir) (es : List (Effect Addr)) :
    (es.map fun e => if e.conn = some id then Stats.due dir.bytes e.adds else 0).sum =
      (logged (id, dir) es).length := by
  simp only [← length_loggedFor]
  exact List.length_flatMap.symm

omit [DecidableEq ι] [DecidableEq Addr] in
theorem sum_count_opened (id : ℕ) (es : List (Effect Addr)) :
    (es.map fun e => if e.conn = some id then Stats.due .conns e.adds else 0).sum =
      (uses id es).count .opened := by
  induction es with
  | nil => rfl
  | cons e es ih =>
      rw [List.map_cons, List.sum_cons, ih, uses_cons, List.count_append, count_opened]

omit [DecidableEq ι] in
/-- Once nothing waits, every id that was given out has been opened. -/
theorem due_conns (hinv : Inv p seen) (hqueued : Queued p seen)
    (hidle : ∀ t, p.pending t = []) :
    Stats.due .conns ((happened seen).flatMap Effect.adds) = (grants seen).length := by
  have hone : ∀ g ∈ grants seen, (uses g.1 (happened seen)).count .opened = 1 := by
    rintro ⟨id, i, w⟩ hw
    have hshape := hinv.whole hw
    have howed : p.owed id i = [] := by simp [owed, hidle]
    rw [howed, List.append_nil, made_eq_uses] at hshape
    have hstage : p.stage id i w ≠ .fresh := by
      by_cases hretired : p.Retired id i w
      · rw [(stage_eq p id i w).1 hretired]
        intro h
        cases h
      · rw [(stage_eq p id i w).2 hretired]
        intro h
        cases h
    exact count_opened_of_shape hshape hstage
  rw [due_by_conn hinv hqueued]
  simp only [sum_count_opened]
  rw [List.map_congr_left hone]
  simp

theorem due_bytes {acts : List (Act ι Addr)} {tr : List (List (Seen ι Addr))}
    (h : (lts net dp o).run (start net) acts = some (p, tr)) (hidle : ∀ t, p.pending t = [])
    {d : Dir} (hd : d = .rx ∨ ∀ i, (net i).Forwards) :
    Stats.due d.bytes ((happened tr.flatten).flatMap Effect.adds) =
      ((grants tr.flatten).map fun g => (arrived net dp o (g.1, d) acts).length).sum := by
  rw [due_by_conn (inv_run h) (queued_run h)]
  simp only [sum_length_logged]
  congr 1
  apply List.map_congr_left
  rintro ⟨id, i, w⟩ hw
  have hwire := logged_wire h hw (hd.imp_right fun hall => hall i)
  rw [hidle] at hwire
  exact congrArg List.length ((List.append_nil _).symm.trans hwire)

end Process

namespace Counted

open Process (grants arrived quietUdp)

variable {ι Addr : Type*} [DecidableEq ι] [DecidableEq Addr] {net : ι → Listener Addr}
  {dp : Deps} {o : Options}

/-- The closing summary tells the truth at whatever moment it is printed. It
warns if and only if the calls asked for more than the run cap. Without the
warning its counters are those of the event log and, beside them, what calls
that have not gone on yet have added. When nothing waits they are the ids given
out and the bytes that the network has brought. -/
theorem summary_tells (acts : List (Act ι Addr)) (c : Counted ι Addr)
    (tr : List (Option (List (Process.Seen ι Addr))))
    (h : (lts net dp o).run (start net) acts = some (c, tr)) (dir : String) :
    (Logger.capWarning o.maxRunBytes ∈ Logger.summary o dir c.stats c.process.log ↔
      Logger.OverCap dp o (Process.callsMade net dp o (acts.filterMap Act.inner))) ∧
    (o.jsonl = true →
      ¬Logger.OverCap dp o (Process.callsMade net dp o (acts.filterMap Act.inner)) →
      ∃ begun, c.Begun begun ∧
        c.stats = .after (c.process.log.jsonl.flatMap Event.adds ++ begun.map Prod.snd) ∧
        ((∀ t, c.made t = 0) → c.stats = .ofLog c.process.log.jsonl)) ∧
    ((∀ t, c.process.pending t = []) →
      c.stats.conns = .ofNat (grants (tr.filterMap id).flatten).length ∧
      ∀ d, (d = .rx ∨ ∀ i, (net i).Forwards) → c.stats.get d.bytes =
        .ofNat ((grants (tr.filterMap id).flatten).map fun g =>
          (arrived net dp o (g.1, d) (acts.filterMap Act.inner)).length).sum) := by
  have hrun := (hosts net dp o).run h
  obtain ⟨n, hlog⟩ := Process.log_run hrun
  obtain ⟨begun, hbooks⟩ := books_run h
  have hstats := hbooks.stats
  rw [← Process.adds_callsMade hrun] at hstats
  refine ⟨?_, ?_, ?_⟩
  · rw [Logger.capWarning_mem_summary, hlog]
    exact Logger.stopped_iff_overCap dp o _
  · intro hjsonl hunder
    have hadds : c.process.log.jsonl.flatMap Event.adds =
        (Process.callsMade net dp o (acts.filterMap Act.inner)).flatMap fun a => a.2.adds := by
      rw [hlog]
      exact (congrArg (List.flatMap Event.adds)
        (Logger.jsonl_of_not_overCap dp o hunder)).trans
          (Logger.adds_jsonl dp o.uncapped hjsonl rfl _)
    refine ⟨begun, hbooks.front, by rw [hadds, hstats], fun hidle => ?_⟩
    rw [hstats, hbooks.front.eq_nil hidle, Stats.ofLog, hadds, List.map_nil, List.append_nil]
  · intro hidle
    rw [hstats, hbooks.front.eq_nil (hbooks.idle hidle), List.map_nil, List.append_nil,
      Process.adds_callsMade hrun]
    refine ⟨?_, ?_⟩
    · have hconns := Process.due_conns (Process.inv_run hrun) (Process.queued_run hrun) hidle
      exact (Stats.get_after _ .conns).trans (congrArg UInt64.ofNat hconns)
    · intro d hd
      rw [Stats.get_after, Process.due_bytes hrun hidle hd]

/-- The first datagram, with the flush of `main` while its message has been
counted and is not in the event log yet. -/
def countedDatagram : List (Act Unit ℕ) :=
  [.act (.perform (.loop ()) .quiet),
    .act (.turn () (.datagram 7 [1, 2, 3] 0 (.ok ()) (.ok ()))),
    .add (.loop ()), .act (.perform (.loop ()) .quiet), .add (.loop ()), .add (.loop ()),
    .act (.flush .quiet [])]

theorem summary_tells_datagram :
    ∃ c tr, (lts quietUdp .bare ⟨true, true, 0, ⟨2, 0⟩, 0⟩).run (start quietUdp) countedDatagram =
        some (c, tr) ∧ c.stats = ⟨1, 1, 3, 0, 0⟩ ∧
      ¬Logger.OverCap .bare ⟨true, true, 0, ⟨2, 0⟩, 0⟩
        (Process.callsMade quietUdp .bare ⟨true, true, 0, ⟨2, 0⟩, 0⟩
          (countedDatagram.filterMap Act.inner)) ∧
      ∃ begun, c.Begun begun ∧
        c.stats = .after (c.process.log.jsonl.flatMap Event.adds ++ begun.map Prod.snd) := by
  have hrun : ∃ c tr, (lts quietUdp .bare ⟨true, true, 0, ⟨2, 0⟩, 0⟩).run (start quietUdp)
      countedDatagram = some (c, tr) ∧ c.stats = ⟨1, 1, 3, 0, 0⟩ := ⟨_, _, rfl, rfl⟩
  obtain ⟨c, tr, hrun, hstats⟩ := hrun
  have hunder : ¬Logger.OverCap .bare ⟨true, true, 0, ⟨2, 0⟩, 0⟩
      (Process.callsMade quietUdp .bare ⟨true, true, 0, ⟨2, 0⟩, 0⟩
        (countedDatagram.filterMap Act.inner)) := fun h => h.1 rfl
  obtain ⟨begun, hbegun, hbooks, -⟩ :=
    (summary_tells countedDatagram c tr hrun "captures").2.1 rfl hunder
  exact ⟨c, tr, hrun, hstats, hunder, begun, hbegun, hbooks⟩

end Counted

end KirbLaSnoop
