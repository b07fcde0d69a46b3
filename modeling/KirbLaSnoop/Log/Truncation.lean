import Mathlib
import KirbLaSnoop.Log.Frame
import KirbLaSnoop.Stream.Failure

/-!
# Where truncation is recorded

`close_raw` puts an event into the log for every stream that lost bytes;
`flush` announces the loss on the console only. The two differ exactly when a
stream that is still open at the flush has been handed more than its two parts
can hold.
-/

namespace KirbLaSnoop

/-- A `truncated` event for one direction of one connection with this length. -/
def Event.records (k : Key) (n : ℕ) (ev : Event) : Bool :=
  decide (ev.event = .truncated ∧ ev.conn = some k.1 ∧ ev.dir = some k.2 ∧ ev.len = some n)

/-- A finished stream of one direction of one connection that lost bytes. -/
def Finished.lossy (k : Key) (n : ℕ) (f : Finished) : Bool :=
  decide (f.key = k ∧ f.summary.total = n ∧ f.summary.dropped > 0)

theorem Stream.eq_after_of_create {P : Type} [DecidableEq P] {io : Io} {headPath tailPath : P}
    {limits : Limits} {d d' : Disk P} {s : Stream P}
    (h : create io headPath tailPath limits d = some (s, d')) :
    s = after headPath tailPath limits [] := by
  simp only [create, Option.ite_none_right_eq_some, Option.some.injEq, Prod.mk.injEq] at h
  rw [← h.2.1]
  simp [after]

namespace Logger

variable (dp : Deps) (o : Options)

theorem records_truncatedEvent (e : Env) (proto : Proto) (name peer : String) (f : Finished)
    (k : Key) (n : ℕ) :
    (truncatedEvent dp e proto name peer f).records k n =
      decide (f.key = k ∧ f.summary.total = n) := by
  simp [Event.records, truncatedEvent, Prod.ext_iff, and_assoc]

/-- Among the entries of a call, those about truncation are one for each
stream it finished that lost bytes; a flush has no entries at all. -/
theorem countP_writes (e : Env) (c : Call) (s : Logger) (hc : ∀ order, c ≠ .flush order) (k : Key)
    (n : ℕ) :
    ((c.writes dp o e s).filterMap Write.entry).countP (Event.records k n) =
      (s.finishAll e (c.finishes o)).1.countP (Finished.lossy k n) := by
  cases c with
  | flush order => exact absurd rfl (hc order)
  | close proto name conn peer why =>
      rw [Call.writes]
      generalize (s.finishAll e ((Call.close proto name conn peer why).finishes o)).1 = fs
      have hclose : (closeEvent dp e proto name conn peer why).records k n = false := by
        simp [Event.records, closeEvent]
      have hentries : ((fs.filter fun f => f.summary.dropped ≠ 0).map fun f =>
          Write.event (some f) (truncatedEvent dp e proto name peer f)).filterMap Write.entry =
            (fs.filter fun f => f.summary.dropped ≠ 0).map
              (truncatedEvent dp e proto name peer) := by
        rw [List.filterMap_map, ← List.filterMap_eq_map]
        rfl
      rw [List.filterMap_append, hentries, List.countP_append, List.countP_map,
        List.countP_filter]
      have hnone : ([Write.event none (closeEvent dp e proto name conn peer why)].filterMap
          Write.entry).countP (Event.records k n) = 0 := by
        simp [Write.entry, hclose]
      rw [hnone, Nat.add_zero]
      apply List.countP_congr
      intro f _
      simp only [Function.comp_apply, records_truncatedEvent, Finished.lossy, Bool.and_eq_true,
        decide_eq_true_eq, and_assoc, Nat.pos_iff_ne_zero, ne_eq, gt_iff_lt]
  | _ =>
      simp [Call.writes, Call.finishes, finishAll, Write.entry, Event.records, listenEvent,
        openEvent, dataEvent, warnEvent, errorEvent]

/-- The event log has one `truncated` event for every finished stream that
lost bytes, with its total, and no others. -/
def Recorded (s : Logger) (finished : List Finished) : Prop :=
  ∀ k n, s.jsonl.countP (Event.records k n) = finished.countP (Finished.lossy k n)

theorem Recorded.exec (hjsonl : o.jsonl = true) (hcap : o.maxRunBytes = 0) {s : Logger}
    {finished : List Finished} (h : Recorded s finished) (e : Env) {c : Call}
    (hc : ∀ order, c ≠ .flush order) :
    Recorded (s.exec dp o e c) (finished ++ (s.finishAll e (c.finishes o)).1) := by
  intro k n
  rw [jsonl_exec dp o hjsonl hcap, List.countP_append, List.countP_append, h k n,
    countP_writes dp o e c s hc]

/-- As long as nobody has flushed, everything finished is recorded. -/
theorem recorded_run (hjsonl : o.jsonl = true) (hcap : o.maxRunBytes = 0)
    {acts : List (Env × Call)} (hacts : ∀ a ∈ acts, ∀ order, a.2 ≠ .flush order) {s : Logger}
    {tr : List (List Finished)} (h : (calls dp o).run new acts = some (s, tr)) :
    Recorded s tr.flatten := by
  refine (calls dp o).run_induction (fun _ u os => Recorded u os.flatten) ?_ ?_ h
  · intro k n
    rfl
  · intro as a rest u os v out hsplit _ hu hstep
    obtain ⟨_, rfl, rfl⟩ := (calls_step_eq_some dp o).mp hstep
    rw [List.flatten_append, List.flatten_singleton]
    apply hu.exec dp o hjsonl hcap
    apply hacts
    rw [hsplit]
    exact List.mem_append_right _ List.mem_cons_self

/-- Every direction that was finished once has one `truncated` event with its
total if it lost bytes, and none otherwise. -/
def RecordedOnce (s : Logger) (finished : List Finished) : Prop :=
  ∀ k f, finished.filter (fun g => g.key = k) = [f] →
    ∀ n, s.jsonl.countP (Event.records k n) =
      if f.summary.total = n ∧ f.summary.dropped > 0 then 1 else 0

theorem Recorded.once {s : Logger} {finished : List Finished} (h : Recorded s finished) :
    RecordedOnce s finished := by
  intro k f hf n
  have hcount : finished.countP (Finished.lossy k n) =
      (finished.filter fun g => g.key = k).countP (Finished.lossy k n) := by
    rw [List.countP_filter]
    apply List.countP_congr
    intro g _
    simp only [Finished.lossy, Bool.and_eq_true, decide_eq_true_eq]
    exact ⟨fun hg => ⟨hg, hg.1⟩, fun hg => hg.1⟩
  have hmem : f ∈ finished.filter fun g => g.key = k := hf ▸ List.mem_singleton_self f
  have hkey : f.key = k := by simpa using (List.mem_filter.mp hmem).2
  rw [h k n, hcount, hf, List.countP_singleton]
  simp only [Finished.lossy, hkey, true_and, decide_eq_true_eq]

/-! ## What the open streams were handed -/

/-- Every open stream is the state after some history, whatever I/O failed. -/
def Carried (s : Logger) : Prop :=
  ∀ k st, s.raw.get k = some st →
    ∃ headPath tailPath D, st = Stream.after headPath tailPath o.streamLimits D

variable {o} {s t : Logger}

theorem Carried.congr (h : Carried o s) (hraw : t.raw = s.raw) : Carried o t := by
  intro k st hst
  exact h k st (hraw ▸ hst)

theorem Carried.finishAll (h : Carried o s) (e : Env) (ks : List Key) :
    Carried o (s.finishAll e ks).2 := by
  intro k st hst
  rw [get_raw_finishAll] at hst
  split_ifs at hst
  exact h k st hst

theorem Carried.rawLocked (h : Carried o s) (io : Io) (conn : ℕ) (proto : Proto) (peer : String)
    (dir : Dir) (data : List UInt8) : Carried o (s.rawLocked o io conn proto peer dir data) := by
  have hset : ∀ headPath tailPath D disk disk' console, Carried o { s with
      raw := s.raw.set (conn, dir)
        ((Stream.after headPath tailPath o.streamLimits D).write io disk data).2.1
      disk := disk'
      console := console } := by
    intro headPath tailPath D disk disk' console k st hst
    by_cases hk : k = (conn, dir)
    · subst hk
      obtain rfl := Option.some.inj ((Table.get_set _ _ _).symm.trans hst)
      exact ⟨headPath, tailPath, D ++ data, Stream.write_any_state _ _ _ D data io disk⟩
    · exact h k st ((Table.get_set_ne _ _ hk).symm.trans hst)
  unfold Logger.rawLocked
  dsimp only
  cases hget : s.raw.get (conn, dir) with
  | some st =>
      obtain ⟨headPath, tailPath, D, rfl⟩ := h _ st hget
      exact hset headPath tailPath D _ _ _
  | none =>
      cases hcreate : Stream.create io (.head (Stem.of conn proto peer dir))
          (.tail (Stem.of conn proto peer dir)) o.streamLimits s.disk with
      | none => exact h
      | some opened =>
          obtain ⟨st, disk⟩ := opened
          obtain rfl := Stream.eq_after_of_create hcreate
          exact hset _ _ [] _ _ _

theorem Carried.run (h : Carried o s) (w : Write) : Carried o (w.run dp o s) := by
  have hsaid : Carried o (w.say s) := h.congr (w.raw_say s)
  have hcharged : Carried o ((w.say s).charge o (w.cost dp)).2 := hsaid.congr (charge_raw o _ _)
  rcases w.run_cases dp o s with ⟨-, hrun⟩ | ⟨-, -, hrun⟩ | ⟨-, -, hrun⟩
  · exact hrun ▸ hsaid
  · exact hrun ▸ hcharged
  · rw [hrun]
    cases w with
    | event said ev => exact hcharged
    | raw io conn proto peer dir data => exact hcharged.rawLocked io conn proto peer dir data

theorem Carried.exec (h : Carried o s) (e : Env) (c : Call) : Carried o (s.exec dp o e c) := by
  have hwrites : ∀ (ws : List Write) (u : Logger), Carried o u →
      Carried o (ws.foldl (fun u w => w.run dp o u) u) := by
    intro ws
    induction ws with
    | nil => exact fun _ hu => hu
    | cons w ws ih => exact fun u hu => ih _ (hu.run dp w)
  obtain ⟨console, hsettle⟩ := c.settle_eq_with o e s
  rw [Call.exec_eq]
  apply hwrites
  rw [hsettle]
  exact h.finishAll e _

theorem carried_run {acts : List (Env × Call)} {tr : List (List Finished)}
    (h : (calls dp o).run new acts = some (s, tr)) : Carried o s := by
  refine (calls dp o).run_invariant (Carried o) ?_ ?_ h
  · intro k st hst
    cases (Table.get_empty k).symm.trans hst
  · rintro u ⟨e, c⟩ v out hu hstep
    obtain ⟨-, rfl, -⟩ := (calls_step_eq_some dp o).mp hstep
    exact hu.exec dp e c

/-- A stream has lost nothing as long as what it was handed fits in its head
and its ring. -/
theorem Carried.dropped_eq_zero_iff (h : Carried o s) {k : Key} {st : Stream FileName}
    (hst : s.raw.get k = some st) :
    st.dropped = 0 ↔ o.streamLimits.head.toNat = 0 ∨
      st.total ≤ o.streamLimits.head.toNat + o.streamLimits.tail := by
  obtain ⟨headPath, tailPath, D, rfl⟩ := h k st hst
  exact Capture.lost_eq_zero_iff _ _ D

variable (o)

/-! ## Runs that end with the flush -/

/-- All truncation is recorded if and only if the flush finds no stream that
has lost anything. -/
theorem recorded_flush_iff (hjsonl : o.jsonl = true) (hcap : o.maxRunBytes = 0)
    {acts : List (Env × Call)} (hacts : ∀ a ∈ acts, ∀ order, a.2 ≠ .flush order) {s : Logger}
    {tr : List (List Finished)} (hrun : (calls dp o).run new acts = some (s, tr))
    {e : Env} {order : List Key} {t : Logger} {fs : List Finished}
    (hflush : (calls dp o).step s (e, .flush order) = some (t, fs)) :
    Recorded t (tr.flatten ++ fs) ↔ ∀ k st, s.raw.get k = some st → st.dropped = 0 := by
  obtain ⟨hpossible, rfl, rfl⟩ := (calls_step_eq_some dp o).mp hflush
  have horder := hpossible order rfl
  have hbefore := recorded_run dp o hjsonl hcap hacts hrun
  have hjsonl' : (s.exec dp o e (.flush order)).jsonl = s.jsonl := by
    rw [jsonl_exec dp o hjsonl hcap]
    exact List.append_nil _
  constructor
  · intro h k st hst
    have hk : k ∈ order := by
      rw [← List.mem_toFinset, horder.2, Finmap.mem_keys, Table.mem_iff_get]
      exact ⟨st, hst⟩
    obtain ⟨f, hf, hkey, htotal, hdropped⟩ := exists_mem_finishAll (e := e) hk hst
    have hcount := h k st.total
    rw [hjsonl', hbefore k st.total, List.countP_append] at hcount
    have hnone : (s.finishAll e order).1.countP (Finished.lossy k st.total) = 0 := by
      simp only [Call.finishes] at hcount
      omega
    have hnot := List.countP_eq_zero.mp hnone f hf
    simp only [Finished.lossy, hkey, htotal, hdropped, decide_eq_true_eq, true_and] at hnot
    omega
  · intro h k n
    have hnone : (s.finishAll e order).1.countP (Finished.lossy k n) = 0 := by
      apply List.countP_eq_zero.mpr
      intro f hf
      obtain ⟨_, st, hst, _, hdropped⟩ := mem_finishAll hf
      simp only [Finished.lossy, decide_eq_true_eq, not_and]
      intro _ _
      rw [hdropped, h _ st hst]
      exact Nat.lt_irrefl 0
    rw [hjsonl', hbefore k n, List.countP_append]
    simp only [Call.finishes, hnone, Nat.add_zero]

/-- In a run that ends with the flush, all truncation is recorded if and only
if no stream that was open at the flush had been handed more bytes than its
head and its ring hold. -/
theorem truncation_recorded_iff (hjsonl : o.jsonl = true) (hcap : o.maxRunBytes = 0)
    (acts : List (Env × Call)) (hacts : ∀ a ∈ acts, ∀ order, a.2 ≠ .flush order) (s : Logger)
    (tr : List (List Finished)) (hrun : (calls dp o).run new acts = some (s, tr))
    (e : Env) (order : List Key) (t : Logger) (fs : List Finished)
    (hflush : (calls dp o).step s (e, .flush order) = some (t, fs)) :
    (Recorded t (tr.flatten ++ fs) ↔ ∀ k st, s.raw.get k = some st →
      o.streamLimits.head.toNat = 0 ∨
        st.total ≤ o.streamLimits.head.toNat + o.streamLimits.tail) ∧
    (Recorded t (tr.flatten ++ fs) → RecordedOnce t (tr.flatten ++ fs)) := by
  refine ⟨?_, Recorded.once⟩
  rw [recorded_flush_iff dp o hjsonl hcap hacts hrun hflush]
  have hcarried := carried_run dp hrun
  constructor
  · intro h k st hst
    exact (hcarried.dropped_eq_zero_iff hst).mp (h k st hst)
  · intro h k st hst
    exact (hcarried.dropped_eq_zero_iff hst).mpr (h k st hst)

/-- Two bytes on a connection under a head cap of one. -/
def twoBytes : List (Env × Call) :=
  [(.quiet, .openConn .tcp "tcp:0" 1 "127.0.0.1:80" "127.0.0.1:4000" none),
    (.quiet, .data .tcp "tcp:0" 1 "127.0.0.1:4000" .rx [1, 2] none)]

/-- The connection closes before the flush, and its loss is on record. -/
theorem truncation_recorded_iff_closed :
    ∃ s tr t fs, (calls .bare ⟨true, true, 0, ⟨1, 0⟩, 0⟩).run new
        (twoBytes ++ [(.quiet, .close .tcp "tcp:0" 1 "127.0.0.1:4000" "peer eof")]) =
          some (s, tr) ∧
      (calls .bare ⟨true, true, 0, ⟨1, 0⟩, 0⟩).step s (.quiet, .flush []) = some (t, fs) ∧
      tr.flatten.countP (Finished.lossy (1, .rx) 2) = 1 ∧ Recorded t (tr.flatten ++ fs) := by
  obtain ⟨s, tr, hrun, hcount, hraw⟩ : ∃ s tr,
      (calls .bare ⟨true, true, 0, ⟨1, 0⟩, 0⟩).run new
        (twoBytes ++ [(.quiet, .close .tcp "tcp:0" 1 "127.0.0.1:4000" "peer eof")]) =
          some (s, tr) ∧
      tr.flatten.countP (Finished.lossy (1, .rx) 2) = 1 ∧ s.raw = ∅ :=
    ⟨_, _, rfl, by decide +kernel, by decide +kernel⟩
  have horder : s.Enumerates [] := ⟨List.nodup_nil, by rw [hraw]; rfl⟩
  have hflush : (calls .bare ⟨true, true, 0, ⟨1, 0⟩, 0⟩).step s (.quiet, .flush []) =
      some (s, []) :=
    (calls_step_eq_some _ _).mpr ⟨fun _ h => Call.flush.inj h ▸ horder, rfl, rfl⟩
  refine ⟨s, tr, s, [], hrun, hflush, hcount, ?_⟩
  refine (truncation_recorded_iff .bare ⟨true, true, 0, ⟨1, 0⟩, 0⟩ rfl rfl _ ?_ s tr hrun .quiet []
    s [] hflush).1.mpr ?_
  · simp [twoBytes]
  · intro k st hst
    rw [hraw, Table.get_empty] at hst
    cases hst

/-- The connection is still open at the flush: one byte is lost, and the event
log does not say so. -/
theorem truncation_not_recorded :
    ¬ ∀ (dp : Deps) (o : Options), o.raw = true → o.jsonl = true → o.maxRunBytes = 0 →
      ∀ acts : List (Env × Call), (∀ a ∈ acts, a.1.Good ∧ ∀ order, a.2 ≠ .flush order) →
        ∀ s tr, (calls dp o).run new acts = some (s, tr) →
          ∀ e order t fs, e.Good → (calls dp o).step s (e, .flush order) = some (t, fs) →
            Recorded t (tr.flatten ++ fs) := by
  intro h
  obtain ⟨s, tr, t, fs, hrun, hflush, hcount, hcount'⟩ : ∃ s tr t fs,
      (calls .bare ⟨true, true, 0, ⟨1, 0⟩, 0⟩).run new twoBytes = some (s, tr) ∧
      (calls .bare ⟨true, true, 0, ⟨1, 0⟩, 0⟩).step s (.quiet, .flush [(1, .rx)]) =
        some (t, fs) ∧
      t.jsonl.countP (Event.records (1, .rx) 2) = 0 ∧
      (tr.flatten ++ fs).countP (Finished.lossy (1, .rx) 2) = 1 :=
    ⟨_, _, _, _, rfl, rfl, by decide +kernel, by decide +kernel⟩
  have hrecorded := h .bare ⟨true, true, 0, ⟨1, 0⟩, 0⟩ rfl rfl rfl twoBytes
    (by simp [twoBytes, Env.quiet_good]) s tr hrun .quiet [(1, .rx)] t fs Env.quiet_good hflush
    (1, .rx) 2
  rw [hcount, hcount'] at hrecorded
  cases hrecorded

end Logger

end KirbLaSnoop
