import Mathlib
import KirbLaSnoop.Log.Cut

/-!
# The counters and the closing summary

Five counters that the calls of all tasks add to, in whatever order. Their
values can be read off the event log, as long as the run cap has not cut it.
-/

namespace KirbLaSnoop

inductive Tally where
  | conns
  | rxMsgs
  | rxBytes
  | txMsgs
  | txBytes
  deriving DecidableEq

structure Stats where
  conns : UInt64 := 0
  rxMsgs : UInt64 := 0
  rxBytes : UInt64 := 0
  txMsgs : UInt64 := 0
  txBytes : UInt64 := 0
  deriving DecidableEq

def Dir.msgs : Dir → Tally
  | .rx => .rxMsgs
  | .tx => .txMsgs

def Dir.bytes : Dir → Tally
  | .rx => .rxBytes
  | .tx => .txBytes

namespace Stats

/-- `fetch_add`, which wraps. -/
def fetchAdd (st : Stats) (t : Tally) (n : ℕ) : Stats :=
  match t with
  | .conns => { st with conns := st.conns + .ofNat n }
  | .rxMsgs => { st with rxMsgs := st.rxMsgs + .ofNat n }
  | .rxBytes => { st with rxBytes := st.rxBytes + .ofNat n }
  | .txMsgs => { st with txMsgs := st.txMsgs + .ofNat n }
  | .txBytes => { st with txBytes := st.txBytes + .ofNat n }

def get (st : Stats) : Tally → UInt64
  | .conns => st.conns
  | .rxMsgs => st.rxMsgs
  | .rxBytes => st.rxBytes
  | .txMsgs => st.txMsgs
  | .txBytes => st.txBytes

/-- The counters after some additions. -/
def after (adds : List (Tally × ℕ)) : Stats := adds.foldl (fun st a => st.fetchAdd a.1 a.2) {}

theorem after_concat (adds : List (Tally × ℕ)) (a : Tally × ℕ) :
    after (adds ++ [a]) = (after adds).fetchAdd a.1 a.2 := by
  rw [after, List.foldl_append]
  rfl

theorem ext_get {st st' : Stats} (h : ∀ t, st.get t = st'.get t) : st = st' := by
  obtain ⟨c, rm, rb, tm, tb⟩ := st
  obtain ⟨c', rm', rb', tm', tb'⟩ := st'
  simp only [mk.injEq]
  exact ⟨h .conns, h .rxMsgs, h .rxBytes, h .txMsgs, h .txBytes⟩

theorem get_fetchAdd (st : Stats) (t u : Tally) (n : ℕ) :
    (st.fetchAdd t n).get u = st.get u + .ofNat (if t = u then n else 0) := by
  cases t <;> cases u <;> simp [fetchAdd, get]

/-- What is added to one counter. -/
def due (t : Tally) (adds : List (Tally × ℕ)) : ℕ :=
  (adds.map fun a => if a.1 = t then a.2 else 0).sum

theorem due_append (t : Tally) (adds adds' : List (Tally × ℕ)) :
    due t (adds ++ adds') = due t adds + due t adds' := by
  simp [due]

theorem due_flatMap {α : Type*} (t : Tally) (f : α → List (Tally × ℕ)) (xs : List α) :
    due t (xs.flatMap f) = (xs.map fun x => due t (f x)).sum := by
  induction xs with
  | nil => rfl
  | cons x xs ih => rw [List.flatMap_cons, due_append, ih, List.map_cons, List.sum_cons]

theorem get_foldl (adds : List (Tally × ℕ)) (st : Stats) (t : Tally) :
    (adds.foldl (fun st a => st.fetchAdd a.1 a.2) st).get t = st.get t + .ofNat (due t adds) := by
  induction adds generalizing st with
  | nil => simp [due]
  | cons a adds ih =>
      rw [List.foldl_cons, ih, get_fetchAdd, UInt64.add_assoc, ← UInt64.ofNat_add]
      rfl

theorem get_after (adds : List (Tally × ℕ)) (t : Tally) :
    (after adds).get t = .ofNat (due t adds) := by
  rw [after, get_foldl]
  cases t <;> exact UInt64.zero_add _

/-- The order of the additions does not matter. -/
theorem after_perm {adds adds' : List (Tally × ℕ)} (h : adds.Perm adds') :
    after adds = after adds' := by
  apply ext_get
  intro t
  rw [get_after, get_after, due, due, (h.map _).sum_eq]

end Stats

/-- What a call adds to the counters. -/
def Call.adds : Call → List (Tally × ℕ)
  | .openConn _ _ _ _ _ _ => [(.conns, 1)]
  | .data _ _ _ _ dir bs _ => [(dir.msgs, 1), (dir.bytes, bs.length)]
  | _ => []

/-- What a reader of the event log counts for one of its lines. -/
def Event.adds (ev : Event) : List (Tally × ℕ) :=
  match ev.event, ev.dir with
  | .opened, _ => [(.conns, 1)]
  | .data, some dir => [(dir.msgs, 1), (dir.bytes, ev.len.getD 0)]
  | _, _ => []

def Stats.ofLog (evs : List Event) : Stats := after (evs.flatMap Event.adds)

namespace Logger

variable (dp : Deps) (o : Options)

def countsLine (st : Stats) : String :=
  "\nconns " ++ toString st.conns ++ "  rx " ++ toString st.rxMsgs ++ " msgs / " ++
    toString st.rxBytes ++ " bytes  tx " ++ toString st.txMsgs ++ " msgs / " ++
    toString st.txBytes ++ " bytes"

def captureLine (dir : String) (used : ℕ) : String :=
  "capture: " ++ dir ++ " (" ++ human used ++ " written)"

def capWarning (cap : ℕ) : String :=
  "WARNING: the " ++ human cap ++ " run cap was hit, so this capture is incomplete on disk"

/-- What `summary` prints. -/
def summary (dir : String) (st : Stats) (s : Logger) : List String :=
  countsLine st :: ((if o.jsonl || o.raw then [captureLine dir s.diskUsed] else []) ++
    if s.diskStopped then [capWarning o.maxRunBytes] else [])

/-- The lines of a call are counted as the call itself is. -/
theorem adds_writes (e : Env) (c : Call) (s : Logger) :
    ((c.writes dp o e s).filterMap Write.entry).flatMap Event.adds = c.adds := by
  cases c with
  | close proto name conn peer why =>
      have hlost : ∀ f, (truncatedEvent dp e proto name peer f).adds = [] := fun _ => rfl
      have hclosed : (closeEvent dp e proto name conn peer why).adds = [] := rfl
      simp [Call.writes, Write.entry, Function.comp_def, hlost, hclosed, Call.adds,
        List.flatMap_map]
  | _ => rfl

/-- Without a cap the event log counts what the calls count. -/
theorem adds_jsonl (hjsonl : o.jsonl = true) (hcap : o.maxRunBytes = 0)
    (acts : List (Env × Call)) :
    (execAll dp o acts new).jsonl.flatMap Event.adds = acts.flatMap fun a => a.2.adds := by
  induction acts using List.reverseRecOn with
  | nil => rfl
  | append_singleton acts a ih =>
      rw [execAll_append_singleton, jsonl_exec dp o hjsonl hcap, List.flatMap_append, ih,
        adds_writes, List.flatMap_append, List.flatMap_singleton]

/-- Whether the calls asked for more bytes than the run cap allows. -/
def OverCap (acts : List (Env × Call)) : Prop :=
  o.maxRunBytes ≠ 0 ∧ o.maxRunBytes < wanted dp o acts

theorem stopped_uncapped (hcap : o.maxRunBytes = 0) (acts : List (Env × Call)) :
    (execAll dp o acts new).diskStopped = false := by
  have hrun : ∀ (w : Write) (s : Logger), (w.run dp o s).diskStopped = s.diskStopped := by
    intro w s
    rw [w.run_uncapped dp o hcap]
    split
    · exact congrArg Budget.Counter.stopped ((w.counter_perform o _).trans (w.counter_say s))
    · exact congrArg Budget.Counter.stopped (w.counter_say s)
  induction acts using List.reverseRecOn with
  | nil => rfl
  | append_singleton acts a ih =>
      rw [execAll_append_singleton]
      exact (a.2.exec_keeps Logger.diskStopped dp o (fun _ _ _ _ => rfl) hrun a.1 _).trans ih

theorem stopped_iff_overCap (acts : List (Env × Call)) :
    (execAll dp o acts new).diskStopped = true ↔ OverCap dp o acts := by
  by_cases hcap : o.maxRunBytes = 0
  · simp [stopped_uncapped dp o hcap, OverCap, hcap]
  · rw [cut_stopped_iff dp o hcap, OverCap, and_iff_right hcap]

/-- Below the cap the event log is the whole one. -/
theorem jsonl_of_not_overCap {acts : List (Env × Call)} (hunder : ¬OverCap dp o acts) :
    (execAll dp o acts new).jsonl = (execAll dp o.uncapped acts new).jsonl := by
  by_cases hcap : o.maxRunBytes = 0
  · have hsame : o.uncapped = o := congrArg (fun cap => { o with maxRunBytes := cap }) hcap.symm
    rw [hsame]
  · rw [execAll_of_le dp o hcap (Nat.le_of_not_lt fun hover => hunder ⟨hcap, hover⟩)]
    rfl

/-- In any case it is a beginning of that. -/
theorem jsonl_prefix_uncapped (acts : List (Env × Call)) :
    (execAll dp o acts new).jsonl <+: (execAll dp o.uncapped acts new).jsonl := by
  by_cases hover : OverCap dp o acts
  · exact (grows_uncapped dp o hover.1 acts).1
  · rw [jsonl_of_not_overCap dp o hover]

theorem capWarning_mem_summary (dir : String) (st : Stats) (s : Logger) :
    capWarning o.maxRunBytes ∈ summary o dir st s ↔ s.diskStopped = true := by
  have hfirst : (capWarning o.maxRunBytes).toList.head? = some 'W' := by
    simp [capWarning, String.toList_append]
  have hcounts : capWarning o.maxRunBytes ≠ countsLine st := by
    intro h
    rw [h] at hfirst
    simp [countsLine, String.toList_append] at hfirst
  have hcapture : capWarning o.maxRunBytes ≠ captureLine dir s.diskUsed := by
    intro h
    rw [h] at hfirst
    simp [captureLine, String.toList_append] at hfirst
  simp only [summary, List.mem_cons, List.mem_append, hcounts, false_or]
  split_ifs with hfiles hstop
  · simp [hstop]
  · simp [hstop, hcapture]
  · simp_all
  · simp_all

end Logger

end KirbLaSnoop
