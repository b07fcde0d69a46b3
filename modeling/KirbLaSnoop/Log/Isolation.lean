import Mathlib
import KirbLaSnoop.Lib.InTurn
import KirbLaSnoop.Log.Captured
import KirbLaSnoop.Log.Index
import KirbLaSnoop.Log.Share

/-!
# Connections do not disturb each other

Without a run cap, tasks that take turns leave every connection with the share
it would have if it were the only one, whatever comes between the steps of its
calls.
-/

namespace KirbLaSnoop

/-- The writes about a connection that a task still has to make. -/
def Task.writesFor (c : ℕ) (t : Task) : List Write :=
  (t.busy.toList.map Busy.write ++ t.todo.filterMap Job.write?).filter fun w => w.conn = some c

variable {ι : Type*}

/-- The calls that name a connection, in the order in which they began. -/
def callsOn (c : ℕ) (acts : List (Act ι)) : List (Env × Call) :=
  acts.filterMap fun a =>
    match a with
    | .call _ e call => if call.conn = some c then some (e, call) else none
    | .step _ => none

theorem conn_of_mem_callsOn {c : ℕ} {acts : List (Act ι)} {a : Env × Call}
    (ha : a ∈ callsOn c acts) : a.2.conn = some c := by
  obtain ⟨act, -, hact⟩ := List.mem_filterMap.mp ha
  cases act with
  | call i e call =>
      simp only [Option.ite_none_right_eq_some, Option.some.injEq] at hact
      rw [← hact.2]
      exact hact.1
  | step i => cases hact

theorem good_of_mem_callsOn {c : ℕ} {acts : List (Act ι)}
    (hgood : ∀ i e call, .call i e call ∈ acts → e.Good) {a : Env × Call}
    (ha : a ∈ callsOn c acts) : a.1.Good := by
  obtain ⟨act, hmem, hact⟩ := List.mem_filterMap.mp ha
  cases act with
  | call i e call =>
      simp only [Option.ite_none_right_eq_some, Option.some.injEq] at hact
      rw [← hact.2]
      exact hgood i e call hmem
  | step i => cases hact

namespace Logger

variable {dp : Deps} {o : Options}

theorem Captures.congr_share {stem : Stem} {D : List UInt8} {ended : Bool} {s t : Logger}
    (h : Captures o stem D ended s) (hshare : s.share stem.conn = t.share stem.conn) :
    Captures o stem D ended t := by
  obtain ⟨hstreams, hfiles, -⟩ := share_eq_iff.mp hshare
  constructor
  · exact (hstreams stem.dir).symm.trans h.stream
  · intro p hp
    exact (hfiles p (congrArg Prod.fst hp)).symm.trans (h.files p hp)

/-- No data for the key comes after a call that ends its stream. -/
def EndsLast (k : Key) (calls : List (Env × Call)) : Prop :=
  EachStep (fun done a => a.2.bytesFor k ≠ [] → ∀ b ∈ done, b.2.ends k = false) calls

variable (dp) in
theorem keeps_execAll (hraw : o.raw = true) {k : Key} {calls : List (Env × Call)}
    (hcalls : ∀ a ∈ calls, a.1.Good ∧ a.2.isFlush = false) (hends : EndsLast k calls) :
    Wf o (execAll dp o calls new) ∧
      Keeps o k (passed k calls) (calls.any fun a => a.2.ends k) (execAll dp o calls new) := by
  induction calls using List.reverseRecOn with
  | nil => exact ⟨wf_new o, keeps_new k⟩
  | append_singleton calls a ih =>
      obtain ⟨hbefore, hlast⟩ := EachStep.concat_iff.mp hends
      obtain ⟨hwf, hkeeps⟩ := ih (fun b hb => hcalls b (List.mem_append_left _ hb)) hbefore
      obtain ⟨hgood, hflush⟩ := hcalls a (List.mem_append_right _ List.mem_cons_self)
      have hposs : a.2.Possible (execAll dp o calls new) := by
        intro order horder
        rw [horder] at hflush
        cases hflush
      have hlate : (calls.any fun a => a.2.ends k) = true → a.2.bytesFor k = [] := by
        intro hany
        by_contra hne
        obtain ⟨b, hb, hbends⟩ := List.any_eq_true.mp hany
        rw [hlast hne b hb] at hbends
        cases hbends
      have hsnoc : execAll dp o (calls ++ [a]) new =
          (execAll dp o calls new).exec dp o a.1 a.2 := by
        rw [execAll, List.foldl_append]
        rfl
      rw [hsnoc, passed_append_singleton, List.any_append, List.any_cons, List.any_nil,
        Bool.or_false]
      exact ⟨hwf.exec dp o hgood a.2, hkeeps.exec dp hraw hwf hgood hposs hlate⟩

end Logger

namespace Machine

open Logger (execAll named_new EndsLast Captures keeps_execAll)

/-- A call that names the connection begins only when no task is in another
such call; the program flushes at its end only. -/
def Apart (c : ℕ) (m : Machine ι) (a : Act ι) : Prop :=
  match a with
  | .call _ _ call =>
      call.isFlush = false ∧ (call.conn = some c → ∀ i, (m.task i).writesFor c = [])
  | .step _ => True

/-- One task at most has writes about the connection to make, and these are
they. -/
def InHand (c : ℕ) (m : Machine ι) (ws : List Write) : Prop :=
  (ws = [] ∧ ∀ i, (m.task i).writesFor c = []) ∨
    ∃ i, (m.task i).writesFor c = ws ∧ ∀ j, j ≠ i → (m.task j).writesFor c = []

variable {c : ℕ} {m : Machine ι} {ws : List Write}

theorem InHand.eq_nil (h : InHand c m ws) (hdone : ∀ i, (m.task i).writesFor c = []) :
    ws = [] := by
  rcases h with ⟨rfl, -⟩ | ⟨i, rfl, -⟩
  · rfl
  · exact hdone i

theorem InHand.of_ne_nil (h : InHand c m ws) {i : ι} (hi : (m.task i).writesFor c ≠ []) :
    (m.task i).writesFor c = ws ∧ ∀ j, j ≠ i → (m.task j).writesFor c = [] := by
  rcases h with ⟨-, hnone⟩ | ⟨k, hk, hother⟩
  · exact absurd (hnone i) hi
  · have hik : i = k := by
      by_contra hne
      exact hi (hother i hne)
    subst hik
    exact ⟨hk, hother⟩

variable [DecidableEq ι]

theorem inHand_put {i : ι} (hother : ∀ j, j ≠ i → (m.task j).writesFor c = []) (log : Logger)
    (busy : Option Busy) (todo : List Job) :
    InHand c (m.put i log busy todo) (Task.writesFor c ⟨busy, todo⟩) := by
  refine .inr ⟨i, by rw [put_task], ?_⟩
  intro j hj
  rw [put_task_ne m hj]
  exact hother j hj

theorem InHand.put (h : InHand c m ws) {i : ι} (log : Logger) {busy : Option Busy}
    {todo : List Job} (hsame : Task.writesFor c ⟨busy, todo⟩ = (m.task i).writesFor c) :
    InHand c (m.put i log busy todo) ws := by
  have htask : ∀ j, ((m.put i log busy todo).task j).writesFor c = (m.task j).writesFor c := by
    intro j
    by_cases hj : j = i
    · rw [hj, put_task, hsame]
    · rw [put_task_ne m hj]
  rcases h with ⟨hws, hnone⟩ | ⟨k, hk, hother⟩
  · exact .inl ⟨hws, fun j => (htask j).trans (hnone j)⟩
  · exact .inr ⟨k, (htask k).trans hk, fun j hj => (htask j).trans (hother j hj)⟩

/-- What the other connections and the tasks between their steps leave of a
run: the share that the calls on the connection have made so far, or will have
made once the writes in hand are made. -/
structure Isolated (dp : Deps) (o : Options) (c : ℕ) (acts : List (Act ι)) (m : Machine ι) :
    Prop where
  named : Logger.Named m.log
  busy : ∀ i b, (m.task i).busy = some b → ∃ w, b = .granted w ∧ w.live o = true
  todo : ∀ i, ∀ job ∈ (m.task i).todo, ∃ w, job = .write w
  share : ∃ ws, InHand c m ws ∧
    (ws.foldl (fun s w => w.run dp o s) m.log).share c =
      (execAll dp o (callsOn c acts) .new).share c

variable {dp : Deps} {o : Options} {acts : List (Act ι)}

omit [DecidableEq ι] in
theorem isolated_new (c : ℕ) : Isolated dp o c [] (new : Machine ι) where
  named := named_new
  busy _ _ hb := by cases hb
  todo _ _ hjob := by cases hjob
  share := ⟨[], .inl ⟨rfl, fun _ => rfl⟩, rfl⟩

theorem Isolated.put (h : Isolated dp o c acts m) {acts' : List (Act ι)} {i : ι} {log : Logger}
    {busy : Option Busy} {todo : List Job} (hnamed : Logger.Named log)
    (hbusy : ∀ b, busy = some b → ∃ w, b = .granted w ∧ w.live o = true)
    (htodo : ∀ job ∈ todo, ∃ w, job = .write w)
    (hshare : ∃ ws, InHand c (m.put i log busy todo) ws ∧
      (ws.foldl (fun s w => w.run dp o s) log).share c =
        (execAll dp o (callsOn c acts') .new).share c) :
    Isolated dp o c acts' (m.put i log busy todo) where
  named := hnamed
  busy j := by
    by_cases hj : j = i
    · rw [hj, put_task]
      exact hbusy
    · rw [put_task_ne m hj]
      exact h.busy j
  todo j := by
    by_cases hj : j = i
    · rw [hj, put_task]
      exact htodo
    · rw [put_task_ne m hj]
      exact h.todo j
  share := hshare

section Uncapped

variable (hcap : o.maxRunBytes = 0)

include hcap

theorem share_foldl_congr {s t : Logger} (hs : Logger.Named s) (ht : Logger.Named t)
    (hst : s.share c = t.share c) (ws : List Write) :
    (ws.foldl (fun s w => w.run dp o s) s).share c =
      (ws.foldl (fun s w => w.run dp o s) t).share c := by
  have hfold := View.foldl_filter (fun s w => Write.run dp o w s) (v := Logger.share c)
    (l := ws) (fun _ => true) (fun w _ s => w.named_run dp o hcap)
    (fun _ _ htrue => absurd htrue.symm Bool.false_ne_true)
    (fun w _ _ => by
      by_cases hw : w.conn = some c
      · exact w.respected_run dp o hcap hw
      · exact (w.hidden_run dp o hcap hw).respected) hs ht hst
  rwa [List.filter_true] at hfold

/-- A step that neither touches the share nor the writes in hand. -/
theorem Isolated.pass (h : Isolated dp o c acts m) {acts' : List (Act ι)}
    (hacts : callsOn c acts' = callsOn c acts) {i : ι} {log : Logger} {busy : Option Busy}
    {todo : List Job} (hnamed : Logger.Named log)
    (hbusy : ∀ b, busy = some b → ∃ w, b = .granted w ∧ w.live o = true)
    (htodo : ∀ job ∈ todo, ∃ w, job = .write w) (hlog : log.share c = m.log.share c)
    (hsame : Task.writesFor c ⟨busy, todo⟩ = (m.task i).writesFor c) :
    Isolated dp o c acts' (m.put i log busy todo) := by
  obtain ⟨ws, hin, hshare⟩ := h.share
  refine h.put hnamed hbusy htodo ⟨ws, hin.put log hsame, ?_⟩
  rw [hacts, ← hshare]
  exact share_foldl_congr hcap hnamed h.named hlog ws

/-- The task makes the first of the writes it has in hand. -/
theorem Isolated.make (h : Isolated dp o c acts m) {acts' : List (Act ι)}
    (hacts : callsOn c acts' = callsOn c acts) {i : ι} {log : Logger} {w : Write}
    {rest : List Job} (hnamed : Logger.Named log) (htodo : ∀ job ∈ rest, ∃ w, job = .write w)
    (hlog : log.share c = (w.run dp o m.log).share c)
    (hfirst : (m.task i).writesFor c = w :: Task.writesFor c ⟨none, rest⟩) :
    Isolated dp o c acts' (m.put i log none rest) := by
  obtain ⟨ws, hin, hshare⟩ := h.share
  obtain ⟨hws, hother⟩ := hin.of_ne_nil (i := i) (by rw [hfirst]; exact List.cons_ne_nil _ _)
  refine h.put hnamed (fun _ hb => by cases hb) htodo
    ⟨_, inHand_put hother log none rest, ?_⟩
  rw [hacts, ← hshare, ← hws, hfirst, List.foldl_cons]
  exact share_foldl_congr hcap hnamed (w.named_run dp o hcap h.named) hlog _

theorem Isolated.call (h : Isolated dp o c acts m) {i : ι} {e : Env} {call : Call}
    (hidle : m.task i = .idle) (hflush : call.isFlush = false)
    (hapart : call.conn = some c → ∀ i, (m.task i).writesFor c = []) :
    Isolated dp o c (acts ++ [.call i e call])
      (m.put i (call.start dp o e m.log).1 none (call.start dp o e m.log).2) := by
  have hstart : call.start dp o e m.log =
      (call.settle o e m.log, (call.writes dp o e m.log).map .write) := by
    cases call with
    | flush order => cases hflush
    | _ => rfl
  have hnamed := call.named_settle o h.named e hflush
  have htodo : ∀ job ∈ (call.writes dp o e m.log).map Job.write, ∃ w, job = .write w := by
    intro job hjob
    obtain ⟨w, -, rfl⟩ := List.mem_map.mp hjob
    exact ⟨w, rfl⟩
  have hwrites : ∀ ws : List Write, Task.writesFor c ⟨none, ws.map .write⟩ =
      ws.filter fun w => w.conn = some c := by
    intro ws
    simp [Task.writesFor, List.filterMap_map, Function.comp_def, Job.write?]
  rw [hstart]
  by_cases hc : call.conn = some c
  · obtain ⟨ws, hin, hshare⟩ := h.share
    have hnone := hapart hc
    obtain rfl := hin.eq_nil hnone
    have hall : Task.writesFor c ⟨none, (call.writes dp o e m.log).map .write⟩ =
        call.writes dp o e m.log := by
      rw [hwrites]
      apply List.filter_eq_self.mpr
      intro w hw
      simpa [call.conn_of_mem_writes dp o hw] using hc
    refine h.put hnamed (fun _ hb => by cases hb) htodo
      ⟨_, inHand_put (fun j _ => hnone j) _ none _, ?_⟩
    have hcalls : callsOn c (acts ++ [.call i e call]) = callsOn c acts ++ [(e, call)] := by
      simp [callsOn, hc]
    have hseq : Logger.Named (execAll dp o (callsOn c acts) .new) := by
      apply View.foldl_keeps _ named_new
      intro a ha s hs
      exact a.2.named_exec dp o hcap a.1 (Call.not_flush (conn_of_mem_callsOn ha)) hs
    rw [hall, hcalls, execAll, List.foldl_append, List.foldl_cons, List.foldl_nil, ← execAll,
      ← call.respected_exec dp o hcap e hflush hc _ _ h.named hseq hshare, Call.exec_eq]
  · refine h.pass hcap ?_ hnamed (fun _ hb => by cases hb) htodo
      (call.share_settle_of_ne o h.named e hflush hc) ?_
    · simp [callsOn, hc]
    · rw [hwrites, hidle, List.filter_eq_nil_iff.mpr]
      · rfl
      · intro w hw
        simpa [call.conn_of_mem_writes dp o hw] using hc

theorem Isolated.step (h : Isolated dp o c acts m) {i : ι} {m' : Machine ι} {seen : List (Seen ι)}
    (hmove : Move dp o m (.step i) m' seen) : Isolated dp o c (acts ++ [.step i]) m' := by
  have hacts : callsOn c (acts ++ [.step i]) = callsOn c acts := by simp [callsOn]
  have hrest : ∀ job rest, (m.task i).todo = job :: rest → ∀ job ∈ rest, ∃ w, job = .write w := by
    intro job rest htodo job' hjob'
    exact h.todo i job' (htodo ▸ List.mem_cons_of_mem job hjob')
  cases hmove with
  | finish _ io k st rest ht =>
      obtain ⟨w, hw⟩ := h.todo i (.finish io k st) (by rw [ht]; exact List.mem_cons_self)
      cases hw
  | skip _ w rest ht hlive =>
      have htodo := hrest (.write w) rest (by rw [ht])
      by_cases hw : w.conn = some c
      · apply h.make hcap hacts (w.named_say h.named) htodo
        · rw [w.run_uncapped dp o hcap, hlive, if_neg Bool.false_ne_true]
        · simp [ht, Task.writesFor, Job.write?, hw]
      · apply h.pass hcap hacts (w.named_say h.named) (fun _ hb => by cases hb) htodo
        · exact w.share_say c m.log
        · simp [ht, Task.writesFor, Job.write?, hw]
  | free _ w rest ht hlive hfree =>
      have htodo := hrest (.write w) rest (by rw [ht])
      apply h.pass hcap hacts (w.named_say h.named) _ htodo
      · exact w.share_say c m.log
      · simp [ht, Task.writesFor, Job.write?, Busy.write, List.filter_cons]
      · intro b hb
        exact ⟨w, (Option.some.inj hb).symm, hlive⟩
  | begin _ w rest ht hlive hno hstop => exact absurd hcap hno
  | turnedAway _ w rest ht hlive hno hstop => exact absurd hcap hno
  | advance _ w phase phase' counter rest ht hadv =>
      obtain ⟨w, hw, -⟩ := h.busy i _ (by rw [ht])
      cases hw
  | grant _ w phase counter rest ht hadv =>
      obtain ⟨w, hw, -⟩ := h.busy i _ (by rw [ht])
      cases hw
  | refuse _ w phase counter rest ht hadv =>
      obtain ⟨w, hw, -⟩ := h.busy i _ (by rw [ht])
      cases hw
  | perform _ w rest ht =>
      obtain ⟨w', hw', hlive⟩ := h.busy i (.granted w) (by rw [ht])
      obtain rfl := Busy.granted.inj hw'
      have htodo : ∀ job ∈ rest, ∃ w, job = .write w := by
        have hall := h.todo i
        rwa [ht] at hall
      have hnamed := w.named_perform o h.named
      by_cases hw : w.conn = some c
      · apply h.make hcap hacts hnamed htodo
        · rw [w.run_uncapped dp o hcap, hlive, if_pos rfl]
          exact w.share_perform_congr o h.named (w.share_say c m.log).symm hw
        · simp [ht, Task.writesFor, Busy.write, hw]
      · apply h.pass hcap hacts hnamed (fun _ hb => by cases hb) htodo
        · exact w.share_perform_of_ne o h.named hw
        · simp [ht, Task.writesFor, Busy.write, hw]

theorem isolated_run (c : ℕ) {acts : List (Act ι)}
    (hapart : (lts dp o).Throughout new acts fun _ m a => Apart c m a) {m : Machine ι}
    {tr : List (List (Seen ι))} (h : (lts dp o).run new acts = some (m, tr)) :
    Isolated dp o c acts m := by
  refine (lts dp o).run_induction (fun acts m _ => Isolated dp o c acts m) (isolated_new c) ?_ h
  intro as a rest u os v out hacts hrun hu hstep
  have hmove := step_cases dp o hstep
  have ha := hapart as a rest u os hacts hrun
  cases a with
  | call i e call =>
      cases hmove with
      | call _ _ _ hidle hc => exact hu.call hcap hidle ha.1 ha.2
  | step i => exact hu.step hcap hmove

/-- Tasks that take turns leave every connection with the files and the lines
of the event log that its own calls would have left it alone. -/
theorem connections_isolated (c : ℕ) (acts : List (Act ι))
    (hapart : (lts dp o).Throughout new acts fun _ m a => Apart c m a) (m : Machine ι)
    (tr : List (List (Seen ι))) (h : (lts dp o).run new acts = some (m, tr))
    (hdone : ∀ i, (m.task i).writesFor c = []) :
    m.log.share c = (execAll dp o (callsOn c acts) .new).share c := by
  obtain ⟨ws, hin, hshare⟩ := (isolated_run hcap c hapart h).share
  rwa [hin.eq_nil hdone] at hshare

/-- Tasks that take turns leave the files of every stream as one capture of
the bytes passed to it, in the order in which its calls began. -/
theorem interleaved_capture (hraw : o.raw = true) (k : Key) (acts : List (Act ι))
    (hgood : ∀ i e call, .call i e call ∈ acts → e.Good)
    (hends : EndsLast k (callsOn k.1 acts))
    (hapart : (lts dp o).Throughout new acts fun _ m a => Apart k.1 m a) (m : Machine ι)
    (tr : List (List (Seen ι))) (h : (lts dp o).run new acts = some (m, tr))
    (hdone : ∀ i, (m.task i).writesFor k.1 = []) :
    ∃ stem, stem.key = k ∧
      Captures o stem (passed k (callsOn k.1 acts))
        ((callsOn k.1 acts).any fun a => a.2.ends k) m.log := by
  obtain ⟨ws, hin, hshare⟩ := (isolated_run hcap k.1 hapart h).share
  obtain rfl := hin.eq_nil hdone
  have hcalls : ∀ a ∈ callsOn k.1 acts, a.1.Good ∧ a.2.isFlush = false := by
    intro a ha
    exact ⟨good_of_mem_callsOn hgood ha, Call.not_flush (conn_of_mem_callsOn ha)⟩
  obtain ⟨stem, D, hkey, hcaptures, -, hall⟩ := (keeps_execAll dp hraw hcalls hends).2
  obtain rfl := hall (.inl hcap)
  exact ⟨stem, hkey, hcaptures.congr_share (hkey ▸ hshare.symm)⟩

end Uncapped

/-- Two messages of two connections, each written between the steps of the
other. -/
def twoAtOnce : List (Act (Fin 2)) :=
  [.call 0 .quiet (.data .tcp "tcp:0" 1 "a" .rx [1, 2] none),
    .call 1 .quiet (.data .tcp "tcp:0" 2 "b" .rx [3] none),
    .step 0, .step 1, .step 1, .step 0, .step 1, .step 0, .step 0]

theorem twoAtOnce_apart : (lts .bare ⟨true, true, 0, ⟨1, 0⟩, 0⟩).Throughout
    (new : Machine (Fin 2)) twoAtOnce fun _ m a => Apart 1 m a := by
  apply Lts.throughout_cons
  · exact ⟨rfl, fun _ _ => rfl⟩
  · intro u out hu
    apply Lts.throughout_cons
    · exact ⟨rfl, fun h => absurd (Option.some.inj h) (by decide)⟩
    · intro v out' hv as a rest w tr hacts hrun
      have ha : a ∈ as ++ a :: rest := List.mem_append_right as List.mem_cons_self
      simp only [← hacts, List.mem_cons, List.not_mem_nil, or_false] at ha
      rcases ha with rfl | rfl | rfl | rfl | rfl | rfl | rfl <;> trivial

theorem connections_isolated_two :
    ∃ m tr, (lts .bare ⟨true, true, 0, ⟨1, 0⟩, 0⟩).run (new : Machine (Fin 2)) twoAtOnce =
        some (m, tr) ∧
      m.log.share 1 =
        (execAll .bare ⟨true, true, 0, ⟨1, 0⟩, 0⟩ (callsOn 1 twoAtOnce) .new).share 1 := by
  refine ⟨_, _, rfl, ?_⟩
  apply connections_isolated (o := ⟨true, true, 0, ⟨1, 0⟩, 0⟩) rfl 1 twoAtOnce twoAtOnce_apart _ _
    rfl
  intro i
  fin_cases i <;> rfl

end Machine

end KirbLaSnoop
