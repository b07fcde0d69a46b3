import Mathlib
import KirbLaSnoop.Log.Footprint

/-!
# Tasks that share a logger

A call takes its streams out of the table in one step under the lock. Then
come its jobs: for every write a charge, whose atomic steps may be separated
by those of other tasks, and after a granted charge one step under the lock.
-/

namespace KirbLaSnoop

namespace Logger

variable (dp : Deps) (o : Options)

/-- Store the counter; whoever raises the flag says so on the console. -/
def withCounter (c : Budget.Counter) (s : Logger) : Logger :=
  { s with
    diskUsed := c.used
    diskStopped := c.stopped
    console := if c.stopped && !s.diskStopped then s.console ++ [.runCap] else s.console }

@[simp] theorem counter_withCounter (c : Budget.Counter) (s : Logger) :
    (s.withCounter c).counter = c := rfl

theorem withCounter_counter (s : Logger) : s.withCounter s.counter = s := by
  simp [withCounter, counter]

theorem withCounter_withCounter {c : Budget.Counter} {s : Logger}
    (hc : c.stopped = s.diskStopped) (c' : Budget.Counter) :
    (s.withCounter c).withCounter c' = s.withCounter c' := by
  simp [withCounter, hc]

/-- `charge` is the atomic steps of a charge with nothing in between. -/
theorem charge_eq (hcap : o.maxRunBytes ≠ 0) (n : ℕ) (s : Logger) :
    s.charge o n = ((Budget.charge o.maxRunBytes n s.counter).1,
      s.withCounter (Budget.charge o.maxRunBytes n s.counter).2) := by
  cases hstop : s.diskStopped with
  | true =>
      have hc : Budget.charge o.maxRunBytes n s.counter = (false, s.counter) := by
        simp [Budget.charge, counter, hstop]
      simp [charge, hcap, hstop, hc, withCounter_counter]
  | false =>
      by_cases hover : s.diskUsed + n > o.maxRunBytes
      · simp [charge, hcap, hstop, hover, Budget.charge, counter, withCounter]
      · simp [charge, hcap, hstop, hover, Budget.charge, counter, withCounter]

end Logger

/-- What a task still has to do for the call it is in. -/
inductive Job where
  | write (w : Write)
  | finish (io : Io) (key : Key) (st : Stream FileName)

/-- The write a task is in the middle of. -/
inductive Busy where
  | charging (w : Write) (phase : Budget.Phase)
  | granted (w : Write)

structure Task where
  busy : Option Busy
  todo : List Job

def Task.idle : Task := ⟨none, []⟩

def Task.isIdle (t : Task) : Bool := t.busy.isNone && t.todo.isEmpty

theorem Task.isIdle_iff (t : Task) : t.isIdle = true ↔ t = .idle := by
  obtain ⟨busy, todo⟩ := t
  cases busy <;> cases todo <;> simp [isIdle, idle]

variable {ι : Type*} [DecidableEq ι]

/-- What a call does in its first step, and the jobs it leaves. A flush only
empties the table under the lock; the streams are finished afterwards. -/
def Call.start (dp : Deps) (o : Options) (e : Env) (c : Call) (s : Logger) : Logger × List Job :=
  match c with
  | .flush order =>
      ({ s with raw := ∅ }, order.filterMap fun k => (s.raw.get k).map (Job.finish (e.io k) k))
  | c => (c.settle o e s, (c.writes dp o e s).map .write)

/-- The loggers and tasks of a run. -/
structure Machine (ι : Type*) where
  log : Logger
  task : ι → Task

inductive Act (ι : Type*) where
  | call (i : ι) (e : Env) (c : Call)
  | step (i : ι)

inductive Seen (ι : Type*) where
  | started (i : ι) (n : ℕ)
  | answered (i : ι) (n : ℕ) (granted : Bool)
  | handed (key : Key) (bs : List UInt8)
  deriving DecidableEq

/-- The bytes a granted write hands to a stream: as many as the stream then
counts more than before. There are none if there is no stream and none can be
created. -/
def Write.handed (o : Options) (w : Write) (s : Logger) : List (Seen ι) :=
  match w with
  | .raw io conn proto peer dir data =>
      let t := s.rawLocked o io conn proto peer dir data
      if (t.raw.get (conn, dir)).isSome then
        [.handed (conn, dir) (data.take (t.totalOf (conn, dir) - s.totalOf (conn, dir)))]
      else []
  | .event _ _ => []

/-- Finish one stream outside the lock, and announce it if it lost bytes. -/
def Logger.finishOne (io : Io) (k : Key) (st : Stream FileName) (s : Logger) : Logger :=
  let (f, s) := s.finishStream io k st
  if f.summary.dropped > 0 then s.announce f else s

/-- Only a line on the console is to be told from finishing alone. -/
theorem Logger.finishOne_eq (io : Io) (k : Key) (st : Stream FileName) (s : Logger) :
    ∃ console, s.finishOne io k st = { (s.finishStream io k st).2 with console := console } := by
  unfold finishOne
  dsimp only
  split
  · exact ⟨_, rfl⟩
  · exact ⟨_, rfl⟩

def Job.run (dp : Deps) (o : Options) (s : Logger) : Job → Logger
  | .write w => w.run dp o s
  | .finish io k st => s.finishOne io k st

theorem foldl_finish (dp : Deps) (o : Options) (e : Env) (order : List Key) (hnodup : order.Nodup)
    (s : Logger) (console : List Notice) :
    (order.filterMap fun k => (s.raw.get k).map (Job.finish (e.io k) k)).foldl (Job.run dp o)
        { s with raw := ∅, console := console } =
      { (s.finishAll e order).2 with
        raw := ∅
        console := console ++ (((s.finishAll e order).1.filter fun f => f.summary.dropped > 0).map
          fun f => Notice.truncated f.key.1 f.key.2 f.summary) } := by
  induction order generalizing s console with
  | nil => simp [Logger.finishAll]
  | cons k order ih =>
      obtain ⟨hk, hnodup⟩ := List.nodup_cons.mp hnodup
      cases hget : s.raw.get k with
      | none =>
          simp only [List.filterMap_cons, hget, Option.map_none, Logger.finishAll]
          exact ih hnodup s console
      | some st =>
          have htable : (order.filterMap fun j => (s.raw.get j).map (Job.finish (e.io j) j)) =
              order.filterMap fun j => ((s.raw.remove k).get j).map (Job.finish (e.io j) j) := by
            apply List.filterMap_congr
            intro j hj
            have hne : j ≠ k := fun h => hk (h ▸ hj)
            rw [Table.get_remove_ne _ hne]
          have hrest := ih hnodup ({ s with raw := s.raw.remove k }.finishStream (e.io k) k st).2
          simp only [List.filterMap_cons, hget, Option.map_some, Logger.finishAll, List.foldl_cons,
            htable, Job.run, Logger.finishOne]
          by_cases hdropped : (st.finish (e.io k) s.disk).1.dropped > 0
          · have hone := hrest (console ++
              [.truncated k.1 k.2 (st.finish (e.io k) s.disk).1])
            simp only [Logger.finishStream, hdropped, if_true, Logger.announce] at hone ⊢
            rw [hone, List.filter_cons_of_pos (by simpa using hdropped), List.map_cons,
              List.append_assoc, List.singleton_append]
          · have hone := hrest console
            simp only [Logger.finishStream, hdropped, if_false] at hone ⊢
            rw [hone, List.filter_cons_of_neg (by simpa using hdropped)]

/-- The jobs of a call do what the call does. -/
theorem foldl_start (dp : Deps) (o : Options) (e : Env) (c : Call) (s : Logger)
    (hc : c.Possible s) :
    (c.start dp o e s).2.foldl (Job.run dp o) (c.start dp o e s).1 = s.exec dp o e c := by
  cases c with
  | flush order =>
      have hempty := Logger.Enumerates.raw_finishAll (hc order rfl) e
      have hfold := foldl_finish dp o e order (hc order rfl).1 s s.console
      rw [Logger.exec, Logger.flush_eq]
      dsimp only
      rw [hempty]
      exact hfold
  | _ => simp only [Call.start, Call.exec_eq, List.foldl_map, Job.run]

namespace Machine

variable (dp : Deps) (o : Options)

def new : Machine ι := ⟨.new, fun _ => .idle⟩

def put (m : Machine ι) (i : ι) (log : Logger) (busy : Option Busy) (todo : List Job) :
    Machine ι :=
  ⟨log, Function.update m.task i ⟨busy, todo⟩⟩

@[simp] theorem put_log (m : Machine ι) (i : ι) (log : Logger) (busy : Option Busy)
    (todo : List Job) : (m.put i log busy todo).log = log := rfl

@[simp] theorem put_task (m : Machine ι) (i : ι) (log : Logger) (busy : Option Busy)
    (todo : List Job) : (m.put i log busy todo).task i = ⟨busy, todo⟩ :=
  Function.update_self _ _ _

theorem put_task_ne (m : Machine ι) {i j : ι} (h : j ≠ i) (log : Logger) (busy : Option Busy)
    (todo : List Job) : (m.put i log busy todo).task j = m.task j :=
  Function.update_of_ne h _ _

@[simp] theorem put_put (m : Machine ι) (i : ι) (log log' : Logger) (busy busy' : Option Busy)
    (todo todo' : List Job) :
    (m.put i log busy todo).put i log' busy' todo' = m.put i log' busy' todo' := by
  simp [put]

def resume (i : ι) (w : Write) : Budget.Outcome → Option Busy × List (Seen ι)
  | .next phase => (some (.charging w phase), [])
  | .answer true => (some (.granted w), [.answered i (w.cost dp) true])
  | .answer false => (none, [.answered i (w.cost dp) false])

def call (m : Machine ι) (i : ι) (e : Env) (c : Call) : Option (Machine ι × List (Seen ι)) :=
  if (m.task i).isIdle ∧ c.Possible m.log then
    let (log, jobs) := c.start dp o e m.log
    some (m.put i log none jobs, [])
  else none

def step (m : Machine ι) (i : ι) : Option (Machine ι × List (Seen ι)) :=
  match m.task i with
  | ⟨none, []⟩ => none
  | ⟨none, .finish io k st :: rest⟩ => some (m.put i (m.log.finishOne io k st) none rest, [])
  | ⟨none, .write w :: rest⟩ =>
      let log := w.say m.log
      if w.live o then
        let out := if o.maxRunBytes = 0 then .answer true else Budget.start log.counter
        let (busy, seen) := resume dp i w out
        some (m.put i log busy rest, .started i (w.cost dp) :: seen)
      else some (m.put i log none rest, [])
  | ⟨some (.charging w phase), rest⟩ =>
      let (c, out) := Budget.advance o.maxRunBytes (w.cost dp) m.log.counter phase
      let (busy, seen) := resume dp i w out
      some (m.put i (m.log.withCounter c) busy rest, seen)
  | ⟨some (.granted w), rest⟩ =>
      some (m.put i (w.perform o m.log) none rest, w.handed o m.log)

/-- Tasks that take turns in any order. -/
def lts : Lts (Machine ι) (Act ι) (List (Seen ι)) where
  step m a :=
    match a with
    | .call i e c => m.call dp o i e c
    | .step i => m.step dp o i

/-! ## What a step can do -/

inductive Move (m : Machine ι) : Act ι → Machine ι → List (Seen ι) → Prop
  | call (i : ι) (e : Env) (c : Call) (hidle : m.task i = .idle) (hc : c.Possible m.log) :
      Move m (.call i e c)
        (m.put i (c.start dp o e m.log).1 none (c.start dp o e m.log).2) []
  | finish (i : ι) (io : Io) (k : Key) (st : Stream FileName) (rest : List Job)
      (ht : m.task i = ⟨none, .finish io k st :: rest⟩) :
      Move m (.step i) (m.put i (m.log.finishOne io k st) none rest) []
  | skip (i : ι) (w : Write) (rest : List Job) (ht : m.task i = ⟨none, .write w :: rest⟩)
      (hlive : w.live o = false) : Move m (.step i) (m.put i (w.say m.log) none rest) []
  | free (i : ι) (w : Write) (rest : List Job) (ht : m.task i = ⟨none, .write w :: rest⟩)
      (hlive : w.live o = true) (hcap : o.maxRunBytes = 0) :
      Move m (.step i) (m.put i (w.say m.log) (some (.granted w)) rest)
        [.started i (w.cost dp), .answered i (w.cost dp) true]
  | begin (i : ι) (w : Write) (rest : List Job) (ht : m.task i = ⟨none, .write w :: rest⟩)
      (hlive : w.live o = true) (hcap : o.maxRunBytes ≠ 0) (hstop : m.log.diskStopped = false) :
      Move m (.step i) (m.put i (w.say m.log) (some (.charging w .adding)) rest)
        [.started i (w.cost dp)]
  | turnedAway (i : ι) (w : Write) (rest : List Job) (ht : m.task i = ⟨none, .write w :: rest⟩)
      (hlive : w.live o = true) (hcap : o.maxRunBytes ≠ 0) (hstop : m.log.diskStopped = true) :
      Move m (.step i) (m.put i (w.say m.log) none rest)
        [.started i (w.cost dp), .answered i (w.cost dp) false]
  | advance (i : ι) (w : Write) (phase phase' : Budget.Phase) (c : Budget.Counter)
      (rest : List Job) (ht : m.task i = ⟨some (.charging w phase), rest⟩)
      (hadv : Budget.advance o.maxRunBytes (w.cost dp) m.log.counter phase = (c, .next phase')) :
      Move m (.step i) (m.put i (m.log.withCounter c) (some (.charging w phase')) rest) []
  | grant (i : ι) (w : Write) (phase : Budget.Phase) (c : Budget.Counter)
      (rest : List Job) (ht : m.task i = ⟨some (.charging w phase), rest⟩)
      (hadv : Budget.advance o.maxRunBytes (w.cost dp) m.log.counter phase = (c, .answer true)) :
      Move m (.step i) (m.put i (m.log.withCounter c) (some (.granted w)) rest)
        [.answered i (w.cost dp) true]
  | refuse (i : ι) (w : Write) (phase : Budget.Phase) (c : Budget.Counter)
      (rest : List Job) (ht : m.task i = ⟨some (.charging w phase), rest⟩)
      (hadv : Budget.advance o.maxRunBytes (w.cost dp) m.log.counter phase = (c, .answer false)) :
      Move m (.step i) (m.put i (m.log.withCounter c) none rest)
        [.answered i (w.cost dp) false]
  | perform (i : ι) (w : Write) (rest : List Job) (ht : m.task i = ⟨some (.granted w), rest⟩) :
      Move m (.step i) (m.put i (w.perform o m.log) none rest) (w.handed o m.log)

theorem step_cases {m m' : Machine ι} {a : Act ι} {seen : List (Seen ι)}
    (h : (lts dp o).step m a = some (m', seen)) : Move dp o m a m' seen := by
  cases a with
  | call i e c =>
      simp only [lts, call, Option.ite_none_right_eq_some, Option.some.injEq, Prod.mk.injEq,
        Task.isIdle_iff] at h
      obtain ⟨⟨hidle, hc⟩, rfl, rfl⟩ := h
      exact .call i e c hidle hc
  | step i =>
      simp only [lts, step] at h
      split at h
      · cases h
      · next io k st rest ht =>
          obtain ⟨rfl, rfl⟩ := Prod.mk.inj (Option.some.inj h)
          exact .finish i io k st rest ht
      · next w rest ht =>
          cases hlive : w.live o with
          | false =>
              simp only [hlive, Bool.false_eq_true, if_false, Option.some.injEq,
                Prod.mk.injEq] at h
              obtain ⟨rfl, rfl⟩ := h
              exact .skip i w rest ht hlive
          | true =>
              simp only [hlive, if_true, Write.counter_say, Option.some.injEq, Prod.mk.injEq] at h
              by_cases hcap : o.maxRunBytes = 0
              · simp only [hcap, if_true, resume] at h
                obtain ⟨rfl, rfl⟩ := h
                exact .free i w rest ht hlive hcap
              · cases hstop : m.log.diskStopped with
                | true =>
                    simp only [hcap, if_false, Budget.start, Logger.counter, hstop, if_true,
                      resume] at h
                    obtain ⟨rfl, rfl⟩ := h
                    exact .turnedAway i w rest ht hlive hcap hstop
                | false =>
                    simp only [hcap, if_false, Budget.start, Logger.counter, hstop,
                      Bool.false_eq_true, resume] at h
                    obtain ⟨rfl, rfl⟩ := h
                    exact .begin i w rest ht hlive hcap hstop
      · next w phase rest ht =>
          rcases hadv : Budget.advance o.maxRunBytes (w.cost dp) m.log.counter phase with
            ⟨c, phase' | granted⟩
          · simp only [hadv, resume, Option.some.injEq, Prod.mk.injEq] at h
            obtain ⟨rfl, rfl⟩ := h
            exact .advance i w phase phase' c rest ht hadv
          · cases granted with
            | true =>
                simp only [hadv, resume, Option.some.injEq, Prod.mk.injEq] at h
                obtain ⟨rfl, rfl⟩ := h
                exact .grant i w phase c rest ht hadv
            | false =>
                simp only [hadv, resume, Option.some.injEq, Prod.mk.injEq] at h
                obtain ⟨rfl, rfl⟩ := h
                exact .refuse i w phase c rest ht hadv
      · next w rest ht =>
          obtain ⟨rfl, rfl⟩ := Prod.mk.inj (Option.some.inj h)
          exact .perform i w rest ht

/-! ## A task that nobody interrupts -/

theorem step_begin {m : Machine ι} {i : ι} {w : Write} {rest : List Job}
    (ht : m.task i = ⟨none, .write w :: rest⟩) (hlive : w.live o = true)
    (hcap : o.maxRunBytes ≠ 0) :
    (lts dp o).step m (.step i) =
      some (m.put i (w.say m.log) (resume (ι := ι) dp i w (Budget.start m.log.counter)).1 rest,
        .started i (w.cost dp) :: (resume dp i w (Budget.start m.log.counter)).2) := by
  simp only [lts, step, ht, hlive, if_true, hcap, if_false, Write.counter_say]

theorem step_charging {m : Machine ι} {i : ι} {w : Write} {phase : Budget.Phase}
    {rest : List Job} (ht : m.task i = ⟨some (.charging w phase), rest⟩) {c : Budget.Counter}
    {out : Budget.Outcome}
    (hadv : Budget.advance o.maxRunBytes (w.cost dp) m.log.counter phase = (c, out)) :
    (lts dp o).step m (.step i) =
      some (m.put i (m.log.withCounter c) (resume (ι := ι) dp i w out).1 rest,
        (resume dp i w out).2) := by
  simp only [lts, step, ht, hadv]

theorem step_granted {m : Machine ι} {i : ι} {w : Write} {rest : List Job}
    (ht : m.task i = ⟨some (.granted w), rest⟩) :
    (lts dp o).step m (.step i) =
      some (m.put i (w.perform o m.log) none rest, w.handed o m.log) := by
  simp only [lts, step, ht]

/-- Task `i` gets from `m` to `m'` by its own steps. -/
def Solo (i : ι) (m m' : Machine ι) : Prop :=
  ∃ k tr, (lts dp o).run m (List.replicate k (.step i)) = some (m', tr)

variable {dp o}

theorem Solo.refl (i : ι) (m : Machine ι) : Solo dp o i m m := ⟨0, [], rfl⟩

theorem Solo.step {i : ι} {m m' : Machine ι} {l : List (Seen ι)}
    (h : (lts dp o).step m (.step i) = some (m', l)) : Solo dp o i m m' :=
  ⟨1, [l], (Lts.run_singleton_eq_some _).mpr ⟨l, h, rfl⟩⟩

theorem Solo.trans {i : ι} {m m' m'' : Machine ι} (h : Solo dp o i m m')
    (h' : Solo dp o i m' m'') : Solo dp o i m m'' := by
  obtain ⟨k, tr, hk⟩ := h
  obtain ⟨k', tr', hk'⟩ := h'
  refine ⟨k + k', tr ++ tr', ?_⟩
  rw [List.replicate_add]
  exact (Lts.run_append_eq_some _).mpr ⟨m', tr, tr', hk, hk', rfl⟩

theorem solo_charge {fuel : ℕ} {m : Machine ι} {i : ι} {w : Write} {phase : Budget.Phase}
    {rest : List Job} (ht : m.task i = ⟨some (.charging w phase), rest⟩) {granted : Bool}
    {c : Budget.Counter}
    (hsettle : Budget.settle o.maxRunBytes (w.cost dp) fuel m.log.counter (.next phase) =
      some (granted, c)) :
    Solo dp o i m
      (m.put i (m.log.withCounter c) (if granted then some (.granted w) else none) rest) := by
  induction fuel generalizing m phase with
  | zero => cases hsettle
  | succ fuel ih =>
      rcases hadv : Budget.advance o.maxRunBytes (w.cost dp) m.log.counter phase with
        ⟨c', phase' | answer⟩
      · have hstep := step_charging dp o ht hadv
        simp only [Budget.settle, hadv] at hsettle
        have hrest := ih (m := m.put i (m.log.withCounter c') (some (.charging w phase')) rest)
          (put_task _ _ _ _ _) hsettle
        have hsame : c'.stopped = m.log.diskStopped := Budget.advance_next_stopped hadv
        rw [put_put, put_log, Logger.withCounter_withCounter hsame] at hrest
        exact (Solo.step hstep).trans hrest
      · have hstep := step_charging dp o ht hadv
        simp only [Budget.settle, hadv] at hsettle
        cases hsettle
        cases granted with
        | true => exact Solo.step hstep
        | false => exact Solo.step hstep

/-- A write that nobody interrupts has the effect of `Write.run`. -/
theorem solo_write {m : Machine ι} {i : ι} {w : Write} {rest : List Job}
    (ht : m.task i = ⟨none, .write w :: rest⟩) :
    Solo dp o i m (m.put i (w.run dp o m.log) none rest) := by
  cases hlive : w.live o with
  | false =>
      apply Solo.step (l := [])
      simp [lts, step, ht, hlive, Write.run]
  | true =>
      by_cases hcap : o.maxRunBytes = 0
      · have hfree : Solo dp o i m (m.put i (w.say m.log) (some (.granted w)) rest) := by
          apply Solo.step (l := [.started i (w.cost dp), .answered i (w.cost dp) true])
          simp [lts, step, ht, hlive, hcap, resume]
        have hlast := step_granted dp o (m := m.put i (w.say m.log) (some (.granted w)) rest)
          (put_task _ _ _ _ _)
        have hrun : w.run dp o m.log = w.perform o (w.say m.log) := by
          simp [Write.run, hlive, Logger.charge, hcap]
        rw [hrun]
        simpa using hfree.trans (Solo.step hlast)
      · obtain ⟨granted, c, hcharge⟩ :
            ∃ granted c, Budget.charge o.maxRunBytes (w.cost dp) m.log.counter = (granted, c) :=
          ⟨_, _, rfl⟩
        have hsettle := Budget.settle_start o.maxRunBytes (w.cost dp) m.log.counter
        have hbegin := step_begin dp o ht hlive hcap
        have hrun : w.run dp o m.log =
            if granted then w.perform o ((w.say m.log).withCounter c)
            else (w.say m.log).withCounter c := by
          simp [Write.run, hlive, Logger.charge_eq o hcap, hcharge]
        rw [hcharge] at hsettle
        cases hstart : Budget.start m.log.counter with
        | answer b =>
            rw [hstart] at hsettle hbegin
            obtain ⟨rfl, rfl⟩ := Prod.mk.inj (Option.some.inj hsettle)
            have hrefused : b = false := by
              cases hstop : m.log.counter.stopped <;> simp_all [Budget.start]
            subst hrefused
            have hsame : (w.say m.log).withCounter m.log.counter = w.say m.log := by
              rw [← Write.counter_say w, Logger.withCounter_counter]
            rw [hrun, hsame]
            exact Solo.step hbegin
        | next phase =>
            rw [hstart] at hsettle hbegin
            have hcounter : (m.put i (w.say m.log) (some (.charging w phase)) rest).log.counter =
                m.log.counter := Write.counter_say w m.log
            rw [← hcounter] at hsettle
            have hcharged := (Solo.step hbegin).trans (solo_charge (put_task _ _ _ _ _) hsettle)
            rw [put_put, put_log] at hcharged
            rw [hrun]
            cases granted with
            | false => exact hcharged
            | true =>
                have hlast := step_granted dp o (m := m.put i ((w.say m.log).withCounter c)
                  (some (.granted w)) rest) (put_task _ _ _ _ _)
                simpa using hcharged.trans (Solo.step hlast)

theorem solo_finish {m : Machine ι} {i : ι} {io : Io} {k : Key} {st : Stream FileName}
    {rest : List Job} (ht : m.task i = ⟨none, .finish io k st :: rest⟩) :
    Solo dp o i m (m.put i (m.log.finishOne io k st) none rest) := by
  apply Solo.step (l := [])
  simp only [lts, step, ht]

theorem solo_jobs {m : Machine ι} {i : ι} {jobs : List Job} (ht : m.task i = ⟨none, jobs⟩) :
    Solo dp o i m (m.put i (jobs.foldl (Job.run dp o) m.log) none []) := by
  induction jobs generalizing m with
  | nil =>
      have hself : m.put i m.log none [] = m := by
        rw [put, ← ht, Function.update_eq_self]
      rw [List.foldl_nil, hself]
      exact Solo.refl i m
  | cons job jobs ih =>
      have hrest := ih (m := m.put i (job.run dp o m.log) none jobs) (put_task _ _ _ _ _)
      rw [put_put, put_log] at hrest
      rw [List.foldl_cons]
      cases job with
      | write w => exact (solo_write ht).trans hrest
      | finish io k st => exact (solo_finish ht).trans hrest

/-- A call that nobody interrupts has the effect of `Logger.exec`. -/
theorem solo_call {m : Machine ι} {i : ι} {e : Env} {c : Call} (hidle : m.task i = .idle)
    (hc : c.Possible m.log) :
    ∃ m', (lts dp o).step m (.call i e c) = some (m', []) ∧
      Solo dp o i m' ⟨m.log.exec dp o e c, m.task⟩ := by
  refine ⟨m.put i (c.start dp o e m.log).1 none (c.start dp o e m.log).2, ?_, ?_⟩
  · simp only [lts, call]
    exact if_pos ⟨(Task.isIdle_iff _).mpr hidle, hc⟩
  · have hjobs : Solo dp o i
        (m.put i (c.start dp o e m.log).1 none (c.start dp o e m.log).2) _ :=
      solo_jobs (put_task _ _ _ _ _)
    have hself : m.put i (m.log.exec dp o e c) none [] = ⟨m.log.exec dp o e c, m.task⟩ := by
      rw [put, ← Task.idle, ← hidle, Function.update_eq_self]
    rw [put_put, put_log, foldl_start dp o e c m.log hc, hself] at hjobs
    exact hjobs

end Machine

end KirbLaSnoop
