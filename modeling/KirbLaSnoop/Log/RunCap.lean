import Mathlib
import KirbLaSnoop.Log.Interleaving

/-!
# The run cap

Whatever the order of the steps, the bytes granted stay within the cap, and
what is held in files, rings and granted writes stays within what was granted.
-/

namespace KirbLaSnoop

/-! ## Who touches the counter -/

namespace Logger

variable (dp : Deps) (o : Options)

@[simp] theorem counter_finishOne (io : Io) (k : Key) (st : Stream FileName) (s : Logger) :
    (s.finishOne io k st).counter = s.counter := by
  obtain ⟨console, hfinish⟩ := finishOne_eq io k st s
  rw [hfinish]
  rfl

theorem held_finishOne_le (io : Io) (k : Key) (st : Stream FileName) (s : Logger) :
    (s.finishOne io k st).held dp ≤ s.held dp + st.tail.length := by
  obtain ⟨console, hfinish⟩ := finishOne_eq io k st s
  rw [hfinish]
  exact held_finishStream_le dp io k st s

end Logger

namespace Write

variable (dp : Deps) (o : Options)

theorem held_say (w : Write) (s : Logger) : (w.say s).held dp = s.held dp := by
  cases w with
  | event said ev => cases said <;> rfl
  | raw io conn proto peer dir data => rfl

/-- A granted write adds no more than it was granted. -/
theorem held_perform_le (w : Write) (s : Logger) :
    (w.perform o s).held dp ≤ s.held dp + w.cost dp := by
  cases w with
  | event said ev => exact (Logger.held_emitLocked dp ev s).le
  | raw io conn proto peer dir data =>
      exact Logger.held_rawLocked_le dp o io conn proto peer dir data s

end Write

/-- The bytes a job will move from a ring to a file. -/
def Job.ring : Job → ℕ
  | .write _ => 0
  | .finish _ _ st => st.tail.length

namespace Call

variable (dp : Deps) (o : Options)

@[simp] theorem counter_start (e : Env) (c : Call) (s : Logger) :
    (c.start dp o e s).1.counter = s.counter := by
  cases c with
  | flush order => rfl
  | _ => exact Logger.counter_finishAll e _ s

/-- The streams a flush takes out of the table hold no more in their rings
than the table did. -/
theorem sum_ring_le (e : Env) (order : List Key) (hnodup : order.Nodup)
    (t : Table Key (Stream FileName)) :
    ((order.filterMap fun k => (t.get k).map (Job.finish (e.io k) k)).map Job.ring).sum ≤
      Table.weight (fun st => st.tail.length) t := by
  induction order generalizing t with
  | nil => exact Nat.zero_le _
  | cons k order ih =>
      obtain ⟨hk, hnodup⟩ := List.nodup_cons.mp hnodup
      cases hget : t.get k with
      | none =>
          simp only [List.filterMap_cons, hget, Option.map_none]
          exact ih hnodup t
      | some st =>
          have htable : (order.filterMap fun j => (t.get j).map (Job.finish (e.io j) j)) =
              order.filterMap fun j => ((t.remove k).get j).map (Job.finish (e.io j) j) := by
            apply List.filterMap_congr
            intro j hj
            have hne : j ≠ k := fun h => hk (h ▸ hj)
            rw [Table.get_remove_ne _ hne]
          have hrest := ih hnodup (t.remove k)
          simp only [List.filterMap_cons, hget, Option.map_some, List.map_cons, List.sum_cons,
            htable, Job.ring, Table.weight_eq_add_remove (fun st => st.tail.length) hget]
          omega

theorem held_start_le (e : Env) (c : Call) (s : Logger) (hc : c.Possible s) :
    (c.start dp o e s).1.held dp + ((c.start dp o e s).2.map Job.ring).sum ≤ s.held dp := by
  have hwrites : ∀ ws : List Write, ((ws.map Job.write).map Job.ring).sum = 0 := by
    intro ws
    rw [List.sum_eq_zero_iff]
    intro n hn
    obtain ⟨job, hjob, rfl⟩ := List.mem_map.mp hn
    obtain ⟨w, _, rfl⟩ := List.mem_map.mp hjob
    rfl
  cases c with
  | flush order =>
      have hring := sum_ring_le e order (hc order rfl).1 s.raw
      simp only [start, Logger.held, Logger.onDisk, Logger.lines, Logger.ring, Table.weight_empty]
      omega
  | _ =>
      simp only [start, hwrites, Nat.add_zero]
      exact Logger.held_finishAll_le dp e _ s

end Call

/-! ## The books of a run -/

variable {ι : Type*}

def Seen.grant : Seen ι → ℕ
  | .answered _ n true => n
  | _ => 0

def granted (seen : List (Seen ι)) : ℕ := (seen.map Seen.grant).sum

theorem granted_append (seen seen' : List (Seen ι)) :
    granted (seen ++ seen') = granted seen + granted seen' := by
  simp [granted]

def Task.charge (dp : Deps) (t : Task) : Option (ℕ × Budget.Phase) :=
  match t.busy with
  | some (.charging w phase) => some (w.cost dp, phase)
  | _ => none

/-- The bytes a task has been granted or taken out of the table and not yet
put into a file. -/
def Task.owed (dp : Deps) (t : Task) : ℕ :=
  (match t.busy with
    | some (.granted w) => w.cost dp
    | _ => 0) + (t.todo.map Job.ring).sum

namespace Machine

variable (dp : Deps) (o : Options)

def pool (m : Machine ι) : Budget.Pool ι := fun i => (m.task i).charge dp

variable [Fintype ι]

/-- The sum of the charges whose addition has found room and that are going to
be answered `true`. -/
def due (m : Machine ι) : ℕ := ∑ i, (m.pool dp).due o.maxRunBytes i

variable [DecidableEq ι]

omit [Fintype ι] in
theorem pool_put (m : Machine ι) (i : ι) (log : Logger) (busy : Option Busy) (todo : List Job) :
    (m.put i log busy todo).pool dp =
      Function.update (m.pool dp) i (Task.charge dp ⟨busy, todo⟩) := by
  funext j
  by_cases hj : j = i
  · subst hj
    simp [pool]
  · simp [pool, put_task_ne _ hj, hj]

theorem sum_owed_put (m : Machine ι) (i : ι) (log : Logger) (busy : Option Busy)
    (todo : List Job) :
    (∑ j, ((m.put i log busy todo).task j).owed dp) + (m.task i).owed dp =
      (∑ j, (m.task j).owed dp) + Task.owed dp ⟨busy, todo⟩ := by
  rw [← Budget.sum_update_add (fun j => (m.task j).owed dp) i (Task.owed dp ⟨busy, todo⟩)]
  congr 1
  apply Finset.sum_congr rfl
  intro j _
  by_cases hj : j = i
  · subst hj
    simp
  · simp [put_task_ne _ hj, hj]

/-- The counter balances, the bytes are granted, and a refusal has left the
flag raised. -/
structure Accounted (m : Machine ι) (seen : List (Seen ι)) : Prop where
  books : Budget.Balanced o.maxRunBytes m.log.counter (m.pool dp) (granted seen)
  bytes : m.log.held dp + ∑ i, (m.task i).owed dp ≤ granted seen
  flagged : (∃ i n, Seen.answered i n false ∈ seen) → m.log.diskStopped = true

omit [DecidableEq ι] in
theorem accounted_new : Accounted dp o (new : Machine ι) [] := by
  constructor
  · exact Budget.balanced_zero o.maxRunBytes
  · simp [new, Task.owed, Task.idle, Logger.held, Logger.onDisk, Logger.lines, Logger.ring,
      Logger.new, Disk.bytes]
  · rintro ⟨i, n, h⟩
    cases h

variable {dp o}

/-- The books after a step, from what the step does to one task's share. -/
theorem Accounted.put {m : Machine ι} {seen : List (Seen ι)} (h : Accounted dp o m seen) {i : ι}
    {log : Logger} {busy : Option Busy} {todo : List Job} {out : List (Seen ι)}
    (hbooks : Budget.Balanced o.maxRunBytes log.counter
      (Function.update (m.pool dp) i (Task.charge dp ⟨busy, todo⟩)) (granted seen + granted out))
    (hbytes : log.held dp + Task.owed dp ⟨busy, todo⟩ ≤
      m.log.held dp + (m.task i).owed dp + granted out)
    (hkeep : m.log.counter.stopped = true → log.counter.stopped = true)
    (hraise : ∀ j n, Seen.answered j n false ∈ out → log.counter.stopped = true) :
    Accounted dp o (m.put i log busy todo) (seen ++ out) := by
  constructor
  · rw [put_log, pool_put, granted_append]
    exact hbooks
  · have hsum := sum_owed_put dp m i log busy todo
    have hold := h.bytes
    rw [put_log, granted_append]
    omega
  · rintro ⟨j, n, hmem⟩
    rcases List.mem_append.mp hmem with hmem | hmem
    · exact hkeep (h.flagged ⟨j, n, hmem⟩)
    · exact hraise j n hmem

/-- A step outside any charge leaves the counter and the pool alone. -/
theorem Accounted.put_outside {m : Machine ι} {seen : List (Seen ι)} (h : Accounted dp o m seen)
    {i : ι} {log : Logger} {todo : List Job} {out : List (Seen ι)}
    (hcharge : (m.task i).charge dp = none) (hcounter : log.counter = m.log.counter)
    (hout : granted out = 0)
    (hbytes : log.held dp + (todo.map Job.ring).sum ≤ m.log.held dp + (m.task i).owed dp)
    (hraise : ∀ j n, Seen.answered j n false ∈ out → log.counter.stopped = true) :
    Accounted dp o (m.put i log none todo) (seen ++ out) := by
  apply h.put
  · have hpool : Function.update (m.pool dp) i (Task.charge dp ⟨none, todo⟩) = m.pool dp := by
      rw [show Task.charge dp ⟨none, todo⟩ = m.pool dp i from hcharge.symm,
        Function.update_eq_self]
    rw [hpool, hcounter, hout]
    exact h.books
  · simpa [Task.owed, hout] using hbytes
  · rw [hcounter]
    exact id
  · exact hraise

/-- A write that is not charged for only tells what it has to tell. -/
theorem Accounted.put_said {m : Machine ι} {seen : List (Seen ι)} (h : Accounted dp o m seen)
    {i : ι} {w : Write} {rest : List Job} {out : List (Seen ι)}
    (ht : m.task i = ⟨none, .write w :: rest⟩) (hout : granted out = 0)
    (hraise : ∀ j n, Seen.answered j n false ∈ out → m.log.counter.stopped = true) :
    Accounted dp o (m.put i (w.say m.log) none rest) (seen ++ out) := by
  apply h.put_outside
  · rw [ht]
    rfl
  · exact Write.counter_say w m.log
  · exact hout
  · simp [ht, Task.owed, Job.ring, Write.held_say]
  · rw [Write.counter_say]
    exact hraise

omit [Fintype ι] [DecidableEq ι] in
theorem pool_charging (dp : Deps) {m : Machine ι} {i : ι} {w : Write} {phase : Budget.Phase}
    {rest : List Job} (ht : m.task i = ⟨some (.charging w phase), rest⟩) :
    m.pool dp i = some (w.cost dp, phase) := by
  simp [pool, ht, Task.charge]

omit [Fintype ι] [DecidableEq ι] in
theorem granted_handed (w : Write) (s : Logger) :
    granted (w.handed o s : List (Seen ι)) = 0 := by
  cases w with
  | event said ev => rfl
  | raw io conn proto peer dir data =>
      simp only [Write.handed]
      split
      · rfl
      · rfl

omit [Fintype ι] [DecidableEq ι] in
theorem not_answered_handed (w : Write) (s : Logger) (j : ι) (n : ℕ) (b : Bool) :
    Seen.answered j n b ∉ (w.handed o s : List (Seen ι)) := by
  cases w with
  | event said ev => simp [Write.handed]
  | raw io conn proto peer dir data =>
      simp only [Write.handed]
      split
      · simp
      · simp

theorem Accounted.move (hcap : o.maxRunBytes ≠ 0) {m m' : Machine ι} {a : Act ι}
    {seen out : List (Seen ι)} (h : Accounted dp o m seen) (hmove : Move dp o m a m' out) :
    Accounted dp o m' (seen ++ out) := by
  cases hmove with
  | call i e c hidle hc =>
      have hheld := Call.held_start_le dp o e c m.log hc
      apply h.put_outside
      · rw [hidle]
        rfl
      · exact Call.counter_start dp o e c m.log
      · rfl
      · exact hheld.trans (Nat.le_add_right _ _)
      · simp
  | finish i io k st rest ht =>
      have hheld := Logger.held_finishOne_le dp io k st m.log
      apply h.put_outside
      · rw [ht]
        rfl
      · exact Logger.counter_finishOne io k st m.log
      · rfl
      · simp only [ht, Task.owed, List.map_cons, List.sum_cons, Job.ring]
        omega
      · simp
  | skip i w rest ht hlive => exact h.put_said ht rfl (by simp)
  | free i w rest ht hlive hfree => exact absurd hfree hcap
  | begin i w rest ht hlive hcap' hstop =>
      have hnone : m.pool dp i = none := by
        simp [pool, ht, Task.charge]
      apply h.put
      · rw [Write.counter_say]
        exact h.books.start hnone
      · simp [ht, Task.owed, Job.ring, Write.held_say]
      · rw [Write.counter_say]
        exact id
      · simp
  | turnedAway i w rest ht hlive hcap' hstop => exact h.put_said ht rfl fun _ _ _ => hstop
  | advance i w phase phase' c rest ht hadv =>
      have hpool := pool_charging dp ht
      apply h.put
      · exact h.books.advance_next hpool hadv
      · simp only [ht, Task.owed]
        exact Nat.le_add_right _ _
      · rw [Logger.counter_withCounter, Budget.advance_next_stopped hadv]
        exact id
      · simp
  | grant i w phase c rest ht hadv =>
      have hpool := pool_charging dp ht
      have hkeep := Budget.advance_keeps_stopped o.maxRunBytes (w.cost dp)
        (c := m.log.counter) (p := phase)
      rw [hadv] at hkeep
      apply h.put
      · exact h.books.advance_answer hpool hadv
      · have hheld : (m.log.withCounter c).held dp = m.log.held dp := rfl
        simp only [ht, Task.owed, granted, List.map_cons, List.map_nil, List.sum_cons,
          List.sum_nil, Seen.grant, hheld]
        omega
      · exact hkeep
      · simp
  | refuse i w phase c rest ht hadv =>
      have hpool := pool_charging dp ht
      have hraised : c.stopped = true := Budget.advance_refused hadv
      apply h.put
      · exact h.books.advance_answer hpool hadv
      · have hheld : (m.log.withCounter c).held dp = m.log.held dp := rfl
        simp only [ht, Task.owed, hheld]
        omega
      · intro _
        exact hraised
      · intro j n _
        exact hraised
  | perform i w rest ht =>
      have hheld := Write.held_perform_le dp o w m.log
      apply h.put_outside
      · rw [ht]
        rfl
      · exact Write.counter_perform o w m.log
      · exact granted_handed w m.log
      · simp only [ht, Task.owed]
        omega
      · intro j n hmem
        exact absurd hmem (not_answered_handed w m.log j n false)

theorem accounted_run (hcap : o.maxRunBytes ≠ 0) {acts : List (Act ι)} {m : Machine ι}
    {tr : List (List (Seen ι))} (h : (lts dp o).run new acts = some (m, tr)) :
    Accounted dp o m tr.flatten := by
  refine (lts dp o).run_induction (fun _ u os => Accounted dp o u os.flatten)
    (accounted_new dp o) ?_ h
  intro _ a _ u os v out _ _ hu hstep
  rw [List.flatten_append, List.flatten_singleton]
  exact hu.move hcap (step_cases dp o hstep)

omit [Fintype ι] in
/-- A charge that starts with the flag raised is answered `false` in the same
step. -/
theorem Move.started_stopped (hcap : o.maxRunBytes ≠ 0) {m m' : Machine ι} {a : Act ι}
    {out : List (Seen ι)} (h : Move dp o m a m' out) (hstop : m.log.diskStopped = true) {i : ι}
    {n : ℕ} (hstart : Seen.started i n ∈ out) :
    out = [.started i n, .answered i n false] := by
  cases h with
  | free j w rest ht hlive hfree => exact absurd hfree hcap
  | begin j w rest ht hlive hcap' hclear =>
      rw [hstop] at hclear
      cases hclear
  | turnedAway j w rest ht hlive hcap' _ =>
      simp only [List.mem_cons, Seen.started.injEq, reduceCtorEq, List.not_mem_nil, or_false]
        at hstart
      obtain ⟨rfl, rfl⟩ := hstart
      rfl
  | perform j w rest ht =>
      cases w with
      | event said ev => simp [Write.handed] at hstart
      | raw io conn proto peer dir data =>
          simp only [Write.handed] at hstart
          split at hstart <;> simp at hstart
  | _ => simp at hstart

/-- For any tasks and any order of their steps: what was and will be granted
stays within the cap, and with it the run directory; between charges the
counter is exact; and after one refusal every later charge is refused. -/
theorem run_cap_respected (dp : Deps) (o : Options) (hcap : 0 < o.maxRunBytes)
    (acts : List (Act ι)) (m : Machine ι) (tr : List (List (Seen ι)))
    (h : (lts dp o).run new acts = some (m, tr)) :
    granted tr.flatten + m.due dp o ≤ o.maxRunBytes ∧
      m.log.onDisk dp ≤ granted tr.flatten + m.due dp o ∧
      ((∀ i, m.pool dp i = none) → m.log.diskUsed = granted tr.flatten + m.due dp o) ∧
      ∀ pre out post, tr = pre ++ out :: post →
        (∃ j n, Seen.answered j n false ∈ pre.flatten) →
          ∀ i n, Seen.started i n ∈ out → out = [.started i n, .answered i n false] := by
  have hcap' : o.maxRunBytes ≠ 0 := hcap.ne'
  have hbooks := accounted_run hcap' h
  refine ⟨hbooks.books.capped, ?_, ?_, ?_⟩
  · have hbytes := hbooks.bytes
    simp only [Logger.held] at hbytes
    omega
  · intro hquiet
    have hdue : m.due dp o = 0 := by
      apply Finset.sum_eq_zero
      intro i _
      simp [Budget.Pool.due, hquiet i]
    rw [hdue]
    exact hbooks.books.used_eq hquiet
  · intro pre out post htr hrefused i n hstart
    subst htr
    obtain ⟨as, a, rest, u, v, rfl, hpre, hstep, _⟩ := Lts.run_split _ h
    have hstop := (accounted_run hcap' hpre).flagged hrefused
    exact (step_cases dp o hstep).started_stopped hcap' hstop hstart

/-- Two messages of two bytes meet under a cap of three: the counter stands at
four, and only the first of them is granted. -/
theorem run_cap_respected_race :
    ∃ m tr, (lts .bare (.rawOnly ⟨0, 0⟩ 3)).run (new : Machine (Fin 2))
        [.call 0 .quiet (.data .tcp "tcp:0" 1 "a" .rx [1, 2] none),
          .call 1 .quiet (.data .tcp "tcp:0" 2 "b" .rx [3, 4] none),
          .step 0, .step 1, .step 0, .step 1, .step 0] = some (m, tr) ∧
      m.log.diskUsed = 4 ∧ granted tr.flatten = 2 ∧
      granted tr.flatten + m.due .bare (.rawOnly ⟨0, 0⟩ 3) ≤ 3 := by
  refine ⟨_, _, rfl, rfl, rfl, ?_⟩
  exact (run_cap_respected .bare (.rawOnly ⟨0, 0⟩ 3) (by decide)
    [.call 0 .quiet (.data .tcp "tcp:0" 1 "a" .rx [1, 2] none),
      .call 1 .quiet (.data .tcp "tcp:0" 2 "b" .rx [3, 4] none),
      .step 0, .step 1, .step 0, .step 1, .step 0] _ _ rfl).1

end Machine

end KirbLaSnoop
