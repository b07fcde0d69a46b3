import Mathlib
import KirbLaSnoop.Listener.Wire
import KirbLaSnoop.Log.Cut

/-!
# The calls a process makes

The logger of a process is the one that made the same calls one after the
other, but for the next id, which no call looks at.
-/

namespace KirbLaSnoop

namespace Logger

variable (dp : Deps) (o : Options)

def withNext (n : ℕ) (s : Logger) : Logger := { s with nextConn := n }

theorem finishAll_withNext (e : Env) (ks : List Key) (n : ℕ) (s : Logger) :
    (s.withNext n).finishAll e ks =
      ((s.finishAll e ks).1, (s.finishAll e ks).2.withNext n) :=
  finishAll_frame (withNext n) (fun _ _ _ => rfl) (fun _ => rfl) (fun _ => rfl) e ks s

theorem charge_withNext (c n : ℕ) (s : Logger) :
    (s.withNext n).charge o c = ((s.charge o c).1, (s.charge o c).2.withNext n) := by
  unfold charge
  by_cases hcap : o.maxRunBytes = 0
  · simp [hcap]
  · by_cases hstop : s.diskStopped = true
    · simp [withNext, hcap, hstop]
    · by_cases hover : s.diskUsed + c > o.maxRunBytes
      · simp [withNext, hcap, hstop, hover]
      · simp [withNext, hcap, hstop, hover]

theorem run_withNext (w : Write) (n : ℕ) (s : Logger) :
    w.run dp o (s.withNext n) = (w.run dp o s).withNext n := by
  have hsay : ∀ s : Logger, w.say (s.withNext n) = (w.say s).withNext n := by
    intro s
    cases w with
    | event said ev => cases said <;> rfl
    | raw io conn proto peer dir data => rfl
  have hperform : ∀ s : Logger, w.perform o (s.withNext n) = (w.perform o s).withNext n := by
    intro s
    cases w with
    | event said ev => rfl
    | raw io conn proto peer dir data =>
        simp only [Write.perform, rawLocked, withNext]
        split
        · rfl
        · rfl
  simp only [Write.run, hsay, charge_withNext, hperform]
  split_ifs <;> rfl

/-- A call does not look at the next id. -/
theorem exec_withNext (e : Env) (c : Call) (n : ℕ) (s : Logger) :
    (s.withNext n).exec dp o e c = (s.exec dp o e c).withNext n := by
  have hwrites : c.writes dp o e (s.withNext n) = c.writes dp o e s := by
    cases c with
    | close proto name conn peer why => simp only [Call.writes, finishAll_withNext]
    | _ => rfl
  have hsettle : c.settle o e (s.withNext n) = (c.settle o e s).withNext n := by
    cases c with
    | flush order =>
        simp only [Call.settle, flush_eq, finishAll_withNext]
        rfl
    | close proto name conn peer why => simp only [Call.settle, finishAll_withNext]
    | _ => rfl
  have hfold : ∀ (ws : List Write) (s : Logger),
      ws.foldl (fun s w => w.run dp o s) (s.withNext n) =
        (ws.foldl (fun s w => w.run dp o s) s).withNext n := by
    intro ws
    induction ws with
    | nil => exact fun _ => rfl
    | cons w ws ih =>
        intro s
        rw [List.foldl_cons, run_withNext]
        exact ih _
  rw [Call.exec_eq, Call.exec_eq, hwrites, hsettle, hfold]

end Logger

namespace Process

variable {ι Addr : Type*} [DecidableEq ι] [DecidableEq Addr] (net : ι → Listener Addr)
  (dp : Deps) (o : Options)

/-- The call that an action makes. -/
def callMade (p : Process ι Addr) : Act ι Addr → List (Env × Call)
  | .perform t e =>
      match p.pending t with
      | .call c :: _ => [(e, c)]
      | _ => []
  | .flush e order => [(e, .flush order)]
  | _ => []

/-- The calls of a run, in the order in which they are made. -/
def callsMade (acts : List (Act ι Addr)) : List (Env × Call) :=
  (lts net dp o).gather callMade (start net) acts

variable {net dp o} {p p' : Process ι Addr}

theorem callsMade_append_singleton {acts : List (Act ι Addr)} {os : List (List (Seen ι Addr))}
    (h : (lts net dp o).run (start net) acts = some (p, os)) {a : Act ι Addr}
    {new : List (Seen ι Addr)} (hs : (lts net dp o).step p a = some (p', new)) :
    callsMade net dp o (acts ++ [a]) = callsMade net dp o acts ++ callMade p a := by
  rw [callsMade, (lts net dp o).gather_append _ h, (lts net dp o).gather_singleton _ hs]
  rfl

omit [DecidableEq Addr] in
theorem log_handled {σ : Type*} (i : ι) (out : Outcome σ Addr) {s : Logger} {n : ℕ}
    (hlog : p.log = s.withNext n) : ∃ m, (p.handled i out).log = s.withNext m := by
  unfold handled
  dsimp only
  split
  · exact ⟨p.log.nextConn + 1, by rw [hlog]; rfl⟩
  · exact ⟨n, hlog⟩

theorem log_step {a : Act ι Addr} {new : List (Seen ι Addr)}
    (hs : (lts net dp o).step p a = some (p', new)) {s : Logger} {n : ℕ}
    (hlog : p.log = s.withNext n) :
    ∃ m, p'.log = (Logger.execAll dp o (callMade p a) s).withNext m := by
  cases a with
  | accept i peer orig =>
      obtain ⟨cfg, -, rfl, -⟩ := step_accept hs
      exact log_handled i _ hlog
  | acceptError i e =>
      obtain ⟨cfg, rfl, -⟩ := step_acceptError hs
      exact log_handled i _ hlog
  | turn i input =>
      obtain ⟨cfg, out, -, -, rfl, -⟩ := step_turn hs
      exact log_handled i out hlog
  | step conn input =>
      obtain ⟨c, cfg, out, -, -, -, rfl, -⟩ := step_step hs
      exact ⟨n, hlog⟩
  | perform t e =>
      obtain ⟨eff, rest, hp, rfl, -⟩ := step_perform hs
      refine ⟨n, ?_⟩
      cases eff with
      | call c =>
          have hmade : callMade p (.perform t e) = [(e, c)] := by simp only [callMade, hp]
          rw [hmade]
          change p.log.exec dp o e c = _
          rw [hlog]
          exact Logger.exec_withNext dp o e c n s
      | spawn conn peer =>
          have hmade : callMade p (.perform t e) = [] := by simp only [callMade, hp]
          rw [hmade]
          cases t <;> exact hlog
      | _ =>
          have hmade : callMade p (.perform t e) = [] := by simp only [callMade, hp]
          rw [hmade]
          exact hlog
  | flush e order =>
      obtain ⟨-, rfl, -⟩ := step_flush hs
      refine ⟨n, ?_⟩
      change p.log.exec dp o e (.flush order) = _
      rw [hlog]
      exact Logger.exec_withNext dp o e (.flush order) n s

/-- A process logs like the sequential logger that is given its calls. -/
theorem log_run {acts : List (Act ι Addr)} {tr : List (List (Seen ι Addr))}
    (h : (lts net dp o).run (start net) acts = some (p, tr)) :
    ∃ n, p.log = (Logger.execAll dp o (callsMade net dp o acts) .new).withNext n := by
  apply (lts net dp o).run_induction (fun acts p _ =>
    ∃ n, p.log = (Logger.execAll dp o (callsMade net dp o acts) .new).withNext n) ⟨1, rfl⟩ ?_ h
  intro as a rest u os v new _ hrun hu hs
  obtain ⟨n, hlog⟩ := hu
  obtain ⟨m, hnext⟩ := log_step hs hlog
  refine ⟨m, ?_⟩
  rw [hnext, callsMade_append_singleton hrun hs, Logger.execAll, Logger.execAll, Logger.execAll,
    List.foldl_append]

end Process

end KirbLaSnoop
