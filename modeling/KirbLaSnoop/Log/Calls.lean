import Mathlib
import KirbLaSnoop.Log.State
import KirbLaSnoop.Lib.Transition

/-!
# The calls of the logger

Every call is some work on the stream table followed by writes that are
charged one by one. `exec` runs one call as the code does, `settle` and
`writes` are its two parts, and `exec_eq` says that nothing else happens.
-/

namespace KirbLaSnoop

/-- A call of the logger's interface. `flush` carries the order in which the
hash map yields the open streams. -/
inductive Call where
  | listening (proto : Proto) (name localAddr profile : String)
  | openConn (proto : Proto) (name : String) (conn : ℕ) (localAddr peer : String)
      (orig : Option String)
  | data (proto : Proto) (name : String) (conn : ℕ) (peer : String) (dir : Dir)
      (data : List UInt8) (rule : Option String)
  | close (proto : Proto) (name : String) (conn : ℕ) (peer why : String)
  | warn (proto : Proto) (name msg : String)
  | error (proto : Proto) (name : String) (conn : Option ℕ) (msg : String)
  | flush (order : List Key)
  deriving DecidableEq

namespace Logger

variable (dp : Deps) (o : Options)

def listenEvent (e : Env) (proto : Proto) (name localAddr profile : String) : Event :=
  { ts := dp.iso8601 e.now, tsMs := e.now, event := .listen, proto, listener := some name
    localAddr := some localAddr, note := some profile }

def listening (e : Env) (proto : Proto) (name localAddr profile : String) (s : Logger) : Logger :=
  s.emit dp o (listenEvent dp e proto name localAddr profile)

def openEvent (e : Env) (proto : Proto) (name : String) (conn : ℕ) (localAddr peer : String)
    (orig : Option String) : Event :=
  { ts := dp.iso8601 e.now, tsMs := e.now, event := .opened, proto, listener := some name
    conn := some conn, localAddr := some localAddr, peer := some peer, origDst := orig }

def openConn (e : Env) (proto : Proto) (name : String) (conn : ℕ) (localAddr peer : String)
    (orig : Option String) (s : Logger) : Logger :=
  s.emit dp o (openEvent dp e proto name conn localAddr peer orig)

/-- The index entry of one message: its true length and at most
`jsonlMaxData` of its bytes. -/
def dataEvent (e : Env) (proto : Proto) (name : String) (conn : ℕ) (peer : String) (dir : Dir)
    (data : List UInt8) (rule : Option String) : Event :=
  let clipped := decide (o.jsonlMaxData > 0 ∧ data.length > o.jsonlMaxData)
  let payload := if clipped then data.take o.jsonlMaxData else data
  { ts := dp.iso8601 e.now, tsMs := e.now, event := .data, proto, listener := some name
    conn := some conn, peer := some peer, dir := some dir, hint := dp.classify data
    len := some data.length, rule, data := some (dp.encode payload)
    dataTruncated := if clipped then some true else none }

def data (e : Env) (proto : Proto) (name : String) (conn : ℕ) (peer : String) (dir : Dir)
    (data : List UInt8) (rule : Option String) (s : Logger) : Logger :=
  (s.rawWrite o (e.io (conn, dir)) conn proto peer dir data).emit dp o
    (dataEvent dp o e proto name conn peer dir data rule)

def closeEvent (e : Env) (proto : Proto) (name : String) (conn : ℕ) (peer why : String) : Event :=
  { ts := dp.iso8601 e.now, tsMs := e.now, event := .close, proto, listener := some name
    conn := some conn, peer := some peer, note := some why }

def close (e : Env) (proto : Proto) (name : String) (conn : ℕ) (peer why : String)
    (s : Logger) : Logger :=
  (s.closeRaw dp o e conn proto name peer).emit dp o (closeEvent dp e proto name conn peer why)

def warnEvent (e : Env) (proto : Proto) (name msg : String) : Event :=
  { ts := dp.iso8601 e.now, tsMs := e.now, event := .warning, proto, listener := some name
    note := some msg }

def warn (e : Env) (proto : Proto) (name msg : String) (s : Logger) : Logger :=
  s.emit dp o (warnEvent dp e proto name msg)

def errorEvent (e : Env) (proto : Proto) (name : String) (conn : Option ℕ) (msg : String) : Event :=
  { ts := dp.iso8601 e.now, tsMs := e.now, event := .error, proto, listener := some name
    conn, note := some msg }

def error (e : Env) (proto : Proto) (name : String) (conn : Option ℕ) (msg : String)
    (s : Logger) : Logger :=
  s.emit dp o (errorEvent dp e proto name conn msg)

/-- Finish every open stream at shutdown: a loss goes to the console only. -/
def flush (e : Env) (order : List Key) (s : Logger) : Logger :=
  let (finished, s) := s.finishAll e order
  finished.foldl (fun s f => if f.summary.dropped > 0 then s.announce f else s) s

/-- The order is one in which the hash map can yield its entries. -/
def Enumerates (order : List Key) (s : Logger) : Prop :=
  order.Nodup ∧ order.toFinset = s.raw.keys

instance (order : List Key) (s : Logger) : Decidable (Enumerates order s) :=
  inferInstanceAs (Decidable (_ ∧ _))

def exec (e : Env) (c : Call) (s : Logger) : Logger :=
  match c with
  | .listening proto name localAddr profile => s.listening dp o e proto name localAddr profile
  | .openConn proto name conn localAddr peer orig =>
      s.openConn dp o e proto name conn localAddr peer orig
  | .data proto name conn peer dir bs rule => s.data dp o e proto name conn peer dir bs rule
  | .close proto name conn peer why => s.close dp o e proto name conn peer why
  | .warn proto name msg => s.warn dp o e proto name msg
  | .error proto name conn msg => s.error dp o e proto name conn msg
  | .flush order => s.flush e order

end Logger

/-! ## The two parts of a call -/

/-- Something a call has to charge before it can put it on disk. An event may
have a console line that is printed first. -/
inductive Write where
  | event (said : Option Finished) (ev : Event)
  | raw (io : Io) (conn : ℕ) (proto : Proto) (peer : String) (dir : Dir) (data : List UInt8)

namespace Write

variable (dp : Deps) (o : Options)

def say (w : Write) (s : Logger) : Logger :=
  match w with
  | .event (some f) _ => s.announce f
  | _ => s

/-- Whether the write gets as far as asking for its bytes. -/
def live : Write → Bool
  | .event _ _ => o.jsonl
  | .raw _ _ _ _ _ data => o.raw && !data.isEmpty

def cost : Write → ℕ
  | .event _ ev => Logger.lineBytes dp ev
  | .raw _ _ _ _ _ data => data.length

/-- What is done under the lock once the bytes are granted. -/
def perform (w : Write) (s : Logger) : Logger :=
  match w with
  | .event _ ev => s.emitLocked ev
  | .raw io conn proto peer dir data => s.rawLocked o io conn proto peer dir data

def run (w : Write) (s : Logger) : Logger :=
  let s := w.say s
  if w.live o then
    let (granted, s) := s.charge o (w.cost dp)
    if granted then w.perform o s else s
  else s

theorem run_event (ev : Event) (s : Logger) :
    (Write.event none ev).run dp o s = s.emit dp o ev := by
  cases hj : o.jsonl with
  | false => simp [run, say, live, Logger.emit, hj]
  | true =>
      simp only [run, say, live, hj, Logger.emit, Bool.not_true, Bool.false_eq_true, if_true,
        if_false]
      rfl

theorem run_raw (io : Io) (conn : ℕ) (proto : Proto) (peer : String) (dir : Dir)
    (data : List UInt8) (s : Logger) :
    (Write.raw io conn proto peer dir data).run dp o s =
      s.rawWrite o io conn proto peer dir data := by
  cases hlive : (Write.raw io conn proto peer dir data).live o with
  | false =>
      have hskip : (!o.raw || data.isEmpty) = true := by
        cases hr : o.raw <;> simp_all [live]
      simp [run, say, hlive, Logger.rawWrite, hskip]
  | true =>
      have hgo : (!o.raw || data.isEmpty) = false := by
        cases hr : o.raw <;> simp_all [live]
      simp only [run, say, hlive, Logger.rawWrite, hgo, Bool.false_eq_true, if_true, if_false]
      rfl

end Write

namespace Call

variable (dp : Deps) (o : Options)

/-- The streams a call takes out of the table, in the order it takes them. -/
def finishes : Call → List Key
  | .close _ _ conn _ _ => if o.raw then [(conn, .rx), (conn, .tx)] else []
  | .flush order => order
  | _ => []

/-- What a call does before its first write. -/
def settle (e : Env) (c : Call) (s : Logger) : Logger :=
  match c with
  | .flush order => s.flush e order
  | c => (s.finishAll e (c.finishes o)).2

/-- The writes of a call that begins in `s`. -/
def writes (e : Env) (c : Call) (s : Logger) : List Write :=
  match c with
  | .listening proto name localAddr profile =>
      [.event none (Logger.listenEvent dp e proto name localAddr profile)]
  | .openConn proto name conn localAddr peer orig =>
      [.event none (Logger.openEvent dp e proto name conn localAddr peer orig)]
  | .data proto name conn peer dir bs rule =>
      [.raw (e.io (conn, dir)) conn proto peer dir bs,
        .event none (Logger.dataEvent dp o e proto name conn peer dir bs rule)]
  | .close proto name conn peer why =>
      ((s.finishAll e ((Call.close proto name conn peer why).finishes o)).1.filter
        fun f => f.summary.dropped ≠ 0).map
          (fun f => .event (some f) (Logger.truncatedEvent dp e proto name peer f)) ++
        [.event none (Logger.closeEvent dp e proto name conn peer why)]
  | .warn proto name msg => [.event none (Logger.warnEvent dp e proto name msg)]
  | .error proto name conn msg => [.event none (Logger.errorEvent dp e proto name conn msg)]
  | .flush _ => []

theorem run_truncated (e : Env) (proto : Proto) (name peer : String) (f : Finished) (s : Logger) :
    (Write.event (some f) (Logger.truncatedEvent dp e proto name peer f)).run dp o s =
      (s.announce f).emit dp o (Logger.truncatedEvent dp e proto name peer f) :=
  Write.run_event dp o _ (s.announce f)

theorem foldl_truncated (e : Env) (proto : Proto) (name peer : String) (fs : List Finished)
    (s : Logger) :
    ((fs.filter fun f => f.summary.dropped ≠ 0).map fun f =>
        Write.event (some f) (Logger.truncatedEvent dp e proto name peer f)).foldl
          (fun s w => w.run dp o s) s =
      fs.foldl (fun s f =>
        if f.summary.dropped = 0 then s
        else (s.announce f).emit dp o (Logger.truncatedEvent dp e proto name peer f)) s := by
  induction fs generalizing s with
  | nil => rfl
  | cons f fs ih =>
      by_cases hf : f.summary.dropped = 0
      · simpa [hf] using ih s
      · simpa [hf, run_truncated] using ih _

/-- A call is its work on the table followed by its writes. -/
theorem exec_eq (e : Env) (c : Call) (s : Logger) :
    s.exec dp o e c = (c.writes dp o e s).foldl (fun s w => w.run dp o s) (c.settle o e s) := by
  cases c with
  | data proto name conn peer dir bs rule =>
      simp [Logger.exec, Logger.data, writes, settle, finishes, Logger.finishAll, Write.run_raw,
        Write.run_event]
  | close proto name conn peer why =>
      rw [writes, List.foldl_append, foldl_truncated]
      by_cases hraw : o.raw = true
      · simp [Logger.exec, Logger.close, Logger.closeRaw, settle, finishes, hraw,
          Write.run_event]
      · simp [Logger.exec, Logger.close, Logger.closeRaw, settle, finishes, hraw,
          Logger.finishAll, Write.run_event]
  | flush order => rfl
  | _ =>
      simp [Logger.exec, Logger.listening, Logger.openConn, Logger.warn, Logger.error, writes,
        settle, finishes, Logger.finishAll, Write.run_event]

end Call

/-! ## Runs of calls -/

/-- A flush yields the streams that are open; any other call can always be
made. -/
def Call.Possible (c : Call) (s : Logger) : Prop :=
  ∀ order, c = .flush order → s.Enumerates order

instance (c : Call) (s : Logger) : Decidable (c.Possible s) :=
  match c with
  | .flush order => decidable_of_iff (s.Enumerates order) (by simp [Call.Possible])
  | .listening .. => isTrue (by simp [Call.Possible])
  | .openConn .. => isTrue (by simp [Call.Possible])
  | .data .. => isTrue (by simp [Call.Possible])
  | .close .. => isTrue (by simp [Call.Possible])
  | .warn .. => isTrue (by simp [Call.Possible])
  | .error .. => isTrue (by simp [Call.Possible])

/-- Calls one after the other. What is observed of a call is the streams it
finished. -/
def Logger.calls (dp : Deps) (o : Options) : Lts Logger (Env × Call) (List Finished) where
  step s a :=
    if a.2.Possible s then
      some (s.exec dp o a.1 a.2, (s.finishAll a.1 (a.2.finishes o)).1)
    else none

theorem Logger.calls_step_eq_some (dp : Deps) (o : Options) {s t : Logger} {a : Env × Call}
    {fs : List Finished} :
    (Logger.calls dp o).step s a = some (t, fs) ↔
      a.2.Possible s ∧ t = s.exec dp o a.1 a.2 ∧ fs = (s.finishAll a.1 (a.2.finishes o)).1 := by
  simp only [calls, Option.ite_none_right_eq_some, Option.some.injEq, Prod.mk.injEq,
    @eq_comm _ t, @eq_comm _ fs]

/-- The bytes of the call that belong to one direction of one connection. -/
def Call.bytesFor (k : Key) : Call → List UInt8
  | .data _ _ conn _ dir bs _ => if (conn, dir) = k then bs else []
  | _ => []

/-- All bytes passed to `data` for one direction of one connection. -/
def passed (k : Key) (acts : List (Env × Call)) : List UInt8 :=
  acts.flatMap fun a => a.2.bytesFor k

theorem passed_append_singleton (k : Key) (acts : List (Env × Call)) (a : Env × Call) :
    passed k (acts ++ [a]) = passed k acts ++ a.2.bytesFor k := by
  simp [passed]

end KirbLaSnoop
