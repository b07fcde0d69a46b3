import Mathlib
import KirbLaSnoop.Log.RunCap

/-!
# The event index follows the raw dump

A `data` call charges its bytes and then its index entry, against a counter
that other tasks move. Once a charge has been refused the flag stays up, so
the dump and the index of one direction stop within one message of each other.
-/

namespace KirbLaSnoop

structure Message where
  env : Env
  proto : Proto
  name : String
  conn : ℕ
  peer : String
  dir : Dir
  data : List UInt8
  rule : Option String

namespace Message

def key (msg : Message) : Key := (msg.conn, msg.dir)

def raw (msg : Message) : Write :=
  .raw (msg.env.io msg.key) msg.conn msg.proto msg.peer msg.dir msg.data

def entry (dp : Deps) (o : Options) (msg : Message) : Event :=
  Logger.dataEvent dp o msg.env msg.proto msg.name msg.conn msg.peer msg.dir msg.data msg.rule

end Message

def Call.message (e : Env) : Call → Option Message
  | .data proto name conn peer dir bs rule => some ⟨e, proto, name, conn, peer, dir, bs, rule⟩
  | _ => none

/-- An index entry of one direction of one connection. -/
def Event.isDataOf (k : Key) (ev : Event) : Bool :=
  decide (ev.event = .data ∧ ev.conn = some k.1 ∧ ev.dir = some k.2)

def Write.isFor (k : Key) : Write → Bool
  | .raw _ conn _ _ dir _ => decide ((conn, dir) = k)
  | .event _ ev => ev.isDataOf k

theorem Message.isFor_raw (msg : Message) (k : Key) :
    msg.raw.isFor k = decide (msg.key = k) := rfl

theorem Message.isDataOf_entry (dp : Deps) (o : Options) (msg : Message) (k : Key) :
    (msg.entry dp o).isDataOf k = decide (msg.key = k) := by
  simp [Event.isDataOf, entry, Logger.dataEvent, key, Prod.ext_iff]

theorem Message.isFor_event (dp : Deps) (o : Options) (msg : Message) (k : Key) :
    (Write.event none (msg.entry dp o)).isFor k = decide (msg.key = k) :=
  msg.isDataOf_entry dp o k

theorem Write.isFor_event_of_ne {ev : Event} (h : ev.event ≠ .data) (said : Option Finished)
    (k : Key) : (Write.event said ev).isFor k = false := by
  simp [isFor, Event.isDataOf, h]

/-- What is written for a direction of a connection comes from its messages. -/
theorem Call.filter_writes (dp : Deps) (o : Options) (e : Env) (c : Call) (s : Logger) (k : Key) :
    (c.writes dp o e s).filter (Write.isFor k) =
      ((c.message e).filter fun msg => msg.key = k).elim []
        fun msg => [msg.raw, .event none (msg.entry dp o)] := by
  cases c with
  | data proto name conn peer dir bs rule =>
      obtain ⟨msg, hmsg⟩ : ∃ msg : Message, msg = ⟨e, proto, name, conn, peer, dir, bs, rule⟩ :=
        ⟨_, rfl⟩
      have hwrites : (Call.data proto name conn peer dir bs rule).writes dp o e s =
          [msg.raw, .event none (msg.entry dp o)] := by
        rw [hmsg]
        rfl
      have hmessage : (Call.data proto name conn peer dir bs rule).message e = some msg := by
        rw [hmsg]
        rfl
      rw [hwrites, hmessage]
      by_cases hk : msg.key = k
      · simp [msg.isFor_raw, msg.isFor_event, hk, Option.filter]
      · simp [msg.isFor_raw, msg.isFor_event, hk, Option.filter]
  | close proto name conn peer why =>
      apply List.filter_eq_nil_iff.mpr
      intro w hw
      rcases List.mem_append.mp hw with hw | hw
      · obtain ⟨f, _, rfl⟩ := List.mem_map.mp hw
        rw [Write.isFor_event_of_ne (by simp [Logger.truncatedEvent])]
        exact Bool.false_ne_true
      · rw [List.mem_singleton.mp hw, Write.isFor_event_of_ne (by simp [Logger.closeEvent])]
        exact Bool.false_ne_true
  | _ =>
      simp [writes, message, Write.isFor, Event.isDataOf, Logger.listenEvent, Logger.openEvent,
        Logger.warnEvent, Logger.errorEvent]

/-! ## The writes a task has in hand -/

def Busy.write : Busy → Write
  | .charging w _ => w
  | .granted w => w

def Job.write? : Job → Option Write
  | .write w => some w
  | .finish _ _ _ => none

/-- The writes a task has begun or will make. -/
def Task.writes (t : Task) : List Write :=
  t.busy.toList.map Busy.write ++ t.todo.filterMap Job.write?

/-- The write in progress, if it is one for `k`. -/
def busyFor (k : Key) (busy : Option Busy) : List Write :=
  (busy.toList.map Busy.write).filter (Write.isFor k)

def todoFor (k : Key) (todo : List Job) : List Write :=
  (todo.filterMap Job.write?).filter (Write.isFor k)

@[simp] theorem busyFor_none (k : Key) : busyFor k none = [] := rfl

theorem busyFor_some (k : Key) (b : Busy) :
    busyFor k (some b) = if b.write.isFor k then [b.write] else [] := by
  cases h : b.write.isFor k <;> simp [busyFor, h]

theorem todoFor_write (k : Key) (w : Write) (rest : List Job) :
    todoFor k (.write w :: rest) = if w.isFor k then w :: todoFor k rest else todoFor k rest := by
  cases h : w.isFor k <;> simp [todoFor, Job.write?, h]

theorem busyFor_append (k : Key) (b : Busy) (ws : List Write) :
    busyFor k (some b) ++ ws = if b.write.isFor k then b.write :: ws else ws := by
  rw [busyFor_some]
  split
  · rfl
  · rfl

theorem todoFor_start (dp : Deps) (o : Options) (e : Env) (c : Call) (s : Logger) (k : Key) :
    todoFor k (c.start dp o e s).2 =
      ((c.message e).filter fun msg => msg.key = k).elim []
        fun msg => [msg.raw, .event none (msg.entry dp o)] := by
  rw [← Call.filter_writes dp o e c s k]
  cases c with
  | flush order =>
      have hnone : ∀ ks : List Key, (ks.filterMap fun j =>
          (s.raw.get j).map (Job.finish (e.io j) j)).filterMap Job.write? = [] := by
        intro ks
        rw [List.filterMap_filterMap, List.filterMap_eq_nil_iff]
        intro j _
        cases s.raw.get j <;> rfl
      simp [todoFor, Call.start, hnone, Call.writes]
  | _ =>
      have hall : ∀ ws : List Write, (ws.map Job.write).filterMap Job.write? = ws := by
        intro ws
        rw [List.filterMap_map]
        exact List.filterMap_some
      simp only [todoFor, Call.start, hall]

/-! ## How far one direction of one connection has got -/

/-- The messages so far, the bytes handed to the stream, the index, the
writes in progress and to come, and the flag. -/
inductive Stage (dp : Deps) (o : Options) :
    List Message → List UInt8 → List Event → List Write → List Write → Bool → Prop
  | even (msgs : List Message) (stopped : Bool) :
      Stage dp o msgs (msgs.flatMap Message.data) (msgs.map (Message.entry dp o)) [] [] stopped
  | before (init : List Message) (last : Message) (busy todo : List Write) (stopped : Bool)
      (hws : busy ++ todo = [last.raw, .event none (last.entry dp o)]) :
      Stage dp o (init ++ [last]) (init.flatMap Message.data) (init.map (Message.entry dp o))
        busy todo stopped
  | between (init : List Message) (last : Message) (busy todo : List Write) (stopped : Bool)
      (hws : busy ++ todo = [.event none (last.entry dp o)]) :
      Stage dp o (init ++ [last]) ((init ++ [last]).flatMap Message.data)
        (init.map (Message.entry dp o)) busy todo stopped
  | frozen (msgs : List Message) (i j : ℕ) (hji : j ≤ i) (hij : i ≤ j + 1)
      (hi : i ≤ msgs.length) (todo : List Write) :
      Stage dp o msgs ((msgs.take i).flatMap Message.data) ((msgs.take j).map (Message.entry dp o))
        [] todo true

namespace Stage

variable {dp : Deps} {o : Options} {msgs : List Message} {bs : List UInt8} {idx : List Event}
  {busy todo busy' todo' rest : List Write} {stopped stopped' : Bool} {w : Write}

/-- Steps that leave the writes what they are: a charge goes on or is granted,
or the step is about something else. -/
theorem keep (h : Stage dp o msgs bs idx busy todo stopped) (hws : busy' ++ todo' = busy ++ todo)
    (hidle : stopped = true → busy = [] → busy' = [])
    (hstop : stopped = true → stopped' = true) :
    Stage dp o msgs bs idx busy' todo' stopped' := by
  cases h with
  | even =>
      obtain ⟨rfl, rfl⟩ := List.append_eq_nil_iff.mp hws
      exact .even msgs stopped'
  | before init last _ _ _ hnow => exact .before init last busy' todo' stopped' (hws.trans hnow)
  | between init last _ _ _ hnow => exact .between init last busy' todo' stopped' (hws.trans hnow)
  | frozen _ i j hji hij hi _ =>
      obtain rfl := hidle rfl rfl
      obtain rfl := hstop rfl
      exact .frozen msgs i j hji hij hi todo'

/-- A refusal freezes both the dump and the index. -/
theorem refuse (h : Stage dp o msgs bs idx busy todo stopped) (hws : busy ++ todo = w :: rest) :
    Stage dp o msgs bs idx [] rest true := by
  cases h with
  | even => cases hws
  | before init last _ _ _ hnow =>
      have h := @frozen dp o (init ++ [last]) init.length init.length (le_refl _)
        (Nat.le_succ _) (by simp) rest
      rwa [List.take_left] at h
  | between init last _ _ _ hnow =>
      have h := @frozen dp o (init ++ [last]) (init.length + 1) init.length
        (Nat.le_succ _) (le_refl _) (by simp) rest
      rwa [List.take_left, List.take_of_length_le (by simp)] at h
  | frozen _ i j hji hij hi _ => exact .frozen msgs i j hji hij hi rest

theorem skip {io : Io} {conn : ℕ} {proto : Proto} {peer : String} {dir : Dir}
    (h : Stage dp o msgs bs idx [] todo stopped)
    (hws : todo = .raw io conn proto peer dir [] :: rest) :
    Stage dp o msgs bs idx [] rest stopped := by
  subst hws
  cases h with
  | before init last _ _ _ hnow =>
      obtain ⟨hraw, rfl⟩ := List.cons.inj hnow
      have hempty : last.data = [] := (Write.raw.inj hraw).2.2.2.2.2.symm
      have hsame : (init ++ [last]).flatMap Message.data = init.flatMap Message.data := by
        simp [hempty]
      rw [← hsame]
      exact .between init last [] _ stopped rfl
  | between init last _ _ _ hnow => cases (List.cons.inj hnow).1
  | frozen _ i j hji hij hi _ => exact .frozen msgs i j hji hij hi rest

theorem raw_eq {io : Io} {conn : ℕ} {proto : Proto} {peer : String} {dir : Dir}
    {data : List UInt8}
    (h : Stage dp o msgs bs idx [.raw io conn proto peer dir data] todo stopped) :
    ∃ msg ∈ msgs, .raw io conn proto peer dir data = msg.raw := by
  cases h with
  | before init last _ _ _ hnow =>
      exact ⟨last, List.mem_append_right _ List.mem_cons_self, (List.cons.inj hnow).1⟩
  | between init last _ _ _ hnow => cases (List.cons.inj hnow).1

theorem hand {io : Io} {conn : ℕ} {proto : Proto} {peer : String} {dir : Dir} {data : List UInt8}
    (h : Stage dp o msgs bs idx [.raw io conn proto peer dir data] todo stopped) :
    Stage dp o msgs (bs ++ data) idx [] todo stopped := by
  cases h with
  | before init last _ _ _ hnow =>
      obtain ⟨hraw, rfl⟩ := List.cons.inj hnow
      obtain rfl : data = last.data := (Write.raw.inj hraw).2.2.2.2.2
      have hall : (init ++ [last]).flatMap Message.data =
          init.flatMap Message.data ++ last.data := by simp
      rw [← hall]
      exact .between init last [] _ stopped rfl
  | between init last _ _ _ hnow => cases (List.cons.inj hnow).1

theorem log {said : Option Finished} {ev : Event}
    (h : Stage dp o msgs bs idx [.event said ev] todo stopped) :
    Stage dp o msgs bs (idx ++ [ev]) [] todo stopped := by
  cases h with
  | before init last _ _ _ hnow => cases (List.cons.inj hnow).1
  | between init last _ _ _ hnow =>
      obtain ⟨hevent, rfl⟩ := List.cons.inj hnow
      obtain rfl := (Write.event.inj hevent).2
      have hall : init.map (Message.entry dp o) ++ [last.entry dp o] =
          (init ++ [last]).map (Message.entry dp o) := by simp
      rw [hall]
      exact .even _ stopped

theorem message (h : Stage dp o msgs bs idx [] [] stopped) (msg : Message) :
    Stage dp o (msgs ++ [msg]) bs idx [] [msg.raw, .event none (msg.entry dp o)] stopped := by
  cases h with
  | even => exact .before msgs msg [] _ stopped rfl
  | before init last _ _ _ hnow => cases hnow
  | between init last _ _ _ hnow => cases hnow
  | frozen _ i j hji hij hi _ =>
      have h := @frozen dp o (msgs ++ [msg]) i j hji hij
        (by rw [List.length_append]; omega) [msg.raw, .event none (msg.entry dp o)]
      rwa [List.take_append_of_le_length hi, List.take_append_of_le_length (hji.trans hi)] at h

/-- At every stage the dump and the index are within one message. -/
theorem indices (h : Stage dp o msgs bs idx busy todo stopped) :
    ∃ i j, j ≤ i ∧ i ≤ j + 1 ∧ i ≤ msgs.length ∧ bs = (msgs.take i).flatMap Message.data ∧
      idx = (msgs.take j).map (Message.entry dp o) := by
  cases h with
  | even =>
      refine ⟨msgs.length, msgs.length, le_refl _, Nat.le_succ _, le_refl _, ?_, ?_⟩
      · rw [List.take_length]
      · rw [List.take_length]
  | before init last _ _ _ hnow =>
      refine ⟨init.length, init.length, le_refl _, Nat.le_succ _, by simp, ?_, ?_⟩
      · rw [List.take_left]
      · rw [List.take_left]
  | between init last _ _ _ hnow =>
      refine ⟨init.length + 1, init.length, Nat.le_succ _, le_refl _, by simp, ?_, ?_⟩
      · rw [List.take_of_length_le (by simp)]
      · rw [List.take_left]
  | frozen _ i j hji hij hi _ => exact ⟨i, j, hji, hij, hi, rfl, rfl⟩

end Stage

/-! ## What is seen of one direction of one connection -/

variable {ι : Type*}

def Act.message : Act ι → Option Message
  | .call _ e c => c.message e
  | .step _ => none

def messages (k : Key) (acts : List (Act ι)) : List Message :=
  (acts.filterMap Act.message).filter fun msg => msg.key = k

theorem messages_append (k : Key) (acts acts' : List (Act ι)) :
    messages k (acts ++ acts') = messages k acts ++ messages k acts' := by
  simp [messages]

theorem messages_append_step (k : Key) (acts : List (Act ι)) (i : ι) :
    messages k (acts ++ [.step i]) = messages k acts := by
  simp [messages, Act.message]

def Seen.bytesFor (k : Key) : Seen ι → List UInt8
  | .handed key bs => if key = k then bs else []
  | _ => []

def handed (k : Key) (seen : List (Seen ι)) : List UInt8 := seen.flatMap (Seen.bytesFor k)

theorem handed_append (k : Key) (seen seen' : List (Seen ι)) :
    handed k (seen ++ seen') = handed k seen ++ handed k seen' := by
  simp [handed]

namespace Logger

variable (dp : Deps) (o : Options)

def index (k : Key) (s : Logger) : List Event := s.jsonl.filter (Event.isDataOf k)

@[simp] theorem jsonl_finishOne (io : Io) (k : Key) (st : Stream FileName) (s : Logger) :
    (s.finishOne io k st).jsonl = s.jsonl := by
  obtain ⟨console, hfinish⟩ := finishOne_eq io k st s
  rw [hfinish]
  rfl

/-- A stream that can be created is there after the write. -/
theorem isSome_rawLocked {io : Io} (hio : io.headOpen = true) (conn : ℕ) (proto : Proto)
    (peer : String) (dir : Dir) (data : List UInt8) (s : Logger) :
    ((s.rawLocked o io conn proto peer dir data).raw.get (conn, dir)).isSome = true := by
  cases hget : s.raw.get (conn, dir) with
  | none => simp [rawLocked, hget, Stream.create, hio]
  | some st => simp [rawLocked, hget]

end Logger

@[simp] theorem Call.jsonl_start (dp : Deps) (o : Options) (e : Env) (c : Call) (s : Logger) :
    (c.start dp o e s).1.jsonl = s.jsonl := by
  cases c with
  | flush order => rfl
  | _ => exact Logger.jsonl_finishAll e _ s

theorem index_perform_event (o : Options) {said : Option Finished} {ev : Event} {k : Key}
    (hw : (Write.event said ev).isFor k = true) (s : Logger) :
    ((Write.event said ev).perform o s).index k = s.index k ++ [ev] := by
  have hev : ev.isDataOf k = true := hw
  simp [Logger.index, Write.perform, Logger.emitLocked, hev]

theorem index_perform_raw (o : Options) (io : Io) (conn : ℕ) (proto : Proto) (peer : String)
    (dir : Dir) (data : List UInt8) (k : Key) (s : Logger) :
    ((Write.raw io conn proto peer dir data).perform o s).index k = s.index k := by
  simp [Logger.index, Write.perform]

theorem index_perform_of_not_for (o : Options) {w : Write} {k : Key} (hw : w.isFor k = false)
    (s : Logger) : (w.perform o s).index k = s.index k := by
  cases w with
  | event said ev =>
      have hev : ev.isDataOf k = false := hw
      simp [Logger.index, Write.perform, Logger.emitLocked, hev]
  | raw io conn proto peer dir data => exact index_perform_raw o io conn proto peer dir data k s

theorem handed_of_not_for (o : Options) {w : Write} {k : Key} (hw : w.isFor k = false)
    (s : Logger) : handed k (w.handed o s : List (Seen ι)) = [] := by
  cases w with
  | event said ev => rfl
  | raw io conn proto peer dir data =>
      have hkey : (conn, dir) ≠ k := by simpa [Write.isFor] using hw
      simp only [Write.handed]
      split
      · simp [handed, Seen.bytesFor, hkey]
      · rfl

theorem handed_event (o : Options) (said : Option Finished) (ev : Event) (k : Key) (s : Logger) :
    handed k ((Write.event said ev).handed o s : List (Seen ι)) = [] := rfl

theorem handed_raw (o : Options) {io : Io} (hio : io.headOpen = true) {conn : ℕ} {proto : Proto}
    {peer : String} {dir : Dir} {data : List UInt8} {k : Key}
    (hw : (Write.raw io conn proto peer dir data).isFor k = true) (s : Logger) :
    handed k ((Write.raw io conn proto peer dir data).handed o s : List (Seen ι)) = data := by
  have hkey : (conn, dir) = k := of_decide_eq_true hw
  have hopen : ((s.raw.get (conn, dir)).isSome || io.headOpen) = true := by
    rw [hio, Bool.or_true]
  have htotal := Logger.totalOf_rawLocked o hopen proto peer data
  simp only [Write.handed, Logger.isSome_rawLocked o hio, if_true, htotal,
    Nat.add_sub_cancel_left, List.take_length]
  simp [handed, Seen.bytesFor, hkey]

/-- The flag stays as it is, or there is a cap and it is not lowered. -/
def KeepsFlag (o : Options) (s t : Logger) : Prop :=
  t.diskStopped = s.diskStopped ∨
    o.maxRunBytes ≠ 0 ∧ (s.diskStopped = true → t.diskStopped = true)

theorem KeepsFlag.of_counter {o : Options} {s t : Logger} (h : t.counter = s.counter) :
    KeepsFlag o s t :=
  .inl (congrArg Budget.Counter.stopped h)

theorem KeepsFlag.keeps {o : Options} {s t : Logger} (h : KeepsFlag o s t)
    (hs : s.diskStopped = true) : t.diskStopped = true := by
  rcases h with hsame | ⟨_, hkeeps⟩
  · exact hsame.trans hs
  · exact hkeeps hs

theorem idle_charges_nothing {o : Options} (w : Write) (phase : Budget.Phase)
    (h : none = some (Busy.charging w phase)) : o.maxRunBytes ≠ 0 := by
  cases h

theorem granted_charges_nothing {o : Options} {w : Write} (w' : Write) (phase : Budget.Phase)
    (h : some (Busy.granted w) = some (.charging w' phase)) : o.maxRunBytes ≠ 0 := by
  cases h

namespace Machine

variable [DecidableEq ι] (dp : Deps) (o : Options)

/-- Only the owner has writes for `k`, and with what was handed over and
indexed they are at some stage of its messages. -/
structure Follows (owner : ι) (k : Key) (acts : List (Act ι)) (m : Machine ι)
    (seen : List (Seen ι)) : Prop where
  others : ∀ i, i ≠ owner → busyFor k (m.task i).busy = [] ∧ todoFor k (m.task i).todo = []
  stage : Stage dp o (messages k acts) (handed k seen) (m.log.index k)
    (busyFor k (m.task owner).busy) (todoFor k (m.task owner).todo) m.log.diskStopped
  uncapped : o.maxRunBytes = 0 → m.log.diskStopped = false
  capped : ∀ i w phase, (m.task i).busy = some (.charging w phase) → o.maxRunBytes ≠ 0

omit [DecidableEq ι] in
theorem follows_new (owner : ι) (k : Key) : Follows dp o owner k [] (new : Machine ι) [] := by
  constructor
  · intro i _
    exact ⟨rfl, rfl⟩
  · exact .even [] false
  · intro _
    rfl
  · intro i w phase h
    cases h

variable {dp o} {owner i : ι} {k : Key} {acts : List (Act ι)} {m : Machine ι}
  {seen out : List (Seen ι)} {log : Logger} {busy : Option Busy} {todo rest : List Job} {w : Write}

/-- A step of task `i`, from what it does to the stage if `i` is the owner and
has writes for `k`, and to the writes if not. -/
theorem Follows.put (h : Follows dp o owner k acts m seen) {a : Act ι}
    (hstage : i = owner →
      Stage dp o (messages k acts) (handed k seen) (m.log.index k) (busyFor k (m.task i).busy)
        (todoFor k (m.task i).todo) m.log.diskStopped →
      Stage dp o (messages k (acts ++ [a])) (handed k (seen ++ out)) (log.index k)
        (busyFor k busy) (todoFor k todo) log.diskStopped)
    (hforeign : i ≠ owner → busyFor k (m.task i).busy = [] → todoFor k (m.task i).todo = [] →
      busyFor k busy = [] ∧ todoFor k todo = [] ∧ messages k [a] = [] ∧ handed k out = [] ∧
        log.index k = m.log.index k)
    (hflag : KeepsFlag o m.log log)
    (hcapped : ∀ w phase, busy = some (.charging w phase) → o.maxRunBytes ≠ 0) :
    Follows dp o owner k (acts ++ [a]) (m.put i log busy todo) (seen ++ out) := by
  have huncapped : o.maxRunBytes = 0 → log.diskStopped = false := by
    intro hfree
    rcases hflag with hsame | ⟨hcap, _⟩
    · exact hsame.trans (h.uncapped hfree)
    · exact absurd hfree hcap
  have hcapped' : ∀ j w phase, ((m.put i log busy todo).task j).busy = some (.charging w phase) →
      o.maxRunBytes ≠ 0 := by
    intro j w phase hj
    by_cases hji : j = i
    · subst hji
      rw [put_task] at hj
      exact hcapped w phase hj
    · rw [put_task_ne _ hji] at hj
      exact h.capped j w phase hj
  by_cases hi : i = owner
  · subst hi
    refine ⟨?_, ?_, huncapped, hcapped'⟩
    · intro j hj
      rw [put_task_ne _ hj]
      exact h.others j hj
    · rw [put_task]
      exact hstage rfl h.stage
  · obtain ⟨hbusy, htodo⟩ := h.others i hi
    obtain ⟨hbusy', htodo', hmsgs, hout, hindex⟩ := hforeign hi hbusy htodo
    refine ⟨?_, ?_, huncapped, hcapped'⟩
    · intro j hj
      by_cases hji : j = i
      · subst hji
        rw [put_task]
        exact ⟨hbusy', htodo'⟩
      · rw [put_task_ne _ hji]
        exact h.others j hj
    · rw [put_task_ne _ (Ne.symm hi), messages_append, hmsgs, List.append_nil, handed_append, hout,
        List.append_nil, put_log, hindex]
      exact h.stage.keep rfl (fun _ hb => hb) hflag.keeps

/-- A step that does nothing for `k` but move its writes along. -/
theorem Follows.neutral (h : Follows dp o owner k acts m seen) {a : Act ι}
    (hmsgs : messages k [a] = [])
    (hws : busyFor k busy ++ todoFor k todo =
      busyFor k (m.task i).busy ++ todoFor k (m.task i).todo)
    (hidle : m.log.diskStopped = true → busyFor k (m.task i).busy = [] → busyFor k busy = [])
    (hout : handed k out = []) (hindex : log.index k = m.log.index k)
    (hflag : KeepsFlag o m.log log)
    (hcapped : ∀ w phase, busy = some (.charging w phase) → o.maxRunBytes ≠ 0) :
    Follows dp o owner k (acts ++ [a]) (m.put i log busy todo) (seen ++ out) := by
  apply h.put
  · intro _ hstage
    rw [messages_append, hmsgs, List.append_nil, handed_append, hout, List.append_nil, hindex]
    exact hstage.keep hws hidle hflag.keeps
  · intro _ hbusy htodo
    rw [hbusy, htodo] at hws
    obtain ⟨hbusy', htodo'⟩ := List.append_eq_nil_iff.mp hws
    exact ⟨hbusy', htodo', hmsgs, hout, hindex⟩
  · exact hflag
  · exact hcapped

/-- A task takes up its next write while the flag is down. -/
theorem Follows.taken (h : Follows dp o owner k acts m seen)
    (ht : m.task i = ⟨none, .write w :: rest⟩) (hclear : m.log.diskStopped = false)
    (hbusy : busyFor k busy ++ todoFor k rest = todoFor k (.write w :: rest))
    (hout : handed k out = [])
    (hcapped : ∀ w phase, busy = some (.charging w phase) → o.maxRunBytes ≠ 0) :
    Follows dp o owner k (acts ++ [.step i]) (m.put i (w.say m.log) busy rest) (seen ++ out) := by
  apply h.neutral
  · rfl
  · rw [ht, hbusy]
    rfl
  · intro hraised
    rw [hclear] at hraised
    cases hraised
  · exact hout
  · simp [Logger.index]
  · exact .of_counter (w.counter_say m.log)
  · exact hcapped

/-- A step of a task with the counter, while its write is charged. -/
theorem Follows.charged (h : Follows dp o owner k acts m seen)
    (ht : m.task i = ⟨some (.charging w phase), rest⟩) {c : Budget.Counter}
    (hbusy : busyFor k busy = busyFor k (some (.charging w phase))) (hout : handed k out = [])
    (hflag : KeepsFlag o m.log (m.log.withCounter c))
    (hcapped : ∀ w phase, busy = some (.charging w phase) → o.maxRunBytes ≠ 0) :
    Follows dp o owner k (acts ++ [.step i]) (m.put i (m.log.withCounter c) busy rest)
      (seen ++ out) := by
  apply h.neutral
  · rfl
  · rw [ht, hbusy]
  · rw [ht, hbusy]
    exact fun _ hb => hb
  · exact hout
  · rfl
  · exact hflag
  · exact hcapped

/-- A refused write is dropped with the flag raised. -/
theorem Follows.refused (h : Follows dp o owner k acts m seen)
    (hws : busyFor k (m.task i).busy ++ todoFor k (m.task i).todo =
      if w.isFor k then w :: todoFor k rest else todoFor k rest)
    (hout : handed k out = []) (hindex : log.index k = m.log.index k)
    (hraised : log.diskStopped = true) (hcap : o.maxRunBytes ≠ 0) :
    Follows dp o owner k (acts ++ [.step i]) (m.put i log none rest) (seen ++ out) := by
  have hflag : KeepsFlag o m.log log := .inr ⟨hcap, fun _ => hraised⟩
  cases hw : w.isFor k with
  | false =>
      rw [hw] at hws
      exact h.neutral rfl hws.symm (fun _ _ => rfl) hout hindex hflag idle_charges_nothing
  | true =>
      rw [hw, if_pos rfl] at hws
      apply h.put
      · intro _ hstage
        rw [messages_append_step, handed_append, hout, List.append_nil, hindex, hraised]
        exact hstage.refuse hws
      · intro _ hbusy htodo
        rw [hbusy, htodo] at hws
        cases hws
      · exact hflag
      · exact idle_charges_nothing

/-- A write that does not ask for its bytes is that of an empty message. -/
theorem Follows.skipped (h : Follows dp o owner k acts m seen) (hraw : o.raw = true)
    (hjsonl : o.jsonl = true) (ht : m.task i = ⟨none, .write w :: rest⟩)
    (hlive : w.live o = false) :
    Follows dp o owner k (acts ++ [.step i]) (m.put i (w.say m.log) none rest) (seen ++ []) := by
  have hflag : KeepsFlag o m.log (w.say m.log) := .of_counter (w.counter_say m.log)
  have hindex : (w.say m.log).index k = m.log.index k := by
    simp [Logger.index]
  cases w with
  | event said ev =>
      rw [Write.live, hjsonl] at hlive
      cases hlive
  | raw io conn proto peer dir data =>
      obtain rfl : data = [] := by
        simpa [Write.live, hraw] using hlive
      by_cases hw : (Write.raw io conn proto peer dir []).isFor k = true
      · apply h.put
        · intro _ hstage
          rw [ht] at hstage
          rw [messages_append_step, List.append_nil, hindex]
          exact hstage.skip (by rw [todoFor_write, if_pos hw])
        · intro _ _ hnone
          rw [ht, todoFor_write, if_pos hw] at hnone
          cases hnone
        · exact hflag
        · exact idle_charges_nothing
      · apply h.neutral
        · rfl
        · rw [ht, todoFor_write, if_neg hw]
        · exact fun _ _ => rfl
        · rfl
        · exact hindex
        · exact hflag
        · exact idle_charges_nothing

/-- A granted write reaches its sink: an entry the index, bytes a stream that
is there or can be created. -/
theorem Follows.performed (h : Follows dp o owner k acts m seen)
    (hopen : ∀ msg ∈ messages k acts, (msg.env.io msg.key).headOpen = true)
    (ht : m.task i = ⟨some (.granted w), rest⟩) :
    Follows dp o owner k (acts ++ [.step i]) (m.put i (w.perform o m.log) none rest)
      (seen ++ w.handed o m.log) := by
  have hflag : KeepsFlag o m.log (w.perform o m.log) := .of_counter (w.counter_perform o m.log)
  cases hw : w.isFor k with
  | false =>
      apply h.neutral
      · rfl
      · rw [ht, busyFor_some, Busy.write, hw]
        rfl
      · exact fun _ _ => rfl
      · exact handed_of_not_for o hw m.log
      · exact index_perform_of_not_for o hw m.log
      · exact hflag
      · exact idle_charges_nothing
  | true =>
      have hbusy : busyFor k (m.task i).busy = [w] := by
        rw [ht, busyFor_some]
        exact if_pos hw
      apply h.put
      · intro _ hstage
        rw [hbusy, ht] at hstage
        have hstopped : (w.perform o m.log).diskStopped = m.log.diskStopped :=
          congrArg Budget.Counter.stopped (w.counter_perform o m.log)
        rw [messages_append_step, handed_append, hstopped]
        cases w with
        | event said ev =>
            rw [handed_event, List.append_nil, index_perform_event o hw]
            exact hstage.log
        | raw io conn proto peer dir data =>
            obtain ⟨msg, hmsg, hraweq⟩ := hstage.raw_eq
            have hio : io.headOpen = true := by
              rw [(Write.raw.inj hraweq).1]
              exact hopen msg hmsg
            rw [handed_raw o hio hw, index_perform_raw]
            exact hstage.hand
      · intro _ hnone _
        rw [hbusy] at hnone
        cases hnone
      · exact hflag
      · exact idle_charges_nothing

theorem Follows.call (h : Follows dp o owner k acts m seen) {e : Env} {c : Call}
    (hidle : m.task i = .idle) (hmine : ∀ msg, c.message e = some msg → msg.key = k → i = owner) :
    Follows dp o owner k (acts ++ [.call i e c])
      (m.put i (c.start dp o e m.log).1 none (c.start dp o e m.log).2) (seen ++ []) := by
  have hindex : (c.start dp o e m.log).1.index k = m.log.index k := by
    simp [Logger.index]
  have hcounter := Call.counter_start dp o e c m.log
  have htodo := todoFor_start dp o e c m.log k
  have hmsgs : messages k [Act.call i e c] =
      ((c.message e).filter fun msg => msg.key = k).toList := by
    cases hmsg : c.message e with
    | none => simp [messages, Act.message, hmsg]
    | some msg =>
        by_cases hk : msg.key = k
        · simp [messages, Act.message, hmsg, hk, Option.filter]
        · simp [messages, Act.message, hmsg, hk, Option.filter]
  cases hmsg : (c.message e).filter fun msg => msg.key = k with
  | none =>
      rw [hmsg] at htodo hmsgs
      apply h.neutral
      · exact hmsgs
      · rw [htodo, hidle]
        rfl
      · exact fun _ _ => rfl
      · rfl
      · exact hindex
      · exact .of_counter hcounter
      · exact idle_charges_nothing
  | some msg =>
      rw [hmsg] at htodo hmsgs
      obtain ⟨hmessage, hkey⟩ := Option.filter_eq_some_iff.mp hmsg
      have hi : i = owner := hmine msg hmessage (of_decide_eq_true hkey)
      have hstopped : (c.start dp o e m.log).1.diskStopped = m.log.diskStopped :=
        congrArg Budget.Counter.stopped hcounter
      apply h.put
      · intro _ hstage
        rw [hidle] at hstage
        rw [messages_append, hmsgs, List.append_nil, hindex, hstopped, htodo]
        exact hstage.message msg
      · exact fun hne => absurd hi hne
      · exact .of_counter hcounter
      · exact idle_charges_nothing

/-- One step of any task keeps every direction of every connection at some
stage of its messages. -/
theorem Follows.move (hraw : o.raw = true) (hjsonl : o.jsonl = true) {m' : Machine ι} {a : Act ι}
    (h : Follows dp o owner k acts m seen) (hmove : Move dp o m a m' out)
    (hmine : ∀ i e c, a = .call i e c → ∀ msg, c.message e = some msg → msg.key = k → i = owner)
    (hopen : ∀ msg ∈ messages k acts, (msg.env.io msg.key).headOpen = true) :
    Follows dp o owner k (acts ++ [a]) m' (seen ++ out) := by
  cases hmove with
  | call i e c hidle hc => exact h.call hidle (hmine i e c rfl)
  | finish i io key st rest ht =>
      apply h.neutral
      · rfl
      · rw [ht]
        rfl
      · exact fun _ _ => rfl
      · rfl
      · simp [Logger.index]
      · exact .of_counter (Logger.counter_finishOne io key st m.log)
      · exact idle_charges_nothing
  | skip i w rest ht hlive => exact h.skipped hraw hjsonl ht hlive
  | free i w rest ht hlive hcap =>
      apply h.taken ht (h.uncapped hcap)
      · rw [todoFor_write, busyFor_append]
        rfl
      · rfl
      · exact granted_charges_nothing
  | begin i w rest ht hlive hcap hclear =>
      apply h.taken ht hclear
      · rw [todoFor_write, busyFor_append]
        rfl
      · rfl
      · exact fun _ _ _ => hcap
  | turnedAway i w rest ht hlive hcap hraised =>
      apply h.refused
      · rw [ht, todoFor_write]
        rfl
      · rfl
      · simp [Logger.index]
      · exact (congrArg Budget.Counter.stopped (w.counter_say m.log)).trans hraised
      · exact hcap
  | advance i w phase phase' c rest ht hadv =>
      have hcap : o.maxRunBytes ≠ 0 := h.capped i w phase (by rw [ht])
      apply h.charged ht
      · rfl
      · rfl
      · exact .inl (Budget.advance_next_stopped hadv)
      · exact fun _ _ _ => hcap
  | grant i w phase c rest ht hadv =>
      have hcap : o.maxRunBytes ≠ 0 := h.capped i w phase (by rw [ht])
      have hkeeps : m.log.diskStopped = true → c.stopped = true := by
        intro hraised
        have hkeep := Budget.advance_keeps_stopped o.maxRunBytes (w.cost dp)
          (c := m.log.counter) hraised phase
        rwa [hadv] at hkeep
      apply h.charged ht
      · rfl
      · rfl
      · exact .inr ⟨hcap, hkeeps⟩
      · exact granted_charges_nothing
  | refuse i w phase c rest ht hadv =>
      have hcap : o.maxRunBytes ≠ 0 := h.capped i w phase (by rw [ht])
      apply h.refused
      · rw [ht, busyFor_append]
      · rfl
      · rfl
      · exact Budget.advance_refused hadv
      · exact hcap
  | perform i w rest ht => exact h.performed hopen ht

/-- With both sinks on and streams that can be created, in any order of steps
in which one task makes the `data` calls of each direction of a connection:
its stream was handed a prefix of the messages, the index holds a prefix of
them, and the index is behind by at most one. -/
theorem index_follows_raw (dp : Deps) (o : Options) (hraw : o.raw = true) (hjsonl : o.jsonl = true)
    (owner : Key → ι) (acts : List (Act ι))
    (howner : ∀ i e c msg, Act.call i e c ∈ acts → c.message e = some msg → i = owner msg.key)
    (hopen : ∀ k, ∀ msg ∈ messages k acts, (msg.env.io msg.key).headOpen = true)
    (m : Machine ι) (tr : List (List (Seen ι))) (h : (lts dp o).run new acts = some (m, tr))
    (k : Key) :
    ∃ i j, j ≤ i ∧ i ≤ j + 1 ∧ i ≤ (messages k acts).length ∧
      handed k tr.flatten = ((messages k acts).take i).flatMap Message.data ∧
      m.log.index k = ((messages k acts).take j).map (Message.entry dp o) := by
  have hfollows : Follows dp o (owner k) k acts m tr.flatten := by
    refine (lts dp o).run_induction (fun as u os => Follows dp o (owner k) k as u os.flatten)
      (follows_new dp o (owner k) k) ?_ h
    intro as a rest u os v out hacts _ hu hstep
    rw [List.flatten_append, List.flatten_singleton]
    apply hu.move hraw hjsonl (step_cases dp o hstep)
    · intro i e c ha msg hmsg hk
      subst ha hk
      have hmem : Act.call i e c ∈ acts := by
        rw [hacts]
        exact List.mem_append_right _ List.mem_cons_self
      exact howner i e c msg hmem hmsg
    · intro msg hmsg
      apply hopen k msg
      rw [hacts, messages_append]
      exact List.mem_append_left _ hmsg
  exact hfollows.stage.indices

def oneEntry : Deps where
  toJson _ := "\x7b\"ts\":\"1970-01-01T00:00:00.000Z\",\"ts_ms\":0,\"event\":\"data\"," ++
    "\"proto\":\"tcp\",\"listener\":\"tcp:0\",\"conn\":1,\"peer\":\"127.0.0.1:4000\"," ++
    "\"dir\":\"rx\",\"len\":2,\"data\":\"aGk=\"\x7d"
  encode _ := "aGk="
  classify _ := none
  iso8601 _ := "1970-01-01T00:00:00.000Z"

/-- One message, and all the steps of its task. -/
def oneMessage : List (Act (Fin 1)) :=
  .call 0 .quiet (.data .tcp "tcp:0" 1 "127.0.0.1:4000" .rx [104, 105] none) ::
    List.replicate 9 (.step 0)

/-- A cap that has room for the message and none for its entry. -/
theorem index_follows_raw_refused :
    ∃ m tr, (lts oneEntry ⟨true, true, 0, ⟨0, 0⟩, 100⟩).run new oneMessage = some (m, tr) ∧
      handed (1, .rx) tr.flatten = [104, 105] ∧ m.log.index (1, .rx) = [] ∧
      ∃ i j, j ≤ i ∧ i ≤ j + 1 ∧ i ≤ (messages (1, .rx) oneMessage).length ∧
        handed (1, .rx) tr.flatten =
          ((messages (1, .rx) oneMessage).take i).flatMap Message.data ∧
        m.log.index (1, .rx) = ((messages (1, .rx) oneMessage).take j).map
          (Message.entry oneEntry ⟨true, true, 0, ⟨0, 0⟩, 100⟩) := by
  have hrun : ∃ m tr, (lts oneEntry ⟨true, true, 0, ⟨0, 0⟩, 100⟩).run new oneMessage =
      some (m, tr) ∧ handed (1, .rx) tr.flatten = [104, 105] ∧ m.log.index (1, .rx) = [] := by
    have hsome : ((lts oneEntry ⟨true, true, 0, ⟨0, 0⟩, 100⟩).run new oneMessage).isSome = true ∧
        ((lts oneEntry ⟨true, true, 0, ⟨0, 0⟩, 100⟩).run new oneMessage).map (fun p =>
          (handed (1, .rx) p.2.flatten, p.1.log.index (1, .rx))) = some ([104, 105], []) := by
      decide +kernel
    obtain ⟨⟨m, tr⟩, hrun⟩ := Option.isSome_iff_exists.mp hsome.1
    have hseen := hsome.2
    rw [hrun, Option.map_some, Option.some.injEq, Prod.mk.injEq] at hseen
    exact ⟨m, tr, hrun, hseen⟩
  obtain ⟨m, tr, hrun, hhanded, hindex⟩ := hrun
  refine ⟨m, tr, hrun, hhanded, hindex, ?_⟩
  refine index_follows_raw oneEntry ⟨true, true, 0, ⟨0, 0⟩, 100⟩ rfl rfl (fun _ => 0) oneMessage
    ?_ ?_ m tr hrun (1, .rx)
  · intro i e c msg _ _
    exact Subsingleton.elim i 0
  · intro k msg hmsg
    have hquiet : msg.env = .quiet := by
      simp only [messages, oneMessage, List.mem_filter, List.mem_filterMap, List.mem_cons,
        List.mem_replicate] at hmsg
      obtain ⟨⟨a, rfl | ⟨_, rfl⟩, ha⟩, _⟩ := hmsg
      · exact (congrArg Message.env (Option.some.inj ha)).symm
      · cases ha
    rw [hquiet]
    rfl

end Machine

end KirbLaSnoop
