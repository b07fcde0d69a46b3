import Mathlib
import KirbLaSnoop.Log.Index
import KirbLaSnoop.Log.Stats

/-!
# Reading the event log back

The entries of one direction of a connection, in the order of the log, are its
messages. Decoding them gives the messages back, or as much of each as the
index holds.
-/

namespace KirbLaSnoop

/-- The bytes that an entry carries. -/
def Event.payload (decode : String → Option (List UInt8)) (ev : Event) : List UInt8 :=
  (ev.data.bind decode).getD []

/-- What an index of at most `n` bytes a message holds of it; 0 is no limit. -/
def clip (n : ℕ) (bs : List UInt8) : List UInt8 := if n > 0 ∧ bs.length > n then bs.take n else bs

theorem clip_zero (bs : List UInt8) : clip 0 bs = bs := if_neg (by omega)

/-- The messages of one direction of a connection. -/
def messagesOf (k : Key) (acts : List (Env × Call)) : List Message :=
  (acts.filterMap fun a => a.2.message a.1).filter fun msg => msg.key = k

theorem messagesOf_append_singleton (k : Key) (acts : List (Env × Call)) (a : Env × Call) :
    messagesOf k (acts ++ [a]) =
      messagesOf k acts ++ ((a.2.message a.1).filter fun msg => msg.key = k).toList := by
  cases h : a.2.message a.1 with
  | none => simp [messagesOf, h]
  | some msg => by_cases hk : msg.key = k <;> simp [messagesOf, h, hk, Option.filter]

theorem Call.flatMap_message (k : Key) (e : Env) (c : Call) :
    ((c.message e).filter fun msg => msg.key = k).toList.flatMap Message.data = c.bytesFor k := by
  cases c with
  | data proto name conn peer dir bs rule =>
      by_cases hk : (conn, dir) = k
      · simp [message, bytesFor, Message.key, Option.filter, hk]
      · simp [message, bytesFor, Message.key, Option.filter, hk]
  | _ => rfl

/-- The messages make up the bytes that were passed. -/
theorem flatMap_messagesOf (k : Key) (acts : List (Env × Call)) :
    (messagesOf k acts).flatMap Message.data = passed k acts := by
  induction acts using List.reverseRecOn with
  | nil => rfl
  | append_singleton acts a ih =>
      rw [messagesOf_append_singleton, List.flatMap_append, ih, Call.flatMap_message,
        passed_append_singleton]

theorem Message.payload_entry {dp : Deps} {decode : String → Option (List UInt8)}
    (hdecode : ∀ bs, decode (dp.encode bs) = some bs) (o : Options) (msg : Message) :
    (msg.entry dp o).payload decode = clip o.jsonlMaxData msg.data := by
  simp only [Event.payload, entry, Logger.dataEvent, Option.bind_some, hdecode, Option.getD_some,
    decide_eq_true_eq, clip]

/-- The entries among some writes are those of the writes for the direction. -/
theorem filter_entries (k : Key) (ws : List Write) :
    (ws.filterMap Write.entry).filter (Event.isDataOf k) =
      (ws.filter (Write.isFor k)).filterMap Write.entry := by
  induction ws with
  | nil => rfl
  | cons w ws ih =>
      cases w with
      | event said ev =>
          by_cases hev : ev.isDataOf k = true
          · simp [Write.entry, Write.isFor, hev, ih]
          · simp [Write.entry, Write.isFor, hev, ih]
      | raw io conn proto peer dir data =>
          have hnone : Write.entry (.raw io conn proto peer dir data) = none := rfl
          rw [List.filterMap_cons_none hnone, ih, List.filter_cons]
          split
          · exact (List.filterMap_cons_none hnone).symm
          · rfl

namespace Logger

variable (dp : Deps) (o : Options)

theorem index_exec (hjsonl : o.jsonl = true) (hcap : o.maxRunBytes = 0) (k : Key) (e : Env)
    (c : Call) (s : Logger) :
    (s.exec dp o e c).index k = s.index k ++
      ((c.message e).filter fun msg => msg.key = k).toList.map (Message.entry dp o) := by
  have hentries : ∀ m : Option Message, (m.elim [] fun msg =>
      [msg.raw, .event none (msg.entry dp o)]).filterMap Write.entry =
        m.toList.map (Message.entry dp o) := by
    intro m
    cases m <;> rfl
  rw [index, jsonl_exec dp o hjsonl hcap, List.filter_append, filter_entries, Call.filter_writes,
    hentries]
  rfl

/-- Without a cap the index is the messages. -/
theorem index_execAll (hjsonl : o.jsonl = true) (hcap : o.maxRunBytes = 0) (k : Key)
    (acts : List (Env × Call)) :
    (execAll dp o acts new).index k = (messagesOf k acts).map (Message.entry dp o) := by
  induction acts using List.reverseRecOn with
  | nil => rfl
  | append_singleton acts a ih =>
      rw [execAll_append_singleton, index_exec dp o hjsonl hcap, ih, messagesOf_append_singleton,
        List.map_append]

/-- With a cap it is the first of them, and all if the cap was not hit. -/
theorem index_cut (hjsonl : o.jsonl = true) (k : Key) (acts : List (Env × Call)) :
    ∃ j ≤ (messagesOf k acts).length,
      (execAll dp o acts new).index k = ((messagesOf k acts).take j).map (Message.entry dp o) ∧
        (¬OverCap dp o acts → j = (messagesOf k acts).length) := by
  have hprefix := (jsonl_prefix_uncapped dp o acts).filter (Event.isDataOf k)
  have hall := index_execAll dp o.uncapped hjsonl rfl k acts
  rw [← index, ← index, hall] at hprefix
  have hlength := hprefix.length_le
  rw [List.length_map] at hlength
  refine ⟨_, hlength, ?_, ?_⟩
  · rw [List.map_take]
    exact List.prefix_iff_eq_take.mp hprefix
  · intro hunder
    rw [index, jsonl_of_not_overCap dp o hunder, ← index, hall, List.length_map]

/-- The bytes that the event log gives back. -/
def replay (decode : String → Option (List UInt8)) (k : Key) (s : Logger) : List UInt8 :=
  (s.index k).flatMap (Event.payload decode)

end Logger

end KirbLaSnoop
