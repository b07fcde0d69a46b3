import Mathlib
import KirbLaSnoop.Lib.Base64
import KirbLaSnoop.Listener.Summary
import KirbLaSnoop.Log.Replay

/-!
# From the wire to the event log

The event log alone gives back what the network has brought: message by
message, up to what still waits and what the run cap has cut off.
-/

namespace KirbLaSnoop

open Effect

namespace Process

variable {ι Addr : Type*} [DecidableEq ι] [DecidableEq Addr] {net : ι → Listener Addr}
  {dp : Deps} {o : Options} {p : Process ι Addr}

theorem passed_callsMade {acts : List (Act ι Addr)} {tr : List (List (Seen ι Addr))}
    (h : (lts net dp o).run (start net) acts = some (p, tr)) (k : Key) :
    passed k (callsMade net dp o acts) = logged k (happened tr.flatten) := by
  refine (flatMap_callsMade (Call.bytesFor k) (fun _ => rfl) h).trans ?_
  rw [logged]
  congr 1

/-- The index entries of a stream, in order, are its first messages: each with
its true length and with as much of it as the index holds. All of them are
there unless the run cap was hit, and with those that wait they make up what
the network has brought. -/
theorem wire_to_index (hjsonl : o.jsonl = true) (decode : String → Option (List UInt8))
    (hdecode : ∀ bs, decode (dp.encode bs) = some bs) (acts : List (Act ι Addr))
    (p : Process ι Addr) (tr : List (List (Seen ι Addr)))
    (h : (lts net dp o).run (start net) acts = some (p, tr)) (id : ℕ) (i : ι) (w : Owner Addr)
    (hw : (id, i, w) ∈ grants tr.flatten) (dir : Dir) (hin : dir = .rx ∨ (net i).Forwards) :
    ∃ msgs : List (List UInt8), ∃ j ≤ msgs.length,
      msgs.flatten ++ logged (id, dir) (p.pending (p.home id i)) =
          arrived net dp o (id, dir) acts ∧
        (p.log.index (id, dir)).map (fun ev => (ev.len, ev.payload decode)) =
          (msgs.take j).map (fun bs => (some bs.length, clip o.jsonlMaxData bs)) ∧
        (¬Logger.OverCap dp o (callsMade net dp o acts) → j = msgs.length) ∧
        (o.jsonlMaxData = 0 → p.log.replay decode (id, dir) = (msgs.take j).flatten) := by
  obtain ⟨n, hlog⟩ := log_run h
  obtain ⟨j, hj, hindex, hall⟩ := Logger.index_cut dp o hjsonl (id, dir) (callsMade net dp o acts)
  have hhere : p.log.index (id, dir) =
      ((messagesOf (id, dir) (callsMade net dp o acts)).take j).map (Message.entry dp o) := by
    rw [← hindex, hlog]
    rfl
  refine ⟨(messagesOf (id, dir) (callsMade net dp o acts)).map Message.data, j, ?_, ?_, ?_, ?_, ?_⟩
  · rwa [List.length_map]
  · rw [← logged_wire h hw hin, ← passed_callsMade h, ← flatMap_messagesOf, List.flatMap_def]
  · rw [hhere, List.map_map, ← List.map_take, List.map_map]
    apply List.map_congr_left
    intro msg _
    exact congrArg (Prod.mk _) (msg.payload_entry hdecode o)
  · intro hunder
    rw [hall hunder, List.length_map]
  · intro hfull
    rw [Logger.replay, hhere, ← List.map_take, List.flatMap_map, List.flatten_eq_flatMap,
      List.flatMap_map]
    congr 1
    funext msg
    rw [msg.payload_entry hdecode o, hfull, clip_zero]
    rfl

/-- A logger that encodes as the crate does. -/
def base64Deps : Deps := ⟨fun _ => "", Base64.encode, fun _ => none, fun _ => ""⟩

theorem wire_to_index_datagram :
    ∃ p tr, (lts quietUdp base64Deps ⟨true, true, 2, ⟨2, 0⟩, 0⟩).run (start quietUdp)
        firstDatagram = some (p, tr) ∧
      ∃ msgs : List (List UInt8), ∃ j ≤ msgs.length,
        msgs.flatten ++ logged (1, .rx) (p.pending (p.home 1 ())) =
            arrived quietUdp base64Deps ⟨true, true, 2, ⟨2, 0⟩, 0⟩ (1, .rx) firstDatagram ∧
          (p.log.index (1, .rx)).map (fun ev => (ev.len, ev.payload Base64.decode)) =
            (msgs.take j).map (fun bs => (some bs.length, clip 2 bs)) := by
  have hrun : ∃ p tr, (lts quietUdp base64Deps ⟨true, true, 2, ⟨2, 0⟩, 0⟩).run (start quietUdp)
      firstDatagram = some (p, tr) ∧ grants tr.flatten = [(1, (), .peer 7)] := ⟨_, _, rfl, rfl⟩
  obtain ⟨p, tr, hrun, hgrants⟩ := hrun
  obtain ⟨msgs, j, hj, harrived, hindex, -⟩ := wire_to_index rfl Base64.decode
    Base64.decode_encode firstDatagram p tr hrun 1 () (.peer 7) (hgrants ▸ List.mem_cons_self) .rx
    (.inl rfl)
  exact ⟨p, tr, hrun, msgs, j, hj, harrived, hindex⟩

end Process

end KirbLaSnoop
