import Mathlib
import KirbLaSnoop.Listener.Wire
import KirbLaSnoop.Listener.Replies
import KirbLaSnoop.Log.Console

/-!
# From the wire to the console

Every message is printed in one piece, so the console in hex is a capture too:
whatever the threads print between one another, the dumps give back what the
network has brought for each connection.
-/

namespace KirbLaSnoop

open Effect

/-- The bytes of the messages of a stream, of all those shown. -/
def shownFor (k : Key) (ms : List (Key × List UInt8)) : List UInt8 :=
  ms.flatMap fun m => if m.1 = k then m.2 else []

theorem shownFor_filter (k : Key) (ms : List (Key × List UInt8)) :
    shownFor k (ms.filter fun m => m.1 = k) = shownFor k ms := by
  induction ms with
  | nil => rfl
  | cons m ms ih =>
      unfold shownFor at ih ⊢
      by_cases hm : m.1 = k <;> simp [hm, ih]

namespace Effect

variable {Addr : Type*}

/-- What the console shows of an effect. -/
def shown : Effect Addr → Option (Key × List UInt8)
  | .call (.data _ _ conn _ dir bs _) => some ((conn, dir), bs)
  | _ => none

theorem shownFor_shown (k : Key) (es : List (Effect Addr)) :
    shownFor k (es.filterMap shown) = logged k es := by
  induction es with
  | nil => rfl
  | cons e es ih =>
      have hone : shownFor k (e.shown).toList = loggedFor k e := by
        cases e with
        | call c =>
            cases c with
            | data proto name conn peer dir bs rule => exact List.append_nil _
            | _ => rfl
        | _ => rfl
      change _ = loggedFor k e ++ logged k es
      rw [← hone, ← ih]
      cases hshown : e.shown with
      | none =>
          rw [List.filterMap_cons_none hshown]
          rfl
      | some m =>
          rw [List.filterMap_cons_some hshown]
          simp [shownFor]

end Effect

/-- The pieces show the messages of the effects: those of one stream in their
order, those of different streams in any. -/
def Prints {Addr : Type*} (pieces : List Piece) (es : List (Effect Addr)) : Prop :=
  ∀ k : Key, ((pieces.filterMap Piece.message).filter fun m => m.1 = k) =
    (es.filterMap shown).filter fun m => m.1 = k

namespace Process

variable {ι Addr : Type*} [DecidableEq ι] [DecidableEq Addr] {net : ι → Listener Addr}
  {dp : Deps} {o : Options}

/-- In every run, however the threads print between one another: what is read
back from a console in hex is, for every stream, what was logged of it, and
for one that the network brings what it has brought, but for what still waits
to be logged. -/
theorem wire_to_console (acts : List (Act ι Addr)) (p : Process ι Addr)
    (tr : List (List (Seen ι Addr))) (h : (lts net dp o).run (start net) acts = some (p, tr))
    (pieces : List Piece) (hprints : Prints pieces (happened tr.flatten))
    (hline : ∀ q ∈ pieces, q.OneLine Console.full dp.classify o.streamLimits)
    (hsize : ∀ q ∈ pieces, ∀ m, q.message = some m → m.2.length < 2 ^ 32) :
    let ms := Console.readBack (transcript Console.full dp.classify o.streamLimits pieces)
    (∀ k, shownFor k ms = logged k (happened tr.flatten)) ∧
      ∀ id i w, (id, i, w) ∈ grants tr.flatten → ∀ dir, dir = .rx ∨ (net i).Forwards →
        shownFor (id, dir) ms ++ logged (id, dir) (p.pending (p.home id i)) =
          arrived net dp o (id, dir) acts := by
  have hread : ∀ k, shownFor k (Console.readBack
      (transcript Console.full dp.classify o.streamLimits pieces)) =
        logged k (happened tr.flatten) := by
    intro k
    rw [readBack_transcript hline hsize, ← shownFor_filter, hprints k, shownFor_filter,
      shownFor_shown]
  refine ⟨hread, fun id i w hw dir hin => ?_⟩
  rw [hread]
  exact logged_wire h hw hin

/-- What is printed while a datagram is answered. -/
def echoedPieces : List Piece :=
  [.call 0 (.listening .udp "u" "l" "echo"), .call 0 (.openConn .udp "u" 1 "l" "7" none),
    .call 1 (.data .udp "u" 1 "7" .rx [1, 2] none),
    .call 2 (.data .udp "u" 1 "7" .tx [1, 2] (some "all"))]

theorem wire_to_console_echo :
    ∃ p tr, (lts echoUdp .bare (.rawOnly ⟨0, 0⟩ 0)).run (start echoUdp) echoed = some (p, tr) ∧
      shownFor (1, .rx) (Console.readBack
        (transcript Console.full Deps.bare.classify ⟨0, 0⟩ echoedPieces)) = [1, 2] := by
  have hrun : ∃ p tr, (lts echoUdp .bare (.rawOnly ⟨0, 0⟩ 0)).run (start echoUdp) echoed =
      some (p, tr) ∧
        (happened tr.flatten).filterMap shown = echoedPieces.filterMap Piece.message ∧
          logged (1, .rx) (happened tr.flatten) = [1, 2] :=
    ⟨_, _, rfl, rfl, rfl⟩
  obtain ⟨p, tr, hrun, hshown, hlogged⟩ := hrun
  have hprints : Prints echoedPieces (happened tr.flatten) := fun k => by rw [hshown]
  have hline : ∀ q ∈ echoedPieces, q.OneLine Console.full Deps.bare.classify ⟨0, 0⟩ := by
    simp only [echoedPieces, List.forall_mem_cons, List.not_mem_nil, false_implies, implies_true,
      and_true]
    refine ⟨?_, ?_, ?_, ?_⟩ <;> (rintro _ ⟨⟩; decide)
  have hsize : ∀ q ∈ echoedPieces, ∀ m, q.message = some m → m.2.length < 2 ^ 32 := by
    simp only [echoedPieces, List.forall_mem_cons, List.not_mem_nil, false_implies, implies_true,
      and_true]
    refine ⟨by rintro _ ⟨⟩, by rintro _ ⟨⟩, ?_, ?_⟩ <;> (rintro _ ⟨⟩; decide)
  have hall := wire_to_console echoed p tr hrun echoedPieces hprints hline hsize
  exact ⟨p, tr, hrun, (hall.1 (1, .rx)).trans hlogged⟩

end Process

end KirbLaSnoop
