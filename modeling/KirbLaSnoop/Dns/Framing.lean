import Mathlib
import KirbLaSnoop.Dns.Question

/-!
# Messages over tcp

A frame is a message with its length in front. The labels of a query are
limited, and so the length of a reply always fits the two bytes it has.
-/

namespace KirbLaSnoop

namespace Dns

def frame (m : List UInt8) : List UInt8 := toBe16 m.length.toUInt16 ++ m

theorem replyTcp_frame {m : List UInt8} (hm : m.length < 65536) (rest : List UInt8)
    (ans : Answer) : replyTcp (frame m ++ rest) ans = (reply m ans).map frame := by
  have hstart : Ahead (frame m ++ rest) 0 (toBe16 m.length.toUInt16 ++ (m ++ rest)) := by
    rw [← List.append_assoc]
    exact Ahead.start _
  have hbody : Ahead (frame m ++ rest) 2 (m ++ rest) := ahead_word hstart
  have hlen := hbody.length
  have hsum : (m ++ rest).length = m.length + rest.length := List.length_append
  have hslice : slice (frame m ++ rest) 2 (2 + min m.length ((frame m ++ rest).length - 2)) =
      some m := by
    rw [Nat.min_eq_left (by omega)]
    exact slice_ahead hbody
  unfold replyTcp
  simp only [be16_ahead hstart, Option.bind_eq_bind, Option.bind_some, toNat_toUInt16 hm, hslice]
  cases reply m ans <;> rfl

/-- A name has at most 128 labels of at most 64 bytes, and a record at most
28. -/
theorem length_reply_lt {msg out : List UInt8} {ans : Answer} (h : reply msg ans = some out) :
    out.length < 65536 := by
  cases hparse : parse msg with
  | none =>
      rw [reply_of_parse_none hparse] at h
      cases h
  | some q =>
      obtain ⟨name, hlabels, hquery⟩ := isQuery_of_parse hparse
      obtain ⟨out', hout', hlen⟩ := reply_of_parse hparse ans
      obtain rfl : out = out' := Option.some.inj (h.symm.trans hout')
      have hname : name.encode.length ≤ 64 * name.labels.length + 1 :=
        Labels.length_encode_le name.fits
      have hrecord := recordLen_le q ans
      rw [hlen, hquery.question]
      simp only [headerLen]
      omega

/-- Framing commutes with replying, and the length in front of a reply is the
length of the reply. -/
theorem replyTcp_framed (ans : Answer) :
    (∀ m rest : List UInt8, m.length < 65536 →
      replyTcp (frame m ++ rest) ans = (reply m ans).map frame) ∧
        ∀ b out : List UInt8, replyTcp b ans = some out →
          2 ≤ out.length ∧ ∃ declared, be16 out 0 = some declared ∧
            declared.toNat = out.length - 2 := by
  refine ⟨fun m rest hm => replyTcp_frame hm rest ans, ?_⟩
  intro b out h
  unfold replyTcp at h
  simp only [Option.bind_eq_bind, Option.bind_eq_some_iff, Option.some.injEq] at h
  obtain ⟨declared, -, body, -, inner, hinner, rfl⟩ := h
  have hlen := length_reply_lt hinner
  refine ⟨Nat.le_add_left 2 inner.length, inner.length.toUInt16, ?_, ?_⟩
  · exact be16_ahead (Ahead.start _)
  · exact toNat_toUInt16 hlen

end Dns

end KirbLaSnoop
