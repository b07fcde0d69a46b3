import Mathlib
import KirbLaSnoop.Log.Frame

/-!
# The footprint of a logger

The bytes in the run directory and those that wait in a ring for a tail file.
Whatever I/O calls fail, an operation adds no more to them than it was handed.
-/

namespace KirbLaSnoop

namespace Disk

variable {P : Type*} [DecidableEq P]

theorem bytes_set (d : Disk P) (p : P) (bs : List UInt8) :
    Disk.bytes (d.set p bs) + (d.contents p).length = d.bytes + bs.length := by
  have h := Table.weight_set_add List.length d p bs
  have hold : (d.get p).elim 0 List.length = (d.contents p).length := by
    cases hget : d.get p <;> simp [contents, hget]
  rwa [hold] at h

theorem bytes_append (d : Disk P) (p : P) (bs : List UInt8) :
    (d.append p bs).bytes = d.bytes + bs.length := by
  have h := bytes_set d p (d.contents p ++ bs)
  rw [List.length_append] at h
  unfold append
  omega

theorem bytes_openAppend (d : Disk P) (p : P) : (d.openAppend p).bytes = d.bytes := by
  have h := bytes_set d p (d.contents p)
  unfold openAppend
  omega

theorem bytes_create_le (d : Disk P) (p : P) : (d.create p).bytes ≤ d.bytes := by
  have h := bytes_set d p []
  simp only [List.length_nil] at h
  unfold create
  omega

end Disk

namespace Stream

variable {P : Type*} [DecidableEq P]

theorem bytes_writeHead_le (s : Stream P) (io : Io) (d : Disk P) (bs : List UInt8) :
    (s.writeHead io d bs).bytes ≤ d.bytes + bs.length := by
  cases h : s.head with
  | none =>
      simp only [writeHead, h]
      omega
  | some p =>
      have hlen := io.headWrite.length_of_le bs
      simp only [writeHead, h, Disk.bytes_append]
      omega

omit [DecidableEq P] in
theorem length_tail_writeTail_le (s : Stream P) (rest : List UInt8) :
    (s.writeTail rest).2.tail.length ≤ s.tail.length + rest.length := by
  simp only [writeTail]
  split
  · exact Nat.le_add_right _ _
  · split
    · simp only [List.length_drop]
      omega
    · simp only [List.length_append, List.length_drop]
      omega

/-- A write adds at most its bytes to the files and the ring. -/
theorem held_write_le (s : Stream P) (io : Io) (d : Disk P) (data : List UInt8) :
    (s.write io d data).2.2.bytes + (s.write io d data).2.1.tail.length ≤
      d.bytes + s.tail.length + data.length := by
  simp only [write, writeOn]
  split
  · have hhead := bytes_writeHead_le { s with total := s.total + data.length } io d data
    dsimp only
    omega
  · generalize hroom : s.limits.head.toNat - s.headWritten = room
    generalize hn : (if room > 0 then min (room % 2 ^ 64) data.length else 0) = n
    have hd : (if room > 0 then
        writeHead { s with total := s.total + data.length } io d (data.take n)
        else d).bytes ≤ d.bytes + (data.take n).length := by
      split
      · exact bytes_writeHead_le _ io d _
      · exact Nat.le_add_right _ _
    have hcut : (data.take n).length + (data.drop n).length = data.length := by
      rw [← List.length_append, List.take_append_drop]
    split
    · dsimp only
      omega
    · have htail := length_tail_writeTail_le
        { s with total := s.total + data.length, headWritten := s.headWritten + n } (data.drop n)
      dsimp only at htail ⊢
      omega

theorem bytes_finish_le (s : Stream P) (io : Io) (d : Disk P) :
    (s.finish io d).2.bytes ≤ d.bytes + s.tail.length := by
  have hlen := io.tailWrite.length_of_le s.tail
  have hcreate := Disk.bytes_create_le d s.tailPath
  simp only [finish]
  split
  · rw [Disk.bytes_append]
    omega
  · exact Nat.le_add_right _ _

end Stream

namespace Logger

variable (dp : Deps) (o : Options)

def lines (s : Logger) : ℕ := (s.jsonl.map (lineBytes dp)).sum

def onDisk (s : Logger) : ℕ := s.lines dp + s.disk.bytes

def ring (s : Logger) : ℕ := Table.weight (fun st => st.tail.length) s.raw

def held (s : Logger) : ℕ := s.onDisk dp + s.ring

theorem held_congr {s t : Logger} (hjsonl : t.jsonl = s.jsonl) (hraw : t.raw = s.raw)
    (hdisk : t.disk = s.disk) : t.held dp = s.held dp := by
  simp only [held, onDisk, lines, ring, hjsonl, hraw, hdisk]

theorem held_emitLocked (ev : Event) (s : Logger) :
    (s.emitLocked ev).held dp = s.held dp + lineBytes dp ev := by
  simp only [held, onDisk, lines, ring, emitLocked, List.map_append, List.map_cons, List.map_nil,
    List.sum_append, List.sum_cons, List.sum_nil]
  omega

/-- A write to the stream of a slot, which may be a new one. -/
theorem held_written_le (io : Io) (k : Key) {st : Stream FileName} {d : Disk FileName}
    (data : List UInt8) {s : Logger}
    (hslot : (s.raw.get k).elim 0 (fun st => st.tail.length) = st.tail.length)
    (hd : d.bytes = s.disk.bytes) :
    s.lines dp + (st.write io d data).2.2.bytes +
        Table.weight (fun st => st.tail.length) (s.raw.set k (st.write io d data).2.1) ≤
      s.held dp + data.length := by
  have hwrite := st.held_write_le io d data
  have hset := Table.weight_set_add (fun st => st.tail.length) s.raw k (st.write io d data).2.1
  rw [hslot] at hset
  unfold held onDisk ring
  omega

theorem held_rawLocked_le (io : Io) (conn : ℕ) (proto : Proto) (peer : String) (dir : Dir)
    (data : List UInt8) (s : Logger) :
    (s.rawLocked o io conn proto peer dir data).held dp ≤ s.held dp + data.length := by
  cases hget : s.raw.get (conn, dir) with
  | some st =>
      have hslot : (s.raw.get (conn, dir)).elim 0 (fun st => st.tail.length) = st.tail.length := by
        rw [hget, Option.elim_some]
      simp only [rawLocked, hget]
      exact held_written_le dp io (conn, dir) data hslot rfl
  | none =>
      cases hcreate : Stream.create io (.head (Stem.of conn proto peer dir))
          (.tail (Stem.of conn proto peer dir)) o.streamLimits s.disk with
      | none =>
          simp only [rawLocked, hget, hcreate]
          exact (held_congr dp rfl rfl rfl).le.trans (Nat.le_add_right _ _)
      | some created =>
          obtain ⟨st, d⟩ := created
          have hfresh : st.tail = [] ∧ d.bytes = s.disk.bytes := by
            simp only [Stream.create, Option.ite_none_right_eq_some, Option.some.injEq,
              Prod.mk.injEq] at hcreate
            obtain ⟨_, rfl, rfl⟩ := hcreate
            exact ⟨rfl, Disk.bytes_openAppend _ _⟩
          have hslot : (s.raw.get (conn, dir)).elim 0 (fun st => st.tail.length) =
              st.tail.length := by
            rw [hget, Option.elim_none, hfresh.1, List.length_nil]
          simp only [rawLocked, hget, hcreate]
          exact held_written_le dp io (conn, dir) data hslot hfresh.2

theorem held_finishStream_le (io : Io) (k : Key) (st : Stream FileName) (s : Logger) :
    (s.finishStream io k st).2.held dp ≤ s.held dp + st.tail.length := by
  have hfinish := st.bytes_finish_le io s.disk
  simp only [finishStream, held, onDisk, lines, ring]
  omega

theorem held_finishAll_le (e : Env) (ks : List Key) (s : Logger) :
    (s.finishAll e ks).2.held dp ≤ s.held dp := by
  induction ks generalizing s with
  | nil => exact le_refl _
  | cons k ks ih =>
      cases hget : s.raw.get k with
      | none =>
          simp only [finishAll, hget]
          exact ih s
      | some st =>
          have hone := held_finishStream_le dp (e.io k) k st { s with raw := s.raw.remove k }
          have htaken : held dp { s with raw := s.raw.remove k } + st.tail.length = s.held dp := by
            simp only [held, onDisk, lines, ring,
              Table.weight_eq_add_remove (fun st => st.tail.length) hget]
            omega
          simp only [finishAll, hget]
          exact (ih _).trans (hone.trans htaken.le)

end Logger

end KirbLaSnoop
