import Mathlib
import KirbLaSnoop.Log.Files
import KirbLaSnoop.Stream.Failure

/-!
# What a summary says when I/O has failed

The counters of a stream advance whatever its I/O calls answer. A summary
tells the truth about the disk only when every byte that is counted in the head
and every byte of the ring landed.
-/

namespace KirbLaSnoop

namespace Logger

variable (dp : Deps) (o : Options)

/-- A logger with one open stream. -/
def holding (stem : Stem) (st : Stream FileName) (d : Disk FileName) : Logger :=
  { new with raw := Table.set ∅ stem.key st, disk := d }

theorem emit_disk (ev : Event) (s : Logger) : (s.emit dp o ev).disk = s.disk := by
  rw [← Write.run_event]
  exact (run_event_files dp o none ev s).2

theorem mem_console_charge {x : Notice} {s : Logger} (h : x ∈ s.console) (n : ℕ) :
    x ∈ (s.charge o n).2.console := by
  unfold charge
  split
  · exact h
  · split
    · exact h
    · dsimp only
      split
      · exact List.mem_append_left _ h
      · exact h

theorem mem_console_emit {x : Notice} {s : Logger} (h : x ∈ s.console) (ev : Event) :
    x ∈ (s.emit dp o ev).console := by
  unfold emit
  split
  · exact h
  · have hcharged := mem_console_charge o h (lineBytes dp ev)
    dsimp only
    split
    · exact hcharged
    · exact hcharged

theorem finishAll_holding (e : Env) (stem : Stem) (st : Stream FileName) (d : Disk FileName) :
    ∃ f s, (holding stem st d).finishAll e [(stem.conn, .rx), (stem.conn, .tx)] = ([f], s) ∧
      f.key = stem.key ∧ f.summary = (st.finish (e.io stem.key) d).1 ∧
      s.disk = (st.finish (e.io stem.key) d).2 := by
  have hget : (holding stem st d).raw.get stem.key = some st := Table.get_set _ _ _
  have hother : ∀ k, k ≠ stem.key → (holding stem st d).raw.get k = none := by
    intro k hk
    exact (Table.get_set_ne _ _ hk).trans (Table.get_empty k)
  cases hdir : stem.dir with
  | rx =>
      have hkey : (stem.conn, Dir.rx) = stem.key := by rw [Stem.key, hdir]
      have htx : ((holding stem st d).raw.remove stem.key).get (stem.conn, Dir.tx) = none := by
        have hne : (stem.conn, Dir.tx) ≠ stem.key := by simp [Stem.key, hdir]
        exact (Table.get_remove_ne _ hne).trans (hother _ hne)
      rw [hkey, finishAll_cons_some hget]
      have hnone : (({ holding stem st d with
          raw := (holding stem st d).raw.remove stem.key }.finishStream (e.io stem.key) stem.key
            st).2.finishAll e [(stem.conn, Dir.tx)]).1 = [] := by
        rw [finishAll_cons_none htx]
        rfl
      refine ⟨_, _, congrArg (fun fs => (_ :: fs, _)) hnone, rfl, rfl, ?_⟩
      rw [finishAll_cons_none htx]
      rfl
  | tx =>
      have hkey : (stem.conn, Dir.tx) = stem.key := by rw [Stem.key, hdir]
      have hrx : (holding stem st d).raw.get (stem.conn, Dir.rx) = none :=
        hother _ (by simp [Stem.key, hdir])
      rw [finishAll_cons_none hrx, hkey, finishAll_cons_some hget]
      exact ⟨_, _, rfl, rfl, rfl, rfl⟩

/-- `close_raw` leaves the files as `finish` does, and speaks up when the
summary has dropped bytes in it. -/
theorem closeRaw_holding (hraw : o.raw = true) (e : Env) (name peer : String) (stem : Stem)
    (st : Stream FileName) (d : Disk FileName) :
    ((holding stem st d).closeRaw dp o e stem.conn stem.proto name peer).disk =
        (st.finish (e.io stem.key) d).2 ∧
      (st.dropped ≠ 0 →
        Notice.truncated stem.conn stem.dir (st.finish (e.io stem.key) d).1 ∈
          ((holding stem st d).closeRaw dp o e stem.conn stem.proto name peer).console) := by
  obtain ⟨f, s, hall, hkey, hsum, hdisk⟩ := finishAll_holding e stem st d
  have hdropped : f.summary.dropped = st.dropped := congrArg Summary.dropped hsum
  simp only [closeRaw, hraw, Bool.not_true, Bool.false_eq_true, if_false, hall, List.foldl_cons,
    List.foldl_nil, hdropped]
  by_cases hzero : st.dropped = 0
  · rw [if_pos hzero]
    exact ⟨hdisk, fun h => absurd hzero h⟩
  · rw [if_neg hzero]
    refine ⟨(emit_disk dp o _ _).trans hdisk, fun _ => mem_console_emit dp o ?_ _⟩
    rw [announce, hkey, hsum]
    exact List.mem_append_right _ (List.mem_singleton.mpr rfl)

/-- The summary of a finished stream agrees with the files, and a byte that
is missing from them has been reported. -/
structure Truthful (sum : Summary FileName) (stem : Stem) (s : Logger) : Prop where
  head : sum.head = (s.disk.contents (.head stem)).length
  tail : sum.tail = (s.disk.contents (.tail stem)).length
  tailPath : sum.tailPath.isSome = true ↔ s.disk.contents (.tail stem) ≠ []
  total : sum.total = sum.head + sum.tail + sum.dropped
  reported : (s.disk.contents (.head stem)).length + (s.disk.contents (.tail stem)).length <
      sum.total → Notice.truncated stem.conn stem.dir sum ∈ s.console

/-- One direction of a connection, from `create` to `close_raw`, leaves a
truthful summary. -/
def Tells (name peer : String) (stem : Stem) (chunks : List (Io × List UInt8)) (e : Env) : Prop :=
  ∃ st d, Stream.session (.head stem) (.tail stem) o.streamLimits chunks = some (st, d) ∧
    Truthful (st.finish (e.io stem.key) d).1 stem
      ((holding stem st d).closeRaw dp o e stem.conn stem.proto name peer)

/-- The files after a capture: what landed of the head, and of the ring if the
tail file could be created. -/
theorem finish_session {stem : Stem} {d : Disk FileName} {st : Stream FileName} (io : Io)
    (htailPath : st.tailPath = .tail stem) (htail : d.contents (.tail stem) = []) :
    (st.finish io d).2.contents (.head stem) = d.contents (.head stem) ∧
      (st.finish io d).2.contents (.tail stem) =
        (if io.tailCreate then io.tailWrite.of st.tail else []) ∧
      ((st.finish io d).1.tailPath.isSome = true ↔ st.tail ≠ [] ∧ io.tailCreate = true) := by
  by_cases hcreated : st.tail ≠ [] ∧ io.tailCreate = true
  · obtain ⟨hpath, hcontents⟩ := Stream.finish_of_created hcreated.1 hcreated.2 d
    refine ⟨?_, ?_, by simp [hpath, hcreated]⟩
    · rw [hcontents, if_neg (by simp [htailPath])]
    · rw [hcontents, if_pos htailPath.symm, if_pos hcreated.2]
  · obtain ⟨hpath, hdisk⟩ := Stream.finish_of_not_created hcreated d
    refine ⟨by rw [hdisk], ?_, by simp [hpath, hcreated]⟩
    rw [hdisk, htail]
    split
    · next hio =>
        have hnil : st.tail = [] := by
          by_contra hne
          exact hcreated ⟨hne, hio⟩
        rw [hnil, Landed.of_nil]
    · rfl

/-- The summary tells the truth if and only if all that it counts landed. -/
theorem truthful_iff (hraw : o.raw = true) (name peer : String) (stem : Stem)
    (chunks : List (Io × List UInt8)) (e : Env) :
    Tells dp o name peer stem chunks e ↔
      Stream.Lands o.streamLimits chunks (e.io stem.key) := by
  have hpaths : FileName.head stem ≠ FileName.tail stem := by simp
  obtain ⟨d, hsession, hhead, htail⟩ := Stream.session_eq_some hpaths o.streamLimits chunks
  have hlanded := Stream.length_headLanded_eq_iff o.streamLimits.head.toNat [] chunks
  have hparts := Capture.length_headPart_add_tailPart_add_lost o.streamLimits.head.toNat
    o.streamLimits.tail (Stream.handed chunks)
  obtain ⟨st, hst⟩ : ∃ st, st = Stream.after (FileName.head stem) (.tail stem) o.streamLimits
    (Stream.handed chunks) := ⟨_, rfl⟩
  obtain ⟨hdisk, hnotice⟩ := closeRaw_holding dp o hraw e name peer stem st d
  have htailPath : st.tailPath = .tail stem := by rw [hst, Stream.after]
  obtain ⟨hheadFile, htailFile, hpath⟩ := finish_session (e.io stem.key) htailPath htail
  have hring : st.tail = Capture.tailPart o.streamLimits.head.toNat o.streamLimits.tail
      (Stream.handed chunks) := by rw [hst, Stream.after]
  have hcounted : (st.finish (e.io stem.key) d).1.head =
      (Capture.headPart o.streamLimits.head.toNat (Stream.handed chunks)).length := by
    rw [hst, Stream.finish, Stream.after]
  have hdropped : st.dropped = Capture.lost o.streamLimits.head.toNat o.streamLimits.tail
      (Stream.handed chunks) := by rw [hst, Stream.after]
  have htotal : (st.finish (e.io stem.key) d).1.total = (Stream.handed chunks).length := by
    rw [hst, Stream.finish, Stream.after]
  rw [hhead] at hheadFile
  simp only [Capture.headPart_nil, List.length_nil, Nat.add_zero, List.nil_append] at hlanded
  rw [Tells, hsession, Stream.Lands, ← hlanded, ← hring, ← hst]
  rw [← hring] at hparts
  constructor
  · rintro ⟨_, _, heq, htells⟩
    obtain ⟨rfl, rfl⟩ := Prod.mk.inj (Option.some.inj heq)
    have hheadLen := htells.head
    have htailLen := htells.tail
    rw [hdisk, hheadFile, hcounted] at hheadLen
    rw [hdisk, htailFile] at htailLen
    refine ⟨hheadLen.symm, or_iff_not_imp_left.mpr fun hne => ?_⟩
    split at htailLen
    · next hio => exact ⟨hio, (Landed.of_eq_self_iff _ _).mpr htailLen.symm⟩
    · exact absurd (List.length_eq_zero_iff.mp htailLen) hne
  · rintro ⟨hheadLands, hringLands⟩
    have hfile : (if (e.io stem.key).tailCreate = true then (e.io stem.key).tailWrite.of st.tail
        else []) = st.tail := by
      rcases hringLands with hnil | ⟨hio, hwhole⟩
      · rw [hnil, Landed.of_nil, ite_self]
      · rw [if_pos hio, hwhole]
    rw [hfile] at htailFile
    refine ⟨st, d, rfl, ?_⟩
    constructor
    · rw [hdisk, hheadFile, hcounted, hheadLands]
    · rw [hdisk, htailFile]
      rfl
    · rw [hdisk, htailFile, hpath]
      refine ⟨And.left, fun hne => ⟨hne, ?_⟩⟩
      exact (hringLands.resolve_left hne).1
    · rw [htotal, hcounted, ← hparts, ← hdropped]
      rfl
    · rw [hdisk, hheadFile, htailFile, htotal]
      intro hlt
      exact hnotice (by omega)

/-- Three bytes of which one is head and one is tail, on a disk that works. -/
theorem truthful_iff_quiet :
    Tells .bare (.rawOnly ⟨1, 1⟩ 0) "tcp:0" "127.0.0.1:4000" (.of 1 .tcp "127.0.0.1:4000" .rx)
      [(.ok, [1, 2]), (.ok, [3])] .quiet :=
  (truthful_iff .bare (.rawOnly ⟨1, 1⟩ 0) rfl "tcp:0" "127.0.0.1:4000"
    (.of 1 .tcp "127.0.0.1:4000" .rx) [(.ok, [1, 2]), (.ok, [3])] .quiet).mpr
      ⟨⟨rfl, rfl, trivial⟩, Or.inr ⟨rfl, rfl⟩⟩

/-- One byte written to a full disk: the summary counts it in the head, and
nothing is reported. -/
theorem not_truthful :
    ¬ ∀ (dp : Deps) (o : Options), o.raw = true → ∀ (name peer : String) (stem : Stem)
      (chunks : List (Io × List UInt8)) (e : Env), Tells dp o name peer stem chunks e := by
  intro h
  obtain ⟨st, d, hsession, htells⟩ := h .bare (.rawOnly ⟨0, 0⟩ 0) rfl "tcp:0" "127.0.0.1:4000"
    (.of 1 .tcp "127.0.0.1:4000" .rx) [(⟨true, .upTo 0, true, .all⟩, [7])] .quiet
  have hcomputed : Stream.session (FileName.head (.of 1 .tcp "127.0.0.1:4000" .rx))
      (.tail (.of 1 .tcp "127.0.0.1:4000" .rx)) ⟨0, 0⟩ [(⟨true, .upTo 0, true, .all⟩, [7])] =
        some (Stream.after (.head (.of 1 .tcp "127.0.0.1:4000" .rx))
          (.tail (.of 1 .tcp "127.0.0.1:4000" .rx)) ⟨0, 0⟩ [7],
          Table.set ∅ (.head (.of 1 .tcp "127.0.0.1:4000" .rx)) []) := by
    decide +kernel
  obtain ⟨rfl, rfl⟩ := Prod.mk.inj (Option.some.inj (hcomputed.symm.trans hsession))
  exact absurd htells.head (by decide +kernel)

end Logger

end KirbLaSnoop
