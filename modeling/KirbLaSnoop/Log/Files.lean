import Mathlib
import KirbLaSnoop.Log.Frame

/-!
# The raw files behind the stream table

While no I/O fails, every open stream is the state of `Stream.after` for some
history, and its head file is what an earlier stream left there followed by
the head of that history.
-/

namespace KirbLaSnoop

namespace Logger

variable (dp : Deps) (o : Options)

/-- The stream of the stem's key is open with the history `D`; its head file
holds `old` and then the head of `D`. -/
structure Backed (stem : Stem) (old D : List UInt8) (s : Logger) : Prop where
  stream : s.raw.get stem.key = some (Stream.after (.head stem) (.tail stem) o.streamLimits D)
  file : s.disk.get (.head stem) = some (old ++ Capture.headPart o.streamLimits.head.toNat D)

/-- The table knows no other stream of the stem's key. -/
theorem Backed.eq_after {stem : Stem} {old D : List UInt8} {s : Logger}
    (h : Backed o stem old D s) {k : Key} (hkey : stem.key = k) {st : Stream FileName}
    (hst : s.raw.get k = some st) :
    st = Stream.after (.head stem) (.tail stem) o.streamLimits D := by
  rw [← hkey] at hst
  exact Option.some.inj (hst.symm.trans h.stream)

/-- Every open stream is backed by its head file. -/
def Wf (s : Logger) : Prop :=
  ∀ k st, s.raw.get k = some st → ∃ stem old D, stem.key = k ∧ Backed o stem old D s

theorem wf_new : Wf o new := by
  intro k st h
  simp [new] at h

theorem Backed.congr {stem : Stem} {old D : List UInt8} {s t : Logger} (h : Backed o stem old D s)
    (hraw : t.raw = s.raw) (hdisk : t.disk = s.disk) : Backed o stem old D t :=
  ⟨hraw ▸ h.stream, hdisk ▸ h.file⟩

theorem Wf.congr {s t : Logger} (h : Wf o s) (hraw : t.raw = s.raw) (hdisk : t.disk = s.disk) :
    Wf o t := by
  intro k st hst
  obtain ⟨stem, old, D, hkey, hb⟩ := h k st (hraw ▸ hst)
  exact ⟨stem, old, D, hkey, hb.congr o hraw hdisk⟩

def wrote (stem : Stem) (old D : List UInt8) (first : Bool) (s : Logger) : Logger :=
  { s with
    raw := s.raw.set stem.key (Stream.after (.head stem) (.tail stem) o.streamLimits D)
    disk := s.disk.set (.head stem) (old ++ Capture.headPart o.streamLimits.head.toNat D)
    console := if first then s.console ++ [.streamCap stem.conn stem.dir] else s.console }

/-- Whether the bytes `data` after the history `D` first pass the head cap. -/
def passesCap (D data : List UInt8) : Bool :=
  decide (o.streamLimits.head.toNat ≠ 0 ∧ D.length ≤ o.streamLimits.head.toNat ∧
    o.streamLimits.head.toNat < (D ++ data).length)

theorem rawLocked_open {stem : Stem} {old D : List UInt8} {s : Logger} (h : Backed o stem old D s)
    (proto : Proto) (peer : String) (data : List UInt8) :
    s.rawLocked o .ok stem.conn proto peer stem.dir data =
      s.wrote o stem old (D ++ data) (passesCap o D data) := by
  have hstream : s.raw.get (stem.conn, stem.dir) =
      some (Stream.after (.head stem) (.tail stem) o.streamLimits D) := h.stream
  have hwrite := Stream.write_after (.head stem) (.tail stem) o.streamLimits s.disk old D data
  rw [Table.set_of_get_eq_some h.file] at hwrite
  simp only [rawLocked, hstream, hwrite]
  rfl

theorem rawLocked_vacant {conn : ℕ} {dir : Dir} {s : Logger} (h : s.raw.get (conn, dir) = none)
    (proto : Proto) (peer : String) (data : List UInt8) :
    s.rawLocked o .ok conn proto peer dir data =
      s.wrote o (Stem.of conn proto peer dir)
        (s.disk.contents (.head (Stem.of conn proto peer dir))) data (passesCap o [] data) := by
  have hwrite := Stream.write_after (.head (Stem.of conn proto peer dir))
    (.tail (Stem.of conn proto peer dir)) o.streamLimits s.disk
    (s.disk.contents (.head (Stem.of conn proto peer dir))) [] data
  simp only [rawLocked, h, Stream.create_eq_after, hwrite]
  rfl

theorem backed_wrote (stem : Stem) (old D : List UInt8) (first : Bool) (s : Logger) :
    Backed o stem old D (s.wrote o stem old D first) :=
  ⟨Table.get_set _ _ _, Table.get_set _ _ _⟩

theorem Backed.wrote_ne {stem stem' : Stem} {old old' D D' : List UInt8} {first : Bool}
    {s : Logger} (h : Backed o stem old D s) (hne : stem.key ≠ stem'.key) :
    Backed o stem old D (s.wrote o stem' old' D' first) := by
  have hfile : FileName.head stem ≠ FileName.head stem' := by
    intro heq
    exact hne (congrArg Stem.key (FileName.head.inj heq))
  exact ⟨(Table.get_set_ne _ _ hne).trans h.stream, (Table.get_set_ne _ _ hfile).trans h.file⟩

theorem Wf.wrote {s : Logger} (h : Wf o s) (stem : Stem) (old D : List UInt8) (first : Bool) :
    Wf o (s.wrote o stem old D first) := by
  intro k st hst
  by_cases hk : k = stem.key
  · exact ⟨stem, old, D, hk.symm, backed_wrote o stem old D first s⟩
  · have hget : s.raw.get k = some st := (Table.get_set_ne _ _ hk).symm.trans hst
    obtain ⟨stem', old', D', hkey, hb⟩ := h k st hget
    exact ⟨stem', old', D', hkey, hb.wrote_ne o (hkey ▸ hk)⟩

/-- What a locked write does to the files, whether or not it has to create
the stream. -/
theorem Wf.rawLocked_eq {s : Logger} (h : Wf o s) (conn : ℕ) (proto : Proto) (peer : String)
    (dir : Dir) (data : List UInt8) :
    ∃ stem old D, stem.key = (conn, dir) ∧
      s.rawLocked o .ok conn proto peer dir data =
        s.wrote o stem old (D ++ data) (passesCap o D data) ∧
      (Backed o stem old D s ∨
        s.raw.get (conn, dir) = none ∧ stem = Stem.of conn proto peer dir ∧ D = [] ∧
          old = s.disk.contents (.head stem)) := by
  cases hget : s.raw.get (conn, dir) with
  | none =>
      exact ⟨Stem.of conn proto peer dir, _, [], rfl, rawLocked_vacant o hget proto peer data,
        Or.inr ⟨rfl, rfl, rfl, rfl⟩⟩
  | some st =>
      obtain ⟨stem, old, D, hkey, hb⟩ := h _ st hget
      obtain ⟨hconn, hdir⟩ := Prod.mk.inj hkey
      subst hconn hdir
      exact ⟨stem, old, D, rfl, rawLocked_open o hb proto peer data, Or.inl hb⟩

/-! ## Finishing streams -/

def closed (stem : Stem) (D : List UInt8) (s : Logger) : Logger :=
  let tail := Capture.tailPart o.streamLimits.head.toNat o.streamLimits.tail D
  { s with
    raw := s.raw.remove stem.key
    disk := if tail = [] then s.disk else s.disk.set (.tail stem) tail }

/-- What is still open was open before, under another key. -/
theorem get_closed_eq_some {stem : Stem} {D : List UInt8} {s : Logger} {k : Key}
    {st : Stream FileName} :
    (s.closed o stem D).raw.get k = some st ↔ k ≠ stem.key ∧ s.raw.get k = some st := by
  constructor
  · intro hst
    have hk : k ≠ stem.key := by
      rintro rfl
      cases (Table.get_remove _ _).symm.trans hst
    exact ⟨hk, (Table.get_remove_ne _ hk).symm.trans hst⟩
  · rintro ⟨hk, hst⟩
    exact (Table.get_remove_ne _ hk).trans hst

theorem contents_closed_ne {stem stem' : Stem} (hne : stem'.key ≠ stem.key) (D : List UInt8)
    (s : Logger) : (s.closed o stem D).disk.contents (.tail stem') =
      s.disk.contents (.tail stem') := by
  have hfile : FileName.tail stem' ≠ FileName.tail stem := by
    intro heq
    exact hne (congrArg Stem.key (FileName.tail.inj heq))
  simp only [closed]
  split
  · rfl
  · simp only [Disk.contents, Table.get_set_ne _ _ hfile]

def closing (stem : Stem) (D : List UInt8) (s : Logger) : Finished :=
  let tail := Capture.tailPart o.streamLimits.head.toNat o.streamLimits.tail D
  { key := stem.key
    summary :=
      { total := D.length
        head := (Capture.headPart o.streamLimits.head.toNat D).length
        tail := tail.length
        dropped := Capture.lost o.streamLimits.head.toNat o.streamLimits.tail D
        tailPath := if tail = [] then none else some (.tail stem) }
    replaced := if tail = [] then 0 else (s.disk.contents (.tail stem)).length }

theorem finishAll_cons_backed {e : Env} (he : e.Good) {stem : Stem} {old D : List UInt8}
    {s : Logger} (h : Backed o stem old D s) (ks : List Key) :
    s.finishAll e (stem.key :: ks) =
      (closing o stem D s :: ((s.closed o stem D).finishAll e ks).1,
        ((s.closed o stem D).finishAll e ks).2) := by
  by_cases htail : Capture.tailPart o.streamLimits.head.toNat o.streamLimits.tail D = []
  · simp [finishAll, finishStream, h.stream, he stem.key, Stream.finish_after, closing, closed,
      htail]
  · simp [finishAll, finishStream, h.stream, he stem.key, Stream.finish_after, closing, closed,
      htail]

theorem Backed.closed_ne {stem stem' : Stem} {old D D' : List UInt8} {s : Logger}
    (h : Backed o stem old D s) (hne : stem.key ≠ stem'.key) :
    Backed o stem old D (s.closed o stem' D') := by
  refine ⟨(Table.get_remove_ne _ hne).trans h.stream, ?_⟩
  dsimp only [closed]
  split
  · exact h.file
  · exact (Table.get_set_ne _ _ (by simp)).trans h.file

theorem Wf.closed {s : Logger} (h : Wf o s) (stem : Stem) (D : List UInt8) :
    Wf o (s.closed o stem D) := by
  intro k st hst
  obtain ⟨hk, hget⟩ := (get_closed_eq_some o).mp hst
  obtain ⟨stem', old', D', hkey, hb⟩ := h k st hget
  exact ⟨stem', old', D', hkey, hb.closed_ne o (hkey ▸ hk)⟩

/-- The induction rule for finishing: a well-formed logger stays so, and what
one finished stream preserves, all of them preserve. -/
theorem finishAll_induction {e : Env} (he : e.Good) (I : Logger → List Finished → Prop)
    (hclose : ∀ s fs stem old D, Wf o s → Backed o stem old D s → I s fs →
      I (s.closed o stem D) (fs ++ [closing o stem D s]))
    {s : Logger} (hwf : Wf o s) {F : List Finished} (hs : I s F) (ks : List Key) :
    Wf o (s.finishAll e ks).2 ∧ I (s.finishAll e ks).2 (F ++ (s.finishAll e ks).1) := by
  induction ks generalizing s F with
  | nil => simpa [finishAll] using ⟨hwf, hs⟩
  | cons k ks ih =>
      cases hget : s.raw.get k with
      | none =>
          rw [finishAll_cons_none hget]
          exact ih hwf hs
      | some st =>
          obtain ⟨stem, old, D, rfl, hb⟩ := hwf k st hget
          rw [finishAll_cons_backed o he hb]
          simpa using ih (hwf.closed o stem D) (hclose s F stem old D hwf hb hs)

/-! ## Calls -/

theorem run_event_files (said : Option Finished) (ev : Event) (s : Logger) :
    ((Write.event said ev).run dp o s).raw = s.raw ∧
      ((Write.event said ev).run dp o s).disk = s.disk := by
  have hsay : ((Write.event said ev).say s).raw = s.raw ∧
      ((Write.event said ev).say s).disk = s.disk := by
    cases said <;> exact ⟨rfl, rfl⟩
  unfold Write.run
  dsimp only
  split
  · split
    · exact ⟨(charge_raw o _ _).trans hsay.1, (charge_disk o _ _).trans hsay.2⟩
    · exact ⟨(charge_raw o _ _).trans hsay.1, (charge_disk o _ _).trans hsay.2⟩
  · exact hsay

theorem foldl_run_event_files (ws : List Write) (hws : ∀ w ∈ ws, ∃ said ev, w = .event said ev)
    (s : Logger) :
    (ws.foldl (fun s w => w.run dp o s) s).raw = s.raw ∧
      (ws.foldl (fun s w => w.run dp o s) s).disk = s.disk := by
  induction ws generalizing s with
  | nil => exact ⟨rfl, rfl⟩
  | cons w ws ih =>
      obtain ⟨said, ev, rfl⟩ := hws w List.mem_cons_self
      obtain ⟨hraw, hdisk⟩ := run_event_files dp o said ev s
      obtain ⟨hraw', hdisk'⟩ := ih (fun w hw => hws w (List.mem_cons_of_mem _ hw))
        ((Write.event said ev).run dp o s)
      exact ⟨hraw'.trans hraw, hdisk'.trans hdisk⟩

/-- Only a data call writes to the raw files; every other call at most
finishes streams. -/
theorem exec_files_of_not_data (e : Env) (c : Call) (s : Logger)
    (hc : ∀ proto name conn peer dir bs rule, c ≠ .data proto name conn peer dir bs rule) :
    (s.exec dp o e c).raw = (s.finishAll e (c.finishes o)).2.raw ∧
      (s.exec dp o e c).disk = (s.finishAll e (c.finishes o)).2.disk := by
  have hws : ∀ w ∈ c.writes dp o e s, ∃ said ev, w = .event said ev := by
    intro w hw
    cases c with
    | data proto name conn peer dir bs rule => exact absurd rfl (hc _ _ _ _ _ _ _)
    | close proto name conn peer why =>
        rcases List.mem_append.mp hw with hw | hw
        · obtain ⟨f, _, rfl⟩ := List.mem_map.mp hw
          exact ⟨_, _, rfl⟩
        · exact ⟨_, _, List.mem_singleton.mp hw⟩
    | flush order => cases hw
    | _ => exact ⟨_, _, List.mem_singleton.mp hw⟩
  obtain ⟨console, hsettle⟩ := c.settle_eq_with o e s
  have hfiles := foldl_run_event_files dp o _ hws (c.settle o e s)
  rw [Call.exec_eq]
  rwa [hsettle] at hfiles ⊢

theorem exec_files_of_data (e : Env) (proto : Proto) (name : String) (conn : ℕ) (peer : String)
    (dir : Dir) (bs : List UInt8) (rule : Option String) (s : Logger) :
    (s.exec dp o e (.data proto name conn peer dir bs rule)).raw =
        (s.rawWrite o (e.io (conn, dir)) conn proto peer dir bs).raw ∧
      (s.exec dp o e (.data proto name conn peer dir bs rule)).disk =
        (s.rawWrite o (e.io (conn, dir)) conn proto peer dir bs).disk := by
  have h := run_event_files dp o none (dataEvent dp o e proto name conn peer dir bs rule)
    (s.rawWrite o (e.io (conn, dir)) conn proto peer dir bs)
  rwa [Write.run_event] at h

end Logger

end KirbLaSnoop
