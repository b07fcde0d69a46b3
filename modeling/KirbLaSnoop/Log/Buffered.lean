import Mathlib
import KirbLaSnoop.Lib.Appenders
import KirbLaSnoop.Stream.Failure
import KirbLaSnoop.Log.Files
import KirbLaSnoop.Log.Index

/-!
# The head files behind their writers

A stream writes its head through a `BufWriter`: bytes wait there for the file,
the last of them until the stream is finished, and a flush finishes its
streams outside the lock. Here the files and their writers go along with the
steps of the tasks, I/O errors apart. As long as no writer gets ahead of an
older one, a file and what is held for it are what `Logger` has in the file.
-/

namespace KirbLaSnoop

/-! ## What goes through a writer -/

namespace Stream

variable {P : Type*} [DecidableEq P]

/-- What `write` hands to the writer of the head file. -/
def headBytes (s : Stream P) (data : List UInt8) : List UInt8 :=
  if s.limits.unlimited then data
  else
    let room := s.limits.head.toNat - s.headWritten
    if room > 0 then data.take (min (room % 2 ^ 64) data.length) else []

omit [DecidableEq P] in
theorem headPart_append_headBytes (headPath tailPath : P) (limits : Limits) (D data : List UInt8) :
    Capture.headPart limits.head.toNat D ++
        (after headPath tailPath limits D).headBytes data =
      Capture.headPart limits.head.toNat (D ++ data) := by
  by_cases hH : limits.head.toNat = 0
  · have hunl : limits.unlimited = true := (unlimited_iff limits).mpr hH
    simp [headBytes, after, hunl, hH]
  · have hunl : limits.unlimited = false := by
      rw [← Bool.not_eq_true, unlimited_iff]
      exact hH
    have hlt : limits.head.toNat < 2 ^ 64 := limits.head.toNat_lt
    have hmod : (limits.head.toNat - D.length) % 2 ^ 64 = limits.head.toNat - D.length :=
      Nat.mod_eq_of_lt (by omega)
    rw [Capture.headPart_append hH]
    congr 1
    simp only [headBytes, after, hunl, Bool.false_eq_true, if_false,
      Capture.sub_length_headPart hH, hmod, ← List.take_eq_take_min]
    split
    · rfl
    · next hroom =>
        have hzero : limits.head.toNat - D.length = 0 := by omega
        rw [hzero, List.take_zero]

end Stream

variable {ι : Type*}

/-- The end of a stream, for its writer that is held by `h`. -/
def Stream.closes (h : Option ι) (stem : Stem) (st : Stream FileName) :
    List (AppendOp (Option ι) UInt8) :=
  if st.head = some (.head stem) then [.close h] else []

/-- What `rawLocked` does with the writers of the stem's head file. -/
def Logger.headOps (o : Options) (io : Io) (conn : ℕ) (proto : Proto) (peer : String) (dir : Dir)
    (data : List UInt8) (stem : Stem) (s : Logger) : List (AppendOp (Option ι) UInt8) :=
  let name := Stem.of conn proto peer dir
  let slot : Option (List (AppendOp (Option ι) UInt8) × Stream FileName) :=
    match s.raw.get (conn, dir) with
    | some st => some ([], st)
    | none => (Stream.create io (.head name) (.tail name) o.streamLimits s.disk).map fun p =>
        ([.create none], p.1)
  match slot with
  | none => []
  | some (created, st) =>
      if st.head = some (.head stem) then created ++ [.write none (st.headBytes data)] else []

/-- The tasks with the head files. A writer is held by the stream table, which
is `none`, or by the task that has taken its stream out of the table. -/
structure Buffered (ι : Type*) where
  machine : Machine ι
  file : Stem → AppendFile (Option ι) UInt8

namespace Machine

variable (o : Options)

/-- What an action does with the writers of the stem's head file. -/
def headOps (m : Machine ι) (stem : Stem) : Act ι → List (AppendOp (Option ι) UInt8)
  | .call i _ (.flush _) => [.pass fun h => some (h.getD i)]
  | .call _ _ c => ((c.finishes o).filterMap m.log.raw.get).flatMap (Stream.closes none stem)
  | .step i =>
      match m.task i with
      | ⟨none, .finish _ _ st :: _⟩ => st.closes (some i) stem
      | ⟨some (.granted (.raw io conn proto peer dir data)), _⟩ =>
          m.log.headOps o io conn proto peer dir data stem
      | _ => []

end Machine

namespace Buffered

variable [DecidableEq ι] (dp : Deps) (o : Options) (cap : ℕ)

def new : Buffered ι := ⟨.new, fun _ => ⟨[], []⟩⟩

/-- Tasks that take turns, their head files behind buffers of size `cap`. -/
def lts : Lts (Buffered ι) (Act ι) (List (Seen ι)) where
  step b a := ((Machine.lts dp o).step b.machine a).map fun p =>
    (⟨p.1, fun stem => (b.file stem).steps cap (b.machine.headOps o stem a)⟩, p.2)

theorem step_eq_some {b b' : Buffered ι} {a : Act ι} {seen : List (Seen ι)} :
    (lts dp o cap).step b a = some (b', seen) ↔
      ∃ m, (Machine.lts dp o).step b.machine a = some (m, seen) ∧
        b' = ⟨m, fun stem => (b.file stem).steps cap (b.machine.headOps o stem a)⟩ := by
  simp only [lts, Option.map_eq_some_iff, Prod.mk.injEq, Prod.exists]
  constructor
  · rintro ⟨m, seen', hstep, rfl, rfl⟩
    exact ⟨m, hstep, rfl⟩
  · rintro ⟨m, hstep, rfl⟩
    exact ⟨m, seen, hstep, rfl, rfl⟩

/-- The files are only looked on: the tasks run as they do without them. -/
theorem hosts : (lts dp o cap).Hosts (Machine.lts dp o) (machine (ι := ι)) some some := by
  intro b a b' seen h
  obtain ⟨m, hstep, rfl⟩ := (step_eq_some dp o cap).mp h
  exact .inr ⟨a, seen, rfl, rfl, hstep⟩

theorem run_machine {b b' : Buffered ι} {acts : List (Act ι)} {tr : List (List (Seen ι))}
    (h : (lts dp o cap).run b acts = some (b', tr)) :
    (Machine.lts dp o).run b.machine acts = some (b'.machine, tr) := by
  simpa using (hosts dp o cap).run h

/-- The action is in order for the writers of every head file. -/
def InOrder (b : Buffered ι) (a : Act ι) : Prop :=
  ∀ stem, (b.file stem).AllInOrder cap (b.machine.headOps o stem a)

/-! ## What a file and its writers hold -/

variable {dp o cap}

/-- The table has a stream that writes to the stem's head file. -/
def Writes (stem : Stem) (s : Logger) : Prop :=
  ∃ st, s.raw.get stem.key = some st ∧ st.head = some (.head stem)

/-- Raw writes find the disk as it should be. -/
def Fine : Write → Prop
  | .raw io _ _ _ _ _ => io = .ok
  | .event _ _ => True

/-- The files with their writers hold what the logger has in the files. -/
structure Agrees (o : Options) (b : Buffered ι) : Prop where
  wf : Logger.Wf o b.machine.log
  fine : ∀ i, ∀ w ∈ (b.machine.task i).writes, Fine w
  tails : ∀ i io k st, .finish io k st ∈ (b.machine.task i).todo →
    ∃ stem, st.tailPath = .tail stem
  disk : ∀ stem, b.machine.log.disk.contents (.head stem) = (b.file stem).content
  newest : ∀ stem, Writes stem b.machine.log → (b.file stem).Newest none
  absent : ∀ stem, ¬Writes stem b.machine.log → (b.file stem).Absent none

omit [DecidableEq ι] in
theorem agrees_new : Agrees o (new : Buffered ι) where
  wf := Logger.wf_new o
  fine i w hw := by cases hw
  tails i io k st h := by cases h
  disk stem := rfl
  newest stem h := by
    obtain ⟨st, hst, -⟩ := h
    cases hst
  absent stem _ w hw := by cases hw

theorem Writes.congr {stem : Stem} {s t : Logger} (hraw : t.raw = s.raw) :
    Writes stem t ↔ Writes stem s := by
  rw [Writes, Writes, hraw]

theorem writes_of_backed {stem : Stem} {old D : List UInt8} {s : Logger}
    (h : Logger.Backed o stem old D s) : Writes stem s :=
  ⟨_, h.stream, rfl⟩

/-- A stream of the key that writes elsewhere. -/
theorem not_writes_of_backed {stem stem' : Stem} {old D : List UInt8} {s : Logger}
    (h : Logger.Backed o stem' old D s) (hkey : stem.key = stem'.key) (hne : stem ≠ stem') :
    ¬Writes stem s := by
  rintro ⟨st, hst, hhead⟩
  rw [h.eq_after o hkey.symm hst] at hhead
  exact hne (FileName.head.inj (Option.some.inj hhead)).symm

variable {b : Buffered ι}

/-- A step of task `i` that leaves it with some of its writes. -/
theorem Agrees.put (h : Agrees o b) {i : ι} {log : Logger} {busy : Option Busy}
    {todo : List Job} {file : Stem → AppendFile (Option ι) UInt8} (hwf : Logger.Wf o log)
    (hfine : ∀ w ∈ Task.writes ⟨busy, todo⟩, Fine w)
    (htails : ∀ io k st, .finish io k st ∈ todo → ∃ stem, st.tailPath = .tail stem)
    (hdisk : ∀ stem, log.disk.contents (.head stem) = (file stem).content)
    (hnewest : ∀ stem, Writes stem log → (file stem).Newest none)
    (habsent : ∀ stem, ¬Writes stem log → (file stem).Absent none) :
    Agrees o ⟨b.machine.put i log busy todo, file⟩ where
  wf := hwf
  fine j := by
    by_cases hj : j = i
    · rw [hj, Machine.put_task]
      exact hfine
    · rw [Machine.put_task_ne _ hj]
      exact h.fine j
  tails j := by
    by_cases hj : j = i
    · rw [hj, Machine.put_task]
      exact htails
    · rw [Machine.put_task_ne _ hj]
      exact h.tails j
  disk := hdisk
  newest := hnewest
  absent := habsent

/-- A step that touches neither the streams nor the files. -/
theorem Agrees.quiet (h : Agrees o b) {i : ι} {t : Task} (log : Logger) (busy : Option Busy)
    {todo : List Job} (ht : b.machine.task i = t)
    (hops : ∀ stem, b.machine.headOps o stem (.step i) = [])
    (hraw : log.raw = b.machine.log.raw) (hdisk : log.disk = b.machine.log.disk)
    (hfine : ∀ w ∈ Task.writes ⟨busy, todo⟩, w ∈ t.writes)
    (htodo : ∀ job ∈ todo, job ∈ t.todo) :
    Agrees o ⟨b.machine.put i log busy todo,
      fun stem => (b.file stem).steps cap (b.machine.headOps o stem (.step i))⟩ := by
  subst ht
  simp only [hops]
  apply h.put (h.wf.congr o hraw hdisk) (fun w hw => h.fine i w (hfine w hw))
    (fun io k st hjob => h.tails i io k st (htodo _ hjob))
  · intro stem
    rw [hdisk]
    exact h.disk stem
  · intro stem hw
    exact h.newest stem ((Writes.congr hraw).mp hw)
  · intro stem hw
    exact h.absent stem fun hold => hw ((Writes.congr hraw).mpr hold)

/-! ## Calls -/

omit [DecidableEq ι] in
theorem closes_of_ne {h : Option ι} {stem : Stem} {st : Stream FileName}
    (hne : st.head ≠ some (.head stem)) : st.closes h stem = [] := if_neg hne

omit [DecidableEq ι] in
/-- Streams that do not write to the file leave its writers alone. -/
theorem flatMap_closes_eq_nil {s : Logger} (hwf : Logger.Wf o s) {ks : List Key} {stem : Stem}
    (hnot : stem.key ∈ ks → ¬Writes stem s) :
    (ks.filterMap s.raw.get).flatMap (Stream.closes (ι := ι) none stem) = [] := by
  rw [List.flatMap_eq_nil_iff]
  intro st hst
  obtain ⟨k, hk, hget⟩ := List.mem_filterMap.mp hst
  obtain ⟨stem', old, D, rfl, hb⟩ := hwf k st hget
  apply closes_of_ne
  intro hhead
  obtain rfl : stem' = stem := by
    rw [hb.eq_after o rfl hget] at hhead
    exact FileName.head.inj (Option.some.inj hhead)
  exact hnot hk (writes_of_backed hb)

omit [DecidableEq ι] in
theorem flatMap_closes_eq_singleton {s : Logger} (hwf : Logger.Wf o s) {ks : List Key}
    (hnodup : ks.Nodup) {stem : Stem} (hmem : stem.key ∈ ks) (hw : Writes stem s) :
    (ks.filterMap s.raw.get).flatMap (Stream.closes (ι := ι) none stem) = [.close none] := by
  obtain ⟨front, rest, rfl⟩ := List.append_of_mem hmem
  obtain ⟨st, hst, hhead⟩ := hw
  have hsplit := List.nodup_append.mp hnodup
  have hfront : stem.key ∉ front := fun hin => hsplit.2.2 _ hin _ List.mem_cons_self rfl
  have hrest : stem.key ∉ rest := (List.nodup_cons.mp hsplit.2.1).1
  rw [List.filterMap_append, List.flatMap_append, List.filterMap_cons_some hst,
    List.flatMap_cons, flatMap_closes_eq_nil hwf fun hin => absurd hin hfront,
    flatMap_closes_eq_nil hwf fun hin => absurd hin hrest, Stream.closes, if_pos hhead]
  rfl

/-- Finishing streams leaves all head files as they are. -/
theorem finishAll_head {s : Logger} (hwf : Logger.Wf o s) {e : Env} (he : e.Good)
    (ks : List Key) :
    Logger.Wf o (s.finishAll e ks).2 ∧
      ∀ stem, (s.finishAll e ks).2.disk.get (.head stem) = s.disk.get (.head stem) := by
  refine Logger.finishAll_induction o he
    (fun t _ => ∀ stem, t.disk.get (.head stem) = s.disk.get (.head stem)) ?_ hwf
    (F := []) (fun _ => rfl) ks
  intro t _ stem' old D _ _ ht stem
  rw [← ht stem]
  simp only [Logger.closed]
  split
  · rfl
  · rw [Table.get_set_ne _ _ (by simp)]

/-- So does finishing one stream, whose ring goes to a tail file. -/
theorem finishOne_head {st : Stream FileName} {stem' : Stem} (htail : st.tailPath = .tail stem')
    (io : Io) (k : Key) (s : Logger) :
    (s.finishOne io k st).raw = s.raw ∧
      ∀ stem, (s.finishOne io k st).disk.get (.head stem) = s.disk.get (.head stem) := by
  obtain ⟨console, hfinish⟩ := Logger.finishOne_eq io k st s
  rw [hfinish]
  refine ⟨rfl, ?_⟩
  intro stem
  have hne : FileName.head stem ≠ .tail stem' := by simp
  simp only [Logger.finishStream, Stream.finish, htail]
  split
  · simp only [Disk.append, Disk.create, Table.get_set_ne _ _ hne]
  · rfl

theorem fine_of_mem_writes (dp : Deps) (o : Options) {e : Env} (he : e.Good) {c : Call}
    {s : Logger} {w : Write} (hw : w ∈ c.writes dp o e s) : Fine w := by
  cases c with
  | data proto name conn peer dir bs rule =>
      simp only [Call.writes, List.mem_cons, List.not_mem_nil, or_false] at hw
      rcases hw with rfl | rfl
      · exact he (conn, dir)
      · trivial
  | close proto name conn peer why =>
      simp only [Call.writes, List.mem_append, List.mem_map, List.mem_singleton] at hw
      rcases hw with ⟨f, -, rfl⟩ | rfl
      · trivial
      · trivial
  | flush order => cases hw
  | _ =>
      rw [Call.writes, List.mem_singleton] at hw
      rw [hw]
      trivial

theorem finishes_nodup (o : Options) (c : Call) (hc : ∀ order, c ≠ .flush order) :
    (c.finishes o).Nodup := by
  cases c with
  | flush order => exact absurd rfl (hc order)
  | close proto name conn peer why =>
      rw [Call.finishes]
      split <;> simp
  | _ => exact List.nodup_nil

omit [DecidableEq ι] in
theorem headOps_call (m : Machine ι) (i : ι) (e : Env) {c : Call} (hc : ∀ order, c ≠ .flush order)
    (stem : Stem) : m.headOps o stem (.call i e c) =
      ((c.finishes o).filterMap m.log.raw.get).flatMap (Stream.closes none stem) := by
  cases c with
  | flush order => exact absurd rfl (hc order)
  | _ => rfl

omit [DecidableEq ι] in
/-- A call closes the writer of a stream it finishes. -/
theorem Agrees.headOps_closed (h : Agrees o b) (i : ι) (e : Env) {c : Call}
    (hc : ∀ order, c ≠ .flush order) {stem : Stem} (hmem : stem.key ∈ c.finishes o)
    (hw : Writes stem b.machine.log) : b.machine.headOps o stem (.call i e c) = [.close none] := by
  rw [headOps_call b.machine i e hc]
  exact flatMap_closes_eq_singleton h.wf (finishes_nodup o c hc) hmem hw

omit [DecidableEq ι] in
theorem Agrees.headOps_same (h : Agrees o b) (i : ι) (e : Env) {c : Call}
    (hc : ∀ order, c ≠ .flush order) {stem : Stem}
    (hnot : ¬(stem.key ∈ c.finishes o ∧ Writes stem b.machine.log)) :
    b.machine.headOps o stem (.call i e c) = [] := by
  rw [headOps_call b.machine i e hc]
  exact flatMap_closes_eq_nil h.wf fun hmem hw => hnot ⟨hmem, hw⟩

theorem Agrees.call (h : Agrees o b) {i : ι} {e : Env} (he : e.Good) {c : Call}
    (hc : ∀ order, c ≠ .flush order) (horder : b.InOrder o cap (.call i e c)) :
    Agrees o ⟨b.machine.put i (c.start dp o e b.machine.log).1 none
        (c.start dp o e b.machine.log).2,
      fun stem => (b.file stem).steps cap (b.machine.headOps o stem (.call i e c))⟩ := by
  have hstart : c.start dp o e b.machine.log =
      (c.settle o e b.machine.log, (c.writes dp o e b.machine.log).map .write) := by
    cases c with
    | flush order => exact absurd rfl (hc order)
    | _ => rfl
  obtain ⟨console, hsettle⟩ := c.settle_eq_with o e b.machine.log
  obtain ⟨hwf, hhead⟩ := finishAll_head h.wf he (c.finishes o)
  have hwrites : ∀ stem, Writes stem (c.settle o e b.machine.log) ↔
      stem.key ∉ c.finishes o ∧ Writes stem b.machine.log := by
    intro stem
    rw [hsettle, Writes, Writes]
    dsimp only
    rw [Logger.get_raw_finishAll]
    split
    · next hmem => simp [hmem]
    · next hmem => simp [hmem]
  rw [hstart]
  apply h.put
  · rw [hsettle]
    exact hwf.congr o rfl rfl
  · intro w hw
    simp only [Task.writes, Option.toList_none, List.map_nil, List.nil_append, List.mem_filterMap,
      List.mem_map] at hw
    obtain ⟨job, ⟨w', hw', rfl⟩, hjob⟩ := hw
    obtain rfl := Option.some.inj hjob
    exact fine_of_mem_writes dp o he hw'
  · intro io k st hjob
    obtain ⟨w, -, hw⟩ := List.mem_map.mp hjob
    cases hw
  · intro stem
    rw [hsettle]
    refine (congrArg (Option.getD · []) (hhead stem)).trans ((h.disk stem).trans ?_)
    by_cases hboth : stem.key ∈ c.finishes o ∧ Writes stem b.machine.log
    · have hin := horder stem
      rw [h.headOps_closed i e hc hboth.1 hboth.2] at hin ⊢
      exact (AppendFile.content_close hin.1).symm
    · rw [h.headOps_same i e hc hboth]
      rfl
  · intro stem hw
    obtain ⟨hmem, hold⟩ := (hwrites stem).mp hw
    rw [h.headOps_same i e hc fun hboth => hmem hboth.1]
    exact h.newest stem hold
  · intro stem hw
    by_cases hold : Writes stem b.machine.log
    · have hmem : stem.key ∈ c.finishes o := by
        by_contra hmem
        exact hw ((hwrites stem).mpr ⟨hmem, hold⟩)
      rw [h.headOps_closed i e hc hmem hold]
      exact (h.newest stem hold).close
    · rw [h.headOps_same i e hc fun hboth => hold hboth.2]
      exact h.absent stem hold

/-- A flush hands all writers of the table to the task that makes it. -/
theorem Agrees.flush (h : Agrees o b) (i : ι) (e : Env) (order : List Key) :
    Agrees o ⟨b.machine.put i ((Call.flush order).start dp o e b.machine.log).1 none
        ((Call.flush order).start dp o e b.machine.log).2,
      fun stem =>
        (b.file stem).steps cap (b.machine.headOps o stem (.call i e (.flush order)))⟩ := by
  have hjob : ∀ job ∈ ((Call.flush order).start dp o e b.machine.log).2,
      ∃ k st, b.machine.log.raw.get k = some st ∧ job = .finish (e.io k) k st := by
    intro job hjob
    obtain ⟨k, -, hk⟩ := List.mem_filterMap.mp hjob
    obtain ⟨st, hst, rfl⟩ := Option.map_eq_some_iff.mp hk
    exact ⟨k, st, hst, rfl⟩
  have hempty : ∀ stem, ¬Writes stem ((Call.flush order).start dp o e b.machine.log).1 := by
    rintro stem ⟨st, hst, -⟩
    cases hst
  apply h.put
  · intro k st hst
    cases hst
  · intro w hw
    simp only [Task.writes, Option.toList_none, List.map_nil, List.nil_append,
      List.mem_filterMap] at hw
    obtain ⟨job, hmem, hw⟩ := hw
    obtain ⟨k, st, -, rfl⟩ := hjob job hmem
    cases hw
  · intro io k st hmem
    obtain ⟨k', st', hst, heq⟩ := hjob _ hmem
    obtain ⟨-, rfl, rfl⟩ := Job.finish.inj heq
    obtain ⟨stem, old, D, hkey, hb⟩ := h.wf k st hst
    exact ⟨stem, by rw [hb.eq_after o hkey hst]; rfl⟩
  · intro stem
    exact (h.disk stem).trans (AppendFile.content_pass cap _ _).symm
  · intro stem hw
    exact absurd hw (hempty stem)
  · intro stem _
    exact AppendFile.absent_pass _ fun h' => Option.some_ne_none _

/-! ## Steps -/

/-- The end of a stream that a flush has taken from the table. -/
theorem Agrees.finish (h : Agrees o b) {i : ι} {io : Io} {k : Key} {st : Stream FileName}
    {rest : List Job} (ht : b.machine.task i = ⟨none, .finish io k st :: rest⟩)
    (horder : b.InOrder o cap (.step i)) :
    Agrees o ⟨b.machine.put i (b.machine.log.finishOne io k st) none rest,
      fun stem => (b.file stem).steps cap (b.machine.headOps o stem (.step i))⟩ := by
  obtain ⟨tailStem, htail⟩ := h.tails i io k st (by rw [ht]; exact List.mem_cons_self)
  obtain ⟨hraw, hhead⟩ := finishOne_head htail io k b.machine.log
  have hops : ∀ stem, b.machine.headOps o stem (.step i) = st.closes (some i) stem := by
    intro stem
    simp only [Machine.headOps, ht]
  have hfile : ∀ stem, ((b.file stem).steps cap (st.closes (some i) stem)).content =
        (b.file stem).content ∧
      ((b.file stem).Newest none →
        ((b.file stem).steps cap (st.closes (some i) stem)).Newest none) ∧
      ((b.file stem).Absent none →
        ((b.file stem).steps cap (st.closes (some i) stem)).Absent none) := by
    intro stem
    by_cases hself : st.head = some (.head stem)
    · have hin := horder stem
      rw [hops, Stream.closes, if_pos hself] at hin
      rw [Stream.closes, if_pos hself]
      exact ⟨AppendFile.content_close hin.1,
        fun hnew => hnew.close_ne (Option.some_ne_none i), fun hno => hno.close (some i)⟩
    · rw [closes_of_ne hself]
      exact ⟨rfl, id, id⟩
  simp only [hops]
  apply h.put
  · intro j st' hst'
    obtain ⟨stem, old, D, hkey, hb⟩ := h.wf j st' (hraw ▸ hst')
    exact ⟨stem, old, D, hkey, hraw ▸ hb.stream, (hhead stem).trans hb.file⟩
  · intro w hw
    apply h.fine i w
    rw [ht]
    exact hw
  · intro io' k' st' hjob
    exact h.tails i io' k' st' (by rw [ht]; exact List.mem_cons_of_mem _ hjob)
  · intro stem
    exact (congrArg (Option.getD · []) (hhead stem)).trans ((h.disk stem).trans (hfile stem).1.symm)
  · intro stem hw
    exact (hfile stem).2.1 (h.newest stem ((Writes.congr hraw).mp hw))
  · intro stem hw
    exact (hfile stem).2.2 (h.absent stem fun hold => hw ((Writes.congr hraw).mpr hold))

omit [DecidableEq ι] in
theorem headOps_backed {stem : Stem} {old D : List UInt8} {s : Logger}
    (h : Logger.Backed o stem old D s) (io : Io) (proto : Proto) (peer : String)
    (data : List UInt8) (stem' : Stem) :
    s.headOps (ι := ι) o io stem.conn proto peer stem.dir data stem' =
      if stem' = stem then
        [.write none
          ((Stream.after (FileName.head stem) (.tail stem) o.streamLimits D).headBytes data)]
      else [] := by
  have hstream : s.raw.get (stem.conn, stem.dir) =
      some (Stream.after (.head stem) (.tail stem) o.streamLimits D) := h.stream
  simp only [Logger.headOps, hstream, Stream.after, Option.some.injEq, FileName.head.injEq,
    @eq_comm _ stem, List.nil_append]

omit [DecidableEq ι] in
theorem headOps_vacant {conn : ℕ} {dir : Dir} {s : Logger} (h : s.raw.get (conn, dir) = none)
    (proto : Proto) (peer : String) (data : List UInt8) (stem' : Stem) :
    s.headOps (ι := ι) o .ok conn proto peer dir data stem' =
      if stem' = Stem.of conn proto peer dir then
        [.create none, .write none
          ((Stream.after (FileName.head stem') (.tail stem') o.streamLimits []).headBytes data)]
      else [] := by
  simp only [Logger.headOps, h, Stream.create_eq_after, Option.map_some]
  by_cases hstem : stem' = Stem.of conn proto peer dir
  · subst hstem
    simp [Stream.after]
  · have hne : Stem.of conn proto peer dir ≠ stem' := fun heq => hstem heq.symm
    simp [Stream.after, hstem, hne]

/-- A raw write goes to one head file, behind all that the file and its
writers hold. -/
theorem Agrees.written (h : Agrees o b) (conn : ℕ) (proto : Proto) (peer : String) (dir : Dir)
    (data : List UInt8)
    (horder : ∀ stem, (b.file stem).AllInOrder cap
      (b.machine.log.headOps o .ok conn proto peer dir data stem)) :
    ∃ stem old D, stem.key = (conn, dir) ∧
      b.machine.log.rawLocked o .ok conn proto peer dir data =
        b.machine.log.wrote o stem old (D ++ data) (Logger.passesCap o D data) ∧
      old ++ Capture.headPart o.streamLimits.head.toNat D = (b.file stem).content ∧
      (∀ stem', stem' ≠ stem → stem'.key = stem.key → ¬Writes stem' b.machine.log) ∧
      (∀ stem', stem' ≠ stem →
        b.machine.log.headOps (ι := ι) o .ok conn proto peer dir data stem' = []) ∧
      ((b.file stem).steps cap
        (b.machine.log.headOps o .ok conn proto peer dir data stem)).Newest none ∧
      ((b.file stem).steps cap
        (b.machine.log.headOps o .ok conn proto peer dir data stem)).content =
          old ++ Capture.headPart o.streamLimits.head.toNat (D ++ data) := by
  obtain ⟨stem, old, D, hkey, hlocked, hfile⟩ := h.wf.rawLocked_eq o conn proto peer dir data
  have hin := horder stem
  have hbytes := Stream.headPart_append_headBytes (FileName.head stem) (.tail stem)
    o.streamLimits D data
  rcases hfile with hb | ⟨hnone, rfl, rfl, hold⟩
  · obtain ⟨hconn, hdir⟩ := Prod.mk.inj hkey
    subst hconn hdir
    have hcontent : old ++ Capture.headPart o.streamLimits.head.toNat D =
        (b.file stem).content := by
      rw [← h.disk stem, Disk.contents, hb.file, Option.getD_some]
    have hnew := h.newest stem (writes_of_backed hb)
    refine ⟨stem, old, D, rfl, hlocked, hcontent, ?_, ?_, ?_⟩
    · intro stem' hne hkey'
      exact not_writes_of_backed hb hkey' hne
    · intro stem' hne
      rw [headOps_backed hb, if_neg hne]
    · rw [headOps_backed hb, if_pos rfl] at hin ⊢
      refine ⟨hnew.write _, ?_⟩
      exact (hnew.content_write hin.1).trans (by rw [← hcontent, List.append_assoc, hbytes])
  · have hempty : ∀ stem' : Stem, stem'.key = (conn, dir) → ¬Writes stem' b.machine.log := by
      rintro stem' hkey' ⟨st, hst, -⟩
      rw [hkey', hnone] at hst
      cases hst
    have hcontent : old ++ Capture.headPart o.streamLimits.head.toNat [] =
        (b.file (Stem.of conn proto peer dir)).content := by
      rw [← h.disk, hold, Capture.headPart_nil, List.append_nil]
    refine ⟨Stem.of conn proto peer dir, old, [], rfl, hlocked, hcontent, ?_, ?_, ?_⟩
    · intro stem' _ hkey'
      exact hempty stem' hkey'
    · intro stem' hne
      rw [headOps_vacant hnone, if_neg hne]
    · rw [headOps_vacant hnone, if_pos rfl] at hin ⊢
      have hnew : ((b.file (Stem.of conn proto peer dir)).step cap (.create none)).Newest none :=
        (h.absent (Stem.of conn proto peer dir) (hempty _ rfl)).create
      refine ⟨hnew.write _, ?_⟩
      refine (hnew.content_write hin.2.1).trans ?_
      rw [AppendFile.content_create, ← hcontent, List.append_assoc, hbytes]

theorem Agrees.perform (h : Agrees o b) {i : ι} {w : Write} {rest : List Job}
    (ht : b.machine.task i = ⟨some (.granted w), rest⟩) (horder : b.InOrder o cap (.step i)) :
    Agrees o ⟨b.machine.put i (w.perform o b.machine.log) none rest,
      fun stem => (b.file stem).steps cap (b.machine.headOps o stem (.step i))⟩ := by
  have hrest : ∀ v ∈ Task.writes ⟨none, rest⟩, v ∈ (b.machine.task i).writes := by
    intro v hv
    rw [ht]
    exact List.mem_append_right _ hv
  have htodo : ∀ job ∈ rest, job ∈ (b.machine.task i).todo := by
    intro job hjob
    rwa [ht]
  cases w with
  | event said ev =>
      exact h.quiet (b.machine.log.emitLocked ev) none rfl
        (fun stem => by simp only [Machine.headOps, ht]) rfl rfl hrest htodo
  | raw io conn proto peer dir data =>
      have hio : io = .ok := h.fine i (.raw io conn proto peer dir data) (by
        rw [ht]
        exact List.mem_cons_self)
      subst hio
      have hops : ∀ stem, b.machine.headOps o stem (.step i) =
          b.machine.log.headOps o .ok conn proto peer dir data stem := by
        intro stem
        simp only [Machine.headOps, ht]
      simp only [Buffered.InOrder, hops] at horder
      simp only [hops, Write.perform]
      obtain ⟨stem, old, D, hkey, hlocked, -, hvacant, hother, hnew, hcontent⟩ :=
        h.written conn proto peer dir data horder
      have hsame : ∀ stem', stem' ≠ stem →
          (Writes stem' (b.machine.log.wrote o stem old (D ++ data) (Logger.passesCap o D data)) ↔
            Writes stem' b.machine.log) := by
        intro stem' hne
        by_cases hkey' : stem'.key = stem.key
        · exact iff_of_false
            (not_writes_of_backed (Logger.backed_wrote o stem old _ _ _) hkey' hne)
            (hvacant stem' hne hkey')
        · simp only [Writes, Logger.wrote, Table.get_set_ne _ _ hkey']
      rw [hlocked]
      apply h.put (h.wf.wrote o stem old _ _) (fun v hv => h.fine i v (hrest v hv))
        (fun io' k st hjob => h.tails i io' k st (htodo _ hjob))
      · intro stem'
        by_cases hne : stem' = stem
        · subst hne
          rw [hcontent, Logger.wrote, Disk.contents_set]
        · have hfile : FileName.head stem' ≠ .head stem := fun heq => hne (FileName.head.inj heq)
          rw [hother stem' hne, Logger.wrote, Disk.contents_set_ne _ _ hfile]
          exact h.disk stem'
      · intro stem' hw
        by_cases hne : stem' = stem
        · subst hne
          exact hnew
        · rw [hother stem' hne]
          exact h.newest stem' ((hsame stem' hne).mp hw)
      · intro stem' hw
        by_cases hne : stem' = stem
        · subst hne
          exact absurd (writes_of_backed (Logger.backed_wrote o stem' old _ _ _)) hw
        · rw [hother stem' hne]
          exact h.absent stem' fun hold => hw ((hsame stem' hne).mpr hold)

/-- What one step preserves, if it is in order. -/
theorem Agrees.step (h : Agrees o b) {a : Act ι} (hgood : ∀ i e c, a = .call i e c → e.Good)
    (horder : b.InOrder o cap a) {b' : Buffered ι} {seen : List (Seen ι)}
    (hstep : (lts dp o cap).step b a = some (b', seen)) : Agrees o b' := by
  obtain ⟨m, hmachine, rfl⟩ := (step_eq_some dp o cap).mp hstep
  cases Machine.step_cases dp o hmachine with
  | call i e c hi hc =>
      by_cases hflush : ∃ order, c = .flush order
      · obtain ⟨order, rfl⟩ := hflush
        exact h.flush i e order
      · exact h.call (hgood i e c rfl) (fun order heq => hflush ⟨order, heq⟩) horder
  | finish i io k st rest ht => exact h.finish ht horder
  | skip i w rest ht hlive =>
      exact h.quiet (w.say b.machine.log) none ht
        (fun stem => by simp only [Machine.headOps, ht]) (w.raw_say _) (w.disk_say _)
        (fun v hv => List.mem_cons_of_mem w hv) (fun job hjob => List.mem_cons_of_mem _ hjob)
  | free i w rest ht hlive hcap =>
      exact h.quiet (w.say b.machine.log) (some (.granted w)) ht
        (fun stem => by simp only [Machine.headOps, ht]) (w.raw_say _) (w.disk_say _)
        (fun v hv => hv) (fun job hjob => List.mem_cons_of_mem _ hjob)
  | begin i w rest ht hlive hcap hstop =>
      exact h.quiet (w.say b.machine.log) (some (.charging w .adding)) ht
        (fun stem => by simp only [Machine.headOps, ht]) (w.raw_say _) (w.disk_say _)
        (fun v hv => hv) (fun job hjob => List.mem_cons_of_mem _ hjob)
  | turnedAway i w rest ht hlive hcap hstop =>
      exact h.quiet (w.say b.machine.log) none ht
        (fun stem => by simp only [Machine.headOps, ht]) (w.raw_say _) (w.disk_say _)
        (fun v hv => List.mem_cons_of_mem w hv) (fun job hjob => List.mem_cons_of_mem _ hjob)
  | advance i w phase phase' c rest ht hadv =>
      exact h.quiet (b.machine.log.withCounter c) (some (.charging w phase')) ht
        (fun stem => by simp only [Machine.headOps, ht]) rfl rfl (fun v hv => hv)
        (fun job hjob => hjob)
  | grant i w phase c rest ht hadv =>
      exact h.quiet (b.machine.log.withCounter c) (some (.granted w)) ht
        (fun stem => by simp only [Machine.headOps, ht]) rfl rfl (fun v hv => hv)
        (fun job hjob => hjob)
  | refuse i w phase c rest ht hadv =>
      exact h.quiet (b.machine.log.withCounter c) none ht
        (fun stem => by simp only [Machine.headOps, ht]) rfl rfl
        (fun v hv => List.mem_cons_of_mem w hv) (fun job hjob => hjob)
  | perform i w rest ht => exact h.perform ht horder

/-- In a run whose steps are all in order, the files with their writers hold
what the logger has in the files. -/
theorem agrees_run {acts : List (Act ι)} (hgood : ∀ i e c, .call i e c ∈ acts → e.Good)
    (horder : (lts dp o cap).Throughout new acts fun _ b a => b.InOrder o cap a)
    {tr : List (List (Seen ι))} (h : (lts dp o cap).run new acts = some (b, tr)) : Agrees o b := by
  refine (lts dp o cap).run_induction (fun _ b _ => Agrees o b) agrees_new ?_ h
  rintro as a rest u os v out rfl hrun hu hstep
  refine hu.step ?_ (horder as a rest u os rfl hrun) hstep
  rintro i e c rfl
  exact hgood i e c (List.mem_append_right _ List.mem_cons_self)

/-! ## Before the flush -/

/-- All writers are the table's, and none holds more than its buffer does. -/
def Own (cap : ℕ) (b : Buffered ι) : Prop :=
  ∀ stem, ∀ w ∈ (b.file stem).writers, w.holder = none ∧ w.buffer.length ≤ cap

omit [DecidableEq ι] in
theorem own_new (cap : ℕ) : Own cap (new : Buffered ι) := by
  intro stem w hw
  cases hw

omit [DecidableEq ι] in
/-- What an action that is no flush does with one head file: nothing, a
single operation, or the first write to a file that no stream has open. -/
theorem Agrees.headOps_shape (h : Agrees o b) {a : Act ι}
    (hflush : ∀ i e order, a ≠ .call i e (.flush order)) (stem : Stem) :
    b.machine.headOps o stem a = [] ∨
      (∃ j, b.machine.headOps o stem a = [.close j]) ∨
      (∃ bs, b.machine.headOps o stem a = [.write none bs]) ∨
      ∃ bs, b.machine.headOps o stem a = [.create none, .write none bs] ∧
        (b.file stem).Absent none := by
  cases a with
  | call i e c =>
      have hc : ∀ order, c ≠ .flush order := fun order hc => hflush i e order (hc ▸ rfl)
      by_cases hboth : stem.key ∈ c.finishes o ∧ Writes stem b.machine.log
      · exact .inr (.inl ⟨none, h.headOps_closed i e hc hboth.1 hboth.2⟩)
      · exact .inl (h.headOps_same i e hc hboth)
  | step i =>
      match ht : b.machine.task i with
      | ⟨none, []⟩ => exact .inl (by simp only [Machine.headOps, ht])
      | ⟨none, .write w :: rest⟩ => exact .inl (by simp only [Machine.headOps, ht])
      | ⟨some (.charging w phase), rest⟩ => exact .inl (by simp only [Machine.headOps, ht])
      | ⟨some (.granted (.event said ev)), rest⟩ =>
          exact .inl (by simp only [Machine.headOps, ht])
      | ⟨none, .finish io k st :: rest⟩ =>
          simp only [Machine.headOps, ht, Stream.closes]
          split
          · exact .inr (.inl ⟨some i, rfl⟩)
          · exact .inl rfl
      | ⟨some (.granted (.raw io conn proto peer dir data)), rest⟩ =>
          have hio : io = .ok := h.fine i (.raw io conn proto peer dir data) (by
            rw [ht]
            exact List.mem_cons_self)
          subst hio
          simp only [Machine.headOps, ht]
          obtain ⟨stem', old, D, hkey, -, hb | ⟨hnone, rfl, -⟩⟩ :=
            h.wf.rawLocked_eq o conn proto peer dir data
          · obtain ⟨hconn, hdir⟩ := Prod.mk.inj hkey
            subst hconn hdir
            rw [headOps_backed hb]
            split
            · exact .inr (.inr (.inl ⟨_, rfl⟩))
            · exact .inl rfl
          · rw [headOps_vacant hnone]
            split
            · next hstem =>
                subst hstem
                refine .inr (.inr (.inr ⟨_, rfl, h.absent _ ?_⟩))
                rintro ⟨st, hst, -⟩
                cases hnone.symm.trans hst
            · exact .inl rfl

omit [DecidableEq ι] in
/-- A file on which the table has no writer has none at all. -/
theorem Own.writers_eq_nil (hown : Own cap b) {stem : Stem} (habsent : (b.file stem).Absent none) :
    (b.file stem).writers = [] := by
  apply List.eq_nil_iff_forall_not_mem.mpr
  intro w hin
  exact habsent w hin (hown stem w hin).1

theorem Own.step_close {f : AppendFile (Option ι) UInt8}
    (hf : ∀ w ∈ f.writers, w.holder = none ∧ w.buffer.length ≤ cap) (j : Option ι) :
    ∀ w ∈ (f.step cap (.close j)).writers, w.holder = none ∧ w.buffer.length ≤ cap :=
  AppendFile.forall_writers_step hf (by simp) (by simp) (by simp)

theorem Own.step_write {f : AppendFile (Option ι) UInt8}
    (hf : ∀ w ∈ f.writers, w.holder = none ∧ w.buffer.length ≤ cap) (bs : List UInt8) :
    ∀ w ∈ (f.step cap (.write none bs)).writers, w.holder = none ∧ w.buffer.length ≤ cap := by
  refine AppendFile.forall_writers_step hf (by simp) ?_ (by simp)
  intro j bs' hop buf hbuf
  exact ⟨hbuf.1, BufWriter.length_writeAll_le cap hbuf.2 bs'⟩

theorem Own.step_create {f : AppendFile (Option ι) UInt8}
    (hf : ∀ w ∈ f.writers, w.holder = none ∧ w.buffer.length ≤ cap) :
    ∀ w ∈ (f.step cap (.create none)).writers, w.holder = none ∧ w.buffer.length ≤ cap := by
  refine AppendFile.forall_writers_step hf ?_ (by simp) (by simp)
  intro j hop
  exact ⟨(AppendOp.create.inj hop).symm, Nat.zero_le cap⟩

omit [DecidableEq ι] in
theorem Agrees.length_writers_le (h : Agrees o b) (hown : Own cap b) (stem : Stem) :
    (b.file stem).writers.length ≤ 1 := by
  by_cases hw : Writes stem b.machine.log
  · obtain ⟨older, buf, hwriters, holder⟩ := h.newest stem hw
    have hnil : older = [] := by
      apply List.eq_nil_iff_forall_not_mem.mpr
      intro w hin
      exact holder w hin (hown stem w (hwriters ▸ List.mem_append_left _ hin)).1
    rw [hwriters, hnil]
    exact le_refl 1
  · rw [hown.writers_eq_nil (h.absent stem hw)]
    exact Nat.zero_le 1

/-- Until there is a flush, every step is in order. -/
theorem Agrees.inOrder (h : Agrees o b) (hown : Own cap b) {a : Act ι}
    (hflush : ∀ i e order, a ≠ .call i e (.flush order)) : b.InOrder o cap a := by
  intro stem
  have hone := h.length_writers_le hown stem
  rcases h.headOps_shape hflush stem with hops | ⟨j, hops⟩ | ⟨bs, hops⟩ | ⟨bs, hops, habsent⟩
  · rw [hops]
    trivial
  · rw [hops]
    exact ⟨AppendFile.inOrder_of_length_le_one hone cap _, trivial⟩
  · rw [hops]
    exact ⟨AppendFile.inOrder_of_length_le_one hone cap _, trivial⟩
  · rw [hops]
    refine ⟨AppendFile.inOrder_of_length_le_one hone cap _,
      AppendFile.inOrder_of_length_le_one ?_ cap _, trivial⟩
    simp [AppendFile.step, AppendFile.effect, hown.writers_eq_nil habsent]

theorem Own.step (hown : Own cap b) (h : Agrees o b) {a : Act ι}
    (hflush : ∀ i e order, a ≠ .call i e (.flush order)) {b' : Buffered ι}
    {seen : List (Seen ι)} (hstep : (lts dp o cap).step b a = some (b', seen)) : Own cap b' := by
  obtain ⟨m, -, rfl⟩ := (step_eq_some dp o cap).mp hstep
  intro stem
  dsimp only
  rcases h.headOps_shape hflush stem with hops | ⟨j, hops⟩ | ⟨bs, hops⟩ | ⟨bs, hops, -⟩
  · rw [hops]
    exact hown stem
  · rw [hops]
    exact Own.step_close (hown stem) j
  · rw [hops]
    exact Own.step_write (hown stem) bs
  · rw [hops]
    exact Own.step_write (Own.step_create (hown stem)) bs

/-- Until there is a flush, the files with their writers hold what the logger
has in the files. -/
theorem agrees_run_of_noFlush {acts : List (Act ι)}
    (hgood : ∀ i e c, .call i e c ∈ acts → e.Good)
    (hflush : ∀ i e order, .call i e (.flush order) ∉ acts) {tr : List (List (Seen ι))}
    (h : (lts dp o cap).run new acts = some (b, tr)) : Agrees o b ∧ Own cap b := by
  refine (lts dp o cap).run_induction (fun _ b _ => Agrees o b ∧ Own cap b)
    ⟨agrees_new, own_new cap⟩ ?_ h
  rintro as a rest u os v out rfl hrun ⟨hagrees, hown⟩ hstep
  have ha : a ∈ as ++ a :: rest := List.mem_append_right _ List.mem_cons_self
  have hno : ∀ i e order, a ≠ .call i e (.flush order) := by
    rintro i e order rfl
    exact hflush i e order ha
  refine ⟨hagrees.step ?_ (hagrees.inOrder hown hno) hstep, hown.step hagrees hno hstep⟩
  rintro i e c rfl
  exact hgood i e c ha

omit [DecidableEq ι] in
/-- The file lacks no more than a buffer, and nothing once it has no writer. -/
theorem Agrees.exists_buffer (h : Agrees o b) (hown : Own cap b) (stem : Stem) :
    ∃ buf, buf.length ≤ cap ∧
      (b.file stem).onDisk ++ buf = b.machine.log.disk.contents (.head stem) ∧
      (¬Writes stem b.machine.log → buf = []) := by
  have hone := h.length_writers_le hown stem
  rw [h.disk stem, AppendFile.content]
  rcases hwriters : (b.file stem).writers with _ | ⟨w, ws⟩
  · exact ⟨[], Nat.zero_le cap, rfl, fun _ => rfl⟩
  · rw [hwriters, List.length_cons] at hone
    obtain rfl := List.length_eq_zero_iff.mp (Nat.le_zero.mp (Nat.le_of_succ_le_succ hone))
    have hw := hown stem w (hwriters ▸ List.mem_cons_self)
    refine ⟨w.buffer, hw.2, by simp, ?_⟩
    intro hnot
    cases hwriters.symm.trans (hown.writers_eq_nil (h.absent stem hnot))

end Buffered

end KirbLaSnoop
