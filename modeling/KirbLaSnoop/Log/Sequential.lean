import Mathlib
import KirbLaSnoop.Log.Captured
import KirbLaSnoop.Log.RawPrefix
import KirbLaSnoop.Log.Share

/-!
# Calls one after the other, and the flush

One task that makes its calls in turn does what the sequential logger does, and
what is on disk lacks no more than the buffers of the streams that are open.
After the flush it lacks nothing: whatever the table had, the flush finishes.
-/

namespace KirbLaSnoop

variable {ι : Type*} {dp : Deps} {o : Options} {cap : ℕ}

theorem callsMade_append (acts acts' : List (Act ι)) :
    callsMade (acts ++ acts') = callsMade acts ++ callsMade acts' := List.filterMap_append

theorem callsMade_steps (n : ℕ) (i : ι) : callsMade (List.replicate n (.step i)) = [] := by
  simp [callsMade]

theorem mem_callsMade {acts : List (Act ι)} {i : ι} {e : Env} {c : Call}
    (h : .call i e c ∈ acts) : (e, c) ∈ callsMade acts :=
  List.mem_filterMap.mpr ⟨_, h, rfl⟩

namespace Buffered

variable [DecidableEq ι]

/-- What the tasks can do, they can do with the files behind them. -/
theorem exists_run (cap : ℕ) {b : Buffered ι} {acts : List (Act ι)} {m : Machine ι}
    {tr : List (List (Seen ι))} (h : (Machine.lts dp o).run b.machine acts = some (m, tr)) :
    ∃ b', (lts dp o cap).run b acts = some (b', tr) ∧ b'.machine = m := by
  induction acts generalizing b tr with
  | nil =>
      obtain ⟨rfl, rfl⟩ := (Machine.lts dp o).run_nil_eq_some.mp h
      exact ⟨b, rfl, rfl⟩
  | cons a acts ih =>
      obtain ⟨u, seen, os, hstep, hrest, rfl⟩ := (Machine.lts dp o).run_cons_eq_some.mp h
      have hbuffered := (step_eq_some dp o cap).mpr ⟨u, hstep, rfl⟩
      obtain ⟨b', hrun, hmachine⟩ := @ih ⟨u, _⟩ os hrest
      exact ⟨b', (lts dp o cap).run_cons_eq_some.mpr ⟨_, seen, os, hbuffered, hrun, rfl⟩, hmachine⟩

/-- The calls, made by one task, one after the other, have led to these files
and writers. -/
def Leaves (dp : Deps) (o : Options) (cap : ℕ) (calls : List (Env × Call))
    (b : Buffered Unit) : Prop :=
  ∃ acts tr, (lts dp o cap).run new acts = some (b, tr) ∧ callsMade acts = calls ∧
    b.machine.task () = .idle

/-- One more call. -/
theorem Leaves.call {calls : List (Env × Call)} {b : Buffered Unit}
    (h : Leaves dp o cap calls b) (e : Env) {c : Call} (hc : c.Possible b.machine.log) :
    ∃ b' n tr, (lts dp o cap).run b (.call () e c :: List.replicate n (.step ())) = some (b', tr) ∧
      Leaves dp o cap (calls ++ [(e, c)]) b' ∧
      b'.machine = ⟨b.machine.log.exec dp o e c, b.machine.task⟩ := by
  obtain ⟨acts, tr, hrun, hcalls, hidle⟩ := h
  have hsolo : ∃ m, (Machine.lts dp o).step b.machine (.call () e c) = some (m, []) ∧
      Machine.Solo dp o () m ⟨b.machine.log.exec dp o e c, b.machine.task⟩ :=
    Machine.solo_call hidle hc
  obtain ⟨m, hstep, n, os, hsteps⟩ := hsolo
  have hmachine := (Machine.lts dp o).run_cons_eq_some.mpr ⟨m, [], os, hstep, hsteps, rfl⟩
  obtain ⟨b', hmore, hm⟩ := exists_run cap hmachine
  refine ⟨b', n, [] :: os, hmore, ⟨acts ++ .call () e c :: List.replicate n (.step ()),
    tr ++ [] :: os, ?_, ?_, ?_⟩, hm⟩
  · exact (lts dp o cap).run_append_eq_some.mpr ⟨b, tr, _, hrun, hmore, rfl⟩
  · rw [callsMade_append, hcalls]
    exact congrArg (fun calls' => calls ++ (e, c) :: calls') (callsMade_steps n ())
  · rw [hm]
    exact hidle

theorem exists_leaves (cap : ℕ) (calls : List (Env × Call))
    (hflush : ∀ a ∈ calls, ∀ order, a.2 ≠ .flush order) :
    ∃ b, Leaves dp o cap calls b ∧ b.machine.log = Logger.execAll dp o calls .new := by
  induction calls using List.reverseRecOn with
  | nil => exact ⟨new, ⟨[], [], rfl, rfl, rfl⟩, rfl⟩
  | append_singleton calls a ih =>
      obtain ⟨b, hleaves, hlog⟩ := ih fun a' ha' => hflush a' (List.mem_append_left _ ha')
      have hposs : a.2.Possible b.machine.log := by
        intro order horder
        exact absurd horder (hflush a (List.mem_append_right _ List.mem_cons_self) order)
      obtain ⟨b', -, -, -, hleaves', hm⟩ := hleaves.call a.1 hposs
      refine ⟨b', hleaves', ?_⟩
      rw [hm, hlog, Logger.execAll, Logger.execAll, List.foldl_append]
      rfl

theorem Leaves.agrees {calls : List (Env × Call)} {b : Buffered Unit}
    (h : Leaves dp o cap calls b) (hgood : ∀ a ∈ calls, a.1.Good)
    (hflush : ∀ a ∈ calls, ∀ order, a.2 ≠ .flush order) : Agrees o b ∧ Own cap b := by
  obtain ⟨acts, tr, hrun, rfl, -⟩ := h
  exact agrees_run_of_noFlush (fun i e c hmem => hgood _ (mem_callsMade hmem))
    (fun i e order hmem => hflush _ (mem_callsMade hmem) order rfl) hrun

/-- On disk the head files of `k` lack at most what one buffer holds, and
nothing once the stream has ended. -/
def Lags (cap : ℕ) (k : Key) (ended : Bool) (s : Logger) (b : Buffered ι) : Prop :=
  ∀ stem, stem.key = k → ∃ buf, buf.length ≤ cap ∧
    (b.file stem).onDisk ++ buf = s.disk.contents (.head stem) ∧ (ended = true → buf = [])

omit [DecidableEq ι] in
theorem not_writes_of_keeps {k : Key} {P : List UInt8} {s : Logger}
    (h : Logger.Keeps o k P true s) {stem : Stem} (hkey : stem.key = k) : ¬Writes stem s := by
  obtain ⟨stem', D, hkey', hcaptures, -⟩ := h
  rintro ⟨st, hst, -⟩
  have hnone := hcaptures.stream
  rw [hkey', ← hkey, hst, if_pos (.inr rfl)] at hnone
  cases hnone

theorem exists_lags (cap : ℕ) {calls : List (Env × Call)} (hgood : ∀ a ∈ calls, a.1.Good)
    (hflush : ∀ a ∈ calls, ∀ order, a.2 ≠ .flush order) {k : Key} {P : List UInt8} {ended : Bool}
    (hkeeps : Logger.Keeps o k P ended (Logger.execAll dp o calls .new)) :
    ∃ b, Leaves dp o cap calls b ∧ b.Lags cap k ended (Logger.execAll dp o calls .new) := by
  obtain ⟨b, hleaves, hlog⟩ := exists_leaves cap calls hflush
  obtain ⟨hagrees, hown⟩ := hleaves.agrees hgood hflush
  refine ⟨b, hleaves, ?_⟩
  intro stem hkey
  obtain ⟨buf, hlen, hfile, hempty⟩ := hagrees.exists_buffer hown stem
  rw [hlog] at hfile hempty
  refine ⟨buf, hlen, hfile, ?_⟩
  rintro rfl
  exact hempty (not_writes_of_keeps hkeeps hkey)

/-! ## The flush -/

/-- While task `i` finishes what its flush has found: every file has at most
one writer, which is that of a stream still to be finished. -/
structure Draining (o : Options) (i : ι) (b : Buffered ι) : Prop where
  agrees : Agrees o b
  busy : (b.machine.task i).busy = none
  jobs : ∀ job ∈ (b.machine.task i).todo, ∃ io k st, job = .finish io k st
  one : ∀ stem, (b.file stem).writers.length ≤ 1
  owed : ∀ stem, ∀ w ∈ (b.file stem).writers, w.holder = some i ∧
    ∃ io k st, .finish io k st ∈ (b.machine.task i).todo ∧ st.head = some (.head stem)

theorem Draining.start {b b' : Buffered ι} {i : ι} {e : Env} {order : List Key}
    {seen : List (Seen ι)} (h : Agrees o b) (hown : Own cap b) (he : e.Good)
    (hstep : (lts dp o cap).step b (.call i e (.flush order)) = some (b', seen)) :
    Draining o i b' := by
  have hin : b.InOrder o cap (.call i e (.flush order)) := fun _ => And.intro trivial trivial
  have hagrees : Agrees o b' := by
    refine h.step ?_ hin hstep
    intro i' e' c heq
    obtain ⟨-, rfl, -⟩ := Act.call.inj heq
    exact he
  obtain ⟨m, hmachine, rfl⟩ := (step_eq_some dp o cap).mp hstep
  cases Machine.step_cases dp o hmachine with
  | call _ _ _ hidle hc =>
      have htask := Machine.put_task b.machine i ((Call.flush order).start dp o e b.machine.log).1
        none ((Call.flush order).start dp o e b.machine.log).2
      refine ⟨hagrees, ?_, ?_, ?_, ?_⟩
      · rw [htask]
      · intro job hjob
        rw [htask] at hjob
        obtain ⟨k, -, hk⟩ := List.mem_filterMap.mp hjob
        obtain ⟨st, -, rfl⟩ := Option.map_eq_some_iff.mp hk
        exact ⟨_, k, st, rfl⟩
      · intro stem
        refine le_of_eq_of_le (List.length_map _) (h.length_writers_le hown stem)
      · intro stem w hw
        obtain ⟨v, hv, rfl⟩ := List.mem_map.mp hw
        have hnone : v.holder = none := (hown stem v hv).1
        obtain ⟨st, hst, hhead⟩ : Writes stem b.machine.log := by
          by_contra hnot
          exact h.absent stem hnot v hv hnone
        refine ⟨by rw [hnone]; rfl, e.io stem.key, stem.key, st, ?_, hhead⟩
        rw [htask]
        refine List.mem_filterMap.mpr ⟨stem.key, ?_, ?_⟩
        · rw [← List.mem_toFinset, (hc order rfl).2, Finmap.mem_keys, Table.mem_iff_get]
          exact ⟨st, hst⟩
        · rw [hst]
          rfl

/-- The stream that is finished next had the only writer of its file. -/
theorem Draining.close {b : Buffered ι} {i : ι} (h : Draining o i b) (stem : Stem) :
    ((b.file stem).step cap (.close (some i))).writers = [] := by
  rcases hwriters : (b.file stem).writers with _ | ⟨w, ws⟩
  · simp [AppendFile.step, AppendFile.effect, hwriters, BufWriter.through]
  · have hone := h.one stem
    rw [hwriters, List.length_cons] at hone
    obtain rfl := List.length_eq_zero_iff.mp (Nat.le_zero.mp (Nat.le_of_succ_le_succ hone))
    have hholder := (h.owed stem w (hwriters ▸ List.mem_cons_self)).1
    simp [AppendFile.step, AppendFile.effect, hwriters, BufWriter.through, hholder]

theorem Draining.step {b b' : Buffered ι} {i : ι} {seen : List (Seen ι)} (h : Draining o i b)
    (hstep : (lts dp o cap).step b (.step i) = some (b', seen)) : Draining o i b' := by
  have hwrite {w : Write} {rest : List Job} (ht : b.machine.task i = ⟨none, .write w :: rest⟩) :
      False := by
    obtain ⟨io, k, st, hjob⟩ := h.jobs (.write w) (by rw [ht]; exact List.mem_cons_self)
    cases hjob
  have hbusy {busy : Busy} {rest : List Job} (ht : b.machine.task i = ⟨some busy, rest⟩) :
      False := by
    have hnone := h.busy
    rw [ht] at hnone
    cases hnone
  obtain ⟨m, hmachine, rfl⟩ := (step_eq_some dp o cap).mp hstep
  cases Machine.step_cases dp o hmachine with
  | finish _ io k st rest ht =>
      have htask := Machine.put_task b.machine i (b.machine.log.finishOne io k st) none rest
      have hops : ∀ stem, b.machine.headOps o stem (.step i) = st.closes (some i) stem := by
        intro stem
        simp only [Machine.headOps, ht]
      have hin : b.InOrder o cap (.step i) := by
        intro stem
        rw [hops, Stream.closes]
        split
        · exact ⟨AppendFile.inOrder_of_length_le_one (h.one stem) cap _, trivial⟩
        · trivial
      have hagrees := h.agrees.step (fun _ _ _ heq => by cases heq) hin hstep
      have hfile : ∀ stem,
          st.head = some (.head stem) ∧
              ((b.file stem).steps cap (st.closes (some i) stem)).writers = [] ∨
            st.head ≠ some (.head stem) ∧
              (b.file stem).steps cap (st.closes (some i) stem) = b.file stem := by
        intro stem
        by_cases hself : st.head = some (.head stem)
        · rw [Stream.closes, if_pos hself]
          exact .inl ⟨hself, h.close stem⟩
        · rw [closes_of_ne hself]
          exact .inr ⟨hself, rfl⟩
      simp only [hops] at hagrees ⊢
      refine ⟨hagrees, by rw [htask], ?_, ?_, ?_⟩
      · intro job hjob
        rw [htask] at hjob
        exact h.jobs job (by rw [ht]; exact List.mem_cons_of_mem _ hjob)
      · intro stem
        dsimp only
        rcases hfile stem with ⟨-, hnil⟩ | ⟨-, hsame⟩
        · rw [hnil]
          exact Nat.zero_le 1
        · rw [hsame]
          exact h.one stem
      · intro stem w hw
        dsimp only at hw
        rcases hfile stem with ⟨-, hnil⟩ | ⟨hne, hsame⟩
        · rw [hnil] at hw
          cases hw
        · rw [hsame] at hw
          obtain ⟨hholder, io', k', st', hjob, hhead⟩ := h.owed stem w hw
          refine ⟨hholder, io', k', st', ?_, hhead⟩
          rw [ht] at hjob
          rw [htask]
          rcases List.mem_cons.mp hjob with heq | hjob
          · obtain ⟨-, -, rfl⟩ := Job.finish.inj heq
            exact absurd hhead hne
          · exact hjob
  | skip _ w rest ht => exact (hwrite ht).elim
  | free _ w rest ht => exact (hwrite ht).elim
  | begin _ w rest ht => exact (hwrite ht).elim
  | turnedAway _ w rest ht => exact (hwrite ht).elim
  | advance _ w phase phase' c rest ht => exact (hbusy ht).elim
  | grant _ w phase c rest ht => exact (hbusy ht).elim
  | refuse _ w phase c rest ht => exact (hbusy ht).elim
  | perform _ w rest ht => exact (hbusy ht).elim

theorem Draining.run {b b' : Buffered ι} {i : ι} (h : Draining o i b) {n : ℕ}
    {tr : List (List (Seen ι))}
    (hrun : (lts dp o cap).run b (List.replicate n (.step i)) = some (b', tr)) :
    Draining o i b' := by
  induction n generalizing b tr with
  | zero =>
      obtain ⟨rfl, -⟩ := (lts dp o cap).run_nil_eq_some.mp hrun
      exact h
  | succ n ih =>
      rw [List.replicate_succ] at hrun
      obtain ⟨u, seen, os, hstep, hrest, -⟩ := (lts dp o cap).run_cons_eq_some.mp hrun
      exact ih (h.step hstep) hrest

omit [DecidableEq ι] in
/-- Once the task has nothing left to do, everything is on disk. -/
theorem Draining.onDisk {b : Buffered ι} {i : ι} (h : Draining o i b)
    (hidle : b.machine.task i = .idle) (stem : Stem) :
    (b.file stem).onDisk = b.machine.log.disk.contents (.head stem) := by
  have hnil : (b.file stem).writers = [] := by
    apply List.eq_nil_iff_forall_not_mem.mpr
    intro w hw
    obtain ⟨-, io, k, st, hjob, -⟩ := h.owed stem w hw
    rw [hidle] at hjob
    cases hjob
  rw [h.agrees.disk stem, AppendFile.content, hnil]
  exact (List.append_nil _).symm

/-- The flush that ends the calls leaves nothing in a buffer. -/
theorem exists_leaves_flush (cap : ℕ) {calls : List (Env × Call)}
    (hgood : ∀ a ∈ calls, a.1.Good) (hflush : ∀ a ∈ calls, ∀ order, a.2 ≠ .flush order) {e : Env}
    (he : e.Good) {order : List Key}
    (horder : (Logger.execAll dp o calls .new).Enumerates order) :
    ∃ b, Leaves dp o cap (calls ++ [(e, .flush order)]) b ∧
      b.machine.log = Logger.execAll dp o (calls ++ [(e, .flush order)]) .new ∧
      ∀ stem, (b.file stem).onDisk = b.machine.log.disk.contents (.head stem) := by
  obtain ⟨b, hleaves, hlog⟩ := exists_leaves cap calls hflush
  obtain ⟨hagrees, hown⟩ := hleaves.agrees hgood hflush
  have hposs : (Call.flush order).Possible b.machine.log := by
    intro order' heq
    obtain rfl := Call.flush.inj heq
    exact hlog ▸ horder
  obtain ⟨b', n, tr, hrun, hleaves', hmachine⟩ := hleaves.call e hposs
  obtain ⟨u, seen, os, hstep, hrest, -⟩ := (lts dp o cap).run_cons_eq_some.mp hrun
  have hdrained : Draining o () b' := (Draining.start hagrees hown he hstep).run hrest
  have hidle : b'.machine.task () = .idle := by
    obtain ⟨-, -, -, -, hidle⟩ := hleaves'
    exact hidle
  refine ⟨b', hleaves', ?_, hdrained.onDisk hidle⟩
  rw [hmachine, hlog, Logger.execAll, Logger.execAll, List.foldl_append]
  rfl

end Buffered

end KirbLaSnoop
