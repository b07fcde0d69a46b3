import Mathlib
import KirbLaSnoop.Lib.Budget
import KirbLaSnoop.Log.Calls

/-!
# What the parts of a call leave alone

`charge` touches the counter and the console; a locked write touches the
table, the files and the console; finishing touches the table and the files.
-/

namespace KirbLaSnoop

namespace Logger

variable (dp : Deps) (o : Options)

def counter (s : Logger) : Budget.Counter := ⟨s.diskUsed, s.diskStopped⟩

/-- What the open stream of `k` has counted. -/
def totalOf (k : Key) (s : Logger) : ℕ := (s.raw.get k).elim 0 fun st => st.total

theorem charge_eq_with (n : ℕ) (s : Logger) :
    ∃ used stopped console, (s.charge o n).2 =
      { s with diskUsed := used, diskStopped := stopped, console := console } := by
  unfold charge
  split
  · exact ⟨_, _, _, rfl⟩
  · split
    · exact ⟨_, _, _, rfl⟩
    · dsimp only
      split
      · exact ⟨_, _, _, rfl⟩
      · exact ⟨_, _, _, rfl⟩

@[simp] theorem charge_raw (n : ℕ) (s : Logger) : (s.charge o n).2.raw = s.raw := by
  obtain ⟨used, stopped, console, h⟩ := charge_eq_with o n s
  rw [h]

@[simp] theorem charge_disk (n : ℕ) (s : Logger) : (s.charge o n).2.disk = s.disk := by
  obtain ⟨used, stopped, console, h⟩ := charge_eq_with o n s
  rw [h]

@[simp] theorem charge_jsonl (n : ℕ) (s : Logger) : (s.charge o n).2.jsonl = s.jsonl := by
  obtain ⟨used, stopped, console, h⟩ := charge_eq_with o n s
  rw [h]

theorem charge_uncapped (hcap : o.maxRunBytes = 0) (n : ℕ) (s : Logger) :
    s.charge o n = (true, s) := by
  simp [charge, hcap]

theorem rawLocked_eq_with (io : Io) (conn : ℕ) (proto : Proto) (peer : String) (dir : Dir)
    (data : List UInt8) (s : Logger) :
    ∃ raw disk console, s.rawLocked o io conn proto peer dir data =
      { s with raw := raw, disk := disk, console := console } := by
  unfold rawLocked
  dsimp only
  split
  · exact ⟨_, _, _, rfl⟩
  · exact ⟨_, _, _, rfl⟩

@[simp] theorem jsonl_rawLocked (io : Io) (conn : ℕ) (proto : Proto) (peer : String) (dir : Dir)
    (data : List UInt8) (s : Logger) :
    (s.rawLocked o io conn proto peer dir data).jsonl = s.jsonl := by
  obtain ⟨raw, disk, console, h⟩ := rawLocked_eq_with o io conn proto peer dir data s
  rw [h]

@[simp] theorem counter_rawLocked (io : Io) (conn : ℕ) (proto : Proto) (peer : String) (dir : Dir)
    (data : List UInt8) (s : Logger) :
    (s.rawLocked o io conn proto peer dir data).counter = s.counter := by
  obtain ⟨raw, disk, console, h⟩ := rawLocked_eq_with o io conn proto peer dir data s
  rw [h]
  rfl

/-- A locked write that finds or creates its stream hands it all its bytes. -/
theorem totalOf_rawLocked {io : Io} {conn : ℕ} {dir : Dir} {s : Logger}
    (hopen : ((s.raw.get (conn, dir)).isSome || io.headOpen) = true) (proto : Proto)
    (peer : String) (data : List UInt8) :
    (s.rawLocked o io conn proto peer dir data).totalOf (conn, dir) =
      s.totalOf (conn, dir) + data.length := by
  cases hget : s.raw.get (conn, dir) with
  | some st =>
      simp only [rawLocked, hget, totalOf, Table.get_set, Option.elim_some, Stream.total_write]
  | none =>
      have hhead : io.headOpen = true := by simpa [hget] using hopen
      simp only [rawLocked, hget, totalOf, Stream.create, hhead, if_true, Table.get_set,
        Option.elim_some, Option.elim_none, Stream.total_write]

@[simp] theorem jsonl_rawWrite (io : Io) (conn : ℕ) (proto : Proto) (peer : String) (dir : Dir)
    (data : List UInt8) (s : Logger) :
    (s.rawWrite o io conn proto peer dir data).jsonl = s.jsonl := by
  unfold rawWrite
  split
  · rfl
  · dsimp only
    split
    · exact (jsonl_rawLocked o io conn proto peer dir data _).trans (charge_jsonl o _ s)
    · exact charge_jsonl o _ s

theorem foldl_announce (fs : List Finished) (s : Logger) :
    (fs.foldl (fun s f => if f.summary.dropped > 0 then s.announce f else s) s) =
      { s with console := s.console ++ ((fs.filter fun f => f.summary.dropped > 0).map fun f =>
          Notice.truncated f.key.1 f.key.2 f.summary) } := by
  induction fs generalizing s with
  | nil => simp
  | cons f fs ih =>
      by_cases hf : f.summary.dropped > 0
      · rw [List.foldl_cons, if_pos hf, ih]
        simp [announce, hf]
      · rw [List.foldl_cons, if_neg hf, ih]
        simp [hf]

/-! ## Finishing -/

theorem finishAll_cons_none {e : Env} {k : Key} {s : Logger} (h : s.raw.get k = none)
    (ks : List Key) : s.finishAll e (k :: ks) = s.finishAll e ks := by
  simp only [finishAll, h]

theorem finishAll_cons_some {e : Env} {k : Key} {s : Logger} {st : Stream FileName}
    (h : s.raw.get k = some st) (ks : List Key) :
    s.finishAll e (k :: ks) =
      let (f, t) := { s with raw := s.raw.remove k }.finishStream (e.io k) k st
      ((f :: (t.finishAll e ks).1), (t.finishAll e ks).2) := by
  simp only [finishAll, h]

/-- Whatever finishing one stream keeps, finishing several keeps. -/
theorem finishAll_keeps {β : Type*} (f : Logger → β)
    (hf : ∀ raw disk s, f { s with raw := raw, disk := disk } = f s) (e : Env) (ks : List Key)
    (s : Logger) : f (s.finishAll e ks).2 = f s := by
  induction ks generalizing s with
  | nil => rfl
  | cons k ks ih =>
      cases hget : s.raw.get k with
      | none =>
          rw [finishAll_cons_none hget]
          exact ih s
      | some st =>
          rw [finishAll_cons_some hget]
          exact (ih _).trans (hf _ _ s)

@[simp] theorem jsonl_finishAll (e : Env) (ks : List Key) (s : Logger) :
    (s.finishAll e ks).2.jsonl = s.jsonl :=
  finishAll_keeps Logger.jsonl (fun _ _ _ => rfl) e ks s

@[simp] theorem console_finishAll (e : Env) (ks : List Key) (s : Logger) :
    (s.finishAll e ks).2.console = s.console :=
  finishAll_keeps Logger.console (fun _ _ _ => rfl) e ks s

@[simp] theorem counter_finishAll (e : Env) (ks : List Key) (s : Logger) :
    (s.finishAll e ks).2.counter = s.counter :=
  finishAll_keeps counter (fun _ _ _ => rfl) e ks s

theorem flush_eq (e : Env) (order : List Key) (s : Logger) :
    s.flush e order =
      { (s.finishAll e order).2 with
        console := s.console ++ (((s.finishAll e order).1.filter fun f =>
          f.summary.dropped > 0).map fun f => Notice.truncated f.key.1 f.key.2 f.summary) } := by
  have h := foldl_announce (s.finishAll e order).1 (s.finishAll e order).2
  rwa [console_finishAll] at h

theorem get_raw_finishAll (e : Env) (ks : List Key) (s : Logger) (k : Key) :
    (s.finishAll e ks).2.raw.get k = if k ∈ ks then none else s.raw.get k := by
  induction ks generalizing s with
  | nil => simp [finishAll]
  | cons j ks ih =>
      cases hget : s.raw.get j with
      | none =>
          rw [finishAll_cons_none hget, ih]
          by_cases hk : k = j
          · subst hk
            simp [hget]
          · simp [hk]
      | some st =>
          simp only [finishAll, hget, ih, finishStream]
          by_cases hk : k = j
          · subst hk
            simp
          · simp [hk]

theorem Enumerates.raw_finishAll {order : List Key} {s : Logger} (h : s.Enumerates order)
    (e : Env) : (s.finishAll e order).2.raw = ∅ := by
  apply Table.ext_get
  intro k
  rw [get_raw_finishAll, Table.get_empty]
  split
  · rfl
  · next hk =>
      rw [Table.get_eq_none, ← Finmap.mem_keys, ← h.2, List.mem_toFinset]
      exact hk

/-- The streams finished are the ones that were open, each once. -/
theorem mem_finishAll {e : Env} {ks : List Key} {s : Logger} {f : Finished}
    (hf : f ∈ (s.finishAll e ks).1) :
    f.key ∈ ks ∧ ∃ st, s.raw.get f.key = some st ∧ f.summary.total = st.total ∧
      f.summary.dropped = st.dropped := by
  induction ks generalizing s with
  | nil => cases hf
  | cons k ks ih =>
      cases hget : s.raw.get k with
      | none =>
          rw [finishAll_cons_none hget] at hf
          obtain ⟨hkey, hst⟩ := ih hf
          exact ⟨List.mem_cons_of_mem _ hkey, hst⟩
      | some st =>
          rw [finishAll_cons_some hget] at hf
          rcases List.mem_cons.mp hf with rfl | hf
          · exact ⟨List.mem_cons_self, st, hget, rfl, rfl⟩
          · obtain ⟨hkey, st', hst', hsum⟩ := ih hf
            refine ⟨List.mem_cons_of_mem _ hkey, st', ?_, hsum⟩
            have hne : f.key ≠ k := by
              intro heq
              have hnone : (s.raw.remove k).get f.key = none := heq ▸ Table.get_remove _ _
              cases hnone.symm.trans hst'
            exact (Table.get_remove_ne _ hne).symm.trans hst'

theorem exists_mem_finishAll {e : Env} {ks : List Key} {s : Logger} {k : Key} (hk : k ∈ ks)
    {st : Stream FileName} (hst : s.raw.get k = some st) :
    ∃ f ∈ (s.finishAll e ks).1, f.key = k ∧ f.summary.total = st.total ∧
      f.summary.dropped = st.dropped := by
  induction ks generalizing s with
  | nil => cases hk
  | cons j ks ih =>
      cases hget : s.raw.get j with
      | none =>
          have hne : k ≠ j := by
            intro heq
            rw [heq, hget] at hst
            cases hst
          rw [finishAll_cons_none hget]
          exact ih (List.mem_of_ne_of_mem hne hk) hst
      | some st' =>
          rw [finishAll_cons_some hget]
          by_cases hkj : k = j
          · subst hkj
            obtain rfl := Option.some.inj (hget.symm.trans hst)
            exact ⟨_, List.mem_cons_self, rfl, rfl, rfl⟩
          · have hget' : (s.raw.remove j).get k = some st :=
              (Table.get_remove_ne _ hkj).trans hst
            obtain ⟨f, hf, hsum⟩ :=
              ih (s := ({ s with raw := s.raw.remove j }.finishStream (e.io j) j st').2)
                (List.mem_of_ne_of_mem hkj hk) hget'
            exact ⟨f, List.mem_cons_of_mem _ hf, hsum⟩

end Logger

namespace Write

variable (dp : Deps) (o : Options)

theorem say_eq_with (w : Write) (s : Logger) :
    ∃ console, w.say s = { s with console := console } := by
  cases w with
  | event said ev => cases said <;> exact ⟨_, rfl⟩
  | raw io conn proto peer dir data => exact ⟨_, rfl⟩

@[simp] theorem counter_say (w : Write) (s : Logger) : (w.say s).counter = s.counter := by
  obtain ⟨console, h⟩ := w.say_eq_with s
  rw [h]
  rfl

@[simp] theorem jsonl_say (w : Write) (s : Logger) : (w.say s).jsonl = s.jsonl := by
  obtain ⟨console, h⟩ := w.say_eq_with s
  rw [h]

@[simp] theorem raw_say (w : Write) (s : Logger) : (w.say s).raw = s.raw := by
  obtain ⟨console, h⟩ := w.say_eq_with s
  rw [h]

@[simp] theorem disk_say (w : Write) (s : Logger) : (w.say s).disk = s.disk := by
  obtain ⟨console, h⟩ := w.say_eq_with s
  rw [h]

@[simp] theorem counter_perform (w : Write) (s : Logger) :
    (w.perform o s).counter = s.counter := by
  cases w with
  | event said ev => rfl
  | raw io conn proto peer dir data =>
      exact Logger.counter_rawLocked o io conn proto peer dir data s

/-- A write does not ask, or is refused, or is granted and performed. -/
theorem run_cases (w : Write) (s : Logger) :
    w.live o = false ∧ w.run dp o s = w.say s ∨
      w.live o = true ∧ ((w.say s).charge o (w.cost dp)).1 = false ∧
        w.run dp o s = ((w.say s).charge o (w.cost dp)).2 ∨
      w.live o = true ∧ ((w.say s).charge o (w.cost dp)).1 = true ∧
        w.run dp o s = w.perform o ((w.say s).charge o (w.cost dp)).2 := by
  cases hlive : w.live o with
  | false => exact Or.inl ⟨rfl, by simp [run, hlive]⟩
  | true =>
      cases hgranted : ((w.say s).charge o (w.cost dp)).1 with
      | false => exact Or.inr (Or.inl ⟨rfl, rfl, by simp [run, hlive, hgranted]⟩)
      | true => exact Or.inr (Or.inr ⟨rfl, rfl, by simp [run, hlive, hgranted]⟩)

end Write

/-- The first part of a call only finishes streams and announces them. -/
theorem Call.settle_eq_with (o : Options) (e : Env) (c : Call) (s : Logger) :
    ∃ console, c.settle o e s =
      { (s.finishAll e (c.finishes o)).2 with console := console } := by
  cases c with
  | flush order => exact ⟨_, Logger.flush_eq e order s⟩
  | _ => exact ⟨_, rfl⟩

/-- Whatever every write keeps, and what does not depend on the table, the
files and the console, a call keeps. -/
theorem Call.exec_keeps {β : Type*} (f : Logger → β) (dp : Deps) (o : Options)
    (hf : ∀ raw disk console s, f { s with raw := raw, disk := disk, console := console } = f s)
    (hrun : ∀ (w : Write) (s : Logger), f (w.run dp o s) = f s) (e : Env) (c : Call)
    (s : Logger) : f (s.exec dp o e c) = f s := by
  have hwrites : ∀ (ws : List Write) (s : Logger),
      f (ws.foldl (fun s w => w.run dp o s) s) = f s := by
    intro ws
    induction ws with
    | nil => exact fun _ => rfl
    | cons w ws ih => exact fun s => (ih _).trans (hrun w s)
  obtain ⟨console, hsettle⟩ := c.settle_eq_with o e s
  rw [exec_eq, hwrites, hsettle]
  exact (hf _ _ console (s.finishAll e (c.finishes o)).2).trans
    (Logger.finishAll_keeps f (fun raw disk s => hf raw disk s.console s) e _ s)

theorem Write.nextConn_run (dp : Deps) (o : Options) (w : Write) (s : Logger) :
    (w.run dp o s).nextConn = s.nextConn := by
  have hsay : (w.say s).nextConn = s.nextConn := by
    obtain ⟨console, h⟩ := w.say_eq_with s
    rw [h]
  have hcharge : ((w.say s).charge o (w.cost dp)).2.nextConn = s.nextConn := by
    obtain ⟨used, stopped, console, h⟩ := Logger.charge_eq_with o (w.cost dp) (w.say s)
    rw [h]
    exact hsay
  rcases w.run_cases dp o s with ⟨-, h⟩ | ⟨-, -, h⟩ | ⟨-, -, h⟩
  · rw [h, hsay]
  · rw [h, hcharge]
  · rw [h]
    cases w with
    | event said ev => exact hcharge
    | raw io conn proto peer dir data =>
        obtain ⟨raw, disk, console, hlocked⟩ := Logger.rawLocked_eq_with o io conn proto peer dir
          data ((Write.raw io conn proto peer dir data).say s |>.charge o data.length).2
        exact (congrArg Logger.nextConn hlocked).trans hcharge

theorem Logger.nextConn_exec (dp : Deps) (o : Options) (e : Env) (c : Call) (s : Logger) :
    (s.exec dp o e c).nextConn = s.nextConn :=
  c.exec_keeps Logger.nextConn dp o (fun _ _ _ _ => rfl) (Write.nextConn_run dp o) e s

/-! ## Runs without a cap -/

def Write.entry : Write → Option Event
  | .event _ ev => some ev
  | .raw _ _ _ _ _ _ => none

namespace Logger

variable (dp : Deps) (o : Options)

theorem jsonl_run (hjsonl : o.jsonl = true) (hcap : o.maxRunBytes = 0) (w : Write) (s : Logger) :
    (w.run dp o s).jsonl = s.jsonl ++ w.entry.toList := by
  cases w with
  | event said ev =>
      simp [Write.run, Write.live, hjsonl, charge_uncapped o hcap, Write.perform, emitLocked,
        Write.entry]
  | raw io conn proto peer dir data => simp [Write.run_raw, Write.entry]

theorem jsonl_foldl_run (hjsonl : o.jsonl = true) (hcap : o.maxRunBytes = 0) (ws : List Write)
    (s : Logger) :
    (ws.foldl (fun s w => w.run dp o s) s).jsonl = s.jsonl ++ ws.filterMap Write.entry := by
  induction ws generalizing s with
  | nil => simp
  | cons w ws ih =>
      rw [List.foldl_cons, ih, jsonl_run dp o hjsonl hcap, List.append_assoc]
      cases hentry : w.entry with
      | none => simp [hentry]
      | some ev => simp [hentry]

/-- Without a cap, a call appends its entries to the event log. -/
theorem jsonl_exec (hjsonl : o.jsonl = true) (hcap : o.maxRunBytes = 0) (e : Env) (c : Call)
    (s : Logger) :
    (s.exec dp o e c).jsonl = s.jsonl ++ (c.writes dp o e s).filterMap Write.entry := by
  have hsettle : (c.settle o e s).jsonl = s.jsonl := by
    obtain ⟨console, hsettle⟩ := c.settle_eq_with o e s
    rw [hsettle]
    exact jsonl_finishAll e _ s
  rw [Call.exec_eq, jsonl_foldl_run dp o hjsonl hcap, hsettle]

end Logger

end KirbLaSnoop
