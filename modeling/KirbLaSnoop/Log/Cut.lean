import Mathlib
import KirbLaSnoop.Log.Captured
import KirbLaSnoop.Log.Share

/-!
# What a run cap does

The logger with a cap is compared with the one that has none, under the same
calls. Up to the cap the two are the same but for the counter. Past it the
capped one keeps what it had: its event log is a beginning of the other's, and
so is each of its head files.
-/

namespace KirbLaSnoop

def Options.uncapped (o : Options) : Options := { o with maxRunBytes := 0 }

/-- The bytes of a call's message. -/
def Call.size : Call → ℕ
  | .data _ _ _ _ _ bs _ => bs.length
  | _ => 0

def Write.size : Write → ℕ
  | .event _ _ => 0
  | .raw _ _ _ _ _ data => data.length

theorem Write.live_uncapped (w : Write) (o : Options) : w.live o.uncapped = w.live o := by
  cases w with
  | event said ev => rfl
  | raw io conn proto peer dir data => rfl

namespace Logger

variable (dp : Deps) (o : Options)

def withUsed (n : ℕ) (s : Logger) : Logger := { s with diskUsed := n }

/-- The bytes of the event log. -/
def logged (s : Logger) : ℕ := (s.jsonl.map (lineBytes dp)).sum

/-- The bytes that calls ask for when there is no cap: the lines of the event
log, and with raw dumps their messages, whatever the streams then keep of
them. -/
def wanted (acts : List (Env × Call)) : ℕ :=
  (execAll dp o.uncapped acts new).logged dp +
    if o.raw then (acts.map fun a => a.2.size).sum else 0

/-- The second has the lines and the head files of the first, and maybe more. -/
def Grows (s t : Logger) : Prop :=
  s.jsonl <+: t.jsonl ∧ ∀ stem, s.disk.contents (.head stem) <+: t.disk.contents (.head stem)

/-- A capped logger beside the uncapped one, which was granted `n` bytes. -/
inductive Cut (n : ℕ) : Logger → Logger → Prop
  | within (u : Logger) (hnamed : Named u) (hopen : u.diskStopped = false)
      (hn : n ≤ o.maxRunBytes) : Cut n (u.withUsed n) u
  | beyond (s u : Logger) (hnamed : Named s) (hnamed' : Named u) (hstop : s.diskStopped = true)
      (hn : o.maxRunBytes < n) (hgrows : Grows s u) : Cut n s u

end Logger

/-! ## What writes and finishing do to the files -/

namespace Disk

variable {P : Type*} [DecidableEq P]

theorem contents_prefix_append (d : Disk P) (p q : P) (bs : List UInt8) :
    d.contents q <+: (d.append p bs).contents q := by
  by_cases hq : q = p
  · subst hq
    simp [append, contents]
  · simp [append, contents, hq]

theorem contents_openAppend (d : Disk P) (p q : P) :
    (d.openAppend p).contents q = d.contents q := by
  by_cases hq : q = p
  · subst hq
    simp [openAppend, contents]
  · simp [openAppend, contents, hq]

end Disk

namespace Stream

variable {P : Type*} [DecidableEq P]

theorem contents_prefix_write (s : Stream P) (io : Io) (d : Disk P) (data : List UInt8) (q : P) :
    d.contents q <+: (s.write io d data).2.2.contents q := by
  have hhead : ∀ (t : Stream P) bs, d.contents q <+: (t.writeHead io d bs).contents q := by
    intro t bs
    unfold writeHead
    split
    · exact d.contents_prefix_append _ q _
    · exact List.prefix_rfl
  unfold write writeOn
  dsimp only
  split_ifs
  · exact hhead _ _
  · exact hhead _ _
  · exact hhead _ _
  · exact List.prefix_rfl
  · exact List.prefix_rfl

theorem contents_finish_of_ne (s : Stream P) (io : Io) (d : Disk P) {q : P} (hq : q ≠ s.tailPath) :
    (s.finish io d).2.contents q = d.contents q := by
  unfold finish
  dsimp only
  split
  · simp [Disk.append, Disk.create, Disk.contents, hq]
  · rfl

end Stream

namespace Logger

variable (dp : Deps) (o : Options) {s t u : Logger}

/-- A stream's tail file is no head file. -/
theorem Named.head_ne_tailPath (h : Named s) {k : Key} {st : Stream FileName}
    (hst : s.raw.get k = some st) (stem : Stem) : .head stem ≠ st.tailPath := by
  obtain ⟨proto, peer, hfiles⟩ := h k st hst
  have hlast := congrArg List.getLast? hfiles
  simp only [Stream.files, rawFiles, List.getLast?_append, List.getLast?_singleton,
    Option.some_or, List.getLast?_cons_cons, Option.some.injEq] at hlast
  rw [hlast]
  intro h
  cases h

theorem contents_prefix_rawLocked (io : Io) (conn : ℕ) (proto : Proto) (peer : String) (dir : Dir)
    (data : List UInt8) (s : Logger) (p : FileName) :
    s.disk.contents p <+: (s.rawLocked o io conn proto peer dir data).disk.contents p := by
  unfold rawLocked
  dsimp only
  cases hget : s.raw.get (conn, dir) with
  | some st => exact st.contents_prefix_write io s.disk data p
  | none =>
      cases hcreate : Stream.create io (.head (Stem.of conn proto peer dir))
          (.tail (Stem.of conn proto peer dir)) o.streamLimits s.disk with
      | none => exact List.prefix_rfl
      | some opened =>
          obtain ⟨st, disk⟩ := opened
          have hopened : disk.contents p = s.disk.contents p := by
            simp only [Stream.create, Option.ite_none_right_eq_some, Option.some.injEq,
              Prod.mk.injEq] at hcreate
            rw [← hcreate.2.2, Disk.contents_openAppend]
          rw [← hopened]
          exact st.contents_prefix_write io disk data p

/-- Finishing leaves the head files as they are. -/
theorem contents_finishAll (h : Named s) (e : Env) (ks : List Key) (stem : Stem) :
    (s.finishAll e ks).2.disk.contents (.head stem) = s.disk.contents (.head stem) := by
  induction ks generalizing s with
  | nil => rfl
  | cons k ks ih =>
      cases hget : s.raw.get k with
      | none =>
          rw [finishAll_cons_none hget]
          exact ih h
      | some st =>
          rw [finishAll_cons_some hget]
          refine (ih (h.remove k _)).trans ?_
          exact st.contents_finish_of_ne _ s.disk (h.head_ne_tailPath hget stem)

theorem Named.settle (h : Named s) (e : Env) (c : Call) : Named (c.settle o e s) := by
  obtain ⟨console, hsettle⟩ := c.settle_eq_with o e s
  rw [hsettle]
  exact h.finishAll e _

theorem contents_settle (h : Named s) (e : Env) (c : Call) (stem : Stem) :
    (c.settle o e s).disk.contents (.head stem) = s.disk.contents (.head stem) := by
  obtain ⟨console, hsettle⟩ := c.settle_eq_with o e s
  rw [hsettle]
  exact contents_finishAll h e _ stem

theorem jsonl_settle (e : Env) (c : Call) (s : Logger) : (c.settle o e s).jsonl = s.jsonl := by
  obtain ⟨console, hsettle⟩ := c.settle_eq_with o e s
  rw [hsettle]
  exact jsonl_finishAll e _ s

theorem counter_settle (e : Env) (c : Call) (s : Logger) :
    (c.settle o e s).counter = s.counter := by
  obtain ⟨console, hsettle⟩ := c.settle_eq_with o e s
  rw [hsettle]
  exact counter_finishAll e _ s

/-! ## One write -/

theorem Grows.trans (hst : Grows s t) (htu : Grows t u) : Grows s u :=
  ⟨hst.1.trans htu.1, fun stem => (hst.2 stem).trans (htu.2 stem)⟩

theorem Grows.say (h : Grows s t) (w : Write) : Grows (w.say s) t := by
  refine ⟨?_, ?_⟩
  · rw [w.jsonl_say]
    exact h.1
  · intro stem
    rw [w.disk_say]
    exact h.2 stem

theorem grows_perform (w : Write) (s : Logger) : Grows s (w.perform o s) := by
  cases w with
  | event said ev => exact ⟨List.prefix_append _ _, fun _ => List.prefix_rfl⟩
  | raw io conn proto peer dir data =>
      refine ⟨?_, fun stem => contents_prefix_rawLocked o io conn proto peer dir data s _⟩
      rw [Write.perform, jsonl_rawLocked]

theorem grows_say (w : Write) (s : Logger) : Grows s (w.say s) := by
  refine ⟨?_, ?_⟩
  · rw [w.jsonl_say]
  · intro stem
    rw [w.disk_say]

theorem grows_run (w : Write) (s : Logger) : Grows s (w.run dp o.uncapped s) := by
  rw [w.run_uncapped dp o.uncapped rfl]
  split
  · exact (grows_say w s).trans (grows_perform o.uncapped w _)
  · exact grows_say w s

theorem grows_foldl (ws : List Write) (s : Logger) :
    Grows s (ws.foldl (fun s w => w.run dp o.uncapped s) s) := by
  induction ws generalizing s with
  | nil => exact ⟨List.prefix_rfl, fun _ => List.prefix_rfl⟩
  | cons w ws ih => exact (grows_run dp o w s).trans (ih _)

theorem named_foldl (ws : List Write) (h : Named s) :
    Named (ws.foldl (fun s w => w.run dp o.uncapped s) s) := by
  induction ws generalizing s with
  | nil => exact h
  | cons w ws ih => exact ih (w.named_run dp o.uncapped rfl h)

/-- Past the cap a write leaves at most a line on the console. -/
theorem run_of_stopped (hcap : o.maxRunBytes ≠ 0) (hstop : s.diskStopped = true) (w : Write) :
    w.run dp o s = w.say s := by
  have hsaid : (w.say s).diskStopped = true :=
    (congrArg Budget.Counter.stopped (w.counter_say s)).trans hstop
  cases hlive : w.live o with
  | false => simp [Write.run, hlive]
  | true => simp [Write.run, hlive, charge, hcap, hsaid]

theorem foldl_of_stopped (hcap : o.maxRunBytes ≠ 0) (ws : List Write)
    (hstop : s.diskStopped = true) :
    ∃ console, ws.foldl (fun s w => w.run dp o s) s = { s with console := console } := by
  induction ws generalizing s with
  | nil => exact ⟨s.console, rfl⟩
  | cons w ws ih =>
      rw [List.foldl_cons, run_of_stopped dp o hcap hstop]
      obtain ⟨console, hsay⟩ := w.say_eq_with s
      rw [hsay]
      exact ih (s := { s with console := console }) hstop

/-- The bytes that a write asks for. -/
def asked (w : Write) : ℕ := if w.live o then w.cost dp else 0

theorem charge_withUsed (hcap : o.maxRunBytes ≠ 0) (hopen : u.diskStopped = false) {n c : ℕ}
    (hroom : n + c ≤ o.maxRunBytes) : (u.withUsed n).charge o c = (true, u.withUsed (n + c)) := by
  have hover : ¬n + c > o.maxRunBytes := Nat.not_lt.mpr hroom
  simp [charge, withUsed, hcap, hopen, hover]

theorem charge_withUsed_over (hcap : o.maxRunBytes ≠ 0) (hopen : u.diskStopped = false) {n c : ℕ}
    (hover : o.maxRunBytes < n + c) :
    (u.withUsed n).charge o c =
      (false, { u with diskUsed := n, diskStopped := true, console := u.console ++ [.runCap] }) := by
  simp [charge, withUsed, hcap, hopen, hover]

theorem say_withUsed (w : Write) (n : ℕ) (u : Logger) :
    w.say (u.withUsed n) = (w.say u).withUsed n := by
  cases w with
  | event said ev => cases said <;> rfl
  | raw io conn proto peer dir data => rfl

theorem perform_withUsed (w : Write) (n : ℕ) (u : Logger) :
    w.perform o (u.withUsed n) = (w.perform o.uncapped u).withUsed n := by
  cases w with
  | event said ev => rfl
  | raw io conn proto peer dir data =>
      simp only [Write.perform, rawLocked, Options.uncapped, withUsed]
      split
      · rfl
      · rfl

theorem Cut.write (hcap : o.maxRunBytes ≠ 0) {n : ℕ} (h : Cut o n s u) (w : Write) :
    Cut o (n + asked dp o w) (w.run dp o s) (w.run dp o.uncapped u) := by
  rw [w.run_uncapped dp o.uncapped rfl, w.live_uncapped]
  cases h with
  | within _ hnamed hopen hn =>
      have hopen' : (w.say u).diskStopped = false :=
        (congrArg Budget.Counter.stopped (w.counter_say u)).trans hopen
      simp only [Write.run, asked, say_withUsed]
      cases hlive : w.live o with
      | false => exact .within _ (w.named_say hnamed) hopen' hn
      | true =>
          simp only [if_true]
          by_cases hroom : n + w.cost dp ≤ o.maxRunBytes
          · have hstopped := congrArg Budget.Counter.stopped
              (w.counter_perform o.uncapped (w.say u))
            rw [charge_withUsed o hcap hopen' hroom, if_pos rfl, perform_withUsed]
            exact .within _ (w.named_perform o.uncapped (w.named_say hnamed))
              (hstopped.trans hopen') hroom
          · have hgrows := grows_perform o.uncapped w (w.say u)
            rw [charge_withUsed_over o hcap hopen' (Nat.lt_of_not_le hroom)]
            exact .beyond _ _ (w.named_say hnamed)
              (w.named_perform o.uncapped (w.named_say hnamed)) rfl (Nat.lt_of_not_le hroom) hgrows
  | beyond _ _ hnamed hnamed' hstop hn hgrows =>
      have hstep := grows_run dp o w u
      have hstepNamed := w.named_run dp o.uncapped rfl hnamed'
      rw [w.run_uncapped dp o.uncapped rfl, w.live_uncapped] at hstep hstepNamed
      rw [run_of_stopped dp o hcap hstop]
      exact .beyond _ _ (w.named_say hnamed) hstepNamed
        ((congrArg Budget.Counter.stopped (w.counter_say s)).trans hstop) (by omega)
        ((hgrows.trans hstep).say w)

theorem Cut.writes (hcap : o.maxRunBytes ≠ 0) (ws : List Write) {n : ℕ} (h : Cut o n s u) :
    Cut o (n + (ws.map (asked dp o)).sum) (ws.foldl (fun s w => w.run dp o s) s)
      (ws.foldl (fun s w => w.run dp o.uncapped s) u) := by
  induction ws generalizing n s u with
  | nil => exact h
  | cons w ws ih =>
      rw [List.map_cons, List.sum_cons, ← Nat.add_assoc]
      exact ih (h.write dp o hcap w)

/-! ## One call -/

/-- Finishing does not look at the rest of the logger. -/
theorem finishAll_frame (f : Logger → Logger)
    (hf : ∀ (s : Logger) raw disk,
      { f s with raw := raw, disk := disk } = f { s with raw := raw, disk := disk })
    (hraw : ∀ s, (f s).raw = s.raw) (hdisk : ∀ s, (f s).disk = s.disk) (e : Env) (ks : List Key)
    (s : Logger) : (f s).finishAll e ks = ((s.finishAll e ks).1, f (s.finishAll e ks).2) := by
  induction ks generalizing s with
  | nil => rfl
  | cons k ks ih =>
      have hsame := hraw s
      cases hget : s.raw.get k with
      | none =>
          rw [finishAll_cons_none hget, finishAll_cons_none (hsame.symm ▸ hget)]
          exact ih s
      | some st =>
          have hrest := ih { s with
            raw := s.raw.remove k, disk := (st.finish (e.io k) s.disk).2 }
          rw [← hf] at hrest
          rw [finishAll_cons_some hget, finishAll_cons_some (hsame.symm ▸ hget)]
          simp only [finishStream, hsame, hdisk] at hrest ⊢
          rw [hrest]

theorem finishAll_withUsed (e : Env) (ks : List Key) (n : ℕ) (u : Logger) :
    (u.withUsed n).finishAll e ks =
      ((u.finishAll e ks).1, (u.finishAll e ks).2.withUsed n) :=
  finishAll_frame (withUsed n) (fun _ _ _ => rfl) (fun _ => rfl) (fun _ => rfl) e ks u

theorem settle_withUsed (e : Env) (c : Call) (n : ℕ) (u : Logger) :
    c.settle o e (u.withUsed n) = (c.settle o.uncapped e u).withUsed n := by
  cases c with
  | flush order =>
      simp only [Call.settle, flush_eq, finishAll_withUsed]
      rfl
  | close proto name conn peer why =>
      simp only [Call.settle, finishAll_withUsed]
      rfl
  | _ => rfl

theorem writes_withUsed (e : Env) (c : Call) (n : ℕ) (u : Logger) :
    c.writes dp o e (u.withUsed n) = c.writes dp o.uncapped e u := by
  cases c with
  | close proto name conn peer why =>
      simp only [Call.writes, finishAll_withUsed]
      rfl
  | _ => rfl

theorem Cut.exec (hcap : o.maxRunBytes ≠ 0) {n : ℕ} (h : Cut o n s u) (e : Env) (c : Call) :
    Cut o (n + ((c.writes dp o.uncapped e u).map (asked dp o)).sum) (s.exec dp o e c)
      (u.exec dp o.uncapped e c) := by
  rw [Call.exec_eq, Call.exec_eq]
  cases h with
  | within _ hnamed hopen hn =>
      have hopen' : (c.settle o.uncapped e u).diskStopped = false :=
        (congrArg Budget.Counter.stopped (counter_settle o.uncapped e c u)).trans hopen
      rw [settle_withUsed, writes_withUsed]
      exact Cut.writes dp o hcap _ (.within _ (hnamed.settle o.uncapped e c) hopen' hn)
  | beyond _ _ hnamed hnamed' hstop hn hgrows =>
      have hstop' : (c.settle o e s).diskStopped = true :=
        (congrArg Budget.Counter.stopped (counter_settle o e c s)).trans hstop
      obtain ⟨console, hwrites⟩ := foldl_of_stopped dp o hcap (c.writes dp o e s) hstop'
      have hsettled : Grows (c.settle o e s) (c.settle o.uncapped e u) := by
        refine ⟨?_, ?_⟩
        · rw [jsonl_settle, jsonl_settle]
          exact hgrows.1
        · intro stem
          rw [contents_settle o hnamed, contents_settle o.uncapped hnamed']
          exact hgrows.2 stem
      have hafter := hsettled.trans
        (grows_foldl dp o (c.writes dp o.uncapped e u) (c.settle o.uncapped e u))
      have hnamedAfter := named_foldl dp o (c.writes dp o.uncapped e u)
        (hnamed'.settle o.uncapped e c)
      rw [hwrites]
      exact .beyond _ _ (hnamed.settle o e c) hnamedAfter hstop' (by omega) hafter

/-! ## Runs -/

theorem logged_run (w : Write) (u : Logger) :
    (w.run dp o.uncapped u).logged dp + (if o.raw then w.size else 0) =
      u.logged dp + asked dp o w := by
  rw [w.run_uncapped dp o.uncapped rfl, w.live_uncapped]
  cases w with
  | event said ev =>
      cases hj : o.jsonl with
      | false => simp [Write.live, hj, logged, asked, Write.size]
      | true =>
          simp [Write.live, hj, logged, asked, Write.size, Write.perform, emitLocked, Write.cost]
  | raw io conn proto peer dir data =>
      cases hr : o.raw with
      | false => simp [Write.live, hr, logged, asked]
      | true =>
          cases data with
          | nil => simp [Write.live, hr, logged, asked, Write.size]
          | cons b bs => simp [Write.live, hr, logged, asked, Write.size, Write.perform, Write.cost]

theorem logged_foldl (ws : List Write) (u : Logger) :
    (ws.foldl (fun s w => w.run dp o.uncapped s) u).logged dp +
        (if o.raw then (ws.map Write.size).sum else 0) =
      u.logged dp + (ws.map (asked dp o)).sum := by
  induction ws generalizing u with
  | nil => simp
  | cons w ws ih =>
      have hrest := ih (w.run dp o.uncapped u)
      have hfirst := logged_run dp o w u
      simp only [List.foldl_cons, List.map_cons, List.sum_cons]
      split_ifs at hrest hfirst ⊢ <;> omega

theorem size_writes (e : Env) (c : Call) (s : Logger) :
    ((c.writes dp o e s).map Write.size).sum = c.size := by
  cases c with
  | data proto name conn peer dir bs rule => simp [Call.writes, Write.size, Call.size]
  | close proto name conn peer why =>
      simp [Call.writes, Write.size, Call.size, Function.comp_def]
  | _ => simp [Call.writes, Write.size, Call.size]

theorem execAll_append_singleton (acts : List (Env × Call)) (a : Env × Call) (s : Logger) :
    execAll dp o (acts ++ [a]) s = (execAll dp o acts s).exec dp o a.1 a.2 :=
  List.foldl_append ..

theorem wanted_append (acts : List (Env × Call)) (a : Env × Call) :
    wanted dp o (acts ++ [a]) = wanted dp o acts +
      ((a.2.writes dp o.uncapped a.1 (execAll dp o.uncapped acts new)).map (asked dp o)).sum := by
  obtain ⟨u, hu⟩ : ∃ u, u = execAll dp o.uncapped acts new := ⟨_, rfl⟩
  have hsnoc := execAll_append_singleton dp o.uncapped acts a new
  rw [← hu] at hsnoc
  have hfold := logged_foldl dp o (a.2.writes dp o.uncapped a.1 u) (a.2.settle o.uncapped a.1 u)
  rw [← Call.exec_eq, size_writes] at hfold
  have hsettle : (a.2.settle o.uncapped a.1 u).logged dp = u.logged dp := by
    rw [logged, jsonl_settle, logged]
  rw [hsettle] at hfold
  simp only [wanted, hsnoc, ← hu, List.map_append, List.sum_append, List.map_cons, List.map_nil,
    List.sum_cons, List.sum_nil]
  split_ifs at hfold ⊢ <;> omega

theorem cut_execAll (hcap : o.maxRunBytes ≠ 0) (acts : List (Env × Call)) :
    Cut o (wanted dp o acts) (execAll dp o acts new) (execAll dp o.uncapped acts new) := by
  induction acts using List.reverseRecOn with
  | nil =>
      have hnone : wanted dp o [] = 0 := by simp [wanted, execAll, logged, new]
      rw [hnone]
      exact .within new named_new rfl (Nat.zero_le _)
  | append_singleton acts a ih =>
      have hnext := ih.exec dp o hcap a.1 a.2
      rw [wanted_append, execAll_append_singleton, execAll_append_singleton]
      exact hnext

theorem cut_stopped_iff (hcap : o.maxRunBytes ≠ 0) (acts : List (Env × Call)) :
    (execAll dp o acts new).diskStopped = true ↔ o.maxRunBytes < wanted dp o acts := by
  have hcut := cut_execAll dp o hcap acts
  generalize execAll dp o acts new = s at hcut
  generalize execAll dp o.uncapped acts new = u at hcut
  cases hcut with
  | within _ hnamed hopen hn =>
      have hopen' : (u.withUsed (wanted dp o acts)).diskStopped = false := hopen
      rw [hopen']
      simpa using hn
  | beyond _ _ hnamed hnamed' hstop hn hgrows => simp [hstop, hn]

/-- Below the cap nothing is missing. -/
theorem execAll_of_le (hcap : o.maxRunBytes ≠ 0) {acts : List (Env × Call)}
    (hle : wanted dp o acts ≤ o.maxRunBytes) :
    execAll dp o acts new = (execAll dp o.uncapped acts new).withUsed (wanted dp o acts) := by
  have hcut := cut_execAll dp o hcap acts
  generalize execAll dp o acts new = s at hcut ⊢
  generalize execAll dp o.uncapped acts new = u at hcut ⊢
  cases hcut with
  | within => rfl
  | beyond _ _ _ _ _ hn => omega

theorem grows_uncapped (hcap : o.maxRunBytes ≠ 0) (acts : List (Env × Call)) :
    Grows (execAll dp o acts new) (execAll dp o.uncapped acts new) := by
  have hcut := cut_execAll dp o hcap acts
  generalize execAll dp o acts new = s at hcut ⊢
  generalize execAll dp o.uncapped acts new = u at hcut ⊢
  cases hcut with
  | within => exact ⟨List.prefix_rfl, fun _ => List.prefix_rfl⟩
  | beyond _ _ _ _ _ _ hgrows => exact hgrows

/-- A run cap is a cut. It is hit exactly when the calls ask for more bytes
than it allows; if they do not, every sink is what it would be without a cap,
and if they do, the event log and every head file are a beginning of that. -/
theorem run_cap_cuts (hcap : o.maxRunBytes ≠ 0) (acts : List (Env × Call)) :
    ((execAll dp o acts new).diskStopped = true ↔ o.maxRunBytes < wanted dp o acts) ∧
      (wanted dp o acts ≤ o.maxRunBytes →
        execAll dp o acts new = (execAll dp o.uncapped acts new).withUsed (wanted dp o acts)) ∧
      Grows (execAll dp o acts new) (execAll dp o.uncapped acts new) :=
  ⟨cut_stopped_iff dp o hcap acts, execAll_of_le dp o hcap, grows_uncapped dp o hcap acts⟩

/-- Two messages where the cap has room for the first and its line. -/
def secondTooMany : List (Env × Call) :=
  [(.quiet, .data .tcp "tcp:0" 1 "a" .rx [1, 2, 3] none),
    (.quiet, .data .tcp "tcp:0" 1 "a" .rx [4] none)]

theorem run_cap_cuts_second :
    (execAll .bare ⟨true, true, 0, ⟨0, 0⟩, 4⟩ secondTooMany new).diskStopped = true ∧
      Grows (execAll .bare ⟨true, true, 0, ⟨0, 0⟩, 4⟩ secondTooMany new)
        (execAll .bare ⟨true, true, 0, ⟨0, 0⟩, 0⟩ secondTooMany new) := by
  have hwanted : wanted .bare ⟨true, true, 0, ⟨0, 0⟩, 4⟩ secondTooMany = 6 := rfl
  obtain ⟨hstop, -, hgrows⟩ := run_cap_cuts .bare ⟨true, true, 0, ⟨0, 0⟩, 4⟩ (by decide)
    secondTooMany
  exact ⟨hstop.mpr (by rw [hwanted]; decide), hgrows⟩

end Logger

end KirbLaSnoop
