import Mathlib
import KirbLaSnoop.Log.Files
import KirbLaSnoop.Log.Footprint

/-!
# What the counter counts

Every granted byte is in a file, in a ring, or gone: dropped by its stream, or
cut off with the tail file of an earlier stream. The counter never gives the
gone ones back, so it is the size of the run directory only while there are
none.
-/

namespace KirbLaSnoop

/-- The charged bytes that are in no file after a stream has been finished. -/
def Finished.loss (f : Finished) : ℕ := f.summary.dropped + f.replaced

def losses (fs : List Finished) : ℕ := (fs.map Finished.loss).sum

theorem losses_append (fs fs' : List Finished) : losses (fs ++ fs') = losses fs + losses fs' := by
  simp [losses]

theorem losses_eq_zero_iff (fs : List Finished) : losses fs = 0 ↔ ∀ f ∈ fs, f.loss = 0 := by
  simp [losses, List.sum_eq_zero_iff]

/-- No I/O call of the write fails. -/
def Write.Good : Write → Prop
  | .raw io _ _ _ _ _ => io = .ok
  | .event _ _ => True

theorem Call.writes_good (dp : Deps) (o : Options) {e : Env} (he : e.Good) (c : Call) (s : Logger) :
    ∀ w ∈ c.writes dp o e s, w.Good := by
  intro w hw
  cases c with
  | data proto name conn peer dir bs rule =>
      rcases List.mem_cons.mp hw with rfl | hw
      · exact he (conn, dir)
      · rw [List.mem_singleton.mp hw]
        trivial
  | close proto name conn peer why =>
      rcases List.mem_append.mp hw with hw | hw
      · obtain ⟨f, _, rfl⟩ := List.mem_map.mp hw
        trivial
      · rw [List.mem_singleton.mp hw]
        trivial
  | flush order => cases hw
  | _ =>
      rw [List.mem_singleton.mp hw]
      trivial

namespace Logger

variable (dp : Deps) (o : Options)

def dropping (s : Logger) : ℕ := Table.weight (fun st => st.dropped) s.raw

def Accounts (s : Logger) (finished : List Finished) : Prop :=
  s.diskUsed = s.held dp + s.dropping + losses finished

theorem Accounts.congr {s t : Logger} {finished : List Finished} (h : Accounts dp s finished)
    (hused : t.diskUsed = s.diskUsed) (hheld : t.held dp = s.held dp) (hraw : t.raw = s.raw) :
    Accounts dp t finished := by
  unfold Accounts dropping at *
  rw [hused, hheld, hraw]
  exact h

theorem accounts_new : Accounts dp new [] := by
  simp [Accounts, new, held, onDisk, lines, ring, dropping, losses, Disk.bytes]

theorem held_wrote {s : Logger} {stem : Stem} {old D : List UInt8} (data : List UInt8)
    (first : Bool)
    (hfile : s.disk.contents (.head stem) = old ++ Capture.headPart o.streamLimits.head.toNat D)
    (htail : ((s.raw.get stem.key).elim 0 fun st => st.tail.length) =
      (Capture.tailPart o.streamLimits.head.toNat o.streamLimits.tail D).length)
    (hdropped : ((s.raw.get stem.key).elim 0 fun st => st.dropped) =
      Capture.lost o.streamLimits.head.toNat o.streamLimits.tail D) :
    (s.wrote o stem old (D ++ data) first).held dp +
        (s.wrote o stem old (D ++ data) first).dropping =
      s.held dp + s.dropping + data.length := by
  have hdisk := Disk.bytes_set s.disk (.head stem)
    (old ++ Capture.headPart o.streamLimits.head.toNat (D ++ data))
  have hbefore := Capture.length_headPart_add_tailPart_add_lost o.streamLimits.head.toNat
    o.streamLimits.tail D
  have hafter := Capture.length_headPart_add_tailPart_add_lost o.streamLimits.head.toNat
    o.streamLimits.tail (D ++ data)
  have hring := Table.weight_set_add (fun st => st.tail.length) s.raw stem.key
    (Stream.after (.head stem) (.tail stem) o.streamLimits (D ++ data))
  have hgone := Table.weight_set_add (fun st => st.dropped) s.raw stem.key
    (Stream.after (.head stem) (.tail stem) o.streamLimits (D ++ data))
  rw [hfile, List.length_append, List.length_append] at hdisk
  rw [htail] at hring
  rw [hdropped] at hgone
  rw [List.length_append] at hafter
  simp only [held, onDisk, lines, ring, dropping, wrote, Stream.after] at hring hgone ⊢
  omega

/-- Finishing a stream moves its ring to a file, over what was there. -/
theorem held_closed {s : Logger} {stem : Stem} {old D : List UInt8} (h : Backed o stem old D s) :
    (s.closed o stem D).held dp + (s.closed o stem D).dropping + (closing o stem D s).loss =
      s.held dp + s.dropping := by
  have hring := Table.weight_eq_add_remove (fun st => st.tail.length) h.stream
  have hgone := Table.weight_eq_add_remove (fun st => st.dropped) h.stream
  have hdisk := Disk.bytes_set s.disk (.tail stem)
    (Capture.tailPart o.streamLimits.head.toNat o.streamLimits.tail D)
  simp only [Stream.after] at hring hgone
  by_cases htail : Capture.tailPart o.streamLimits.head.toNat o.streamLimits.tail D = []
  · simp only [held, onDisk, lines, ring, dropping, closed, closing, Finished.loss, htail, if_true,
      List.length_nil] at hring ⊢
    omega
  · simp only [held, onDisk, lines, ring, dropping, closed, closing, Finished.loss, htail,
      if_false]
    omega

theorem Accounts.closed {s : Logger} {finished : List Finished} (h : Accounts dp s finished)
    {stem : Stem} {old D : List UInt8} (hb : Backed o stem old D s) :
    Accounts dp (s.closed o stem D) (finished ++ [closing o stem D s]) := by
  have hmove := held_closed dp o hb
  have hused : (s.closed o stem D).diskUsed = s.diskUsed := rfl
  have hone : losses [closing o stem D s] = (closing o stem D s).loss := by
    simp [losses]
  unfold Accounts at *
  rw [losses_append, hone, hused]
  omega

theorem diskUsed_charge (hcap : o.maxRunBytes ≠ 0) (n : ℕ) (s : Logger) :
    (s.charge o n).2.diskUsed = s.diskUsed + if (s.charge o n).1 then n else 0 := by
  cases hstop : s.diskStopped with
  | true => simp [charge, hcap, hstop]
  | false =>
      by_cases hover : s.diskUsed + n > o.maxRunBytes
      · simp [charge, hcap, hstop, hover]
      · simp [charge, hcap, hstop, hover]

/-- A granted write puts what it costs into the files, the rings or the
dropped bytes. -/
theorem Wf.perform {s : Logger} (h : Wf o s) {w : Write} (hw : w.Good) :
    Wf o (w.perform o s) ∧
      (w.perform o s).held dp + (w.perform o s).dropping =
        s.held dp + s.dropping + w.cost dp := by
  cases w with
  | event said ev =>
      have hheld := held_emitLocked dp ev s
      refine ⟨h.congr o rfl rfl, ?_⟩
      simp only [Write.perform, Write.cost, dropping] at hheld ⊢
      rw [hheld]
      simp only [emitLocked]
      omega
  | raw io conn proto peer dir data =>
      obtain rfl : io = .ok := hw
      obtain ⟨stem, old, D, hkey, hlocked, hslot⟩ := h.rawLocked_eq o conn proto peer dir data
      simp only [Write.perform, Write.cost]
      rw [hlocked]
      refine ⟨h.wrote o stem old (D ++ data) _, ?_⟩
      apply held_wrote
      · rcases hslot with hb | ⟨_, _, hD, hold⟩
        · simp [Disk.contents, hb.file]
        · simp [hD, hold]
      · rcases hslot with hb | ⟨hnone, _, hD, _⟩
        · simp [hb.stream, Stream.after]
        · simp [hkey, hnone, hD]
      · rcases hslot with hb | ⟨hnone, _, hD, _⟩
        · simp [hb.stream, Stream.after]
        · simp [hkey, hnone, hD]

theorem Wf.charged {s : Logger} (h : Wf o s) (w : Write) :
    Wf o ((w.say s).charge o (w.cost dp)).2 :=
  h.congr o ((charge_raw o _ _).trans (w.raw_say s)) ((charge_disk o _ _).trans (w.disk_say s))

theorem Wf.run {s : Logger} (h : Wf o s) {w : Write} (hw : w.Good) : Wf o (w.run dp o s) := by
  rcases w.run_cases dp o s with ⟨_, hrun⟩ | ⟨_, _, hrun⟩ | ⟨_, _, hrun⟩
  · rw [hrun]
    exact h.congr o (w.raw_say s) (w.disk_say s)
  · rw [hrun]
    exact h.charged dp o w
  · rw [hrun]
    exact ((h.charged dp o w).perform dp o hw).1

/-- A write keeps the books: what is charged and not refused is performed. -/
theorem Accounts.run (hcap : o.maxRunBytes ≠ 0) {s : Logger} {finished : List Finished}
    (h : Accounts dp s finished) (hwf : Wf o s) {w : Write} (hw : w.Good) :
    Accounts dp (w.run dp o s) finished := by
  have hused := diskUsed_charge o hcap (w.cost dp) (w.say s)
  have hsame : (w.say s).diskUsed = s.diskUsed :=
    congrArg Budget.Counter.used (w.counter_say s)
  have hheld : ((w.say s).charge o (w.cost dp)).2.held dp = s.held dp :=
    held_congr dp ((charge_jsonl o _ _).trans (w.jsonl_say s))
      ((charge_raw o _ _).trans (w.raw_say s)) ((charge_disk o _ _).trans (w.disk_say s))
  have hraw : ((w.say s).charge o (w.cost dp)).2.raw = s.raw :=
    (charge_raw o _ _).trans (w.raw_say s)
  rcases w.run_cases dp o s with ⟨_, hrun⟩ | ⟨_, hrefused, hrun⟩ | ⟨_, hgranted, hrun⟩
  · rw [hrun]
    exact h.congr dp hsame (held_congr dp (w.jsonl_say s) (w.raw_say s) (w.disk_say s))
      (w.raw_say s)
  · rw [hrun]
    rw [hrefused] at hused
    exact h.congr dp (hused.trans hsame) hheld hraw
  · rw [hrun]
    rw [hgranted, if_pos rfl] at hused
    have hperformed := ((hwf.charged dp o w).perform dp o hw).2
    have hkeep : (w.perform o ((w.say s).charge o (w.cost dp)).2).diskUsed =
        ((w.say s).charge o (w.cost dp)).2.diskUsed :=
      congrArg Budget.Counter.used (w.counter_perform o _)
    have hdropping : ((w.say s).charge o (w.cost dp)).2.dropping = s.dropping := by
      unfold dropping
      rw [hraw]
    unfold Accounts at *
    omega

theorem Wf.foldl_run {ws : List Write} (hws : ∀ w ∈ ws, w.Good) {s : Logger} (h : Wf o s) :
    Wf o (ws.foldl (fun s w => w.run dp o s) s) := by
  induction ws generalizing s with
  | nil => exact h
  | cons w ws ih =>
      exact ih (fun w' hw' => hws w' (List.mem_cons_of_mem _ hw'))
        (h.run dp o (hws w List.mem_cons_self))

theorem Accounts.foldl_run (hcap : o.maxRunBytes ≠ 0) {ws : List Write} (hws : ∀ w ∈ ws, w.Good)
    {s : Logger} {finished : List Finished} (h : Accounts dp s finished) (hwf : Wf o s) :
    Accounts dp (ws.foldl (fun s w => w.run dp o s) s) finished := by
  induction ws generalizing s with
  | nil => exact h
  | cons w ws ih =>
      have hw := hws w List.mem_cons_self
      exact ih (fun w' hw' => hws w' (List.mem_cons_of_mem _ hw')) (h.run dp o hcap hwf hw)
        (hwf.run dp o hw)

theorem Wf.finishAll {s : Logger} (h : Wf o s) {e : Env} (he : e.Good) (ks : List Key) :
    Wf o (s.finishAll e ks).2 :=
  (finishAll_induction o he (fun _ _ => True) (fun _ _ _ _ _ _ _ _ => trivial) h (F := [])
    trivial ks).1

theorem Wf.settle {s : Logger} (h : Wf o s) {e : Env} (he : e.Good) (c : Call) :
    Wf o (c.settle o e s) := by
  obtain ⟨console, hsettle⟩ := c.settle_eq_with o e s
  rw [hsettle]
  exact (h.finishAll o he (c.finishes o)).congr o rfl rfl

theorem Wf.exec {s : Logger} (h : Wf o s) {e : Env} (he : e.Good) (c : Call) :
    Wf o (s.exec dp o e c) := by
  rw [Call.exec_eq]
  exact (h.settle o he c).foldl_run dp o (c.writes_good dp o he s)

theorem Accounts.finishAll {s : Logger} {finished : List Finished} (h : Accounts dp s finished)
    (hwf : Wf o s) {e : Env} (he : e.Good) (ks : List Key) :
    Accounts dp (s.finishAll e ks).2 (finished ++ (s.finishAll e ks).1) :=
  (finishAll_induction o he (fun s fs => Accounts dp s fs)
    (fun _ _ _ _ _ _ hb hs => hs.closed dp o hb) hwf h ks).2

/-- The first part of a call moves what its streams lost to the finished side. -/
theorem Accounts.settle {s : Logger} {finished : List Finished} (h : Accounts dp s finished)
    (hwf : Wf o s) {e : Env} (he : e.Good) (c : Call) :
    Accounts dp (c.settle o e s) (finished ++ (s.finishAll e (c.finishes o)).1) := by
  obtain ⟨console, hsettle⟩ := c.settle_eq_with o e s
  rw [hsettle]
  exact (h.finishAll dp o hwf he (c.finishes o)).congr dp rfl (held_congr dp rfl rfl rfl) rfl

theorem Accounts.exec (hcap : o.maxRunBytes ≠ 0) {s : Logger} {finished : List Finished}
    (h : Accounts dp s finished) (hwf : Wf o s) {e : Env} (he : e.Good) (c : Call) :
    Accounts dp (s.exec dp o e c) (finished ++ (s.finishAll e (c.finishes o)).1) := by
  rw [Call.exec_eq]
  exact (h.settle dp o hwf he c).foldl_run dp o hcap (c.writes_good dp o he s) (hwf.settle o he c)

/-- What holds at the start of a run without failures, and goes on holding, of
a logger whose streams are backed by their files. -/
theorem good_run_induction (P : Logger → List Finished → Prop) {s t : Logger} (hwf : Wf o s)
    {acts : List (Env × Call)} (hio : ∀ a ∈ acts, a.1.Good) (hstart : P s [])
    (hexec : ∀ (e : Env) (c : Call) (u : Logger) (fs : List Finished), e.Good → Wf o u → P u fs →
      P (u.exec dp o e c) (fs ++ (u.finishAll e (c.finishes o)).1))
    {tr : List (List Finished)} (h : (calls dp o).run s acts = some (t, tr)) :
    Wf o t ∧ P t tr.flatten := by
  refine (calls dp o).run_induction (fun _ u os => Wf o u ∧ P u os.flatten) ⟨hwf, hstart⟩ ?_ h
  intro as a rest u os v out hacts _ hu hstep
  obtain ⟨_, rfl, rfl⟩ := (calls_step_eq_some dp o).mp hstep
  have he : a.1.Good := hio a (hacts ▸ List.mem_append_right _ List.mem_cons_self)
  rw [List.flatten_append, List.flatten_singleton]
  exact ⟨hu.1.exec dp o he a.2, hexec a.1 a.2 u os.flatten he hu.1 hu.2⟩

theorem accounts_run (hcap : o.maxRunBytes ≠ 0) {acts : List (Env × Call)}
    (hio : ∀ a ∈ acts, a.1.Good) {s : Logger} {tr : List (List Finished)}
    (h : (calls dp o).run new acts = some (s, tr)) :
    Wf o s ∧ Accounts dp s tr.flatten := by
  apply good_run_induction dp o (Accounts dp) (wf_new o) hio (accounts_new dp) _ h
  intro e c u fs he hwf hbooks
  exact hbooks.exec dp o hcap hwf he c

end Logger

end KirbLaSnoop
