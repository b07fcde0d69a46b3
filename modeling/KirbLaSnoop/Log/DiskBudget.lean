import Mathlib
import KirbLaSnoop.Log.Accounting

/-!
# When the counter is the size of the run directory

Under a cap, exactly when no stream loses a byte it was charged for. Without a
cap nothing is counted, so only an empty run directory is counted right.
-/

namespace KirbLaSnoop

/-- The stream kept all of its bytes, and no earlier tail file made way. -/
def Finished.Kept (o : Options) (f : Finished) : Prop :=
  (o.streamLimits.head.toNat = 0 ∨
    f.summary.total ≤ o.streamLimits.head.toNat + o.streamLimits.tail) ∧ f.replaced = 0

namespace Logger

variable (dp : Deps) (o : Options)

/-! ## Bytes that are going to be lost -/

/-- An open stream that has dropped bytes, or whose tail file will replace
another one. -/
def Doomed (k : Key) (s : Logger) : Prop :=
  ∃ st, s.raw.get k = some st ∧
    (st.dropped ≠ 0 ∨ st.tail ≠ [] ∧ s.disk.contents st.tailPath ≠ [])

variable {o}

theorem Doomed.congr {k : Key} {s t : Logger} (h : Doomed k s) (hraw : t.raw = s.raw)
    (hdisk : t.disk = s.disk) : Doomed k t := by
  unfold Doomed at *
  rw [hraw, hdisk]
  exact h

/-- The tail path of an open stream carries its key. -/
theorem Wf.tailPath {s : Logger} (h : Wf o s) {k : Key} {st : Stream FileName}
    (hst : s.raw.get k = some st) : ∃ stem, stem.key = k ∧ st.tailPath = .tail stem := by
  obtain ⟨stem, old, D, hkey, hb⟩ := h k st hst
  exact ⟨stem, hkey, congrArg Stream.tailPath (hb.eq_after o hkey hst)⟩

/-- A message to the stream, or to another one, changes nothing about it. -/
theorem Doomed.wrote {k : Key} {s : Logger} (h : Doomed k s) {stem : Stem}
    {old D : List UInt8} (hb : Backed o stem old D s ∨ s.raw.get stem.key = none)
    (hwf : Wf o s) (data : List UInt8) (first : Bool) :
    Doomed k (s.wrote o stem old (D ++ data) first) := by
  obtain ⟨st, hst, hloss⟩ := h
  obtain ⟨stem', old', D', hkey, hb'⟩ := hwf k st hst
  have hpath := hb'.eq_after o hkey hst
  have hcontents : Disk.contents (s.wrote o stem old (D ++ data) first).disk (.tail stem') =
      s.disk.contents (.tail stem') := by
    simp only [Disk.contents, Logger.wrote]
    rw [Table.get_set_ne _ _ (by simp)]
  by_cases hk : k = stem.key
  · rcases hb with hb | hnone
    · have hsame := hb.eq_after o hk.symm hst
      have hget : (s.wrote o stem old (D ++ data) first).raw.get k =
          some (Stream.after (.head stem) (.tail stem) o.streamLimits (D ++ data)) := by
        rw [hk]
        exact Table.get_set _ _ _
      refine ⟨_, hget, ?_⟩
      rw [hsame] at hloss
      rcases hloss with hdropped | ⟨htail, hfile⟩
      · left
        have hmono := Capture.lost_le_append o.streamLimits.head.toNat o.streamLimits.tail D data
        simp only [Stream.after] at hdropped ⊢
        omega
      · right
        refine ⟨Capture.tailPart_append_ne_nil htail data, ?_⟩
        have hstem : FileName.tail stem = .tail stem' :=
          congrArg Stream.tailPath (hsame.symm.trans hpath)
        simp only [Stream.after] at hfile ⊢
        rw [hstem] at hfile ⊢
        rwa [hcontents]
    · rw [hk, hnone] at hst
      cases hst
  · refine ⟨st, (Table.get_set_ne _ _ hk).trans hst, ?_⟩
    rcases hloss with hdropped | ⟨htail, hfile⟩
    · exact Or.inl hdropped
    · rw [hpath] at htail hfile ⊢
      exact Or.inr ⟨htail, by rwa [Stream.after, hcontents]⟩

theorem Doomed.perform {k : Key} {s : Logger} (h : Doomed k s) (hwf : Wf o s) {w : Write}
    (hw : w.Good) : Doomed k (w.perform o s) := by
  cases w with
  | event said ev => exact h
  | raw io conn proto peer dir data =>
      obtain rfl : io = .ok := hw
      obtain ⟨stem, old, D, hkey, hlocked, hslot⟩ := hwf.rawLocked_eq o conn proto peer dir data
      rw [Write.perform, hlocked]
      apply h.wrote
      · rcases hslot with hb | ⟨hnone, _⟩
        · exact Or.inl hb
        · exact Or.inr (hkey ▸ hnone)
      · exact hwf

theorem Doomed.run {k : Key} {s : Logger} (h : Doomed k s) (hwf : Wf o s) {w : Write}
    (hw : w.Good) : Doomed k (w.run dp o s) := by
  rcases w.run_cases dp o s with ⟨_, hrun⟩ | ⟨_, _, hrun⟩ | ⟨_, _, hrun⟩
  · rw [hrun]
    exact h.congr (w.raw_say s) (w.disk_say s)
  · rw [hrun]
    exact h.congr ((charge_raw o _ _).trans (w.raw_say s))
      ((charge_disk o _ _).trans (w.disk_say s))
  · rw [hrun]
    have hcharged : Doomed k ((w.say s).charge o (w.cost dp)).2 :=
      h.congr ((charge_raw o _ _).trans (w.raw_say s)) ((charge_disk o _ _).trans (w.disk_say s))
    exact hcharged.perform (hwf.charged dp o w) hw

theorem Doomed.foldl_run {k : Key} {ws : List Write} (hws : ∀ w ∈ ws, w.Good) {s : Logger}
    (h : Doomed k s) (hwf : Wf o s) : Doomed k (ws.foldl (fun s w => w.run dp o s) s) := by
  induction ws generalizing s with
  | nil => exact h
  | cons w ws ih =>
      have hw := hws w List.mem_cons_self
      exact ih (fun w' hw' => hws w' (List.mem_cons_of_mem _ hw')) (h.run dp hwf hw)
        (hwf.run dp o hw)

/-- Finishing streams leaves a doomed one doomed, or finishes it with a loss. -/
theorem Doomed.finishAll {k : Key} {s : Logger} (h : Doomed k s) (hwf : Wf o s) {e : Env}
    (he : e.Good) (ks : List Key) :
    Doomed k (s.finishAll e ks).2 ∨ ∃ f ∈ (s.finishAll e ks).1, f.loss ≠ 0 := by
  have hind := finishAll_induction o he
    (fun t fs => Doomed k t ∨ ∃ f ∈ fs, f.loss ≠ 0) ?_ hwf (F := []) (Or.inl h) ks
  · simpa using hind.2
  · intro t fs stem old D hwf' hb hI
    rcases hI with ⟨st, hst, hloss⟩ | ⟨f, hf, hloss⟩
    · by_cases hk : k = stem.key
      · right
        refine ⟨closing o stem D t, List.mem_append_right _ List.mem_cons_self, ?_⟩
        rw [hb.eq_after o hk.symm hst] at hloss
        rcases hloss with hdropped | ⟨htail, hfile⟩
        · simp only [Stream.after] at hdropped
          simp only [Finished.loss, closing]
          omega
        · simp only [Stream.after] at htail hfile
          have hlen := List.length_pos_iff.mpr hfile
          simp only [Finished.loss, closing, htail, if_false]
          omega
      · left
        refine ⟨st, (Table.get_remove_ne _ hk).trans hst, ?_⟩
        rcases hloss with hdropped | ⟨htail, hfile⟩
        · exact Or.inl hdropped
        · obtain ⟨stem', hkey, hpath⟩ := hwf'.tailPath hst
          rw [hpath, ← contents_closed_ne o (hkey ▸ hk) D t, ← hpath] at hfile
          exact Or.inr ⟨htail, hfile⟩
    · exact Or.inr ⟨f, List.mem_append_left _ hf, hloss⟩

theorem Doomed.exec {k : Key} {s : Logger} (h : Doomed k s) (hwf : Wf o s) {e : Env}
    (he : e.Good) (c : Call) :
    Doomed k (s.exec dp o e c) ∨ ∃ f ∈ (s.finishAll e (c.finishes o)).1, f.loss ≠ 0 := by
  obtain ⟨console, hsettle⟩ := c.settle_eq_with o e s
  rcases h.finishAll hwf he (c.finishes o) with hdoomed | hlost
  · left
    rw [Call.exec_eq]
    apply Doomed.foldl_run dp (c.writes_good dp o he s)
    · rw [hsettle]
      exact hdoomed.congr rfl rfl
    · exact hwf.settle o he c
  · exact Or.inr hlost

theorem Doomed.run_calls {k : Key} {s t : Logger} (h : Doomed k s) (hwf : Wf o s)
    {acts : List (Env × Call)} (hio : ∀ a ∈ acts, a.1.Good) {tr : List (List Finished)}
    (hrun : (calls dp o).run s acts = some (t, tr)) :
    Doomed k t ∨ ∃ f ∈ tr.flatten, f.loss ≠ 0 := by
  refine (good_run_induction dp o (fun u fs => Doomed k u ∨ ∃ f ∈ fs, f.loss ≠ 0) hwf hio
    (Or.inl h) ?_ hrun).2
  intro e c u fs he hu hI
  rcases hI with hdoomed | ⟨f, hf, hloss⟩
  · rcases hdoomed.exec dp hu he c with hdoomed | ⟨f, hf, hloss⟩
    · exact Or.inl hdoomed
    · exact Or.inr ⟨f, List.mem_append_right _ hf, hloss⟩
  · exact Or.inr ⟨f, List.mem_append_left _ hf, hloss⟩

/-- Finishing one stream dooms no other. -/
theorem Doomed.of_closed {k : Key} {s : Logger} (hwf : Wf o s) {stem : Stem} {D : List UInt8}
    (h : Doomed k (s.closed o stem D)) : Doomed k s := by
  obtain ⟨st, hst, hloss⟩ := h
  obtain ⟨hk, hget⟩ := (get_closed_eq_some o).mp hst
  refine ⟨st, hget, ?_⟩
  rcases hloss with hdropped | ⟨htail, hfile⟩
  · exact Or.inl hdropped
  · obtain ⟨stem', hkey, hpath⟩ := hwf.tailPath hget
    rw [hpath, contents_closed_ne o (hkey ▸ hk), ← hpath] at hfile
    exact Or.inr ⟨htail, hfile⟩

/-- What would be lost by finishing now comes from doomed streams. -/
theorem doomed_of_loss {s : Logger} (hwf : Wf o s) {e : Env} (he : e.Good) (ks : List Key)
    {f : Finished} (hf : f ∈ (s.finishAll e ks).1) (hloss : f.loss ≠ 0) : ∃ k, Doomed k s := by
  induction ks generalizing s with
  | nil => cases hf
  | cons k ks ih =>
      cases hget : s.raw.get k with
      | none =>
          rw [finishAll_cons_none hget] at hf
          exact ih hwf hf
      | some st =>
          obtain ⟨stem, old, D, rfl, hb⟩ := hwf k st hget
          rw [finishAll_cons_backed o he hb] at hf
          rcases List.mem_cons.mp hf with rfl | hf
          · refine ⟨stem.key, _, hb.stream, ?_⟩
            by_cases htail :
                Capture.tailPart o.streamLimits.head.toNat o.streamLimits.tail D = []
            · left
              simpa [Finished.loss, closing, htail, Stream.after] using hloss
            · by_cases hdropped :
                  Capture.lost o.streamLimits.head.toNat o.streamLimits.tail D = 0
              · right
                refine ⟨htail, ?_⟩
                simp only [Finished.loss, closing, htail, hdropped, if_false, Nat.zero_add,
                  ne_eq, List.length_eq_zero_iff] at hloss
                exact hloss
              · exact Or.inl hdropped
          · obtain ⟨k, hk⟩ := ih (hwf.closed o stem D) hf
            exact ⟨k, hk.of_closed hwf⟩

/-! ## Streams that keep everything -/

/-- A finished stream lost nothing exactly when it fits its limits and finds
no tail file. -/
theorem kept_iff {s : Logger} (hwf : Wf o s) {e : Env} (he : e.Good) (ks : List Key) :
    ∀ f ∈ (s.finishAll e ks).1, (f.loss = 0 ↔ f.Kept o) := by
  have h := (finishAll_induction o he (fun _ fs => ∀ f ∈ fs, (f.loss = 0 ↔ f.Kept o)) ?_ hwf
    (F := []) (by simp) ks).2
  · simpa using h
  · intro t fs stem old D _ _ hfs f hf
    rcases List.mem_append.mp hf with hf | hf
    · exact hfs f hf
    · rw [List.mem_singleton.mp hf]
      simp only [Finished.loss, Finished.Kept, closing, Nat.add_eq_zero_iff,
        Capture.lost_eq_zero_iff]

theorem kept_iff_run {acts : List (Env × Call)} (hio : ∀ a ∈ acts, a.1.Good) {s : Logger}
    {tr : List (List Finished)} (h : (calls dp o).run new acts = some (s, tr)) :
    ∀ f ∈ tr.flatten, (f.loss = 0 ↔ f.Kept o) := by
  refine (good_run_induction dp o (fun _ fs => ∀ f ∈ fs, (f.loss = 0 ↔ f.Kept o)) (wf_new o) hio
    (List.forall_mem_nil _) ?_ h).2
  intro e c u fs he hu hI f hf
  rcases List.mem_append.mp hf with hf | hf
  · exact hI f hf
  · exact kept_iff hu he (c.finishes o) f hf

/-! ## Runs that end with a flush -/

variable (o)

/-- The write is the one that stops the disk writes. -/
def Stops (w : Write) (s : Logger) : Prop :=
  s.diskStopped = false ∧ w.live o = true ∧ (s.charge o (w.cost dp)).1 = false

/-- After the calls and the flush that led to `t`, the counter is the size of
the run directory; and disk writes were stopped only by a write whose bytes,
kept in full, would have taken the run directory, all streams finished, above
the cap. -/
structure CountsDisk (acts : List (Env × Call)) (t : Logger) : Prop where
  used : t.diskUsed = t.onDisk dp
  stops : ∀ as a rest u tr, acts = as ++ a :: rest → (calls dp o).run new as = some (u, tr) →
    ∀ ws w ws', a.2.writes dp o a.1 u = ws ++ w :: ws' →
      ∀ v, v = ws.foldl (fun s w => w.run dp o s) (a.2.settle o a.1 u) → Stops dp o w v →
        ∀ order, v.Enumerates order →
          o.maxRunBytes < (v.flush .quiet order).onDisk dp + w.cost dp

variable {o}

theorem diskUsed_of_stops (hcap : o.maxRunBytes ≠ 0) {w : Write} {s : Logger}
    (h : Stops dp o w s) : o.maxRunBytes < s.diskUsed + w.cost dp := by
  obtain ⟨hclear, _, hrefused⟩ := h
  by_contra hle
  have hgranted : (s.charge o (w.cost dp)).1 = true := by
    have hroom : ¬ s.diskUsed + w.cost dp > o.maxRunBytes := hle
    simp [charge, hcap, hclear, hroom]
  rw [hgranted] at hrefused
  cases hrefused

/-- With the table empty, the counter exceeds the run directory by what was
lost. -/
theorem Accounts.of_empty {t : Logger} {finished : List Finished} (h : Accounts dp t finished)
    (hraw : t.raw = ∅) : t.diskUsed = t.onDisk dp + losses finished := by
  simpa [Accounts, held, ring, dropping, hraw] using h

/-- While nothing is or is going to be lost, the counter is the size the run
directory would have if all streams were finished now. -/
theorem Accounts.onDisk_flush {s : Logger} {finished : List Finished}
    (h : Accounts dp s finished) (hwf : Wf o s) (hfinished : losses finished = 0)
    (hdoomed : ∀ k, ¬ Doomed k s) {order : List Key} (horder : s.Enumerates order) :
    (s.flush .quiet order).onDisk dp = s.diskUsed := by
  have hafter := h.finishAll dp o hwf Env.quiet_good order
  have hempty := horder.raw_finishAll .quiet
  have hnone : losses (s.finishAll .quiet order).1 = 0 := by
    rw [losses_eq_zero_iff]
    intro f hf
    by_contra hloss
    obtain ⟨k, hk⟩ := doomed_of_loss hwf Env.quiet_good order hf hloss
    exact hdoomed k hk
  have hbooks := hafter.of_empty dp hempty
  have hused : (s.finishAll .quiet order).2.diskUsed = s.diskUsed :=
    congrArg Budget.Counter.used (counter_finishAll .quiet order s)
  rw [losses_append, hfinished, hnone, hused] at hbooks
  rw [flush_eq]
  exact hbooks.symm

/-- Under a cap, a run in which every finished stream kept its bytes stops only
where the run directory would really pass the cap. -/
theorem stops_of_kept (hcap : o.maxRunBytes ≠ 0) {acts : List (Env × Call)}
    (hio : ∀ a ∈ acts, a.1.Good) {t : Logger} {tr : List (List Finished)}
    (hrun : (calls dp o).run new acts = some (t, tr)) (hempty : t.raw = ∅)
    (hkept : ∀ f ∈ tr.flatten, f.loss = 0) {as rest : List (Env × Call)} {a : Env × Call}
    (hacts : acts = as ++ a :: rest) {u : Logger} {tr' : List (List Finished)}
    (hu : (calls dp o).run new as = some (u, tr')) {ws ws' : List Write} {w : Write}
    (hws : a.2.writes dp o a.1 u = ws ++ w :: ws') {v : Logger}
    (hv : v = ws.foldl (fun s w => w.run dp o s) (a.2.settle o a.1 u)) (hstops : Stops dp o w v)
    {order : List Key} (horder : v.Enumerates order) :
    o.maxRunBytes < (v.flush .quiet order).onDisk dp + w.cost dp := by
  subst hacts
  have he : a.1.Good := hio a (List.mem_append_right _ List.mem_cons_self)
  have hgood := a.2.writes_good dp o he u
  rw [hws] at hgood
  obtain ⟨hwf, hbooks⟩ := accounts_run dp o hcap
    (fun b hb => hio b (List.mem_append_left _ hb)) hu
  have hgood' : ∀ x ∈ ws, x.Good := fun x hx => hgood x (List.mem_append_left _ hx)
  have hwfv : Wf o v := hv ▸ (hwf.settle o he a.2).foldl_run dp o hgood'
  have hbooksv : Accounts dp v (tr'.flatten ++ (u.finishAll a.1 (a.2.finishes o)).1) :=
    hv ▸ (hbooks.settle dp o hwf he a.2).foldl_run dp o hcap hgood' (hwf.settle o he a.2)
  -- the call and the run go on from `v`
  obtain ⟨u', os, ps, hpre, hpost, htr⟩ := (Lts.run_append_eq_some _).mp hrun
  obtain ⟨rfl, rfl⟩ := Prod.mk.inj (Option.some.inj (hu.symm.trans hpre))
  obtain ⟨u'', out, qs, hstep, hrest, rfl⟩ := (Lts.run_cons_eq_some _).mp hpost
  obtain ⟨_, rfl, rfl⟩ := (calls_step_eq_some dp o).mp hstep
  have hcall : u.exec dp o a.1 a.2 = (w :: ws').foldl (fun s w => w.run dp o s) v := by
    rw [Call.exec_eq, hws, List.foldl_append, ← hv]
  have hsofar : losses (tr'.flatten ++ (u.finishAll a.1 (a.2.finishes o)).1) = 0 := by
    rw [losses_eq_zero_iff]
    intro f hf
    apply hkept f
    rw [htr, List.flatten_append, List.flatten_cons]
    rcases List.mem_append.mp hf with hf | hf
    · exact List.mem_append_left _ hf
    · exact List.mem_append_right _ (List.mem_append_left _ hf)
  have hdoomed : ∀ k, ¬ Doomed k v := by
    intro k hk
    have hk' : Doomed k (u.exec dp o a.1 a.2) := by
      rw [hcall]
      exact Doomed.foldl_run dp (fun x hx => hgood x (List.mem_append_right _ hx)) hk hwfv
    rcases hk'.run_calls dp (hwf.exec dp o he a.2)
      (fun b hb => hio b (List.mem_append_right _ (List.mem_cons_of_mem _ hb))) hrest with
      ⟨st, hst, _⟩ | ⟨f, hf, hloss⟩
    · rw [hempty, Table.get_empty] at hst
      cases hst
    · apply hloss
      apply hkept f
      rw [htr, List.flatten_append, List.flatten_cons]
      exact List.mem_append_right _ (List.mem_append_right _ hf)
  rw [hbooksv.onDisk_flush dp hwfv hsofar hdoomed horder]
  exact diskUsed_of_stops dp hcap hstops

/-! ## Without a cap -/

theorem counter_run_uncapped (hcap : o.maxRunBytes = 0) (w : Write) (s : Logger) :
    (w.run dp o s).counter = s.counter := by
  rcases w.run_cases dp o s with ⟨_, hrun⟩ | ⟨_, _, hrun⟩ | ⟨_, _, hrun⟩
  · rw [hrun, Write.counter_say]
  · rw [hrun, charge_uncapped o hcap, Write.counter_say]
  · rw [hrun, charge_uncapped o hcap, Write.counter_perform, Write.counter_say]

theorem counter_exec_uncapped (hcap : o.maxRunBytes = 0) (e : Env) (c : Call) (s : Logger) :
    (s.exec dp o e c).counter = s.counter :=
  c.exec_keeps counter dp o (fun _ _ _ _ => rfl) (counter_run_uncapped dp hcap) e s

theorem jsonl_exec_off (hjsonl : o.jsonl = false) (e : Env) (c : Call) (s : Logger) :
    (s.exec dp o e c).jsonl = s.jsonl := by
  have hrun : ∀ (w : Write) (t : Logger), (w.run dp o t).jsonl = t.jsonl := by
    intro w t
    cases w with
    | event said ev => simp [Write.run, Write.live, hjsonl]
    | raw io conn proto peer dir data => simp [Write.run_raw]
  exact c.exec_keeps Logger.jsonl dp o (fun _ _ _ _ => rfl) hrun e s

theorem finishAll_of_empty {e : Env} {s : Logger} (h : s.raw = ∅) (ks : List Key) :
    s.finishAll e ks = ([], s) := by
  induction ks with
  | nil => rfl
  | cons k ks ih =>
      rw [finishAll_cons_none (by rw [h, Table.get_empty]), ih]

/-- A call that dumps no bytes leaves an empty table and its files alone. -/
theorem exec_files_of_nothing {s : Logger} (h : s.raw = ∅) (e : Env) {c : Call}
    (hc : o.raw = true → ∀ k, c.bytesFor k = []) :
    (s.exec dp o e c).raw = ∅ ∧ (s.exec dp o e c).disk = s.disk := by
  have hnot := exec_files_of_not_data dp o e c s
  cases c with
  | data proto name conn peer dir bs rule =>
      have hskip : s.rawWrite o (e.io (conn, dir)) conn proto peer dir bs = s := by
        cases hraw : o.raw with
        | false => simp [rawWrite, hraw]
        | true =>
            have hbs : bs = [] := by simpa [Call.bytesFor] using hc hraw (conn, dir)
            simp [rawWrite, hbs]
      have hfiles := exec_files_of_data dp o e proto name conn peer dir bs rule s
      rwa [hskip, h] at hfiles
  | _ =>
      have hfiles := hnot (by simp)
      rwa [finishAll_of_empty h, h] at hfiles

def Touched (s : Logger) : Prop := ∃ stem, s.disk.contents (.head stem) ≠ []

theorem Touched.bytes_pos {s : Logger} (h : Touched s) : 0 < s.disk.bytes := by
  obtain ⟨stem, hstem⟩ := h
  have hdisk := Disk.bytes_set s.disk (.head stem) []
  have hlen := List.length_pos_iff.mpr hstem
  rw [List.length_nil] at hdisk
  omega

theorem Touched.finishAll {s : Logger} (h : Touched s) (hwf : Wf o s) {e : Env} (he : e.Good)
    (ks : List Key) : Touched (s.finishAll e ks).2 := by
  refine (finishAll_induction o he (fun t _ => Touched t) ?_ hwf (F := []) h ks).2
  rintro t fs stem old D _ _ ⟨stem', hstem'⟩
  refine ⟨stem', ?_⟩
  simp only [closed]
  split
  · exact hstem'
  · simpa only [Disk.contents, Table.get_set_ne _ _ (show FileName.head stem' ≠ .tail stem by simp)]
      using hstem'

theorem touched_rawWrite (hcap : o.maxRunBytes = 0) {s : Logger} (hwf : Wf o s) (conn : ℕ)
    (proto : Proto) (peer : String) (dir : Dir) {bs : List UInt8} (hraw : o.raw = true)
    (hbs : bs ≠ []) : Touched (s.rawWrite o .ok conn proto peer dir bs) := by
  have hwrite : s.rawWrite o .ok conn proto peer dir bs =
      s.rawLocked o .ok conn proto peer dir bs := by
    simp [rawWrite, hraw, hbs, charge_uncapped o hcap]
  obtain ⟨stem, old, D, _, hlocked, _⟩ := hwf.rawLocked_eq o conn proto peer dir bs
  rw [hwrite, hlocked]
  refine ⟨stem, ?_⟩
  have hhead := Capture.headPart_ne_nil o.streamLimits.head.toNat
    (List.append_ne_nil_of_right_ne_nil D hbs)
  simp [Logger.wrote, Disk.contents, hhead]

theorem touched_exec (hcap : o.maxRunBytes = 0) {s : Logger} (hwf : Wf o s) {e : Env}
    (he : e.Good) (c : Call) (h : Touched s ∨ o.raw = true ∧ ∃ k, c.bytesFor k ≠ []) :
    Touched (s.exec dp o e c) := by
  have hnot := exec_files_of_not_data dp o e c s
  cases c with
  | data proto name conn peer dir bs rule =>
      obtain ⟨_, hdisk⟩ := exec_files_of_data dp o e proto name conn peer dir bs rule s
      rw [he] at hdisk
      unfold Touched
      rw [hdisk]
      by_cases hgo : o.raw = true ∧ bs ≠ []
      · exact touched_rawWrite hcap hwf conn proto peer dir hgo.1 hgo.2
      · rcases h with h | ⟨hraw, k, hk⟩
        · have hskip : s.rawWrite o .ok conn proto peer dir bs = s := by
            rcases not_and_or.mp hgo with hraw | hbs
            · simp [rawWrite, hraw]
            · simp [rawWrite, not_not.mp hbs]
          rw [hskip]
          exact h
        · refine absurd ⟨hraw, fun hbs => hk ?_⟩ hgo
          simp [Call.bytesFor, hbs]
  | _ =>
      obtain ⟨_, hdisk⟩ := hnot (by simp)
      rcases h with h | ⟨_, k, hk⟩
      · unfold Touched
        rw [hdisk]
        exact h.finishAll hwf he _
      · exact absurd rfl hk

section Uncapped

variable {acts : List (Env × Call)} {t : Logger} {tr : List (List Finished)}

theorem diskUsed_run_uncapped (hcap : o.maxRunBytes = 0)
    (h : (calls dp o).run new acts = some (t, tr)) : t.diskUsed = 0 := by
  refine (calls dp o).run_invariant (fun u => u.diskUsed = 0) rfl ?_ h
  intro u a v out hu hstep
  obtain ⟨_, rfl, _⟩ := (calls_step_eq_some dp o).mp hstep
  exact (congrArg Budget.Counter.used (counter_exec_uncapped dp hcap a.1 a.2 u)).trans hu

theorem disk_run_of_nothing (hnone : ∀ a ∈ acts, o.raw = true → ∀ k, a.2.bytesFor k = [])
    (h : (calls dp o).run new acts = some (t, tr)) : t.disk = ∅ := by
  refine ((calls dp o).run_induction (fun _ u _ => u.raw = ∅ ∧ u.disk = ∅) ⟨rfl, rfl⟩ ?_ h).2
  intro as a rest u os v out hacts _ hu hstep
  obtain ⟨_, rfl, _⟩ := (calls_step_eq_some dp o).mp hstep
  have hmem : a ∈ acts := hacts ▸ List.mem_append_right _ List.mem_cons_self
  obtain ⟨hraw, hdisk⟩ := exec_files_of_nothing dp hu.1 a.1 (hnone a hmem)
  exact ⟨hraw, hdisk.trans hu.2⟩

theorem touched_run (hcap : o.maxRunBytes = 0) (hio : ∀ a ∈ acts, a.1.Good) (hraw : o.raw = true)
    (h : (calls dp o).run new acts = some (t, tr)) {a : Env × Call} (ha : a ∈ acts) {k : Key}
    (hk : a.2.bytesFor k ≠ []) : Touched t := by
  refine ((calls dp o).run_induction
    (fun as u _ => Wf o u ∧ ((∃ b ∈ as, ∃ k, b.2.bytesFor k ≠ []) → Touched u)) ⟨wf_new o, ?_⟩ ?_
    h).2 ⟨a, ha, k, hk⟩
  · rintro ⟨b, hb, _⟩
    cases hb
  · rintro as b rest u os v out hacts _ ⟨hwf, hu⟩ hstep
    obtain ⟨_, rfl, _⟩ := (calls_step_eq_some dp o).mp hstep
    have he : b.1.Good := hio b (hacts ▸ List.mem_append_right _ List.mem_cons_self)
    refine ⟨hwf.exec dp o he b.2, ?_⟩
    rintro ⟨b', hb', k', hk'⟩
    apply touched_exec dp hcap hwf he
    rcases List.mem_append.mp hb' with hb' | hb'
    · exact Or.inl (hu ⟨b', hb', k', hk'⟩)
    · obtain rfl := List.mem_singleton.mp hb'
      exact Or.inr ⟨hraw, k', hk'⟩

theorem jsonl_run_off (hjsonl : o.jsonl = false) (h : (calls dp o).run new acts = some (t, tr)) :
    t.jsonl = [] := by
  refine (calls dp o).run_invariant (fun u => u.jsonl = []) rfl ?_ h
  intro u a v out hu hstep
  obtain ⟨_, rfl, _⟩ := (calls_step_eq_some dp o).mp hstep
  exact (jsonl_exec_off dp hjsonl a.1 a.2 u).trans hu

theorem entries_eq_nil_iff (e : Env) (c : Call) (s : Logger) :
    (c.writes dp o e s).filterMap Write.entry = [] ↔ ∃ order, c = .flush order := by
  cases c with
  | flush order => exact ⟨fun _ => ⟨order, rfl⟩, fun _ => rfl⟩
  | _ => simp [Call.writes, Write.entry]

theorem jsonl_run_on (hjsonl : o.jsonl = true) (hcap : o.maxRunBytes = 0)
    (h : (calls dp o).run new acts = some (t, tr)) :
    t.jsonl = [] ↔ ∀ a ∈ acts, ∃ order, a.2 = .flush order := by
  refine (calls dp o).run_induction
    (fun as u _ => u.jsonl = [] ↔ ∀ a ∈ as, ∃ order, a.2 = .flush order) (by simp [new]) ?_ h
  intro as a rest u os v out _ _ hu hstep
  obtain ⟨_, rfl, _⟩ := (calls_step_eq_some dp o).mp hstep
  rw [jsonl_exec dp o hjsonl hcap, List.append_eq_nil_iff, hu, entries_eq_nil_iff]
  constructor
  · rintro ⟨hbefore, hlast⟩ b hb
    rcases List.mem_append.mp hb with hb | hb
    · exact hbefore b hb
    · rw [List.mem_singleton.mp hb]
      exact hlast
  · intro hall
    exact ⟨fun b hb => hall b (List.mem_append_left _ hb),
      hall a (List.mem_append_right _ List.mem_cons_self)⟩

theorem onDisk_eq_zero_iff (s : Logger) : s.onDisk dp = 0 ↔ s.jsonl = [] ∧ s.disk.bytes = 0 := by
  have hlines : s.lines dp = 0 ↔ s.jsonl = [] := by
    cases hjsonl : s.jsonl with
    | nil => simp [lines, hjsonl]
    | cons ev evs => simp [lines, hjsonl, lineBytes]
  rw [onDisk, Nat.add_eq_zero_iff, hlines]

end Uncapped

/-- Nothing was written: no call if there is an event log, no bytes if there
are raw dumps. -/
def Silent (o : Options) (acts : List (Env × Call)) : Prop :=
  (o.jsonl = true → acts = []) ∧ (o.raw = true → ∀ a ∈ acts, ∀ k, a.2.bytesFor k = [])

/-- The counter printed after the final flush is the size of the run directory,
and only a write that asks for more than the cap leaves stops the others, if
and only if the cap is on and every finished stream kept all its bytes, or it
is off and nothing was written. -/
theorem disk_used_exact_iff (dp : Deps) (o : Options) (acts : List (Env × Call))
    (hacts : ∀ a ∈ acts, ∀ order, a.2 ≠ .flush order) (hio : ∀ a ∈ acts, a.1.Good)
    (e : Env) (he : e.Good) (order : List Key) (t : Logger) (tr : List (List Finished))
    (hrun : (calls dp o).run new (acts ++ [(e, .flush order)]) = some (t, tr)) :
    CountsDisk dp o acts t ↔
      if o.maxRunBytes = 0 then Silent o acts else ∀ f ∈ tr.flatten, f.Kept o := by
  have hio' : ∀ a ∈ acts ++ [(e, .flush order)], a.1.Good := by
    intro a ha
    rcases List.mem_append.mp ha with ha | ha
    · exact hio a ha
    · rw [List.mem_singleton.mp ha]
      exact he
  have hempty : t.raw = ∅ := by
    obtain ⟨u, os, ps, _, hlast, _⟩ := (Lts.run_append_eq_some _).mp hrun
    obtain ⟨out, hstep, _⟩ := (Lts.run_singleton_eq_some _).mp hlast
    obtain ⟨hpossible, rfl, _⟩ := (calls_step_eq_some dp o).mp hstep
    change (u.flush e order).raw = ∅
    rw [flush_eq]
    exact (hpossible order rfl).raw_finishAll e
  split
  · next hcap =>
      have hused := diskUsed_run_uncapped dp hcap hrun
      constructor
      · intro h
        have hnone := (onDisk_eq_zero_iff dp t).mp (h.used.symm.trans hused)
        constructor
        · intro hjsonl
          rw [List.eq_nil_iff_forall_not_mem]
          intro a ha
          obtain ⟨order', hflush⟩ := (jsonl_run_on dp hjsonl hcap hrun).mp hnone.1 a
            (List.mem_append_left _ ha)
          exact hacts a ha order' hflush
        · intro hraw a ha k
          by_contra hk
          have htouched := touched_run dp hcap hio' hraw hrun (List.mem_append_left _ ha) hk
          exact absurd hnone.2 htouched.bytes_pos.ne'
      · rintro ⟨hjsonl, hraw⟩
        constructor
        · rw [hused, eq_comm, onDisk_eq_zero_iff]
          constructor
          · cases hlog : o.jsonl with
            | false => exact jsonl_run_off dp hlog hrun
            | true =>
                rw [jsonl_run_on dp hlog hcap hrun, hjsonl hlog]
                intro a ha
                rw [List.nil_append, List.mem_singleton] at ha
                exact ⟨order, congrArg Prod.snd ha⟩
          · rw [disk_run_of_nothing dp ?_ hrun]
            · rfl
            · intro a ha hdump
              rcases List.mem_append.mp ha with ha | ha
              · exact hraw hdump a ha
              · rw [List.mem_singleton.mp ha]
                intro k
                rfl
        · rintro as a rest u tr' _ _ ws w ws' _ v _ ⟨_, _, hrefused⟩
          rw [charge_uncapped o hcap] at hrefused
          cases hrefused
  · next hcap =>
      have hbooks := (accounts_run dp o hcap hio' hrun).2.of_empty dp hempty
      have hkept := kept_iff_run dp hio' hrun
      constructor
      · intro h f hf
        have hzero : losses tr.flatten = 0 := by
          have hused := h.used
          omega
        exact (hkept f hf).mp ((losses_eq_zero_iff _).mp hzero f hf)
      · intro hall
        have hloss : ∀ f ∈ tr.flatten, f.loss = 0 := fun f hf => (hkept f hf).mpr (hall f hf)
        constructor
        · rw [hbooks, (losses_eq_zero_iff _).mpr hloss, Nat.add_zero]
        · intro as a rest u tr' hsplit hu ws w ws' hws v hv hstops order' horder'
          have hacts : acts ++ [(e, .flush order)] = as ++ a :: (rest ++ [(e, .flush order)]) := by
            rw [hsplit, List.append_assoc, List.cons_append]
          exact stops_of_kept dp hcap hio' hrun hempty hloss hacts hu hws hv hstops horder'

def threeBytes : List (Env × Call) :=
  [(.quiet, .openConn .tcp "tcp:0" 1 "127.0.0.1:80" "127.0.0.1:4000" none),
    (.quiet, .data .tcp "tcp:0" 1 "127.0.0.1:4000" .rx [1, 2, 3] none),
    (.quiet, .close .tcp "tcp:0" 1 "127.0.0.1:4000" "peer eof")]

/-- Two go to the head file and one to the tail file. -/
theorem disk_used_exact_iff_kept :
    ∃ t tr, (calls .bare (.rawOnly ⟨2, 2⟩ 10)).run new (threeBytes ++ [(.quiet, .flush [])]) =
        some (t, tr) ∧
      t.diskUsed = 3 ∧ CountsDisk .bare (.rawOnly ⟨2, 2⟩ 10) threeBytes t := by
  have hrun : ∃ t tr, (calls .bare (.rawOnly ⟨2, 2⟩ 10)).run new
      (threeBytes ++ [(.quiet, .flush [])]) = some (t, tr) ∧ t.diskUsed = 3 ∧
      tr.flatten = [⟨(1, .rx), ⟨3, 2, 1, 0, some (.tail (.of 1 .tcp "127.0.0.1:4000" .rx))⟩, 0⟩] :=
    ⟨_, _, rfl, by decide +kernel, by decide +kernel⟩
  obtain ⟨t, tr, hrun, hused, htr⟩ := hrun
  refine ⟨t, tr, hrun, hused, ?_⟩
  refine (disk_used_exact_iff .bare (.rawOnly ⟨2, 2⟩ 10) threeBytes (by simp [threeBytes])
    (by simp [threeBytes, Env.quiet_good]) .quiet Env.quiet_good [] t tr hrun).mpr ?_
  rw [if_neg (by decide), htr]
  intro f hf
  rw [List.mem_singleton.mp hf]
  exact ⟨Or.inr (by decide), rfl⟩

/-- With room for one byte, the counter says three. -/
theorem disk_used_not_exact :
    ¬ ∀ (dp : Deps) (o : Options) (acts : List (Env × Call)),
      (∀ a ∈ acts, a.1.Good ∧ ∀ order, a.2 ≠ .flush order) → ∀ e order t tr, e.Good →
        (calls dp o).run new (acts ++ [(e, .flush order)]) = some (t, tr) →
          CountsDisk dp o acts t := by
  intro h
  have hrun : ∃ t tr, (calls .bare (.rawOnly ⟨1, 0⟩ 10)).run new
      (threeBytes ++ [(.quiet, .flush [])]) = some (t, tr) ∧ t.diskUsed = 3 ∧
      t.onDisk .bare = 1 :=
    ⟨_, _, rfl, by decide +kernel, by decide +kernel⟩
  obtain ⟨t, tr, hrun, hused, hdisk⟩ := hrun
  have hcounts := (h .bare (.rawOnly ⟨1, 0⟩ 10) threeBytes
    (by simp [threeBytes, Env.quiet_good]) .quiet [] t tr Env.quiet_good hrun).used
  rw [hused, hdisk] at hcounts
  cases hcounts

end Logger

end KirbLaSnoop
