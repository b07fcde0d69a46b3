import Mathlib
import KirbLaSnoop.Log.Files
import KirbLaSnoop.Ts

/-!
# The directory of a run

Every run writes into a directory of its own, named after the second in which
it started. Two runs in one second share the directory, and with it whatever
kind of file both of them write.
-/

namespace KirbLaSnoop

abbrev Path := List String

/-- `run_dir`, for a logger made at `now`. -/
def runDir (dir : Path) (now : ℕ) : Path := dir ++ [Ts.stamp now]

namespace Logger

variable (dp : Deps) (o : Options)

/-- The files that a run has opened: the event log, and those of its streams. -/
def files (dir : Path) (now : ℕ) (s : Logger) : Set Path :=
  {p | (o.jsonl = true ∧ p = runDir dir now ++ ["events.jsonl"]) ∨
    ∃ f bs, s.disk.get f = some bs ∧ p = runDir dir now ++ [f.render]}

def Reachable (s : Logger) : Prop := ∃ acts tr, (calls dp o).run new acts = some (s, tr)

theorem reachable_new : Reachable dp o new := ⟨[], [], rfl⟩

/-! ## Names -/

theorem runDir_append_inj {dir : Path} {t u : ℕ} {m n : String} :
    runDir dir t ++ [m] = runDir dir u ++ [n] ↔ t / 1000 = u / 1000 ∧ m = n := by
  simp only [runDir, List.append_assoc, List.append_cancel_left_eq, List.cons_append,
    List.nil_append, List.cons.injEq, and_true, Ts.stamp_eq_stamp_iff]

theorem render_ne_events (f : FileName) : f.render ≠ "events.jsonl" := by
  intro h
  have hlast := congrArg (fun s => s.toList.getLast?) h
  cases f <;> simp [FileName.render] at hlast

/-! ## A run without raw files -/

theorem finishAll_of_raw_empty {e : Env} {s : Logger} (h : s.raw = ∅) (ks : List Key) :
    (s.finishAll e ks).2 = s := by
  induction ks with
  | nil => rfl
  | cons k ks ih =>
      have hnone : s.raw.get k = none := by
        rw [h]
        rfl
      rw [finishAll_cons_none hnone]
      exact ih

theorem disk_of_not_raw (hraw : o.raw = false) {s : Logger} (hs : Reachable dp o s) :
    s.disk = ∅ := by
  obtain ⟨acts, tr, hrun⟩ := hs
  refine ((calls dp o).run_invariant (fun u => u.raw = ∅ ∧ u.disk = ∅) ⟨rfl, rfl⟩ ?_ hrun).2
  rintro u ⟨e, c⟩ v out ⟨hempty, hdisk⟩ hstep
  obtain ⟨-, rfl, -⟩ := (calls_step_eq_some dp o).mp hstep
  by_cases hdata : ∃ proto name conn peer dir bs rule, c = .data proto name conn peer dir bs rule
  · obtain ⟨proto, name, conn, peer, dir, bs, rule, rfl⟩ := hdata
    obtain ⟨hr, hd⟩ := exec_files_of_data dp o e proto name conn peer dir bs rule u
    have hskip : u.rawWrite o (e.io (conn, dir)) conn proto peer dir bs = u := by
      simp [rawWrite, hraw]
    rw [hskip] at hr hd
    exact ⟨hr.trans hempty, hd.trans hdisk⟩
  · obtain ⟨hr, hd⟩ := exec_files_of_not_data dp o e c u
      fun proto name conn peer dir bs rule hc => hdata ⟨proto, name, conn, peer, dir, bs, rule, hc⟩
    rw [finishAll_of_raw_empty hempty] at hr hd
    exact ⟨hr.trans hempty, hd.trans hdisk⟩

/-! ## A run with raw files -/

theorem charge_one_new : (new.charge o 1).1 = true := by
  by_cases hcap : o.maxRunBytes = 0
  · rw [charge_uncapped o hcap]
  · have hover : ¬new.diskUsed + 1 > o.maxRunBytes := by
      change ¬0 + 1 > o.maxRunBytes
      omega
    rw [charge, if_neg hcap, if_neg (by simp [new])]
    dsimp only
    rw [if_neg hover]

/-- Any run that dumps can open the file of the first connection. -/
theorem exists_reachable_head (hraw : o.raw = true) :
    ∃ s bs, Reachable dp o s ∧ s.disk.get (.head (.of 1 .tcp "" .rx)) = some bs := by
  obtain ⟨-, hdisk⟩ := exec_files_of_data dp o .quiet .tcp "" 1 "" .rx [0] none new
  have hwrite : new.rawWrite o .ok 1 .tcp "" .rx [0] =
      (new.charge o 1).2.rawLocked o .ok 1 .tcp "" .rx [0] := by
    simp [rawWrite, hraw, charge_one_new]
  have hvacant : (new.charge o 1).2.raw.get (1, .rx) = none := by
    rw [charge_raw]
    rfl
  have hstep : (calls dp o).run new [(.quiet, .data .tcp "" 1 "" .rx [0] none)] =
      some (new.exec dp o .quiet (.data .tcp "" 1 "" .rx [0] none), [[]]) := rfl
  obtain ⟨bs, hfile⟩ : ∃ bs, (new.rawWrite o .ok 1 .tcp "" .rx [0]).disk.get
      (.head (.of 1 .tcp "" .rx)) = some bs := by
    rw [hwrite, rawLocked_vacant o hvacant]
    exact ⟨_, Table.get_set _ _ _⟩
  exact ⟨_, bs, ⟨_, _, hstep⟩, hdisk ▸ hfile⟩

/-! ## Two runs -/

/-- The files of two runs are disjoint, whatever the two runs do, if and only
if they started in different seconds or write no kind of file in common. -/
theorem files_disjoint_iff (dp' : Deps) (o' : Options) (dir : Path) (t u : ℕ) :
    (∀ r s, Reachable dp o r → Reachable dp' o' s →
      Disjoint (r.files o dir t) (s.files o' dir u)) ↔
        t / 1000 ≠ u / 1000 ∨
          (¬(o.jsonl = true ∧ o'.jsonl = true) ∧ ¬(o.raw = true ∧ o'.raw = true)) := by
  constructor
  · intro hall
    by_contra hcommon
    rw [not_or, not_not] at hcommon
    obtain ⟨hsecond, hkinds⟩ := hcommon
    by_cases hjsonl : o.jsonl = true ∧ o'.jsonl = true
    · refine Set.disjoint_left.mp (hall new new (reachable_new dp o) (reachable_new dp' o'))
        (Or.inl ⟨hjsonl.1, rfl⟩) (Or.inl ⟨hjsonl.2, ?_⟩)
      exact runDir_append_inj.mpr ⟨hsecond, rfl⟩
    · have hraw : o.raw = true ∧ o'.raw = true := by
        by_contra hno
        exact hkinds ⟨hjsonl, hno⟩
      obtain ⟨r, bs, hr, hfile⟩ := exists_reachable_head dp o hraw.1
      obtain ⟨s, bs', hs, hfile'⟩ := exists_reachable_head dp' o' hraw.2
      refine Set.disjoint_left.mp (hall r s hr hs) (Or.inr ⟨_, bs, hfile, rfl⟩)
        (Or.inr ⟨_, bs', hfile', ?_⟩)
      exact runDir_append_inj.mpr ⟨hsecond, rfl⟩
  · intro hcond r s hr hs
    rw [Set.disjoint_left]
    have hraw {d : Deps} {q : Options} {x : Logger} {f : FileName} {bs : List UInt8}
        (hx : Reachable d q x) (hf : x.disk.get f = some bs) : q.raw = true := by
      by_contra hoff
      rw [disk_of_not_raw d q (Bool.not_eq_true _ ▸ hoff) hx] at hf
      cases hf
    rintro p (⟨hjsonl, rfl⟩ | ⟨f, bs, hf, rfl⟩) (⟨hjsonl', hp⟩ | ⟨g, bs', hg, hp⟩)
    · obtain ⟨hsecond, -⟩ := runDir_append_inj.mp hp
      exact hcond.elim (fun hne => hne hsecond) fun hno => hno.1 ⟨hjsonl, hjsonl'⟩
    · exact render_ne_events g (runDir_append_inj.mp hp).2.symm
    · exact render_ne_events f (runDir_append_inj.mp hp).2
    · obtain ⟨hsecond, -⟩ := runDir_append_inj.mp hp
      exact hcond.elim (fun hne => hne hsecond) fun hno => hno.2 ⟨hraw hr hf, hraw hs hg⟩

/-- Two runs that a script starts one millisecond after the other share their
event log. -/
theorem not_files_disjoint :
    ¬∀ (dp dp' : Deps) (o o' : Options) (dir : Path) (t u : ℕ), t < u →
      (o.jsonl = true ∨ o.raw = true) → (o'.jsonl = true ∨ o'.raw = true) →
        ∀ r s, Reachable dp o r → Reachable dp' o' s →
          Disjoint (r.files o dir t) (s.files o' dir u) := by
  intro hall
  refine Set.disjoint_left.mp (hall .bare .bare ⟨true, false, 0, ⟨0, 0⟩, 0⟩
    ⟨true, false, 0, ⟨0, 0⟩, 0⟩ ["captures"] 0 1 Nat.one_pos (Or.inl rfl) (Or.inl rfl) new new
    (reachable_new _ _) (reachable_new _ _)) (Or.inl ⟨rfl, rfl⟩) (Or.inl ⟨rfl, ?_⟩)
  exact runDir_append_inj.mpr ⟨rfl, rfl⟩

end Logger

end KirbLaSnoop
