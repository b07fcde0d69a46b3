import Mathlib
import KirbLaSnoop.Log.Buffered
import KirbLaSnoop.Log.Isolation

/-!
# The capture on disk

What `Isolation` says of the files of one stream, said of what is on disk: a
head file lacks at most what one buffer holds, and nothing once its stream has
ended.
-/

namespace KirbLaSnoop

namespace Buffered

open Logger (EndsLast Captures)

variable {ι : Type*} [DecidableEq ι] {dp : Deps} {o : Options} {cap : ℕ} {acts : List (Act ι)}
  {b : Buffered ι} {tr : List (List (Seen ι))}

/-- What holds throughout a run of the tasks and does not look at the files. -/
theorem throughout_machine {C : Machine ι → Act ι → Prop}
    (h : (lts dp o cap).run new acts = some (b, tr))
    (hall : (lts dp o cap).Throughout new acts fun _ b a => C b.machine a) :
    (Machine.lts dp o).Throughout .new acts fun _ m a => C m a := by
  intro as a rest m os hacts hrun
  obtain ⟨u, us, vs, hu, -, -⟩ := (lts dp o cap).run_append_eq_some.mp (hacts ▸ h)
  obtain ⟨rfl, -⟩ := Prod.mk.inj (Option.some.inj (hrun.symm.trans (run_machine dp o cap hu)))
  exact hall as a rest u us hacts hu

theorem throughout_of_machine {C : Machine ι → Act ι → Prop}
    (hall : (Machine.lts dp o).Throughout .new acts fun _ m a => C m a) :
    (lts dp o cap).Throughout new acts fun _ b a => C b.machine a := by
  intro as a rest u os hacts hrun
  exact hall as a rest u.machine os hacts (run_machine dp o cap hrun)

/-- A run whose calls are kept apart has no flush in it. -/
theorem not_mem_flush {c : ℕ} (h : (lts dp o cap).run new acts = some (b, tr))
    (hapart : (lts dp o cap).Throughout new acts fun _ b a => Machine.Apart c b.machine a)
    (i : ι) (e : Env) (order : List Key) : .call i e (.flush order) ∉ acts := by
  intro hmem
  obtain ⟨as, rest, rfl⟩ := List.append_of_mem hmem
  obtain ⟨u, us, vs, hu, -, -⟩ := (lts dp o cap).run_append_eq_some.mp h
  have hno := (hapart as _ rest u us rfl hu).1
  cases hno

theorem contents_captured {stem : Stem} {D : List UInt8} {ended : Bool} {s : Logger}
    (h : Captures o stem D ended s) :
    s.disk.contents (.head stem) = Capture.headPart o.streamLimits.head.toNat D := by
  rw [Disk.contents, h.files (.head stem) rfl, Logger.captured]
  by_cases hD : D = []
  · simp [hD]
  · simp [hD]

/-- Tasks that take turns leave on disk, for every stream, one capture of the
bytes passed to it, but for the end of the head that waits in the buffer of an
open stream. -/
theorem files_captured (hcap : o.maxRunBytes = 0) (hraw : o.raw = true) (cap : ℕ) (k : Key)
    (acts : List (Act ι)) (hgood : ∀ i e call, .call i e call ∈ acts → e.Good)
    (hends : EndsLast k (callsOn k.1 acts))
    (hapart : (lts dp o cap).Throughout new acts fun _ b a => Machine.Apart k.1 b.machine a)
    (b : Buffered ι) (tr : List (List (Seen ι))) (h : (lts dp o cap).run new acts = some (b, tr))
    (hdone : ∀ i, (b.machine.task i).writesFor k.1 = []) :
    ∃ stem, stem.key = k ∧
      Captures o stem (passed k (callsOn k.1 acts)) ((callsOn k.1 acts).any fun a => a.2.ends k)
        b.machine.log ∧
      (∃ buf, buf.length ≤ cap ∧ (b.file stem).onDisk ++ buf =
          Capture.headPart o.streamLimits.head.toNat (passed k (callsOn k.1 acts)) ∧
        ((callsOn k.1 acts).any (fun a => a.2.ends k) = true → buf = [])) ∧
      ∀ stem', stem'.key = k → stem' ≠ stem → (b.file stem').onDisk = [] := by
  obtain ⟨stem, hkey, hcaptures⟩ := Machine.interleaved_capture hcap hraw k acts hgood
    hends (throughout_machine h hapart) b.machine tr (run_machine dp o cap h) hdone
  obtain ⟨hagrees, hown⟩ := agrees_run_of_noFlush hgood (not_mem_flush h hapart) h
  refine ⟨stem, hkey, hcaptures, ?_, ?_⟩
  · obtain ⟨buf, hlen, hfile, hempty⟩ := hagrees.exists_buffer hown stem
    refine ⟨buf, hlen, hfile.trans (contents_captured hcaptures), ?_⟩
    intro hended
    apply hempty
    rintro ⟨st, hst, -⟩
    have hgone := hcaptures.stream
    rw [if_pos (.inr hended), hst] at hgone
    cases hgone
  · intro stem' hkey' hne
    have hnone : b.machine.log.disk.get (.head stem') = none := by
      rw [hcaptures.files (.head stem') (hkey'.trans hkey.symm), Logger.captured,
        if_neg fun hsame => hne hsame.1]
    have hcontent := hagrees.disk stem'
    rw [Disk.contents, hnone, Option.getD_none] at hcontent
    exact List.prefix_nil.mp (hcontent ▸ AppendFile.onDisk_prefix_content _)

theorem files_captured_two :
    ∃ b tr, (lts .bare ⟨true, true, 0, ⟨1, 0⟩, 0⟩ 8192).run new Machine.twoAtOnce =
        some (b, tr) ∧
      ∃ stem, stem.key = (1, .rx) ∧
        Captures ⟨true, true, 0, ⟨1, 0⟩, 0⟩ stem [1, 2] false b.machine.log ∧
        ∃ buf, (b.file stem).onDisk ++ buf = [1] := by
  have hrun : ∃ b tr, (lts .bare ⟨true, true, 0, ⟨1, 0⟩, 0⟩ 8192).run new Machine.twoAtOnce =
      some (b, tr) ∧ ∀ i, (b.machine.task i).writesFor 1 = [] := by
    refine ⟨_, _, rfl, ?_⟩
    intro i
    fin_cases i <;> rfl
  obtain ⟨b, tr, hrun, hdone⟩ := hrun
  have hgood : ∀ i e call, .call i e call ∈ Machine.twoAtOnce → e.Good := by
    intro i e call hmem
    simp only [Machine.twoAtOnce, List.mem_cons, Act.call.injEq, reduceCtorEq, List.not_mem_nil,
      or_false] at hmem
    rcases hmem with ⟨-, rfl, -⟩ | ⟨-, rfl, -⟩
    · exact Env.quiet_good
    · exact Env.quiet_good
  have hends : EndsLast (1, .rx) (callsOn 1 Machine.twoAtOnce) := by
    intro done a later hcalls hne b hb
    have hone : (done ++ a :: later).length = 1 := by
      rw [← hcalls]
      rfl
    rw [List.length_append, List.length_cons] at hone
    obtain rfl := List.length_eq_zero_iff.mp (by omega : done.length = 0)
    cases hb
  obtain ⟨stem, hkey, hcaptures, ⟨buf, -, hfile, -⟩, -⟩ := files_captured rfl rfl 8192 (1, .rx)
    Machine.twoAtOnce hgood hends (throughout_of_machine Machine.twoAtOnce_apart) b tr hrun hdone
  exact ⟨b, tr, hrun, stem, hkey, hcaptures, buf, hfile⟩

end Buffered

end KirbLaSnoop
