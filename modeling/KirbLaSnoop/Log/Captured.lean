import Mathlib
import KirbLaSnoop.Log.Accounting
import KirbLaSnoop.Log.Names

/-!
# The files of one stream

Without i/o errors the files named by a key are those of one capture: its head
as it comes in, and its tail once the stream has ended. With a run cap it is
the capture of the bytes that came before the cap was hit.
-/

namespace KirbLaSnoop

def FileName.key (p : FileName) : Key := p.stem.key

/-- The calls that end the stream of a key. -/
def Call.ends (k : Key) : Call → Bool
  | .close _ _ conn _ _ => decide (conn = k.1)
  | .flush _ => true
  | _ => false

namespace Logger

variable (dp : Deps) (o : Options)

/-- What a capture of `D` under a stem leaves in a file. -/
def captured (stem : Stem) (D : List UInt8) (ended : Bool) : FileName → Option (List UInt8)
  | .head st =>
      if st = stem ∧ D ≠ [] then some (Capture.headPart o.streamLimits.head.toNat D) else none
  | .tail st =>
      let tail := Capture.tailPart o.streamLimits.head.toNat o.streamLimits.tail D
      if st = stem ∧ ended = true ∧ tail ≠ [] then some tail else none

/-- The stream and the files of the stem's key are those of a capture of `D`. -/
structure Captures (stem : Stem) (D : List UInt8) (ended : Bool) (s : Logger) : Prop where
  stream : s.raw.get stem.key =
    if D = [] ∨ ended = true then none
    else some (Stream.after (.head stem) (.tail stem) o.streamLimits D)
  files : ∀ p : FileName, p.key = stem.key → s.disk.get p = captured o stem D ended p

variable {o} {stem : Stem} {D : List UInt8} {ended : Bool} {s t : Logger}

theorem captured_nil (stem : Stem) (ended : Bool) (p : FileName) :
    captured o stem [] ended p = none := by
  cases p with
  | head st => exact if_neg fun h => h.2 rfl
  | tail st => exact if_neg fun h => h.2.2 (Capture.tailPart_nil _ _)

theorem captures_new (stem : Stem) : Captures o stem [] ended new where
  stream := (Table.get_empty _).trans (if_pos (.inl rfl)).symm
  files p _ := (Table.get_empty p).trans (captured_nil stem ended p).symm

theorem Captures.congr (h : Captures o stem D ended s) (hraw : t.raw = s.raw)
    (hdisk : t.disk = s.disk) : Captures o stem D ended t := by
  constructor
  · rw [hraw]
    exact h.stream
  · rw [hdisk]
    exact h.files

/-- A stream that has not begun may still get any stem of its key. -/
theorem Captures.rename (h : Captures o stem [] ended s) {stem' : Stem}
    (hkey : stem'.key = stem.key) : Captures o stem' [] ended s := by
  constructor
  · rw [hkey]
    exact h.stream
  · intro p hp
    rw [h.files p (hp.trans hkey), captured_nil, captured_nil]

theorem Captures.backed (h : Captures o stem D false s) (hD : D ≠ []) : Backed o stem [] D s := by
  constructor
  · rw [h.stream, if_neg (by simp [hD])]
  · rw [h.files (.head stem) rfl, captured, if_pos ⟨rfl, hD⟩, List.nil_append]

theorem Captures.eq_nil_or_ended (h : Captures o stem D ended s)
    (hnone : s.raw.get stem.key = none) : D = [] ∨ ended = true := by
  by_contra hlive
  have hstream := h.stream
  rw [if_neg hlive, hnone] at hstream
  cases hstream

/-- Nothing is left to end where no stream is open. -/
theorem Captures.end_vacant (h : Captures o stem D ended s)
    (hnone : s.raw.get stem.key = none) : Captures o stem D true s := by
  rcases h.eq_nil_or_ended hnone with rfl | rfl
  · refine ⟨hnone.trans (if_pos (.inl rfl)).symm, ?_⟩
    intro p hp
    rw [h.files p hp, captured_nil, captured_nil]
  · exact h

theorem Captures.wrote_ne (h : Captures o stem D ended s) {stem' : Stem}
    (hne : stem'.key ≠ stem.key) (old E : List UInt8) (first : Bool) :
    Captures o stem D ended (s.wrote o stem' old E first) := by
  constructor
  · exact (Table.get_set_ne _ _ (Ne.symm hne)).trans h.stream
  · intro p hp
    have hfile : p ≠ .head stem' := by
      rintro rfl
      exact hne hp
    exact (Table.get_set_ne _ _ hfile).trans (h.files p hp)

theorem Captures.wrote (h : Captures o stem D false s) {bs : List UInt8} (hbs : bs ≠ [])
    (first : Bool) : Captures o stem (D ++ bs) false (s.wrote o stem [] (D ++ bs) first) := by
  have hD : D ++ bs ≠ [] := List.append_ne_nil_of_right_ne_nil D hbs
  constructor
  · exact (Table.get_set _ _ _).trans (if_neg (by simp [hD])).symm
  · intro p hp
    by_cases hfile : p = .head stem
    · subst hfile
      rw [captured, if_pos ⟨rfl, hD⟩]
      exact Table.get_set _ _ _
    · refine (Table.get_set_ne _ _ hfile).trans ((h.files p hp).trans ?_)
      cases p with
      | head st =>
          have hst : st ≠ stem := fun heq => hfile (congrArg FileName.head heq)
          rw [captured, captured, if_neg fun heq => hst heq.1, if_neg fun heq => hst heq.1]
      | tail st =>
          simp only [captured, Bool.false_eq_true, false_and, and_false, if_false]

/-- A locked write of some bytes goes on with the capture, or begins it. -/
theorem Captures.rawLocked (h : Captures o stem D false s) {k : Key} (hkey : stem.key = k)
    {bs : List UInt8} (hbs : bs ≠ []) (proto : Proto) (peer : String) :
    ∃ stem', stem'.key = k ∧
      Captures o stem' (D ++ bs) false (s.rawLocked o .ok k.1 proto peer k.2 bs) := by
  subst hkey
  by_cases hD : D = []
  · subst hD
    have hnone : s.raw.get (stem.conn, stem.dir) = none := h.stream.trans (if_pos (.inl rfl))
    have hnew : Captures o (Stem.of stem.conn proto peer stem.dir) [] false s := h.rename rfl
    refine ⟨Stem.of stem.conn proto peer stem.dir, rfl, ?_⟩
    have hempty : s.disk.contents (.head (Stem.of stem.conn proto peer stem.dir)) = [] := by
      rw [Disk.contents, hnew.files (.head (Stem.of stem.conn proto peer stem.dir)) rfl,
        captured_nil, Option.getD_none]
    have hlocked := rawLocked_vacant o hnone proto peer bs
    rw [hempty] at hlocked
    exact hlocked ▸ hnew.wrote hbs _
  · exact ⟨stem, rfl, rawLocked_open o (h.backed hD) proto peer bs ▸ h.wrote hbs _⟩

/-! ## Ending -/

theorem Captures.closed_ne (h : Captures o stem D ended s) {stem' : Stem}
    (hne : stem'.key ≠ stem.key) (E : List UInt8) :
    Captures o stem D ended (s.closed o stem' E) := by
  constructor
  · exact (Table.get_remove_ne _ (Ne.symm hne)).trans h.stream
  · intro p hp
    have hfile : p ≠ .tail stem' := by
      rintro rfl
      exact hne hp
    dsimp only [Logger.closed]
    split
    · exact h.files p hp
    · exact (Table.get_set_ne _ _ hfile).trans (h.files p hp)

theorem Captures.closed (h : Captures o stem D false s) :
    Captures o stem D true (s.closed o stem D) := by
  constructor
  · exact (Table.get_remove _ _).trans (if_pos (.inr rfl)).symm
  · intro p hp
    have hold := h.files p hp
    dsimp only [Logger.closed]
    cases p with
    | head st =>
        rw [captured]
        split
        · exact hold
        · exact (Table.get_set_ne _ _ (by simp)).trans hold
    | tail st =>
        simp only [captured, Bool.false_eq_true, false_and, and_false, if_false] at hold
        by_cases hst : st = stem
        · subst hst
          by_cases htail : Capture.tailPart o.streamLimits.head.toNat o.streamLimits.tail D = []
          · simpa [captured, htail] using hold
          · rw [if_neg htail, captured, if_pos ⟨rfl, rfl, htail⟩, Table.get_set]
        · have hnone : captured o stem D true (.tail st) = none := if_neg fun h => hst h.1
          rw [hnone]
          split
          · exact hold
          · exact (Table.get_set_ne _ _ (by simpa using hst)).trans hold

theorem Captures.finishAll (h : Captures o stem D ended s) (hwf : Wf o s) {e : Env} (he : e.Good)
    (ks : List Key) :
    Captures o stem D (ended || decide (stem.key ∈ ks)) (s.finishAll e ks).2 := by
  induction ks generalizing s ended with
  | nil => simpa [Logger.finishAll] using h
  | cons k ks ih =>
      cases hget : s.raw.get k with
      | none =>
          rw [finishAll_cons_none hget]
          by_cases hk : stem.key = k
          · simpa [hk] using ih (h.end_vacant (hk ▸ hget)) hwf
          · simpa [hk] using ih h hwf
      | some st =>
          obtain ⟨stem', old, E, rfl, hb⟩ := hwf k st hget
          by_cases hk : stem.key = stem'.key
          · have hlive : ¬(D = [] ∨ ended = true) := by
              intro hend
              have hstream := h.stream
              rw [if_pos hend, hk, hget] at hstream
              cases hstream
            obtain ⟨hD, hend⟩ := not_or.mp hlive
            obtain rfl := Bool.not_eq_true ended ▸ hend
            rw [← hk, finishAll_cons_backed o he (h.backed hD)]
            simpa [hk] using ih h.closed (hwf.closed o stem D)
          · rw [finishAll_cons_backed o he hb]
            simpa [hk] using ih (h.closed_ne (Ne.symm hk) E) (hwf.closed o stem' E)

/-! ## The run cap -/

/-- A request is granted while the cap is not hit; refused, it has hit it. -/
theorem charge_granted_or_stopped (n : ℕ) (s : Logger) :
    (s.charge o n).1 = true ∧ (o.maxRunBytes = 0 ∨ s.diskStopped = false) ∨
      (s.charge o n).1 = false ∧ o.maxRunBytes ≠ 0 ∧ (s.charge o n).2.diskStopped = true := by
  by_cases hcap : o.maxRunBytes = 0
  · exact .inl ⟨by rw [charge_uncapped o hcap], .inl hcap⟩
  · cases hstop : s.diskStopped with
    | true => exact .inr ⟨by simp [charge, hcap, hstop], hcap, by simp [charge, hcap, hstop]⟩
    | false =>
        by_cases hover : s.diskUsed + n > o.maxRunBytes
        · exact .inr ⟨by simp [charge, hcap, hstop, hover], hcap,
            by simp [charge, hcap, hstop, hover]⟩
        · exact .inl ⟨by simp [charge, hcap, hstop, hover], .inr rfl⟩

theorem stopped_charge {n : ℕ} (h : (s.charge o n).2.diskStopped = false) :
    s.diskStopped = false := by
  rcases charge_granted_or_stopped (o := o) n s with ⟨-, hcap | hstop⟩ | ⟨-, -, hstop⟩
  · rwa [charge_uncapped o hcap] at h
  · exact hstop
  · rw [hstop] at h
    cases h

theorem stopped_run (w : Write) (h : (w.run dp o s).diskStopped = false) :
    s.diskStopped = false := by
  have hsay : (w.say s).diskStopped = s.diskStopped :=
    congrArg Budget.Counter.stopped (w.counter_say s)
  rcases w.run_cases dp o s with ⟨-, hrun⟩ | ⟨-, -, hrun⟩ | ⟨-, -, hrun⟩
  · rwa [hrun, hsay] at h
  · rw [hrun] at h
    exact hsay ▸ stopped_charge h
  · have hperform := congrArg Budget.Counter.stopped
      (w.counter_perform o ((w.say s).charge o (w.cost dp)).2)
    rw [hrun] at h
    exact hsay ▸ stopped_charge (hperform.symm.trans h)

theorem stopped_exec (e : Env) (c : Call) (h : (s.exec dp o e c).diskStopped = false) :
    s.diskStopped = false := by
  have hwrites : ∀ (ws : List Write) (s : Logger),
      (ws.foldl (fun s w => w.run dp o s) s).diskStopped = false → s.diskStopped = false := by
    intro ws
    induction ws with
    | nil => exact fun _ h => h
    | cons w ws ih => exact fun s h => stopped_run dp w (ih _ h)
  obtain ⟨console, hsettle⟩ := c.settle_eq_with o e s
  rw [Call.exec_eq] at h
  have hsettled := hwrites _ _ h
  rw [hsettle] at hsettled
  exact (congrArg Budget.Counter.stopped (counter_finishAll e (c.finishes o) s)).symm.trans
    hsettled

/-! ## Calls -/

/-- The capture of a key to which `P` has been passed is one of all of it, or
of its beginning if the run cap was hit. -/
def Keeps (o : Options) (k : Key) (P : List UInt8) (ended : Bool) (s : Logger) : Prop :=
  ∃ stem D, stem.key = k ∧ Captures o stem D ended s ∧ D <+: P ∧
    (o.maxRunBytes = 0 ∨ s.diskStopped = false → D = P)

variable {k : Key} {P : List UInt8}

theorem keeps_new (k : Key) : Keeps o k [] ended new :=
  ⟨⟨k.1, .tcp, "", k.2⟩, [], rfl, captures_new _, List.prefix_rfl, fun _ => rfl⟩

theorem Keeps.congr (h : Keeps o k P ended s) (hraw : t.raw = s.raw) (hdisk : t.disk = s.disk)
    (hstop : t.diskStopped = false → s.diskStopped = false) : Keeps o k P ended t := by
  obtain ⟨stem, D, hkey, hcap, hpre, hall⟩ := h
  exact ⟨stem, D, hkey, hcap.congr hraw hdisk, hpre, fun hs => hall (hs.imp_right hstop)⟩

theorem Keeps.rawWrite (hraw : o.raw = true) (h : Keeps o k P false s) (proto : Proto)
    (peer : String) (bs : List UInt8) :
    Keeps o k (P ++ bs) false (s.rawWrite o .ok k.1 proto peer k.2 bs) := by
  obtain ⟨stem, D, hkey, hcap, hpre, hall⟩ := h
  by_cases hbs : bs = []
  · subst hbs
    rw [List.append_nil]
    exact ⟨stem, D, hkey, by simpa [Logger.rawWrite] using hcap, hpre,
      by simpa [Logger.rawWrite] using hall⟩
  · have hcharged : Captures o stem D false (s.charge o bs.length).2 :=
      hcap.congr (charge_raw o _ _) (charge_disk o _ _)
    rcases charge_granted_or_stopped (o := o) bs.length s with
      ⟨hgranted, hlive⟩ | ⟨hrefused, hno, hstop⟩
    · have hrun : s.rawWrite o .ok k.1 proto peer k.2 bs =
          (s.charge o bs.length).2.rawLocked o .ok k.1 proto peer k.2 bs := by
        simp [Logger.rawWrite, hraw, hbs, hgranted]
      obtain ⟨stem', hkey', hcap'⟩ := hcharged.rawLocked hkey hbs proto peer
      obtain rfl := hall hlive
      exact ⟨stem', D ++ bs, hkey', hrun ▸ hcap', List.prefix_rfl, fun _ => rfl⟩
    · have hrun : s.rawWrite o .ok k.1 proto peer k.2 bs = (s.charge o bs.length).2 := by
        simp [Logger.rawWrite, hraw, hbs, hrefused]
      refine ⟨stem, D, hkey, hrun ▸ hcharged, hpre.trans (List.prefix_append P bs), ?_⟩
      rintro (hzero | hgoing)
      · exact absurd hzero hno
      · rw [hrun, hstop] at hgoing
        cases hgoing

theorem Keeps.rawWrite_ne (h : Keeps o k P ended s) (hwf : Wf o s) {conn : ℕ} {dir : Dir}
    (hne : (conn, dir) ≠ k) (proto : Proto) (peer : String) (bs : List UInt8) :
    Keeps o k P ended (s.rawWrite o .ok conn proto peer dir bs) := by
  obtain ⟨stem, D, rfl, hcap, hpre, hall⟩ := h
  rw [← Write.run_raw .bare o]
  have hstop := stopped_run .bare (o := o) (s := s) (.raw .ok conn proto peer dir bs)
  refine ⟨stem, D, rfl, ?_, hpre, fun hs => hall (hs.imp_right hstop)⟩
  rcases Write.run_cases .bare o (.raw .ok conn proto peer dir bs) s with
    ⟨-, hrun⟩ | ⟨-, -, hrun⟩ | ⟨-, -, hrun⟩
  · exact hrun ▸ hcap
  · exact hrun ▸ hcap.congr (charge_raw o _ _) (charge_disk o _ _)
  · rw [hrun]
    have hcharged := hwf.charged .bare o (.raw .ok conn proto peer dir bs)
    obtain ⟨stem', old, E, hkey, hlocked, -⟩ := hcharged.rawLocked_eq o conn proto peer dir bs
    rw [Write.perform, hlocked]
    exact (hcap.congr (charge_raw o _ _) (charge_disk o _ _)).wrote_ne (hkey ▸ hne) old _ _

/-- A call that is no data ends the streams that it finishes. -/
theorem Keeps.notData (hraw : o.raw = true) (h : Keeps o k P ended s) (hwf : Wf o s) {e : Env}
    (he : e.Good) {c : Call} (hposs : c.Possible s)
    (hc : ∀ proto name conn peer dir bs rule, c ≠ .data proto name conn peer dir bs rule) :
    Keeps o k P (ended || c.ends k) (s.exec dp o e c) := by
  obtain ⟨stem, D, rfl, hcap, hpre, hall⟩ := h
  obtain ⟨hfraw, hfdisk⟩ := exec_files_of_not_data dp o e c s hc
  refine ⟨stem, D, rfl, ?_, hpre, fun hs => hall (hs.imp_right (stopped_exec dp e c))⟩
  apply Captures.congr ?_ hfraw hfdisk
  have hfinished := hcap.finishAll hwf he (c.finishes o)
  cases c with
  | data proto name conn peer dir bs rule => exact absurd rfl (hc _ _ _ _ _ _ _)
  | close proto name conn peer why =>
      have hmem : stem.key ∈ (Call.close proto name conn peer why).finishes o ↔
          conn = stem.key.1 := by
        obtain ⟨conn', proto', safe, dir⟩ := stem
        cases dir <;> simp [Call.finishes, Stem.key, hraw, eq_comm]
      simpa only [Call.ends, hmem] using hfinished
  | flush order =>
      rw [Call.ends, Bool.or_true]
      by_cases hmem : stem.key ∈ order
      · rw [Call.finishes, decide_eq_true hmem, Bool.or_true] at hfinished
        exact hfinished
      · have hnone : s.raw.get stem.key = none := by
          rw [Table.get_eq_none, ← Finmap.mem_keys, ← (hposs order rfl).2, List.mem_toFinset]
          exact hmem
        have hstill : (s.finishAll e order).2.raw.get stem.key = none := by
          rw [get_raw_finishAll, if_neg hmem]
          exact hnone
        exact hfinished.end_vacant hstill
  | _ => simpa [Call.finishes, Call.ends] using hfinished

theorem Keeps.exec (hraw : o.raw = true) (h : Keeps o k P ended s) (hwf : Wf o s) {e : Env}
    (he : e.Good) {c : Call} (hposs : c.Possible s) (hlate : ended = true → c.bytesFor k = []) :
    Keeps o k (P ++ c.bytesFor k) (ended || c.ends k) (s.exec dp o e c) := by
  by_cases hc : ∀ proto name conn peer dir bs rule, c ≠ .data proto name conn peer dir bs rule
  · have hnone : c.bytesFor k = [] := by
      cases c with
      | data proto name conn peer dir bs rule => exact absurd rfl (hc _ _ _ _ _ _ _)
      | _ => rfl
    rw [hnone, List.append_nil]
    exact h.notData dp hraw hwf he hposs hc
  · push Not at hc
    obtain ⟨proto, name, conn, peer, dir, bs, rule, rfl⟩ := hc
    obtain ⟨hfraw, hfdisk⟩ := exec_files_of_data dp o e proto name conn peer dir bs rule s
    have hstop : (s.exec dp o e (.data proto name conn peer dir bs rule)).diskStopped = false →
        (s.rawWrite o (e.io (conn, dir)) conn proto peer dir bs).diskStopped = false := by
      intro hs
      apply stopped_run dp (.event none (dataEvent dp o e proto name conn peer dir bs rule))
      rw [Write.run_event]
      exact hs
    rw [he (conn, dir)] at hfraw hfdisk hstop
    apply Keeps.congr ?_ hfraw hfdisk hstop
    have hends : (Call.data proto name conn peer dir bs rule).ends k = false := rfl
    rw [hends, Bool.or_false]
    by_cases hk : (conn, dir) = k
    · subst hk
      rw [Call.bytesFor, if_pos rfl] at hlate ⊢
      cases ended with
      | false => exact h.rawWrite hraw proto peer bs
      | true =>
          rw [hlate rfl, List.append_nil]
          simpa [Logger.rawWrite] using h
    · rw [Call.bytesFor, if_neg hk, List.append_nil]
      exact h.rawWrite_ne hwf hk proto peer bs

end Logger

end KirbLaSnoop
