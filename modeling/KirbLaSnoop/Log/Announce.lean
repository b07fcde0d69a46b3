import Mathlib
import KirbLaSnoop.Log.Files
import KirbLaSnoop.Stream.Failure

/-!
# When the stream cap is announced

The console says that a stream exceeded its cap when the stream leaves its
head. The ring takes what comes then, and bytes are only lost once it is full.
The line comes with the first loss exactly when no call ends in between.
-/

namespace KirbLaSnoop

/-- A `raw_write` on one direction of one connection, or whatever else happens
to the logger and leaves that stream alone. -/
inductive StreamAct where
  | write (io : Io) (proto : Proto) (peer : String) (data : List UInt8)
  | elsewhere (t : Logger)

/-- What a call shows: whether it printed the line, and what the stream has
dropped by its end. -/
structure StreamSeen where
  announced : Bool
  dropped : ℕ
  deriving DecidableEq

namespace Logger

variable (o : Options) (k : Key)

def droppedOf (s : Logger) : ℕ := (s.raw.get k).elim 0 fun st => st.dropped

/-- The lines on the console that say this stream exceeded its cap. -/
def capLines (s : Logger) : ℕ := s.console.count (.streamCap k.1 k.2)

def streamActs : Lts Logger StreamAct StreamSeen where
  step s
    | .write io proto peer data =>
        let t := s.rawWrite o io k.1 proto peer k.2 data
        some (t, ⟨decide (s.capLines k < t.capLines k), t.droppedOf k⟩)
    | .elsewhere t =>
        if t.raw.get k = s.raw.get k then some (t, ⟨false, t.droppedOf k⟩) else none

/-- The call gets its bytes as far as the stream. -/
def reaches (io : Io) (data : List UInt8) (s : Logger) : Bool :=
  o.raw && !data.isEmpty && (s.charge o data.length).1 && ((s.raw.get k).isSome || io.headOpen)

/-- A call that takes the stream past its head takes it past its ring too. -/
def Leaps (s : Logger) : StreamAct → Prop
  | .write io _ _ data =>
      s.reaches o k io data → o.streamLimits.head.toNat ≠ 0 →
        s.totalOf k ≤ o.streamLimits.head.toNat →
          o.streamLimits.head.toNat < s.totalOf k + data.length →
            o.streamLimits.head.toNat + o.streamLimits.tail < s.totalOf k + data.length
  | .elsewhere _ => True

/-- The bytes `D` have gone through the stream; before the first there is
none. -/
def Carries (D : List UInt8) (s : Logger) : Prop :=
  (s.raw.get k = none ∧ D = []) ∨
    ∃ headPath tailPath, s.raw.get k = some (Stream.after headPath tailPath o.streamLimits D)

variable {o k} {D : List UInt8} {s t : Logger}

theorem Carries.congr (h : Carries o k D s) (hraw : t.raw.get k = s.raw.get k) :
    Carries o k D t := by
  unfold Carries
  rwa [hraw]

theorem Carries.totalOf_eq (h : Carries o k D s) : s.totalOf k = D.length := by
  rcases h with ⟨hnone, rfl⟩ | ⟨headPath, tailPath, hst⟩
  · rw [totalOf, hnone]
    rfl
  · rw [totalOf, hst]
    rfl

theorem Carries.droppedOf_eq (h : Carries o k D s) :
    s.droppedOf k = Capture.lost o.streamLimits.head.toNat o.streamLimits.tail D := by
  rcases h with ⟨hnone, rfl⟩ | ⟨headPath, tailPath, hst⟩
  · rw [droppedOf, hnone, Capture.lost_nil]
    rfl
  · rw [droppedOf, hst]
    rfl

/-! ## One call -/

theorem capLines_charge (n : ℕ) (s : Logger) : (s.charge o n).2.capLines k = s.capLines k := by
  unfold charge capLines
  split
  · rfl
  · split
    · rfl
    · dsimp only
      split
      · simp
      · rfl

/-- A call whose bytes do not reach the stream leaves it as it is. -/
theorem rawWrite_of_not_reaches {io : Io} {data : List UInt8} (h : ¬s.reaches o k io data)
    (proto : Proto) (peer : String) :
    (s.rawWrite o io k.1 proto peer k.2 data).raw.get k = s.raw.get k ∧
      (s.rawWrite o io k.1 proto peer k.2 data).capLines k = s.capLines k := by
  have hcharge := capLines_charge (o := o) (k := k) data.length s
  have hraw := charge_raw o data.length s
  unfold rawWrite
  split
  · exact ⟨rfl, rfl⟩
  · next hlive =>
      dsimp only
      split
      · next hgranted =>
          have hclosed : (s.raw.get k).isSome = false ∧ io.headOpen = false := by
            rw [← Bool.or_eq_false_iff, ← Bool.not_eq_true]
            intro hopen
            apply h
            rw [reaches, hgranted, hopen]
            simpa using hlive
          have hvacant : s.raw.get k = none := by simpa using hclosed.1
          have hnone : (s.charge o data.length).2.raw.get (k.1, k.2) = none := by
            rw [hraw, hvacant]
          simp only [rawLocked, hnone, Stream.create, hclosed.2, Bool.false_eq_true, if_false]
          refine ⟨hvacant.symm, ?_⟩
          rw [← hcharge]
          simp [capLines]
      · exact ⟨congrArg (fun r => Table.get r k) hraw, hcharge⟩

/-- The state of the stream and the line depend on the history alone. -/
theorem rawLocked_carries {io : Io} {data : List UInt8} (hD : Carries o k D s)
    (hopen : ((s.raw.get k).isSome || io.headOpen) = true) (proto : Proto) (peer : String) :
    ∃ headPath tailPath disk, s.rawLocked o io k.1 proto peer k.2 data =
      { s with
        raw := s.raw.set k (Stream.after headPath tailPath o.streamLimits (D ++ data))
        disk := disk
        console := if passesCap o D data then s.console ++ [.streamCap k.1 k.2]
          else s.console } := by
  rcases hD with ⟨hnone, rfl⟩ | ⟨headPath, tailPath, hst⟩
  · have hget : s.raw.get (k.1, k.2) = none := hnone
    have hheadOpen : io.headOpen = true := by simpa [hnone] using hopen
    obtain ⟨stem, hstem⟩ : ∃ stem, Stem.of k.1 proto peer k.2 = stem := ⟨_, rfl⟩
    have hfirst := Stream.write_any_first (.head stem) (.tail stem) o.streamLimits [] data io
      (s.disk.openAppend (.head stem))
    have hstate := Stream.write_any_state (.head stem) (.tail stem) o.streamLimits [] data io
      (s.disk.openAppend (.head stem))
    refine ⟨.head stem, .tail stem,
      ((Stream.after (.head stem) (.tail stem) o.streamLimits []).write io
        (s.disk.openAppend (.head stem)) data).2.2, ?_⟩
    have hcreate : Stream.create io (.head stem) (.tail stem) o.streamLimits s.disk =
        some (Stream.after (.head stem) (.tail stem) o.streamLimits [],
          s.disk.openAppend (.head stem)) := by
      simp [Stream.create, hheadOpen, Stream.after]
    rw [← hstate, passesCap, ← hfirst]
    simp only [rawLocked, hstem, hget, hcreate]
  · have hget : s.raw.get (k.1, k.2) = _ := hst
    have hfirst := Stream.write_any_first headPath tailPath o.streamLimits D data io s.disk
    have hstate := Stream.write_any_state headPath tailPath o.streamLimits D data io s.disk
    refine ⟨headPath, tailPath,
      ((Stream.after headPath tailPath o.streamLimits D).write io s.disk data).2.2, ?_⟩
    rw [← hstate, passesCap, ← hfirst]
    simp only [rawLocked, hget]

theorem rawWrite_of_reaches {io : Io} {data : List UInt8} (h : s.reaches o k io data)
    (hD : Carries o k D s) (proto : Proto) (peer : String) :
    Carries o k (D ++ data) (s.rawWrite o io k.1 proto peer k.2 data) ∧
      (s.rawWrite o io k.1 proto peer k.2 data).capLines k =
        s.capLines k + if passesCap o D data then 1 else 0 := by
  simp only [reaches, Bool.and_eq_true, Bool.not_eq_true'] at h
  obtain ⟨⟨⟨hraw, hdata⟩, hgranted⟩, hopen⟩ := h
  have hcharge := capLines_charge (o := o) (k := k) data.length s
  have hcharged := charge_raw o data.length s
  have hwrite : s.rawWrite o io k.1 proto peer k.2 data =
      (s.charge o data.length).2.rawLocked o io k.1 proto peer k.2 data := by
    simp only [rawWrite, hraw, hdata, hgranted, Bool.not_true, Bool.or_self, Bool.false_eq_true,
      if_false, if_true]
  have hcarries : Carries o k D (s.charge o data.length).2 := hD.congr (by rw [hcharged])
  obtain ⟨headPath, tailPath, disk, hlocked⟩ := @rawLocked_carries o k D _ io data hcarries
    (by rw [hcharged]; exact hopen) proto peer
  rw [hwrite, hlocked, ← hcharge]
  refine ⟨.inr ⟨headPath, tailPath, Table.get_set _ _ _⟩, ?_⟩
  unfold capLines
  split
  · simp
  · rfl

/-- One call, seen from the stream: the history grows or stays, and the line
is printed when it passes the head cap. -/
theorem step_carries (hD : Carries o k D s) {a : StreamAct} {seen : StreamSeen}
    (hstep : (streamActs o k).step s a = some (t, seen)) :
    ∃ data, Carries o k (D ++ data) t ∧ (seen.announced = true ↔ passesCap o D data) ∧
      seen.dropped = t.droppedOf k ∧
      (s.Leaps o k a ↔ (passesCap o D data →
        o.streamLimits.head.toNat + o.streamLimits.tail < (D ++ data).length)) := by
  have hstill : ¬passesCap o D [] = true := by
    simp [passesCap]
  cases a with
  | write io proto peer data =>
      cases hstep
      by_cases hreaches : s.reaches o k io data
      · obtain ⟨hcarries, hlines⟩ := rawWrite_of_reaches hreaches hD proto peer
        refine ⟨data, hcarries, ?_, rfl, ?_⟩
        · rw [hlines]
          cases passesCap o D data <;> simp
        · simp only [Leaps, hreaches, hD.totalOf_eq, passesCap, decide_eq_true_eq,
            List.length_append, and_imp, true_imp_iff]
      · obtain ⟨hraw, hlines⟩ := rawWrite_of_not_reaches hreaches proto peer
        refine ⟨[], ?_, ?_, rfl, ?_⟩
        · rw [List.append_nil]
          exact hD.congr hraw
        · simpa [hlines] using hstill
        · exact iff_of_true (fun h => absurd h hreaches) fun h => absurd h hstill
  | elsewhere u =>
      simp only [streamActs, Option.ite_none_right_eq_some, Option.some.injEq,
        Prod.mk.injEq] at hstep
      obtain ⟨hraw, rfl, rfl⟩ := hstep
      refine ⟨[], ?_, ?_, rfl, ?_⟩
      · rw [List.append_nil]
        exact hD.congr hraw
      · simpa using hstill
      · exact iff_of_true trivial fun h => absurd h hstill

/-! ## Whole runs -/

theorem shows_dropped : (streamActs o k).Shows (fun u => ∃ D, Carries o k D u) (droppedOf k)
    StreamSeen.dropped := by
  rintro u a v seen ⟨D, hD⟩ hstep
  obtain ⟨data, hD', -, hdropped, -⟩ := step_carries hD hstep
  refine ⟨⟨_, hD'⟩, ?_, hdropped⟩
  rw [hD.droppedOf_eq, hD'.droppedOf_eq]
  exact Capture.lost_le_append _ _ _ _

/-- The first loss happens in a step that takes the history past the ring. -/
theorem loses_iff {D' : List UInt8} (hD : Carries o k D s) (hD' : Carries o k D' t) :
    (s.droppedOf k = 0 ∧ 0 < t.droppedOf k) ↔ o.streamLimits.head.toNat ≠ 0 ∧
      D.length ≤ o.streamLimits.head.toNat + o.streamLimits.tail ∧
        o.streamLimits.head.toNat + o.streamLimits.tail < D'.length := by
  rw [Nat.pos_iff_ne_zero, hD.droppedOf_eq, hD'.droppedOf_eq, ne_eq, Capture.lost_eq_zero_iff,
    Capture.lost_eq_zero_iff]
  omega

/-- While every step leaps, the stream is never found between its head and
its loss. -/
theorem never_between {acts : List StreamAct} {tr : List StreamSeen} (hs : s.raw.get k = none)
    (hrun : (streamActs o k).run s acts = some (t, tr))
    (hleaps : (streamActs o k).Throughout s acts fun _ u a => u.Leaps o k a) :
    ∃ D, Carries o k D t ∧ (D.length ≤ o.streamLimits.head.toNat ∨
      o.streamLimits.head.toNat + o.streamLimits.tail < D.length ∨
        o.streamLimits.head.toNat = 0) := by
  refine (streamActs o k).run_induction (fun _ u _ => ∃ D, Carries o k D u ∧
    (D.length ≤ o.streamLimits.head.toNat ∨
      o.streamLimits.head.toNat + o.streamLimits.tail < D.length ∨
        o.streamLimits.head.toNat = 0)) ⟨[], .inl ⟨hs, rfl⟩, .inl (Nat.zero_le _)⟩ ?_ hrun
  rintro as a rest u os v seen hacts hpre ⟨D, hD, hwhere⟩ hstep
  obtain ⟨data, hD', -, -, hleap⟩ := step_carries hD hstep
  have hpast := hleap.mp (hleaps as a rest u os hacts hpre)
  refine ⟨_, hD', ?_⟩
  simp only [passesCap, decide_eq_true_eq, List.length_append] at hpast ⊢
  omega

/-- The line is printed by the first call after which bytes have been dropped
and by no other. -/
def AnnouncesLoss (tr : List StreamSeen) : Prop :=
  ∀ (i : ℕ) (seen : StreamSeen), tr[i]? = some seen → (seen.announced = true ↔
    IsLeast {j | ∃ seen' : StreamSeen, tr[j]? = some seen' ∧ 0 < seen'.dropped} i)

/-- The line comes with the first call that loses bytes, and never without
loss, if and only if every call that takes the stream past its head takes it
past its ring too. -/
theorem announced_with_loss_iff (o : Options) (k : Key) (s : Logger) (hs : s.raw.get k = none)
    (acts : List StreamAct) (t : Logger) (tr : List StreamSeen)
    (hrun : (streamActs o k).run s acts = some (t, tr)) :
    (AnnouncesLoss tr ∧ (t.droppedOf k = 0 → ∀ seen ∈ tr, seen.announced = false)) ↔
      (streamActs o k).Throughout s acts fun _ u a => u.Leaps o k a := by
  have hcarries : ∃ D, Carries o k D s := ⟨[], .inl ⟨hs, rfl⟩⟩
  have hzero : s.droppedOf k = 0 := by
    rw [droppedOf, hs]
    rfl
  have hshows : (streamActs o k).Shows _ _ _ := shows_dropped
  constructor
  · rintro ⟨hfirst, -⟩ as a rest u pre rfl hpre
    obtain ⟨u', pre', post', has, hrest, rfl⟩ := (streamActs o k).run_append_eq_some.mp hrun
    cases hpre.symm.trans has
    obtain ⟨v, seen, post, hstep, -, rfl⟩ := (streamActs o k).run_cons_eq_some.mp hrest
    obtain ⟨D, hD⟩ := (hshows.zero_iff hcarries hzero hpre).1
    obtain ⟨data, hD', hannounced, -, hleap⟩ := step_carries hD hstep
    have hcoincide := hfirst pre.length seen (by simp)
    rw [hshows.isLeast_iff hcarries hzero hpre hstep, loses_iff hD hD', hannounced] at hcoincide
    rw [hleap]
    intro hpasses
    exact (hcoincide.mp hpasses).2.2
  · intro hleaps
    have hfirst : AnnouncesLoss tr := by
      intro i seen hi
      obtain ⟨hlt, hget⟩ := List.getElem?_eq_some_iff.mp hi
      obtain ⟨pre, post, rfl, rfl⟩ : ∃ pre post, tr = pre ++ seen :: post ∧ pre.length = i := by
        refine ⟨tr.take i, tr.drop (i + 1), ?_, List.length_take_of_le hlt.le⟩
        rw [← hget, List.getElem_cons_drop, List.take_append_drop]
      obtain ⟨as, a, rest, u, v, rfl, hpre, hstep, -⟩ := (streamActs o k).run_split hrun
      have hbefore : (streamActs o k).Throughout s as fun _ u a => u.Leaps o k a := by
        intro bs b rest' w os hbs hw
        refine hleaps bs b (rest' ++ a :: rest) w os ?_ hw
        rw [hbs, List.append_assoc, List.cons_append]
      obtain ⟨D, hD, hwhere⟩ := never_between hs hpre hbefore
      obtain ⟨data, hD', hannounced, -, hleap⟩ := step_carries hD hstep
      have hpast := hleap.mp (hleaps as a rest u pre rfl hpre)
      rw [hshows.isLeast_iff hcarries hzero hpre hstep, loses_iff hD hD', hannounced]
      simp only [passesCap, decide_eq_true_eq, List.length_append] at hpast ⊢
      omega
    refine ⟨hfirst, fun hnone seen hseen => ?_⟩
    by_contra hannounced
    obtain ⟨i, hi, rfl⟩ := List.mem_iff_getElem.mp hseen
    have hleast := (hfirst i tr[i] (List.getElem?_eq_getElem hi)).mp (by simpa using hannounced)
    obtain ⟨seen', hseen', hpos⟩ := hleast.1
    cases (List.getElem?_eq_getElem hi).symm.trans hseen'
    have hle := hshows.le_final hcarries hrun tr[i] hseen
    omega

/-- Without a ring the line and the loss come together. -/
theorem announced_with_loss_iff_no_tail :
    ∃ t tr, (streamActs (.rawOnly ⟨1, 0⟩ 0) (1, .rx)).run new
        [.write .ok .tcp "127.0.0.1:4000" [1], .write .ok .tcp "127.0.0.1:4000" [2, 3]] =
          some (t, tr) ∧
      tr = [⟨false, 0⟩, ⟨true, 2⟩] ∧ AnnouncesLoss tr := by
  obtain ⟨t, tr, hrun, htr⟩ : ∃ t tr, (streamActs (.rawOnly ⟨1, 0⟩ 0) (1, .rx)).run new
      [.write .ok .tcp "127.0.0.1:4000" [1], .write .ok .tcp "127.0.0.1:4000" [2, 3]] =
        some (t, tr) ∧ tr = [⟨false, 0⟩, ⟨true, 2⟩] :=
    ⟨_, _, rfl, by decide +kernel⟩
  refine ⟨t, tr, hrun, htr, ((announced_with_loss_iff (.rawOnly ⟨1, 0⟩ 0) (1, .rx) new
    (Table.get_empty _) _ t tr hrun).mpr ?_).1⟩
  intro as a rest u pre _ _
  cases a with
  | write io proto peer data => exact fun _ _ _ hpast => hpast
  | elsewhere u => trivial

/-- One byte past the head goes to the ring. The line is printed, and nothing
is lost. -/
theorem not_announced_with_loss :
    ¬∀ (o : Options) (k : Key) (s : Logger), s.raw.get k = none →
      ∀ (acts : List StreamAct) (t : Logger) (tr : List StreamSeen),
        (streamActs o k).run s acts = some (t, tr) →
          AnnouncesLoss tr ∧ (t.droppedOf k = 0 → ∀ seen ∈ tr, seen.announced = false) := by
  intro hall
  obtain ⟨t, tr, hrun, htr⟩ : ∃ t tr, (streamActs (.rawOnly ⟨1, 1⟩ 0) (1, .rx)).run new
      [.write .ok .tcp "127.0.0.1:4000" [1, 2]] = some (t, tr) ∧ tr = [⟨true, 0⟩] :=
    ⟨_, _, rfl, by decide +kernel⟩
  have hfirst := (hall (.rawOnly ⟨1, 1⟩ 0) (1, .rx) new (Table.get_empty _) _ t tr hrun).1
  rw [htr] at hfirst
  obtain ⟨seen, hseen, hpos⟩ := ((hfirst 0 ⟨true, 0⟩ rfl).mp rfl).1
  cases hseen
  exact Nat.lt_irrefl 0 hpos

end Logger

end KirbLaSnoop
