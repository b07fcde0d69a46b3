import Mathlib
import KirbLaSnoop.Log.Buffered

/-!
# When a head file is a prefix of its stream

A head file is opened for appending, and the cap on it is counted in the
stream, not in the file. A stream that is created a second time therefore
continues the file from wherever the first one left it, and what its writer
puts on disk may overtake what the first one's writer still holds. The file
stays a prefix of the stream as long as neither comes about.
-/

namespace KirbLaSnoop

namespace Logger

variable (dp : Deps) (o : Options)

/-- Every head file, with all its writers hold, is a prefix of what was passed
for its stream, and an open stream has written all that its cap allows. -/
structure Faithful (P : Key → List UInt8) (s : Logger) : Prop where
  off : o.raw = false → ∀ k, s.raw.get k = none
  backed : ∀ k st, s.raw.get k = some st →
    ∃ stem old D, stem.key = k ∧ Backed o stem old D s ∧ old ++ D = P k
  files : ∀ stem bs, s.disk.get (.head stem) = some bs → bs <+: P stem.key

variable {o}

theorem faithful_new : Faithful o (fun _ => []) new :=
  ⟨fun _ k => by simp [new], fun k st h => by simp [new] at h, fun stem bs h => by simp [new] at h⟩

variable {P Q : Key → List UInt8} {s t : Logger}

theorem Faithful.congr (h : Faithful o P s) (hraw : t.raw = s.raw) (hdisk : t.disk = s.disk) :
    Faithful o P t := by
  constructor
  · intro hoff k
    exact hraw ▸ h.off hoff k
  · intro k st hst
    obtain ⟨stem, old, D, hkey, hb, hD⟩ := h.backed k st (hraw ▸ hst)
    exact ⟨stem, old, D, hkey, hb.congr o hraw hdisk, hD⟩
  · intro stem bs hbs
    exact h.files stem bs (hdisk ▸ hbs)

/-- Bytes that are passed but not dumped, which are none if there are dumps. -/
theorem Faithful.skip (h : Faithful o P s) (hpre : ∀ k, P k <+: Q k)
    (hsame : o.raw = true → ∀ k, Q k = P k) : Faithful o Q s := by
  constructor
  · exact h.off
  · intro k st hst
    cases hraw : o.raw with
    | false =>
        rw [h.off hraw k] at hst
        cases hst
    | true =>
        rw [hsame hraw k]
        exact h.backed k st hst
  · intro stem bs hbs
    exact (h.files stem bs hbs).trans (hpre stem.key)

theorem headPart_prefix_append (head : ℕ) (old D : List UInt8) :
    old ++ Capture.headPart head D <+: old ++ D :=
  (List.prefix_append_right_inj old).mpr (Capture.headPart_prefix head D)

/-- The step of a message: the stream of `stem` takes all of it. -/
theorem Faithful.wrote (hraw : o.raw = true) (h : Faithful o P s) {stem : Stem}
    {old D bs : List UInt8} (hD : old ++ D = P stem.key)
    (hself : Q stem.key = P stem.key ++ bs) (hother : ∀ k, k ≠ stem.key → Q k = P k)
    (first : Bool) : Faithful o Q (s.wrote o stem old (D ++ bs) first) := by
  have hpassed : old ++ (D ++ bs) = Q stem.key := by
    rw [hself, ← hD, List.append_assoc]
  have hpre : ∀ k, P k <+: Q k := by
    intro k
    by_cases hk : k = stem.key
    · rw [hk, hself]
      exact List.prefix_append _ _
    · rw [hother k hk]
  constructor
  · intro hoff
    rw [hraw] at hoff
    cases hoff
  · intro k st hst
    by_cases hk : k = stem.key
    · exact ⟨stem, old, D ++ bs, hk.symm, backed_wrote o stem old _ first s, hk ▸ hpassed⟩
    · have hget : s.raw.get k = some st := (Table.get_set_ne _ _ hk).symm.trans hst
      obtain ⟨stem', old', D', hkey, hb, hD'⟩ := h.backed k st hget
      exact ⟨stem', old', D', hkey, hb.wrote_ne o (hkey ▸ hk), hD'.trans (hother k hk).symm⟩
  · intro stem' bs' hbs'
    by_cases hstem : stem' = stem
    · subst hstem
      have hfile : old ++ Capture.headPart o.streamLimits.head.toNat (D ++ bs) = bs' :=
        Option.some.inj ((Table.get_set _ _ _).symm.trans hbs')
      rw [← hfile, ← hpassed]
      exact headPart_prefix_append _ old (D ++ bs)
    · have hne : FileName.head stem' ≠ FileName.head stem := by
        intro heq
        exact hstem (FileName.head.inj heq)
      have hget : s.disk.get (.head stem') = some bs' := (Table.get_set_ne _ _ hne).symm.trans hbs'
      exact (h.files stem' bs' hget).trans (hpre stem'.key)

/-- A locked write goes on with its stream, or begins one over a file that is
as long as all that was passed. -/
theorem Faithful.rawLocked (hraw : o.raw = true) (h : Faithful o P s) {conn : ℕ} {dir : Dir}
    (proto : Proto) (peer : String) {bs : List UInt8} (hself : Q (conn, dir) = P (conn, dir) ++ bs)
    (hother : ∀ k, k ≠ (conn, dir) → Q k = P k)
    (hres : s.raw.get (conn, dir) = none → (P (conn, dir)).length ≤
      (s.disk.contents (.head (Stem.of conn proto peer dir))).length) :
    Faithful o Q (s.rawLocked o .ok conn proto peer dir bs) := by
  cases hget : s.raw.get (conn, dir) with
  | some st =>
      obtain ⟨stem, old, D, hkey, hb, hD⟩ := h.backed _ st hget
      obtain ⟨hconn, hdir⟩ := Prod.mk.inj hkey
      subst hconn hdir
      rw [rawLocked_open o hb]
      exact h.wrote hraw hD hself hother _
  | none =>
      rw [rawLocked_vacant o hget]
      have hold : s.disk.contents (.head (Stem.of conn proto peer dir)) = P (conn, dir) := by
        have hlen := hres hget
        cases hfile : s.disk.get (.head (Stem.of conn proto peer dir)) with
        | none =>
            simp only [Disk.contents, hfile, Option.getD_none, List.length_nil] at hlen ⊢
            exact (List.eq_nil_of_length_eq_zero (Nat.le_zero.mp hlen)).symm
        | some old =>
            simp only [Disk.contents, hfile, Option.getD_some] at hlen ⊢
            exact (h.files _ old hfile).eq_of_length_le hlen
      have hall : s.disk.contents (.head (Stem.of conn proto peer dir)) ++ [] =
          P (Stem.of conn proto peer dir).key := (List.append_nil _).trans hold
      exact h.wrote hraw hall hself hother _

/-- What takes streams out of the table and leaves the head files. -/
theorem Faithful.fewer (h : Faithful o P s) (hraw : ∀ k st, t.raw.get k = some st →
      s.raw.get k = some st)
    (hdisk : ∀ stem, t.disk.get (.head stem) = s.disk.get (.head stem)) : Faithful o P t := by
  constructor
  · intro hoff k
    cases hget : t.raw.get k with
    | none => rfl
    | some st =>
        have hold := hraw k st hget
        rw [h.off hoff k] at hold
        cases hold
  · intro k st hst
    obtain ⟨stem, old, D, hkey, hb, hD⟩ := h.backed k st (hraw k st hst)
    subst hkey
    exact ⟨stem, old, D, rfl, ⟨hst.trans ((hraw _ st hst).symm.trans hb.stream),
      (hdisk stem).trans hb.file⟩, hD⟩
  · intro stem bs hbs
    exact h.files stem bs ((hdisk stem).symm.trans hbs)

end Logger

/-! ## What the tasks still have to write -/

/-- The bytes of the write that belong to one direction of one connection. -/
def Write.bytesFor (k : Key) : Write → List UInt8
  | .raw _ conn _ _ dir data => if (conn, dir) = k then data else []
  | .event _ _ => []

def Task.bytesFor (k : Key) (t : Task) : List UInt8 := t.writes.flatMap (Write.bytesFor k)

theorem Call.flatMap_bytesFor_writes (dp : Deps) (o : Options) (e : Env) (c : Call) (s : Logger)
    (k : Key) : (c.writes dp o e s).flatMap (Write.bytesFor k) = c.bytesFor k := by
  cases c with
  | data proto name conn peer dir bs rule =>
      simp [Call.writes, Write.bytesFor, Call.bytesFor]
  | close proto name conn peer why =>
      apply List.flatMap_eq_nil_iff.mpr
      intro w hw
      simp only [Call.writes, List.mem_append, List.mem_map, List.mem_singleton] at hw
      rcases hw with ⟨f, -, rfl⟩ | rfl
      · rfl
      · rfl
  | flush order => rfl
  | _ => rfl

/-- A call leaves its task with its own bytes to write. -/
theorem Call.bytesFor_start (dp : Deps) (o : Options) (e : Env) (c : Call) (s : Logger)
    (k : Key) : Task.bytesFor k ⟨none, (c.start dp o e s).2⟩ = c.bytesFor k := by
  rw [← c.flatMap_bytesFor_writes dp o e s k, Task.bytesFor]
  congr 1
  cases c with
  | flush order =>
      simp only [Task.writes, Call.start, Call.writes, Option.toList_none, List.map_nil,
        List.nil_append, List.filterMap_filterMap, List.filterMap_eq_nil_iff]
      intro j _
      cases s.raw.get j <;> rfl
  | _ =>
      simp only [Task.writes, Call.start, Option.toList_none, List.map_nil, List.nil_append,
        List.filterMap_map]
      exact List.filterMap_some

variable {ι : Type*}

/-- The calls of a run, in the order in which they began. -/
def callsMade (acts : List (Act ι)) : List (Env × Call) :=
  acts.filterMap fun a =>
    match a with
    | .call _ e c => some (e, c)
    | .step _ => none

theorem passed_call (k : Key) (acts : List (Act ι)) (i : ι) (e : Env) (c : Call) :
    passed k (callsMade (acts ++ [.call i e c])) = passed k (callsMade acts) ++ c.bytesFor k := by
  simp [callsMade, passed]

theorem passed_step (k : Key) (acts : List (Act ι)) (i : ι) :
    passed k (callsMade (acts ++ [.step i])) = passed k (callsMade acts) := by
  simp [callsMade, passed]

namespace Buffered

variable [DecidableEq ι] {dp : Deps} {o : Options} {cap : ℕ} {own : Key → ι}
  {acts : List (Act ι)} {b : Buffered ι}

/-- The step creates no stream over a file that lags behind: where a message
finds no open stream, the head file with what its writers hold is as long as
all that was passed before. -/
def Resumes (acts : List (Act ι)) (b : Buffered ι) (a : Act ι) : Prop :=
  match a with
  | .call _ _ _ => True
  | .step i =>
      match b.machine.task i with
      | ⟨some (.granted (.raw _ conn proto peer dir data)), _⟩ =>
          b.machine.log.raw.get (conn, dir) = none →
            (passed (conn, dir) (callsMade acts)).length ≤
              (b.file (Stem.of conn proto peer dir)).content.length + data.length
      | _ => True

/-- What has been passed is in the streams or still to be written by the one
task that passes bytes for the key. -/
structure Follows (o : Options) (own : Key → ι) (acts : List (Act ι)) (b : Buffered ι) : Prop where
  agrees : Agrees o b
  busy : ∀ i busy, (b.machine.task i).busy = some busy → ∃ w, busy = .granted w ∧ w.live o = true
  owned : ∀ i, ∀ w ∈ (b.machine.task i).writes, ∀ k, w.bytesFor k ≠ [] → own k = i
  faithful : ∃ P, Logger.Faithful o P b.machine.log ∧
    ∀ k, P k ++ (b.machine.task (own k)).bytesFor k = passed k (callsMade acts)

omit [DecidableEq ι] in
theorem follows_new : Follows o own [] (new : Buffered ι) where
  agrees := agrees_new
  busy i busy h := by cases h
  owned i w hw := by cases hw
  faithful := ⟨fun _ => [], Logger.faithful_new, fun _ => rfl⟩

/-- A step of task `i`, which may move some of its bytes to the streams. -/
theorem Follows.put (h : Follows o own acts b) {acts' : List (Act ι)} {i : ι} {log : Logger}
    {busy : Option Busy} {todo : List Job} {file : Stem → AppendFile (Option ι) UInt8}
    (hagrees : Agrees o ⟨b.machine.put i log busy todo, file⟩)
    (hbusy : ∀ c, busy = some c → ∃ w, c = .granted w ∧ w.live o = true)
    (howned : ∀ w ∈ Task.writes ⟨busy, todo⟩, ∀ k, w.bytesFor k ≠ [] → own k = i)
    {P : Key → List UInt8} (hfaithful : Logger.Faithful o P log)
    (hself : ∀ k, own k = i →
      P k ++ Task.bytesFor k ⟨busy, todo⟩ = passed k (callsMade acts'))
    (hother : ∀ k, own k ≠ i →
      P k ++ (b.machine.task (own k)).bytesFor k = passed k (callsMade acts')) :
    Follows o own acts' ⟨b.machine.put i log busy todo, file⟩ where
  agrees := hagrees
  busy j c := by
    by_cases hj : j = i
    · rw [hj, Machine.put_task]
      exact hbusy c
    · rw [Machine.put_task_ne _ hj]
      exact h.busy j c
  owned j := by
    by_cases hj : j = i
    · rw [hj, Machine.put_task]
      exact howned
    · rw [Machine.put_task_ne _ hj]
      exact h.owned j
  faithful := by
    refine ⟨P, hfaithful, ?_⟩
    intro k
    by_cases hk : own k = i
    · rw [hk, Machine.put_task]
      exact hself k hk
    · rw [Machine.put_task_ne _ hk]
      exact hother k hk

theorem Follows.call (h : Follows o own acts b) {i : ι} {e : Env} (he : e.Good) {c : Call}
    (hidle : b.machine.task i = .idle) (hown : ∀ k, c.bytesFor k ≠ [] → own k = i)
    {file : Stem → AppendFile (Option ι) UInt8}
    (hagrees : Agrees o ⟨b.machine.put i (c.start dp o e b.machine.log).1 none
      (c.start dp o e b.machine.log).2, file⟩) :
    Follows o own (acts ++ [.call i e c]) ⟨b.machine.put i (c.start dp o e b.machine.log).1 none
      (c.start dp o e b.machine.log).2, file⟩ := by
  obtain ⟨P, hfaithful, hpassed⟩ := h.faithful
  have hbytes := c.bytesFor_start dp o e b.machine.log
  have hfewer : Logger.Faithful o P (c.start dp o e b.machine.log).1 := by
    by_cases hflush : ∃ order, c = .flush order
    · obtain ⟨order, rfl⟩ := hflush
      refine hfaithful.fewer ?_ (fun _ => rfl)
      intro k st hst
      cases hst
    · obtain ⟨console, hsettle⟩ := c.settle_eq_with o e b.machine.log
      have hstart : (c.start dp o e b.machine.log).1 = c.settle o e b.machine.log := by
        cases c with
        | flush order => exact absurd ⟨order, rfl⟩ hflush
        | _ => rfl
      rw [hstart, hsettle]
      refine hfaithful.fewer ?_ (finishAll_head h.agrees.wf he _).2
      intro k st hst
      rw [Logger.get_raw_finishAll] at hst
      split at hst
      · cases hst
      · exact hst
  refine h.put hagrees (fun _ hc => by cases hc) ?_ hfewer ?_ ?_
  · intro w hw k hne
    apply hown k
    intro hnil
    rw [← hbytes k, Task.bytesFor, List.flatMap_eq_nil_iff] at hnil
    exact hne (hnil w hw)
  · intro k hk
    have hold := hpassed k
    rw [hk, hidle] at hold
    rw [hbytes, passed_call, ← hold]
    exact congrArg (· ++ c.bytesFor k) (List.append_nil (P k)).symm
  · intro k hk
    have hnone : c.bytesFor k = [] := by
      by_contra hne
      exact hk (hown k hne)
    rw [passed_call, hnone, List.append_nil]
    exact hpassed k

/-- A step that leaves the task with the same bytes to write. -/
theorem Follows.same (h : Follows o own acts b) {i : ι} {log : Logger} {busy : Option Busy}
    {todo : List Job} {file : Stem → AppendFile (Option ι) UInt8}
    (hagrees : Agrees o ⟨b.machine.put i log busy todo, file⟩)
    (hbusy : ∀ c, busy = some c → ∃ w, c = .granted w ∧ w.live o = true)
    (hwrites : Task.writes ⟨busy, todo⟩ = (b.machine.task i).writes)
    (hlog : ∀ P, Logger.Faithful o P b.machine.log → Logger.Faithful o P log) :
    Follows o own (acts ++ [.step i]) ⟨b.machine.put i log busy todo, file⟩ := by
  obtain ⟨P, hfaithful, hpassed⟩ := h.faithful
  refine h.put hagrees hbusy ?_ (hlog P hfaithful) ?_ ?_
  · intro w hw
    exact h.owned i w (hwrites ▸ hw)
  · intro k hk
    rw [passed_step, Task.bytesFor, hwrites, ← hpassed k, hk]
    rfl
  · intro k _
    rw [passed_step]
    exact hpassed k

/-- A step in which the task is done with its first write. -/
theorem Follows.done (h : Follows o own acts b) {i : ι} {log : Logger} {w : Write}
    {rest : List Job} {file : Stem → AppendFile (Option ι) UInt8}
    (hagrees : Agrees o ⟨b.machine.put i log none rest, file⟩)
    (hwrites : (b.machine.task i).writes = w :: Task.writes ⟨none, rest⟩)
    (hlog : ∀ P Q : Key → List UInt8, Logger.Faithful o P b.machine.log →
      (∀ k, P k ++ (b.machine.task (own k)).bytesFor k = passed k (callsMade acts)) →
      (∀ k, Q k = P k ++ w.bytesFor k) → Logger.Faithful o Q log) :
    Follows o own (acts ++ [.step i]) ⟨b.machine.put i log none rest, file⟩ := by
  obtain ⟨P, hfaithful, hpassed⟩ := h.faithful
  refine h.put hagrees (fun _ hc => by cases hc) ?_
    (hlog P (fun k => P k ++ w.bytesFor k) hfaithful hpassed fun _ => rfl) ?_ ?_
  · intro v hv
    exact h.owned i v (hwrites ▸ List.mem_cons_of_mem w hv)
  · intro k hk
    rw [passed_step, ← hpassed k, hk, Task.bytesFor, Task.bytesFor, hwrites, List.flatMap_cons,
      List.append_assoc]
  · intro k hk
    have hnone : w.bytesFor k = [] := by
      by_contra hne
      exact hk (h.owned i w (hwrites ▸ List.mem_cons_self) k hne)
    rw [passed_step, hnone, List.append_nil]
    exact hpassed k

/-- A granted write. One that creates its stream finds the file as long as what
was passed before it, so the file lacks nothing. -/
theorem Follows.perform (h : Follows o own acts b) {i : ι} {w : Write} {rest : List Job}
    {file : Stem → AppendFile (Option ι) UInt8}
    (ht : b.machine.task i = ⟨some (.granted w), rest⟩)
    (hagrees : Agrees o ⟨b.machine.put i (w.perform o b.machine.log) none rest, file⟩)
    (hres : b.Resumes acts (.step i)) :
    Follows o own (acts ++ [.step i])
      ⟨b.machine.put i (w.perform o b.machine.log) none rest, file⟩ := by
  refine h.done hagrees (w := w) (by rw [ht]; rfl) ?_
  intro P Q hP hpassed hQ
  cases w with
  | event said ev =>
      have hsame : Q = P := by
        funext k
        rw [hQ k]
        exact List.append_nil _
      rw [hsame]
      exact hP.congr rfl rfl
  | raw io conn proto peer dir data =>
      obtain ⟨w', hw', hlive⟩ := h.busy i (.granted (.raw io conn proto peer dir data))
        (by rw [ht])
      obtain rfl := Busy.granted.inj hw'
      obtain ⟨hraw, hdata⟩ : o.raw = true ∧ data ≠ [] := by
        simpa [Write.live] using hlive
      have hmem : Write.raw io conn proto peer dir data ∈ (b.machine.task i).writes := by
        rw [ht]
        exact List.mem_cons_self
      have hself : Write.bytesFor (conn, dir) (.raw io conn proto peer dir data) = data :=
        if_pos rfl
      have howner : own (conn, dir) = i := h.owned i _ hmem (conn, dir) (hself.symm ▸ hdata)
      obtain rfl : io = .ok := h.agrees.fine i _ hmem
      refine hP.rawLocked hraw proto peer ((hQ _).trans (by rw [hself])) ?_ ?_
      · intro k hk
        rw [hQ k, Write.bytesFor, if_neg (Ne.symm hk), List.append_nil]
      · intro hnone
        simp only [Resumes, ht] at hres
        have hlong := hres hnone
        rw [← hpassed (conn, dir), howner, ht, List.length_append,
          ← h.agrees.disk] at hlong
        have hmine : (Task.bytesFor (conn, dir)
            ⟨some (.granted (.raw .ok conn proto peer dir data)), rest⟩).length ≥
              data.length := by
          have hfirst : Task.bytesFor (conn, dir)
              ⟨some (.granted (.raw .ok conn proto peer dir data)), rest⟩ =
                data ++ Task.bytesFor (conn, dir) ⟨none, rest⟩ := by
            rw [Task.bytesFor, Task.bytesFor]
            exact congrArg (· ++ _) hself
          rw [hfirst, List.length_append]
          exact Nat.le_add_right _ _
        omega

/-- What one step preserves. -/
theorem Follows.step (hcap : o.maxRunBytes = 0) (h : Follows o own acts b) {a : Act ι}
    (hgood : ∀ i e c, a = .call i e c → e.Good)
    (hown : ∀ i e c k, a = .call i e c → c.bytesFor k ≠ [] → own k = i)
    (horder : b.InOrder o cap a) (hres : b.Resumes acts a) {b' : Buffered ι}
    {seen : List (Seen ι)} (hstep : (lts dp o cap).step b a = some (b', seen)) :
    Follows o own (acts ++ [a]) b' := by
  have hagrees := h.agrees.step hgood horder hstep
  obtain ⟨m, hmachine, rfl⟩ := (step_eq_some dp o cap).mp hstep
  cases Machine.step_cases dp o hmachine with
  | call i e c hidle hc =>
      exact h.call (hgood i e c rfl) hidle (fun k => hown i e c k rfl) hagrees
  | finish i io k st rest ht =>
      obtain ⟨stem, htail⟩ := h.agrees.tails i io k st (by rw [ht]; exact List.mem_cons_self)
      obtain ⟨hraw, hhead⟩ := finishOne_head htail io k b.machine.log
      refine h.same hagrees (fun _ hc => by cases hc) (by rw [ht]; rfl) ?_
      intro P hP
      exact hP.fewer (fun j st' hst' => hraw ▸ hst') hhead
  | skip i w rest ht hlive =>
      refine h.done hagrees (w := w) (by rw [ht]; rfl) ?_
      intro P Q hP _ hQ
      have hsaid := hP.congr (w.raw_say b.machine.log) (w.disk_say b.machine.log)
      refine hsaid.skip (fun k => hQ k ▸ List.prefix_append _ _) ?_
      intro hraw k
      -- what is not dumped although there are dumps is empty
      have hnone : w.bytesFor k = [] := by
        cases w with
        | event said ev => rfl
        | raw io conn proto peer dir data =>
            have hdata : data = [] := by simpa [Write.live, hraw] using hlive
            simp [Write.bytesFor, hdata]
      rw [hQ k, hnone, List.append_nil]
  | free i w rest ht hlive hfree =>
      refine h.same hagrees ?_ (by rw [ht]; rfl) ?_
      · intro c hc
        exact ⟨w, (Option.some.inj hc).symm, hlive⟩
      · intro P hP
        exact hP.congr (w.raw_say b.machine.log) (w.disk_say b.machine.log)
  | begin i w rest ht hlive hno hstop => exact absurd hcap hno
  | turnedAway i w rest ht hlive hno hstop => exact absurd hcap hno
  | advance i w phase phase' c rest ht hadv =>
      obtain ⟨w, hw, -⟩ := h.busy i _ (by rw [ht])
      cases hw
  | grant i w phase c rest ht hadv =>
      obtain ⟨w, hw, -⟩ := h.busy i _ (by rw [ht])
      cases hw
  | refuse i w phase c rest ht hadv =>
      obtain ⟨w, hw, -⟩ := h.busy i _ (by rw [ht])
      cases hw
  | perform i w rest ht => exact h.perform ht hagrees hres

/-- In a run without a cap and without I/O failures, as long as no step lets a
writer get ahead of an older one and no message creates a stream over a file
that lags behind, every head file is a prefix of what was passed for its
direction of its connection by the one task that passes it. -/
theorem head_file_prefix_of_inOrder (hcap : o.maxRunBytes = 0) (cap : ℕ) (own : Key → ι)
    (acts : List (Act ι)) (hgood : ∀ i e c, .call i e c ∈ acts → e.Good)
    (hown : ∀ i e c k, .call i e c ∈ acts → c.bytesFor k ≠ [] → own k = i)
    (horder : (lts dp o cap).Throughout new acts fun as b a =>
      b.InOrder o cap a ∧ b.Resumes as a)
    (b : Buffered ι) (tr : List (List (Seen ι))) (hrun : (lts dp o cap).run new acts = some (b, tr))
    (stem : Stem) : (b.file stem).onDisk <+: passed stem.key (callsMade acts) := by
  have hfollows : Follows o own acts b := by
    refine (lts dp o cap).run_induction (fun as b _ => Follows o own as b) follows_new ?_ hrun
    rintro as a rest u os v out rfl hpre hu hstep
    have ha : a ∈ as ++ a :: rest := List.mem_append_right _ List.mem_cons_self
    obtain ⟨hin, hres⟩ := horder as a rest u os rfl hpre
    refine hu.step hcap ?_ ?_ hin hres hstep
    · rintro i e c rfl
      exact hgood i e c ha
    · rintro i e c k rfl
      exact hown i e c k ha
  obtain ⟨P, hfaithful, hpassed⟩ := hfollows.faithful
  have hcontent : (b.file stem).content <+: P stem.key := by
    rw [← hfollows.agrees.disk stem, Disk.contents]
    cases hget : b.machine.log.disk.get (.head stem) with
    | none => exact List.nil_prefix
    | some bs => exact hfaithful.files stem bs hget
  rw [← hpassed stem.key]
  exact (AppendFile.onDisk_prefix_content _).trans (hcontent.trans (List.prefix_append _ _))

/-- The first write to a file without writers. -/
theorem inOrder_of_vacant {i : ι} {conn : ℕ} {proto : Proto} {peer : String} {dir : Dir}
    {data : List UInt8} {rest : List Job}
    (ht : b.machine.task i = ⟨some (.granted (.raw .ok conn proto peer dir data)), rest⟩)
    (hnone : b.machine.log.raw.get (conn, dir) = none)
    (hfile : (b.file (Stem.of conn proto peer dir)).writers.length = 0) :
    b.InOrder o cap (.step i) := by
  have hnil := List.length_eq_zero_iff.mp hfile
  intro stem
  simp only [Machine.headOps, ht]
  rw [headOps_vacant hnone]
  split
  · next hstem =>
      subst hstem
      refine ⟨AppendFile.inOrder_of_length_le_one ?_ cap _,
        AppendFile.inOrder_of_length_le_one ?_ cap _, trivial⟩
      · simp [hnil]
      · simp [AppendFile.step, AppendFile.effect, hnil]
  · trivial

/-- The end of the only writer of a file. -/
theorem inOrder_of_finish {i : ι} {io : Io} {k : Key} {st : Stream FileName} {rest : List Job}
    (ht : b.machine.task i = ⟨none, .finish io k st :: rest⟩) {stem : Stem}
    (hhead : st.head = some (.head stem)) (hfile : (b.file stem).writers.length ≤ 1) :
    b.InOrder o cap (.step i) := by
  intro stem'
  simp only [Machine.headOps, ht, Stream.closes, hhead]
  split
  · next hstem =>
      obtain rfl := FileName.head.inj (Option.some.inj hstem)
      exact ⟨AppendFile.inOrder_of_length_le_one hfile cap _, trivial⟩
  · trivial

/-- A message, the flush that finds its stream open, and a message after it. -/
def aroundFlush : List (Act Bool) :=
  [.call false .quiet (.data .tcp "tcp:0" 1 "127.0.0.1:4000" .rx [1] none),
    .step false, .step false, .step false,
    .call true .quiet (.flush [(1, .rx)]), .step true,
    .call false .quiet (.data .tcp "tcp:0" 1 "127.0.0.1:4000" .rx [2] none),
    .step false, .step false]

theorem head_file_prefix_of_inOrder_flush :
    ∃ b tr, (lts .bare (.rawOnly ⟨0, 0⟩ 0) 8192).run new aroundFlush = some (b, tr) ∧
      (b.file (.of 1 .tcp "127.0.0.1:4000" .rx)).onDisk = [1] ∧
      (b.file (.of 1 .tcp "127.0.0.1:4000" .rx)).onDisk <+:
        passed (1, .rx) (callsMade aroundFlush) := by
  refine ⟨_, _, rfl, by decide +kernel, ?_⟩
  refine @head_file_prefix_of_inOrder _ _ .bare (.rawOnly ⟨0, 0⟩ 0) rfl 8192
    (fun _ => false) aroundFlush ?_ ?_ ?_ _ _ rfl (.of 1 .tcp "127.0.0.1:4000" .rx)
  · intro i e c hmem
    simp only [aroundFlush, List.mem_cons, Act.call.injEq, reduceCtorEq, false_or,
      List.not_mem_nil, or_false] at hmem
    rcases hmem with ⟨-, rfl, -⟩ | ⟨-, rfl, -⟩ | ⟨-, rfl, -⟩
    all_goals exact Env.quiet_good
  · intro i e c k hmem hne
    simp only [aroundFlush, List.mem_cons, Act.call.injEq, reduceCtorEq, false_or,
      List.not_mem_nil, or_false] at hmem
    rcases hmem with ⟨rfl, -⟩ | ⟨-, -, rfl⟩ | ⟨rfl, -⟩
    · rfl
    · exact absurd rfl hne
    · rfl
  · refine Lts.throughout_cons_of_step _ rfl ⟨fun stem => trivial, trivial⟩ ?_
    refine Lts.throughout_cons_of_step _ rfl ⟨fun stem => trivial, trivial⟩ ?_
    refine Lts.throughout_cons_of_step _ rfl
      ⟨inOrder_of_vacant rfl (by decide +kernel) (by decide +kernel), fun _ => by decide +kernel⟩ ?_
    refine Lts.throughout_cons_of_step _ rfl ⟨fun stem => trivial, trivial⟩ ?_
    refine Lts.throughout_cons_of_step _ rfl ⟨fun stem => ⟨trivial, trivial⟩, trivial⟩ ?_
    refine Lts.throughout_cons_of_step _ rfl
      ⟨inOrder_of_finish rfl rfl (by decide +kernel), trivial⟩ ?_
    refine Lts.throughout_cons_of_step _ rfl ⟨fun stem => trivial, trivial⟩ ?_
    refine Lts.throughout_cons_of_step _ rfl ⟨fun stem => trivial, trivial⟩ ?_
    exact Lts.throughout_cons_of_step _ rfl
      ⟨inOrder_of_vacant rfl (by decide +kernel) (by decide +kernel), fun _ => by decide +kernel⟩
      (Lts.throughout_nil _ _ _)

/-- A connection that is still open when the table is drained, and a message
on it that comes after. -/
def lateMessage : List (Act Bool) :=
  [.call false .quiet (.data .tcp "tcp:0" 1 "127.0.0.1:4000" .rx [1, 2] none),
    .step false, .step false, .step false,
    .call true .quiet (.flush [(1, .rx)]), .step true,
    .call false .quiet (.data .tcp "tcp:0" 1 "127.0.0.1:4000" .rx [3] none),
    .step false, .step false, .step false,
    .call false .quiet (.close .tcp "tcp:0" 1 "127.0.0.1:4000" "closed by peer")]

/-- With room for one byte, the file ends up with the first and the third. -/
theorem head_file_not_prefix :
    ¬ ∀ (dp : Deps) (o : Options) (cap : ℕ) (own : Key → Bool) (acts : List (Act Bool)),
      o.maxRunBytes = 0 → (∀ i e c, .call i e c ∈ acts → e.Good) →
      (∀ i e c k, .call i e c ∈ acts → c.bytesFor k ≠ [] → own k = i) →
      ∀ b tr, (lts dp o cap).run new acts = some (b, tr) →
        ∀ stem, (b.file stem).onDisk <+: passed stem.key (callsMade acts) := by
  intro h
  have hrun : ∃ b tr, (lts .bare (.rawOnly ⟨1, 0⟩ 0) 8192).run new lateMessage = some (b, tr) ∧
      (b.file (.of 1 .tcp "127.0.0.1:4000" .rx)).onDisk = [1, 3] :=
    ⟨_, _, rfl, by decide +kernel⟩
  obtain ⟨b, tr, hrun, hfile⟩ := hrun
  have hprefix := h _ _ _ (fun _ => false) lateMessage rfl ?_ ?_ b tr hrun
    (.of 1 .tcp "127.0.0.1:4000" .rx)
  · rw [hfile] at hprefix
    exact absurd hprefix (by decide +kernel)
  · intro i e c hmem
    simp only [lateMessage, List.mem_cons, Act.call.injEq, reduceCtorEq, false_or,
      List.not_mem_nil, or_false] at hmem
    rcases hmem with ⟨-, rfl, -⟩ | ⟨-, rfl, -⟩ | ⟨-, rfl, -⟩ | ⟨-, rfl, -⟩
    all_goals exact Env.quiet_good
  · intro i e c k hmem hne
    simp only [lateMessage, List.mem_cons, Act.call.injEq, reduceCtorEq, false_or,
      List.not_mem_nil, or_false] at hmem
    rcases hmem with ⟨rfl, -⟩ | ⟨-, -, rfl⟩ | ⟨rfl, -⟩ | ⟨rfl, -⟩
    · rfl
    · exact absurd rfl hne
    · rfl
    · rfl

/-- A message that is written while the flush has taken the stream of the one
before it out of the table and not yet finished it. -/
def overtaking : List (Act Bool) :=
  [.call false .quiet (.data .tcp "tcp:0" 1 "127.0.0.1:4000" .rx [1] none),
    .step false, .step false, .step false,
    .call true .quiet (.flush [(1, .rx)]),
    .call false .quiet (.data .tcp "tcp:0" 1 "127.0.0.1:4000" .rx [2, 3] none),
    .step false, .step false, .step true]

/-- Without a cap, and with room for two bytes in the buffer of a writer. -/
theorem head_file_overtaken :
    ∃ b tr, (lts .bare (.rawOnly ⟨0, 0⟩ 0) 2).run new overtaking = some (b, tr) ∧
      (b.file (.of 1 .tcp "127.0.0.1:4000" .rx)).onDisk = [2, 3, 1] :=
  ⟨_, _, rfl, by decide +kernel⟩

end Buffered

end KirbLaSnoop
