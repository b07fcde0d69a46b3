import Mathlib
import KirbLaSnoop.Log.Failure

/-!
# Head files that cannot be opened

`raw_write` creates a stream when a message finds none, and tries again with
the next message when the file cannot be opened. The bytes of the messages
that failed are counted nowhere: the stream that comes into being in the end
begins at zero, whatever went before it.
-/

namespace KirbLaSnoop

/-- The head file opens or does not, and nothing else fails. -/
def Io.opening (opens : Bool) : Io := { Io.ok with headOpen := opens }

/-- A `raw_write`, and whether the head file could be opened when it was made. -/
structure RawCall where
  opens : Bool
  conn : ℕ
  proto : Proto
  peer : String
  dir : Dir
  data : List UInt8

namespace RawCall

variable (o : Options)

def key (c : RawCall) : Key := (c.conn, c.dir)

def run (c : RawCall) (s : Logger) : Logger :=
  s.rawWrite o (.opening c.opens) c.conn c.proto c.peer c.dir c.data

def runs (cs : List RawCall) : Logger := cs.foldl (fun s c => c.run o s) .new

theorem runs_append_singleton (cs : List RawCall) (c : RawCall) :
    runs o (cs ++ [c]) = c.run o (runs o cs) := by
  simp [runs]

def passed (k : Key) (cs : List RawCall) : List UInt8 :=
  cs.flatMap fun c => if c.key = k then c.data else []

/-- The call that creates the stream of `k`: the first that has bytes and
finds the file openable. -/
def creator (k : Key) (cs : List RawCall) : Option RawCall :=
  cs.find? fun c => c.key = k ∧ c.data ≠ [] ∧ c.opens = true

/-- The first call that has bytes. -/
def first (k : Key) (cs : List RawCall) : Option RawCall :=
  cs.find? fun c => c.key = k ∧ c.data ≠ []

theorem passed_append_singleton (k : Key) (cs : List RawCall) (c : RawCall) :
    passed k (cs ++ [c]) = passed k cs ++ if c.key = k then c.data else [] := by
  simp [passed]

theorem creator_append_singleton (k : Key) (cs : List RawCall) (c : RawCall) :
    creator k (cs ++ [c]) =
      (creator k cs).or
        (if c.key = k ∧ c.data ≠ [] ∧ c.opens = true then some c else none) := by
  rw [creator, List.find?_append, creator]
  by_cases h : c.key = k ∧ c.data ≠ [] ∧ c.opens = true
  · rw [if_pos h, List.find?_cons_of_pos (by simpa using h)]
  · rw [if_neg h, List.find?_cons_of_neg (by simpa using h), List.find?_nil]

theorem passed_eq_nil_iff (k : Key) (cs : List RawCall) :
    passed k cs = [] ↔ ∀ c ∈ cs, c.key = k → c.data = [] := by
  simp [passed, List.flatMap_eq_nil_iff]

/-- The call before which nothing was passed is the first. -/
theorem first_eq_some {k : Key} {before after : List RawCall} {c : RawCall}
    (hnone : passed k before = []) (hkey : c.key = k) (hdata : c.data ≠ []) :
    first k (before ++ c :: after) = some c := by
  rw [passed_eq_nil_iff] at hnone
  have hbefore : before.find? (fun c => decide (c.key = k ∧ c.data ≠ [])) = none := by
    rw [List.find?_eq_none]
    intro b hb hlive
    obtain ⟨hk, hne⟩ := of_decide_eq_true hlive
    exact hne (hnone b hb hk)
  rw [first, List.find?_append, hbefore, Option.none_or,
    List.find?_cons_of_pos (by simp [hkey, hdata])]

theorem exists_of_first {k : Key} {cs : List RawCall} {c : RawCall} (h : first k cs = some c) :
    c.key = k ∧ c.data ≠ [] ∧ ∃ before after, cs = before ++ c :: after ∧ passed k before = [] := by
  obtain ⟨hlive, before, after, rfl, hbefore⟩ := List.find?_eq_some_iff_append.mp h
  obtain ⟨hkey, hdata⟩ := of_decide_eq_true hlive
  refine ⟨hkey, hdata, before, after, rfl, (passed_eq_nil_iff k before).mpr fun b hb hk => ?_⟩
  by_contra hne
  have hdead := hbefore b hb
  simp [hk, hne] at hdead

theorem creator_live {k : Key} {cs : List RawCall} {c : RawCall} (h : creator k cs = some c) :
    c.key = k ∧ c.data ≠ [] ∧ c.opens = true :=
  of_decide_eq_true (List.find?_some (p := fun c : RawCall =>
    decide (c.key = k ∧ c.data ≠ [] ∧ c.opens = true)) h)

theorem first_of_creator {k : Key} {cs : List RawCall} {c : RawCall} (h : creator k cs = some c) :
    ∃ f, first k cs = some f := by
  obtain ⟨hkey, hdata, -⟩ := creator_live h
  rw [← Option.isSome_iff_exists, first, List.find?_isSome]
  exact ⟨c, List.mem_of_find?_eq_some h, by simp [hkey, hdata]⟩

/-- If the first message opens the file, it creates the stream. -/
theorem creator_eq_first {k : Key} {cs : List RawCall} {c : RawCall} (h : first k cs = some c)
    (hopens : c.opens = true) : creator k cs = some c := by
  obtain ⟨hkey, hdata, before, after, rfl, hnone⟩ := exists_of_first h
  rw [passed_eq_nil_iff] at hnone
  have hbefore : before.find?
      (fun c => decide (c.key = k ∧ c.data ≠ [] ∧ c.opens = true)) = none := by
    rw [List.find?_eq_none]
    intro b hb hlive
    obtain ⟨hk, hne, -⟩ := of_decide_eq_true hlive
    exact hne (hnone b hb hk)
  rw [creator, List.find?_append, hbefore, Option.none_or,
    List.find?_cons_of_pos (by simp [hkey, hdata, hopens])]

end RawCall

namespace Logger

variable (dp : Deps) (o : Options)

/-- The outcome of the open matters only where there is no stream yet. -/
theorem rawLocked_opening (opens : Bool) (conn : ℕ) (proto : Proto) (peer : String) (dir : Dir)
    (data : List UInt8) (s : Logger) :
    s.rawLocked o (.opening opens) conn proto peer dir data =
      if s.raw.get (conn, dir) = none ∧ opens = false then
        { s with console := s.console ++ [.cannotOpen (.of conn proto peer dir)] }
      else s.rawLocked o .ok conn proto peer dir data := by
  cases hget : s.raw.get (conn, dir) with
  | some st => simp only [rawLocked, hget, reduceCtorEq, false_and, if_false]; rfl
  | none =>
      cases opens with
      | true => simp only [reduceCtorEq, and_false, if_false]; rfl
      | false => simp [rawLocked, hget, Stream.create, Io.opening]

/-- Neither file of the stem has bytes in it. -/
def Blank (stem : Stem) (s : Logger) : Prop :=
  s.disk.contents (.head stem) = [] ∧ s.disk.contents (.tail stem) = []

/-- Nothing has been created for one direction of one connection. -/
structure Untouched (k : Key) (s : Logger) : Prop where
  stream : s.raw.get k = none
  blank : ∀ stem, stem.key = k → Blank stem s

/-- The stream of `stem` began with the bytes of `c`; `lost` is what was passed
before that. -/
structure Begun (stem : Stem) (c : RawCall) (cs : List RawCall) (lost rest : List UInt8)
    (s : Logger) : Prop where
  named : stem = .of c.conn c.proto c.peer c.dir
  backed : Backed o stem [] (c.data ++ rest) s
  tail : s.disk.contents (.tail stem) = []
  passed : RawCall.passed stem.key cs = lost ++ (c.data ++ rest)
  front : ∃ before after, cs = before ++ c :: after ∧ lost = RawCall.passed stem.key before
  blank : ∀ stem', stem'.key = stem.key → stem' ≠ stem → Blank stem' s

theorem Begun.front_append {stem : Stem} {c : RawCall} {cs : List RawCall} {lost rest : List UInt8}
    {s : Logger} (h : Begun o stem c cs lost rest s) (more : List RawCall) :
    ∃ before after, cs ++ more = before ++ c :: after ∧ lost = RawCall.passed stem.key before := by
  obtain ⟨before, after, rfl, hlost⟩ := h.front
  exact ⟨before, after ++ more, by simp, hlost⟩

/-- What the calls so far have made of one direction of one connection. -/
def Tracks (k : Key) (cs : List RawCall) (s : Logger) : Prop :=
  (RawCall.creator k cs = none → Untouched k s) ∧
    ∀ c, RawCall.creator k cs = some c →
      c.data ≠ [] ∧ ∃ stem lost rest, stem.key = k ∧ Begun o stem c cs lost rest s

theorem contents_wrote (stem : Stem) (old D : List UInt8) (first : Bool) (s : Logger)
    (p : FileName) : (s.wrote o stem old D first).disk.contents p =
      if p = .head stem then old ++ Capture.headPart o.streamLimits.head.toNat D
      else s.disk.contents p := by
  split
  · next hp => rw [hp, wrote, Disk.contents_set]
  · next hp => rw [wrote, Disk.contents_set_ne _ _ hp]

theorem Blank.wrote_ne {stem stem' : Stem} {s : Logger} (h : Blank stem s) (hne : stem ≠ stem')
    (old D : List UInt8) (first : Bool) : Blank stem (s.wrote o stem' old D first) := by
  constructor
  · rw [contents_wrote, if_neg (by simpa using hne)]
    exact h.1
  · rw [contents_wrote, if_neg (by simp)]
    exact h.2

theorem Tracks.wrote_ne {k : Key} {cs : List RawCall} {s : Logger} (h : Tracks o k cs s)
    {stem : Stem} (hne : stem.key ≠ k) (old D : List UInt8) (first : Bool) :
    Tracks o k cs (s.wrote o stem old D first) := by
  refine ⟨fun hnone => ?_, fun c hc => ?_⟩
  · obtain ⟨hstream, hblank⟩ := h.1 hnone
    refine ⟨(Table.get_set_ne _ _ hne.symm).trans hstream, fun stem' hkey => ?_⟩
    refine (hblank stem' hkey).wrote_ne o ?_ old D first
    rintro rfl
    exact hne hkey
  · obtain ⟨hdata, stem', lost, rest, hkey, hbegun⟩ := h.2 c hc
    have hkeys : stem'.key ≠ stem.key := by
      rw [hkey]
      exact hne.symm
    refine ⟨hdata, stem', lost, rest, hkey, hbegun.named, hbegun.backed.wrote_ne o hkeys, ?_, hbegun.passed,
      hbegun.front, fun stem'' hkey'' hstem => ?_⟩
    · rw [contents_wrote, if_neg (by simp)]
      exact hbegun.tail
    · refine (hbegun.blank stem'' hkey'' hstem).wrote_ne o ?_ old D first
      rintro rfl
      exact hkeys hkey''.symm

/-- Only the stream table and the files matter, and of the calls the creator
and the bytes. -/
theorem Tracks.congr {k : Key} {cs more : List RawCall} {s t : Logger} (h : Tracks o k cs s)
    (hcreator : RawCall.creator k (cs ++ more) = RawCall.creator k cs)
    (hpassed : RawCall.passed k (cs ++ more) = RawCall.passed k cs) (hraw : t.raw = s.raw)
    (hdisk : t.disk = s.disk) : Tracks o k (cs ++ more) t := by
  have hblank : ∀ stem, Blank stem s → Blank stem t := by
    intro stem hs
    rwa [Blank, hdisk]
  refine ⟨fun hnone => ?_, fun c hc => ?_⟩
  · obtain ⟨hstream, hfiles⟩ := h.1 (hcreator ▸ hnone)
    exact ⟨hraw ▸ hstream, fun stem hkey => hblank stem (hfiles stem hkey)⟩
  · obtain ⟨hdata, stem, lost, rest, rfl, hbegun⟩ := h.2 c (hcreator ▸ hc)
    exact ⟨hdata, stem, lost, rest, rfl, hbegun.named, hbegun.backed.congr o hraw hdisk, hdisk ▸ hbegun.tail,
      hpassed.trans hbegun.passed, hbegun.front_append o more,
      fun stem' hkey hne => hblank stem' (hbegun.blank stem' hkey hne)⟩

theorem Tracks.wf {cs : List RawCall} {s : Logger} (h : ∀ k, Tracks o k cs s) : Wf o s := by
  intro k st hst
  cases hc : RawCall.creator k cs with
  | none =>
      rw [((h k).1 hc).stream] at hst
      cases hst
  | some c =>
      obtain ⟨-, stem, lost, rest, hkey, hbegun⟩ := (h k).2 c hc
      exact ⟨stem, [], c.data ++ rest, hkey, hbegun.backed⟩

theorem Untouched.wrote {cs : List RawCall} {s : Logger} {c : RawCall}
    (h : Untouched c.key s) (hdata : c.data ≠ []) (hopen : c.opens = true)
    (hcreator : RawCall.creator c.key cs = none) :
    Tracks o c.key (cs ++ [c]) (s.rawLocked o .ok c.conn c.proto c.peer c.dir c.data) := by
  have hstem : (Stem.of c.conn c.proto c.peer c.dir).key = c.key := rfl
  have hlocked := rawLocked_vacant o h.stream c.proto c.peer c.data
  rw [(h.blank _ hstem).1] at hlocked
  have hnow : RawCall.creator c.key (cs ++ [c]) = some c := by
    rw [RawCall.creator_append_singleton, hcreator, if_pos ⟨rfl, hdata, hopen⟩, Option.none_or]
  rw [hlocked]
  refine ⟨fun hnone => (Option.some_ne_none c (hnow.symm.trans hnone)).elim, fun c' hc' => ?_⟩
  obtain rfl := Option.some.inj (hnow.symm.trans hc')
  refine ⟨hdata, _, RawCall.passed c.key cs, [], hstem, rfl, ?_, ?_, ?_, ⟨cs, [], rfl, rfl⟩,
    fun stem' hkey hne => ?_⟩
  · rw [List.append_nil]
    exact backed_wrote o _ _ _ _ _
  · rw [contents_wrote, if_neg (by simp)]
    exact (h.blank _ hstem).2
  · rw [hstem, RawCall.passed_append_singleton, if_pos rfl, List.append_nil]
  · exact (h.blank stem' hkey).wrote_ne o hne _ _ _

theorem Begun.wrote {stem : Stem} {c c' : RawCall} {cs : List RawCall} {lost rest : List UInt8}
    {s : Logger} (h : Begun o stem c' cs lost rest s) (hkey : stem.key = c.key) :
    Begun o stem c' (cs ++ [c]) lost (rest ++ c.data)
      (s.rawLocked o .ok c.conn c.proto c.peer c.dir c.data) := by
  obtain ⟨hconn, hdir⟩ := Prod.mk.inj hkey
  have hlocked := rawLocked_open o h.backed c.proto c.peer c.data
  rw [hconn, hdir] at hlocked
  rw [hlocked]
  constructor
  · exact h.named
  · rw [← List.append_assoc]
    exact backed_wrote o _ _ _ _ _
  · rw [contents_wrote, if_neg (by simp)]
    exact h.tail
  · rw [RawCall.passed_append_singleton, if_pos hkey.symm, h.passed]
    simp only [List.append_assoc]
  · exact h.front_append o [c]
  · intro stem' hkey' hne
    exact (h.blank stem' hkey' hne).wrote_ne o hne _ _ _

theorem Begun.stream {stem : Stem} {c : RawCall} {cs : List RawCall} {lost rest : List UInt8}
    {s : Logger} (h : Begun o stem c cs lost rest s) : s.raw.get stem.key ≠ none := by
  rw [h.backed.stream]
  exact Option.some_ne_none _

theorem Tracks.rawLocked {cs : List RawCall} {s : Logger} (h : ∀ k, Tracks o k cs s) {c : RawCall}
    (hdata : c.data ≠ []) (k : Key) :
    Tracks o k (cs ++ [c])
      (s.rawLocked o (.opening c.opens) c.conn c.proto c.peer c.dir c.data) := by
  rw [rawLocked_opening]
  by_cases hk : c.key = k
  · subst hk
    cases hcreator : RawCall.creator c.key cs with
    | none =>
        have hstream := ((h c.key).1 hcreator).stream
        cases hopen : c.opens with
        | true =>
            rw [if_neg (by simp)]
            exact ((h c.key).1 hcreator).wrote o hdata hopen hcreator
        | false =>
            have hnone : RawCall.creator c.key (cs ++ [c]) = none := by
              rw [RawCall.creator_append_singleton, hcreator, if_neg (by simp [hopen]),
                Option.none_or]
            rw [if_pos ⟨hstream, rfl⟩]
            have huntouched := (h c.key).1 hcreator
            refine ⟨fun _ => ⟨huntouched.stream, huntouched.blank⟩, fun c' hc' => ?_⟩
            exact (Option.some_ne_none c' (hc'.symm.trans hnone)).elim
    | some c' =>
        obtain ⟨hdata', stem, lost, rest, hkey, hbegun⟩ := (h c.key).2 c' hcreator
        have hsome : RawCall.creator c.key (cs ++ [c]) = some c' := by
          rw [RawCall.creator_append_singleton, hcreator, Option.some_or]
        have hstream : ¬ (s.raw.get (c.conn, c.dir) = none ∧ c.opens = false) := by
          intro hnone
          exact hbegun.stream o (hkey ▸ hnone.1)
        rw [if_neg hstream]
        refine ⟨fun hnone => (Option.some_ne_none c' (hsome.symm.trans hnone)).elim,
          fun c'' hc'' => ?_⟩
        obtain rfl := Option.some.inj (hsome.symm.trans hc'')
        exact ⟨hdata', stem, lost, rest ++ c.data, hkey, hbegun.wrote o hkey⟩
  · have hcreator : RawCall.creator k (cs ++ [c]) = RawCall.creator k cs := by
      rw [RawCall.creator_append_singleton, if_neg (fun hc => hk hc.1), Option.or_none]
    have hpassed : RawCall.passed k (cs ++ [c]) = RawCall.passed k cs := by
      rw [RawCall.passed_append_singleton, if_neg hk, List.append_nil]
    split
    · exact (h k).congr o hcreator hpassed rfl rfl
    · obtain ⟨stem, old, D, hkey, hlocked, -⟩ :=
        (Tracks.wf o h).rawLocked_eq o c.conn c.proto c.peer c.dir c.data
      have hne : stem.key ≠ k := by
        intro heq
        exact hk (hkey.symm.trans heq)
      rw [hlocked]
      exact ((h k).wrote_ne o hne old _ _).congr o hcreator hpassed rfl rfl

theorem tracks_new (k : Key) : Tracks o k [] new := by
  refine ⟨fun _ => ⟨Table.get_empty k, fun stem _ => ⟨rfl, rfl⟩⟩, fun c hc => ?_⟩
  cases hc

theorem tracks_runs (hraw : o.raw = true) (hcap : o.maxRunBytes = 0) (cs : List RawCall) (k : Key) :
    Tracks o k cs (RawCall.runs o cs) := by
  induction cs using List.reverseRecOn generalizing k with
  | nil => exact tracks_new o k
  | append_singleton cs c ih =>
      rw [RawCall.runs_append_singleton, RawCall.run, rawWrite, hraw, charge_uncapped o hcap]
      by_cases hdata : c.data = []
      · have hcreator : RawCall.creator k (cs ++ [c]) = RawCall.creator k cs := by
          rw [RawCall.creator_append_singleton, if_neg (fun hc => hc.2.1 hdata), Option.or_none]
        have hpassed : RawCall.passed k (cs ++ [c]) = RawCall.passed k cs := by
          simp [RawCall.passed_append_singleton, hdata]
        simpa [hdata] using (ih k).congr o hcreator hpassed rfl rfl
      · simpa [hdata] using Tracks.rawLocked o ih hdata k

/-! ## The close -/

/-- Closing leaves the head files alone, and of the tail files all but those
of the open streams. -/
theorem finishAll_files {s : Logger} (hwf : Wf o s) {e : Env} (he : e.Good) (ks : List Key)
    (stem : Stem) :
    (s.finishAll e ks).2.disk.contents (.head stem) = s.disk.contents (.head stem) ∧
      ((∀ st, s.raw.get stem.key = some st → st.tailPath ≠ .tail stem) →
        (s.finishAll e ks).2.disk.contents (.tail stem) = s.disk.contents (.tail stem)) := by
  have hinv := (finishAll_induction o he
    (fun t _ => (∀ k st, t.raw.get k = some st → s.raw.get k = some st) ∧
      t.disk.contents (.head stem) = s.disk.contents (.head stem) ∧
      ((∀ st, s.raw.get stem.key = some st → st.tailPath ≠ .tail stem) →
        t.disk.contents (.tail stem) = s.disk.contents (.tail stem)))
    ?_ hwf (F := []) ⟨fun _ _ h => h, rfl, fun _ => rfl⟩ ks).2
  · exact hinv.2
  · intro t fs stem' old D _ hb ⟨hraw, hhead, htail⟩
    refine ⟨fun k st hst => ?_, ?_, fun hother => ?_⟩
    · by_cases hk : k = stem'.key
      · have hnone : (t.closed o stem' D).raw.get k = none := hk ▸ Table.get_remove _ _
        cases hnone.symm.trans hst
      · exact hraw k st ((Table.get_remove_ne _ hk).symm.trans hst)
    · rw [← hhead]
      simp only [closed]
      split
      · rfl
      · exact Disk.contents_set_ne _ _ (by simp)
    · have hne : FileName.tail stem ≠ .tail stem' := by
        intro heq
        obtain rfl := FileName.tail.inj heq
        exact hother _ (hraw _ _ hb.stream) rfl
      rw [← htail hother]
      simp only [closed]
      split
      · rfl
      · exact Disk.contents_set_ne _ _ hne

theorem truncated_of_charge {conn : ℕ} {dir : Dir} {sum : Summary FileName} {n : ℕ} {s : Logger}
    (h : Notice.truncated conn dir sum ∈ (s.charge o n).2.console) :
    Notice.truncated conn dir sum ∈ s.console := by
  unfold charge at h
  split at h
  · exact h
  · split at h
    · exact h
    · dsimp only at h
      split at h
      · simpa using h
      · exact h

theorem truncated_of_emit {conn : ℕ} {dir : Dir} {sum : Summary FileName} {ev : Event}
    {s : Logger} (h : Notice.truncated conn dir sum ∈ (s.emit dp o ev).console) :
    Notice.truncated conn dir sum ∈ s.console := by
  unfold emit at h
  split at h
  · exact h
  · dsimp only at h
    split at h
    · exact truncated_of_charge o h
    · exact truncated_of_charge o h

theorem disk_closeRaw (hraw : o.raw = true) (e : Env) (conn : ℕ) (proto : Proto)
    (name peer : String) (s : Logger) :
    (s.closeRaw dp o e conn proto name peer).disk =
      (s.finishAll e [(conn, .rx), (conn, .tx)]).2.disk := by
  simp only [closeRaw, hraw, Bool.not_true, Bool.false_eq_true, if_false]
  rw [← Call.foldl_truncated]
  refine (foldl_run_event_files dp o _ (fun w hw => ?_) _).2
  obtain ⟨f, -, rfl⟩ := List.mem_map.mp hw
  exact ⟨_, _, rfl⟩

theorem truncated_of_foldl {e : Env} {proto : Proto} {name peer : String} {k : Key}
    {sum : Summary FileName} (fs : List Finished) {s : Logger}
    (h : Notice.truncated k.1 k.2 sum ∈
      (fs.foldl (fun s f =>
        if f.summary.dropped = 0 then s
        else (s.announce f).emit dp o (truncatedEvent dp e proto name peer f)) s).console) :
    Notice.truncated k.1 k.2 sum ∈ s.console ∨ ∃ f ∈ fs, f.key = k ∧ f.summary = sum := by
  induction fs generalizing s with
  | nil => exact Or.inl h
  | cons f fs ih =>
      rw [List.foldl_cons] at h
      rcases ih h with h | ⟨f', hf', hsum⟩
      · split at h
        · exact Or.inl h
        · rcases List.mem_append.mp (truncated_of_emit dp o h) with h | h
          · exact Or.inl h
          · obtain ⟨hconn, hdir, hsum⟩ := Notice.truncated.inj (List.mem_singleton.mp h)
            exact Or.inr ⟨f, List.mem_cons_self, Prod.ext hconn.symm hdir.symm, hsum.symm⟩
      · exact Or.inr ⟨f', List.mem_cons_of_mem _ hf', hsum⟩

/-- What `close_raw` reports is about a stream that it finished. -/
theorem truncated_of_closeRaw {e : Env} {conn : ℕ} {proto : Proto} {name peer : String}
    {s : Logger} {k : Key} {sum : Summary FileName}
    (h : Notice.truncated k.1 k.2 sum ∈ (s.closeRaw dp o e conn proto name peer).console) :
    Notice.truncated k.1 k.2 sum ∈ s.console ∨
      ∃ st, s.raw.get k = some st ∧ sum.total = st.total := by
  cases hraw : o.raw with
  | false => exact Or.inl (by simpa [closeRaw, hraw] using h)
  | true =>
      simp only [closeRaw, hraw, Bool.not_true, Bool.false_eq_true, if_false] at h
      rcases truncated_of_foldl dp o _ h with h | ⟨f, hf, rfl, rfl⟩
      · rw [console_finishAll] at h
        exact Or.inl h
      · obtain ⟨-, st, hst, htotal, -⟩ := mem_finishAll hf
        exact Or.inr ⟨st, hst, htotal⟩

theorem not_truncated_runs (hcap : o.maxRunBytes = 0) (cs : List RawCall) (k : Key)
    (sum : Summary FileName) :
    Notice.truncated k.1 k.2 sum ∉ (RawCall.runs o cs).console := by
  induction cs using List.reverseRecOn with
  | nil => exact List.not_mem_nil
  | append_singleton cs c ih =>
      rw [RawCall.runs_append_singleton, RawCall.run, rawWrite, charge_uncapped o hcap]
      split
      · exact ih
      · simp only [if_true, rawLocked]
        split
        · simpa using ih
        · dsimp only
          split
          · simpa using ih
          · exact ih

/-! ## Holes -/

/-- The file begins with the first byte that was passed: the message that
brought it put it there, and what the file has got since comes after it. -/
def StartsAtFirst (stem : Stem) (cs : List RawCall) (t : Logger) : Prop :=
  ∃ before c after first, cs = before ++ c :: after ∧ RawCall.passed stem.key before = [] ∧
    c.key = stem.key ∧ first ≠ [] ∧ first <+: c.data ∧
    (RawCall.runs o (before ++ [c])).disk.contents (.head stem) = first ∧
    first <+: t.disk.contents (.head stem)

/-- If anything of the stream is on disk, it begins with the first byte that
was passed, or else the figures reported at the close make up for what is
missing. -/
def NoHole (k : Key) (cs : List RawCall) (t : Logger) : Prop :=
  ∀ stem, stem.key = k → ¬ Blank stem t →
    StartsAtFirst o stem cs t ∨
      ∃ sum, Notice.truncated k.1 k.2 sum ∈ t.console ∧
        sum.total = (RawCall.passed k cs).length ∧
        sum.dropped = (RawCall.passed k cs).length -
          ((t.disk.contents (.head stem)).length + (t.disk.contents (.tail stem)).length)

theorem runs_of_not_raw (hraw : o.raw = false) (cs : List RawCall) :
    RawCall.runs o cs = new := by
  induction cs using List.reverseRecOn with
  | nil => rfl
  | append_singleton cs c ih =>
      rw [RawCall.runs_append_singleton, ih]
      simp [RawCall.run, rawWrite, hraw]

theorem Blank.closeRaw {s : Logger} (hwf : Wf o s) {e : Env} (he : e.Good) (hraw : o.raw = true)
    {stem : Stem} (h : Blank stem s)
    (hother : ∀ st, s.raw.get stem.key = some st → st.tailPath ≠ .tail stem) (conn : ℕ)
    (proto : Proto) (name peer : String) :
    Blank stem (s.closeRaw dp o e conn proto name peer) := by
  obtain ⟨hhead, htail⟩ := finishAll_files o hwf he [(conn, .rx), (conn, .tx)] stem
  rw [Blank, disk_closeRaw dp o hraw, hhead, htail hother]
  exact h

/-- A message with bytes that is the first and opens the file. -/
theorem begun_first (hraw : o.raw = true) (hcap : o.maxRunBytes = 0) {before : List RawCall}
    {c : RawCall} (hnone : RawCall.passed c.key before = []) (hdata : c.data ≠ [])
    (hopens : c.opens = true) :
    (RawCall.runs o (before ++ [c])).disk.contents (.head (.of c.conn c.proto c.peer c.dir)) =
      Capture.headPart o.streamLimits.head.toNat c.data := by
  have hfirst : RawCall.first c.key (before ++ [c]) = some c :=
    RawCall.first_eq_some hnone rfl hdata
  obtain ⟨-, stem, lost, rest, hkey, hbegun⟩ :=
    (tracks_runs o hraw hcap (before ++ [c]) c.key).2 c (RawCall.creator_eq_first hfirst hopens)
  have hpassed := hbegun.passed
  rw [hkey, RawCall.passed_append_singleton, hnone, if_pos rfl, List.nil_append] at hpassed
  have hrest : rest = [] := by
    have hlen := congrArg List.length hpassed
    simp only [List.length_append] at hlen
    exact List.eq_nil_of_length_eq_zero (by omega)
  have hfile := hbegun.backed.file
  rw [hrest, List.append_nil, hbegun.named] at hfile
  rw [Disk.contents, hfile]
  rfl

/-- Before a message has opened the file there is nothing in it. -/
theorem blank_of_not_opens (hraw : o.raw = true) (hcap : o.maxRunBytes = 0)
    {before : List RawCall} {c : RawCall} (hnone : RawCall.passed c.key before = [])
    (hopens : c.opens = false) {stem : Stem} (hkey : stem.key = c.key) :
    Blank stem (RawCall.runs o (before ++ [c])) := by
  have hcreator : RawCall.creator c.key (before ++ [c]) = none := by
    rw [RawCall.passed_eq_nil_iff] at hnone
    rw [RawCall.creator, List.find?_eq_none]
    intro b hb hlive
    obtain ⟨hk, hne, hopen⟩ := of_decide_eq_true hlive
    rcases List.mem_append.mp hb with hb | hb
    · exact hne (hnone b hb hk)
    · rw [List.mem_singleton.mp hb, hopens] at hopen
      cases hopen
  exact ((tracks_runs o hraw hcap (before ++ [c]) c.key).1 hcreator).blank stem hkey

/-- What is in the file when the stream has been closed. -/
theorem Begun.file_closeRaw (hraw : o.raw = true) {stem : Stem} {c : RawCall} {cs : List RawCall}
    {lost rest : List UInt8} {s : Logger} (h : Begun o stem c cs lost rest s) (hwf : Wf o s)
    {e : Env} (he : e.Good) (conn : ℕ) (proto : Proto) (name peer : String) :
    (s.closeRaw dp o e conn proto name peer).disk.contents (.head stem) =
      Capture.headPart o.streamLimits.head.toNat (c.data ++ rest) := by
  rw [disk_closeRaw dp o hraw, (finishAll_files o hwf he _ stem).1, Disk.contents, h.backed.file]
  rfl

/-- If a file was opened and there is no hole, the first message opened it. -/
theorem opens_of_noHole (hraw : o.raw = true) (hcap : o.maxRunBytes = 0) {cs : List RawCall}
    {conn : ℕ} {dir : Dir} {e : Env} (he : e.Good) {proto : Proto} {name peer : String}
    (hhole : NoHole o (conn, dir) cs ((RawCall.runs o cs).closeRaw dp o e conn proto name peer))
    {c f : RawCall} (hcreator : RawCall.creator (conn, dir) cs = some c)
    (hf : RawCall.first (conn, dir) cs = some f) : f.opens = true := by
  have htracks := tracks_runs o hraw hcap cs
  have hwf := Tracks.wf o htracks
  obtain ⟨hdata, stem, lost, rest, hkey, hbegun⟩ := (htracks (conn, dir)).2 c hcreator
  obtain ⟨hckey, -, hcopens⟩ := RawCall.creator_live hcreator
  have hlanded : ¬ Blank stem ((RawCall.runs o cs).closeRaw dp o e conn proto name peer) := by
    rw [Blank, hbegun.file_closeRaw dp o hraw hwf he]
    exact fun h => Capture.headPart_ne_nil _ (by simp [hdata]) h.1
  rcases hhole stem hkey hlanded with
    ⟨before, c', after, first, rfl, hbefore, hkey', hfirst, hprefix, hhead, -⟩ |
      ⟨sum, hsum, htotal, -⟩
  · have hdata' : c'.data ≠ [] := by
      intro hnil
      rw [hnil] at hprefix
      exact hfirst (List.prefix_nil.mp hprefix)
    have hsame : RawCall.first stem.key (before ++ c' :: after) = some c' :=
      RawCall.first_eq_some hbefore hkey' hdata'
    obtain rfl : c' = f := Option.some.inj (hsame.symm.trans (hkey ▸ hf))
    by_contra hopens
    have hblank := blank_of_not_opens o hraw hcap (hkey' ▸ hbefore)
      (Bool.eq_false_iff.mpr hopens) hkey'.symm
    exact hfirst (hhead.symm.trans hblank.1)
  · have hreported := truncated_of_closeRaw dp o hsum
    obtain ⟨st, hst, hst'⟩ :=
      hreported.resolve_left (not_truncated_runs o hcap cs (conn, dir) sum)
    obtain rfl := hbegun.backed.eq_after o hkey hst
    have hlost : lost = [] := by
      have hlen := congrArg List.length (hkey ▸ hbegun.passed)
      rw [← htotal, hst', List.length_append] at hlen
      rw [← List.length_eq_zero_iff]
      simp only [Stream.after] at hlen
      omega
    obtain ⟨before, after, hcs, hpassed⟩ := hbegun.front
    rw [hlost, hkey] at hpassed
    have hsame : RawCall.first (conn, dir) cs = some c :=
      hcs ▸ RawCall.first_eq_some hpassed.symm hckey hdata
    obtain rfl : c = f := Option.some.inj (hsame.symm.trans hf)
    exact hcopens

/-- If the first message opens the file, what is on disk begins with it. -/
theorem startsAtFirst_of_opens (hraw : o.raw = true) (hcap : o.maxRunBytes = 0)
    {cs : List RawCall} {stem : Stem} {f : RawCall} (hf : RawCall.first stem.key cs = some f)
    (hopens : f.opens = true) {lost rest : List UInt8}
    (hbegun : Begun o stem f cs lost rest (RawCall.runs o cs)) {t : Logger}
    (hfile : t.disk.contents (.head stem) =
      Capture.headPart o.streamLimits.head.toNat (f.data ++ rest)) :
    StartsAtFirst o stem cs t := by
  obtain ⟨hfkey, hdata, before, after, rfl, hnone⟩ := RawCall.exists_of_first hf
  refine ⟨before, f, after, Capture.headPart o.streamLimits.head.toNat f.data, rfl, hnone, hfkey,
    Capture.headPart_ne_nil _ hdata, Capture.headPart_prefix _ _, ?_, ?_⟩
  · rw [hbegun.named]
    exact begun_first o hraw hcap (hfkey ▸ hnone) hdata hopens
  · rw [hfile]
    exact Capture.headPart_mono _ (List.prefix_append _ _)

/-- There is no hole if and only if nothing lands at all or the first message
opens the file. -/
theorem no_hole_iff (hcap : o.maxRunBytes = 0) (cs : List RawCall) (conn : ℕ) (dir : Dir)
    (e : Env) (he : e.Good) (proto : Proto) (name peer : String) :
    NoHole o (conn, dir) cs ((RawCall.runs o cs).closeRaw dp o e conn proto name peer) ↔
      (o.raw = true → RawCall.creator (conn, dir) cs ≠ none →
        ∀ c, RawCall.first (conn, dir) cs = some c → c.opens = true) := by
  cases hraw : o.raw with
  | false =>
      refine ⟨fun _ h => absurd h (by simp), fun _ stem _ hblank => ?_⟩
      rw [runs_of_not_raw o hraw] at hblank
      exact absurd (by simp [closeRaw, hraw, Blank, new, Disk.contents]) hblank
  | true =>
      have htracks := tracks_runs o hraw hcap cs
      have hwf := Tracks.wf o htracks
      constructor
      · intro hhole _ hsome f hf
        obtain ⟨c, hcreator⟩ := Option.ne_none_iff_exists'.mp hsome
        exact opens_of_noHole dp o hraw hcap he hhole hcreator hf
      · intro hopens stem' hkey' hlanded
        cases hcreator : RawCall.creator (conn, dir) cs with
        | none =>
            have huntouched := (htracks (conn, dir)).1 hcreator
            refine absurd ((huntouched.blank stem' hkey').closeRaw dp o hwf he hraw ?_ _ _ _ _)
              hlanded
            intro st hst
            rw [hkey', huntouched.stream] at hst
            cases hst
        | some c =>
            obtain ⟨hdata, stem, lost, rest, hkey, hbegun⟩ := (htracks (conn, dir)).2 c hcreator
            by_cases hstem : stem' = stem
            · subst hstem
              obtain ⟨f, hf⟩ := RawCall.first_of_creator hcreator
              have hfopens := hopens rfl (by rw [hcreator]; exact Option.some_ne_none c) f hf
              have hsame := RawCall.creator_eq_first hf hfopens
              obtain rfl : c = f := Option.some.inj (hcreator.symm.trans hsame)
              exact .inl (startsAtFirst_of_opens o hraw hcap (hkey ▸ hf) hfopens hbegun
                (hbegun.file_closeRaw dp o hraw hwf he _ _ _ _))
            · refine absurd ((hbegun.blank stem' (hkey'.trans hkey.symm) hstem).closeRaw dp o hwf he
                hraw ?_ _ _ _ _) hlanded
              intro st hst hpath
              obtain rfl := hbegun.backed.eq_after o (hkey.trans hkey'.symm) hst
              exact hstem (FileName.tail.inj hpath).symm

/-- The head file opens for the first message, and what would happen to a
second open does not matter. -/
theorem no_hole_iff_opened :
    NoHole (.rawOnly ⟨1, 0⟩ 0) (1, .rx)
      [⟨true, 1, .tcp, "127.0.0.1:4000", .rx, [1, 2]⟩,
        ⟨false, 1, .tcp, "127.0.0.1:4000", .rx, [3]⟩]
      ((RawCall.runs (.rawOnly ⟨1, 0⟩ 0)
        [⟨true, 1, .tcp, "127.0.0.1:4000", .rx, [1, 2]⟩,
          ⟨false, 1, .tcp, "127.0.0.1:4000", .rx, [3]⟩]).closeRaw .bare (.rawOnly ⟨1, 0⟩ 0) .quiet
            1 .tcp "tcp:0" "127.0.0.1:4000") :=
  (no_hole_iff .bare (.rawOnly ⟨1, 0⟩ 0) rfl
    [⟨true, 1, .tcp, "127.0.0.1:4000", .rx, [1, 2]⟩,
      ⟨false, 1, .tcp, "127.0.0.1:4000", .rx, [3]⟩] 1 .rx .quiet Env.quiet_good .tcp "tcp:0"
    "127.0.0.1:4000").mpr fun _ _ _ hc => congrArg RawCall.opens (Option.some.inj hc).symm

/-- The open fails for the first message and succeeds for the second, which
begins with the same byte: the file begins with the second, and the close has
nothing to report. -/
theorem not_no_hole :
    ¬ ∀ (dp : Deps) (o : Options), o.maxRunBytes = 0 → ∀ (cs : List RawCall) (conn : ℕ) (dir : Dir)
      (e : Env), e.Good → ∀ (proto : Proto) (name peer : String),
        NoHole o (conn, dir) cs
          ((RawCall.runs o cs).closeRaw dp o e conn proto name peer) := by
  intro h
  have hhole := h .bare (.rawOnly ⟨0, 0⟩ 0) rfl
    [⟨false, 1, .tcp, "127.0.0.1:4000", .rx, [1]⟩, ⟨true, 1, .tcp, "127.0.0.1:4000", .rx, [1, 2]⟩]
    1 .rx .quiet Env.quiet_good .tcp "tcp:0" "127.0.0.1:4000"
  have hopens := opens_of_noHole .bare (.rawOnly ⟨0, 0⟩ 0) rfl rfl Env.quiet_good hhole rfl
    (f := ⟨false, 1, .tcp, "127.0.0.1:4000", .rx, [1]⟩) rfl
  cases hopens

end Logger

end KirbLaSnoop
