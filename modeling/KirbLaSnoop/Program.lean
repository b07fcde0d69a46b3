import Mathlib
import KirbLaSnoop.Listener.Panics
import KirbLaSnoop.Profile.Matching

/-!
# The program

The listeners are started, each in a task of its own that ends only when it
cannot bind or when it panics. Meanwhile `main` waits for ctrl-c or for the
last of them, flushes the logger, prints the summary and exits.
-/

namespace KirbLaSnoop

/-- The task of a listener, with the error it has ended with. -/
inductive Listening where
  | binding
  | up
  | failed (e : String)
  | panicked (e : String)
  deriving DecidableEq

/-- What `main` prints when the task is joined. -/
def Listening.report : Listening → Option String
  | .failed e => some ("kls: " ++ e)
  | .panicked e => some ("kls: listener task panicked: " ++ e)
  | _ => none

/-- Where `main` is, once it has started the listeners. -/
inductive Main where
  | waiting
  | flushing
  | flushed
  | ended (bail : Option String)
  deriving DecidableEq

/-- A task is `joined` when `main` has been told of its end. -/
structure Program (ι Addr : Type*) where
  process : Process ι Addr
  listening : ι → Listening
  joined : ι → Bool
  failed : ℕ
  main : Main

namespace Program

inductive Act (ι Addr : Type*) where
  | bind (i : ι)
  | fail (i : ι) (e : String)
  | panic (i : ι) (e : String)
  | run (a : Process.Act ι Addr)
  | join (i : ι)
  | ctrlC
  | flush (e : Env) (order : List Key)
  | summary

inductive Out (ι Addr : Type*) where
  | quiet
  | seen (new : List (Process.Seen ι Addr))
  | stdout (line : String)
  | stderr (line : String)

variable {ι Addr : Type*}

def Act.inner : Act ι Addr → Option (Process.Act ι Addr)
  | .run a => some a
  | .flush e order => some (.flush e order)
  | _ => none

def Out.inner : Out ι Addr → Option (List (Process.Seen ι Addr))
  | .seen new => some new
  | _ => none

def Act.isFlush : Act ι Addr → Bool
  | .flush _ _ => true
  | _ => false

/-- The listener whose task the act changes. -/
def Act.about : Act ι Addr → Option ι
  | .bind i => some i
  | .fail i _ => some i
  | .panic i _ => some i
  | _ => none

/-- The thread that acts has been started; the flush is for `main`. -/
def mayRun [DecidableEq ι] (s : Program ι Addr) (a : Process.Act ι Addr) : Bool :=
  match a.thread with
  | some (.loop i) => s.listening i = .up
  | some (.task _) => true
  | none => false

variable (net : ι → Listener Addr) (dp : Deps) (o : Options)

def start : Program ι Addr :=
  { process := Process.start net
    listening := fun _ => .binding
    joined := fun _ => false
    failed := 0
    main := .waiting }

def become [DecidableEq ι] (s : Program ι Addr) (i : ι) (l : Listening) : Program ι Addr :=
  { s with listening := Function.update s.listening i l }

variable [Fintype ι]

/-- `set.is_empty()`. -/
def allJoined (s : Program ι Addr) : Bool := ∀ i, s.joined i

def verdict (s : Program ι Addr) : Option String :=
  if 0 < s.failed ∧ s.allJoined then some "every listener failed to start" else none

variable [DecidableEq ι]

/-- The set of tasks yields the end of one of them. -/
def take (s : Program ι Addr) (i : ι) : Program ι Addr :=
  let s := { s with
    joined := Function.update s.joined i true
    failed := match s.listening i with
      | .failed _ => s.failed + 1
      | _ => s.failed }
  { s with main := if s.allJoined then .flushing else .waiting }

variable [DecidableEq Addr]

def step (s : Program ι Addr) : Act ι Addr → Option (Program ι Addr × Out ι Addr)
  | .bind i => if s.listening i = .binding then some (s.become i .up, .quiet) else none
  | .fail i e => if s.listening i = .binding then some (s.become i (.failed e), .quiet) else none
  | .panic i e =>
      if s.listening i = .up ∧ (s.process.udp i).crashed ∧ s.process.pending (.loop i) = [] then
        some (s.become i (.panicked e), .quiet)
      else none
  | .run a =>
      if s.mayRun a then
        ((Process.lts net dp o).step s.process a).map fun q =>
          ({ s with process := q.1 }, .seen q.2)
      else none
  | .join i =>
      if s.main = .waiting ∧ s.joined i = false then
        (s.listening i).report.map fun line => (s.take i, .stderr line)
      else none
  | .ctrlC => if s.main = .waiting then some ({ s with main := .flushing }, .stdout "") else none
  | .flush e order =>
      if s.main = .flushing then
        ((Process.lts net dp o).step s.process (.flush e order)).map fun q =>
          ({ s with process := q.1, main := .flushed }, .seen q.2)
      else none
  | .summary =>
      if s.main = .flushed then some ({ s with main := .ended s.verdict }, .quiet) else none

/-- Once `main` has returned, nothing happens any more. -/
def lts : Lts (Program ι Addr) (Act ι Addr) (Out ι Addr) where
  step s a :=
    match s.main with
    | .ended _ => none
    | _ => step net dp o s a

/-! ## What a step can do -/

inductive Move (s : Program ι Addr) : Act ι Addr → Program ι Addr → Out ι Addr → Prop
  | bind (i : ι) (hbinding : s.listening i = .binding) :
      Move s (.bind i) (s.become i .up) .quiet
  | fail (i : ι) (e : String) (hbinding : s.listening i = .binding) :
      Move s (.fail i e) (s.become i (.failed e)) .quiet
  | panic (i : ι) (e : String) (hup : s.listening i = .up)
      (hcrashed : (s.process.udp i).crashed = true) :
      Move s (.panic i e) (s.become i (.panicked e)) .quiet
  | run (a : Process.Act ι Addr) (p : Process ι Addr) (new : List (Process.Seen ι Addr))
      (hmay : s.mayRun a = true) (hp : (Process.lts net dp o).step s.process a = some (p, new)) :
      Move s (.run a) { s with process := p } (.seen new)
  | join (i : ι) (line : String) (hmain : s.main = .waiting) (hnew : s.joined i = false)
      (hline : (s.listening i).report = some line) : Move s (.join i) (s.take i) (.stderr line)
  | ctrlC (hmain : s.main = .waiting) :
      Move s .ctrlC { s with main := .flushing } (.stdout "")
  | flush (e : Env) (order : List Key) (p : Process ι Addr) (new : List (Process.Seen ι Addr))
      (hmain : s.main = .flushing)
      (hp : (Process.lts net dp o).step s.process (.flush e order) = some (p, new)) :
      Move s (.flush e order) { s with process := p, main := .flushed } (.seen new)
  | summary (hmain : s.main = .flushed) :
      Move s .summary { s with main := .ended s.verdict } .quiet

theorem step_cases {s t : Program ι Addr} {a : Act ι Addr} {out : Out ι Addr}
    (h : (lts net dp o).step s a = some (t, out)) : Move net dp o s a t out := by
  have h' : step net dp o s a = some (t, out) := by
    simp only [lts] at h
    split at h
    · cases h
    · exact h
  cases a with
  | bind i =>
      obtain ⟨hbinding, h'⟩ := Option.ite_none_right_eq_some.mp h'
      obtain ⟨rfl, rfl⟩ := Prod.mk.inj (Option.some.inj h')
      exact .bind i hbinding
  | fail i e =>
      obtain ⟨hbinding, h'⟩ := Option.ite_none_right_eq_some.mp h'
      obtain ⟨rfl, rfl⟩ := Prod.mk.inj (Option.some.inj h')
      exact .fail i e hbinding
  | panic i e =>
      obtain ⟨⟨hup, hcrashed, -⟩, h'⟩ := Option.ite_none_right_eq_some.mp h'
      obtain ⟨rfl, rfl⟩ := Prod.mk.inj (Option.some.inj h')
      exact .panic i e hup hcrashed
  | run a =>
      obtain ⟨hmay, h'⟩ := Option.ite_none_right_eq_some.mp h'
      obtain ⟨⟨p, new⟩, hp, h'⟩ := Option.map_eq_some_iff.mp h'
      obtain ⟨rfl, rfl⟩ := Prod.mk.inj h'
      exact .run a p new hmay hp
  | join i =>
      obtain ⟨⟨hmain, hnew⟩, h'⟩ := Option.ite_none_right_eq_some.mp h'
      obtain ⟨line, hline, h'⟩ := Option.map_eq_some_iff.mp h'
      obtain ⟨rfl, rfl⟩ := Prod.mk.inj h'
      exact .join i line hmain hnew hline
  | ctrlC =>
      obtain ⟨hmain, h'⟩ := Option.ite_none_right_eq_some.mp h'
      obtain ⟨rfl, rfl⟩ := Prod.mk.inj (Option.some.inj h')
      exact .ctrlC hmain
  | flush e order =>
      obtain ⟨hmain, h'⟩ := Option.ite_none_right_eq_some.mp h'
      obtain ⟨⟨p, new⟩, hp, h'⟩ := Option.map_eq_some_iff.mp h'
      obtain ⟨rfl, rfl⟩ := Prod.mk.inj h'
      exact .flush e order p new hmain hp
  | summary =>
      obtain ⟨hmain, h'⟩ := Option.ite_none_right_eq_some.mp h'
      obtain ⟨rfl, rfl⟩ := Prod.mk.inj (Option.some.inj h')
      exact .summary hmain

variable {net dp o} {s : Program ι Addr} {acts : List (Act ι Addr)} {out : List (Out ι Addr)}

theorem hosts : (lts net dp o).Hosts (Process.lts net dp o) process Act.inner Out.inner := by
  intro s a t out h
  cases step_cases net dp o h with
  | run a p new hmay hp => exact .inr ⟨a, new, rfl, rfl, hp⟩
  | flush e order p new hmain hp => exact .inr ⟨.flush e order, new, rfl, rfl, hp⟩
  | _ => exact .inl ⟨rfl, rfl, rfl⟩

/-! ## The tasks -/

/-- What the task of a listener is, is what happened to it. -/
structure Stands (acts : List (Act ι Addr)) (s : Program ι Addr) (i : ι) : Prop where
  bound : .bind i ∈ acts ↔ s.listening i = .up ∨ ∃ e, s.listening i = .panicked e
  failed : ∀ e, .fail i e ∈ acts ↔ s.listening i = .failed e
  panicked : ∀ e, .panic i e ∈ acts ↔ s.listening i = .panicked e

omit [Fintype ι] [DecidableEq ι] [DecidableEq Addr] in
theorem Stands.keep {u v : Program ι Addr} {i : ι} (h : Stands acts u i) (a : Act ι Addr)
    (ha : a.about ≠ some i) (hlistening : v.listening i = u.listening i) :
    Stands (acts ++ [a]) v i := by
  have hsame (b : Act ι Addr) (hb : b.about = some i) : b ∈ acts ++ [a] ↔ b ∈ acts := by
    rw [List.mem_append, List.mem_singleton]
    refine or_iff_left ?_
    rintro rfl
    exact ha hb
  constructor
  · rw [hsame _ rfl, hlistening]
    exact h.bound
  · intro e
    rw [hsame _ rfl, hlistening]
    exact h.failed e
  · intro e
    rw [hsame _ rfl, hlistening]
    exact h.panicked e

omit [Fintype ι] [DecidableEq Addr] in
theorem listening_become (s : Program ι Addr) (i : ι) (l : Listening) :
    (s.become i l).listening i = l :=
  Function.update_self _ _ _

omit [Fintype ι] [DecidableEq Addr] in
theorem Stands.become {u : Program ι Addr} {i j : ι} (h : Stands acts u i) (hij : i ≠ j)
    {a : Act ι Addr} (ha : a.about = some j) (l : Listening) :
    Stands (acts ++ [a]) (u.become j l) i := by
  refine h.keep a ?_ (Function.update_of_ne hij _ _)
  rw [ha]
  exact fun heq => hij (Option.some.inj heq).symm

theorem Stands.step {u v : Program ι Addr} {a : Act ι Addr} {new : Out ι Addr} {i : ι}
    (hu : Stands acts u i) (hs : (lts net dp o).step u a = some (v, new)) :
    Stands (acts ++ [a]) v i := by
  cases step_cases net dp o hs with
  | bind j hbinding =>
      by_cases hij : i = j
      · subst hij
        exact ⟨by simp [listening_become], by simp [listening_become, hu.failed, hbinding],
          by simp [listening_become, hu.panicked, hbinding]⟩
      · exact hu.become hij rfl _
  | fail j e hbinding =>
      by_cases hij : i = j
      · subst hij
        exact ⟨by simp [listening_become, hu.bound, hbinding],
          by simp [listening_become, hu.failed, hbinding, eq_comm],
          by simp [listening_become, hu.panicked, hbinding]⟩
      · exact hu.become hij rfl _
  | panic j e hup =>
      by_cases hij : i = j
      · subst hij
        exact ⟨by simp [listening_become, hu.bound, hup],
          by simp [listening_become, hu.failed, hup],
          by simp [listening_become, hu.panicked, hup, eq_comm]⟩
      · exact hu.become hij rfl _
  | _ => exact hu.keep _ (by simp [Act.about]) rfl

theorem stands_run (h : (lts net dp o).run (start net) acts = some (s, out)) (i : ι) :
    Stands acts s i :=
  (lts net dp o).run_induction (fun acts s _ => Stands acts s i)
    ⟨by simp [start], by simp [start], by simp [start]⟩
    (fun _ _ _ _ _ _ _ _ _ hu hs => hu.step hs) h

/-- `main` has printed how the joined tasks ended, and has counted those that
could not bind. -/
structure Told (s : Program ι Addr) (out : List (Out ι Addr)) : Prop where
  printed : ∀ i, s.joined i = true → ∃ line, (s.listening i).report = some line ∧
    .stderr line ∈ out
  counted : 0 < s.failed ↔ ∃ i e, s.joined i = true ∧ s.listening i = .failed e

omit [Fintype ι] [DecidableEq Addr] in
theorem Told.become {i : ι} (h : Told s out) (hrunning : (s.listening i).report = none)
    (l : Listening) (new : Out ι Addr) : Told (s.become i l) (out ++ [new]) := by
  have hother (j : ι) (hj : s.joined j = true) : (s.become i l).listening j = s.listening j := by
    refine Function.update_of_ne ?_ _ _
    rintro rfl
    obtain ⟨line, hline, -⟩ := h.printed j hj
    cases hrunning.symm.trans hline
  constructor
  · intro j hj
    obtain ⟨line, hline, hprinted⟩ := h.printed j hj
    exact ⟨line, (congrArg Listening.report (hother j hj)).trans hline,
      List.mem_append_left _ hprinted⟩
  · refine h.counted.trans (exists_congr fun j => exists_congr fun e => ?_)
    refine and_congr_right fun hj => ?_
    rw [hother j hj]

omit [DecidableEq Addr] in
theorem Told.take {i : ι} {line : String} (h : Told s out) (hnew : s.joined i = false)
    (hline : (s.listening i).report = some line) : Told (s.take i) (out ++ [.stderr line]) := by
  have hjoined (j : ι) : (s.take i).joined j = true ↔ j = i ∨ s.joined j = true := by
    by_cases hj : j = i
    · subst hj
      simp [Program.take]
    · simp [Program.take, hj]
  constructor
  · intro j hj
    rcases (hjoined j).mp hj with rfl | hj
    · exact ⟨line, hline, by simp⟩
    · obtain ⟨line', hline', hprinted⟩ := h.printed j hj
      exact ⟨line', hline', List.mem_append_left _ hprinted⟩
  · have hfailed : 0 < (s.take i).failed ↔ 0 < s.failed ∨ ∃ e, s.listening i = .failed e := by
      cases hl : s.listening i <;> simp [Program.take, hl]
    rw [hfailed, h.counted]
    constructor
    · rintro (⟨j, e, hj, hfail⟩ | ⟨e, hfail⟩)
      · exact ⟨j, e, (hjoined j).mpr (.inr hj), hfail⟩
      · exact ⟨i, e, (hjoined i).mpr (.inl rfl), hfail⟩
    · rintro ⟨j, e, hj, hfail⟩
      rcases (hjoined j).mp hj with rfl | hj
      · exact .inr ⟨e, hfail⟩
      · exact .inl ⟨j, e, hj, hfail⟩

omit [Fintype ι] [DecidableEq ι] [DecidableEq Addr] in
theorem Told.mono {t : Program ι Addr} (h : Told s out) (new : Out ι Addr)
    (hlistening : t.listening = s.listening) (hjoined : t.joined = s.joined)
    (hfailed : t.failed = s.failed) : Told t (out ++ [new]) := by
  constructor
  · intro i hi
    rw [hjoined] at hi
    obtain ⟨line, hline, hprinted⟩ := h.printed i hi
    rw [hlistening]
    exact ⟨line, hline, List.mem_append_left _ hprinted⟩
  · rw [hlistening, hjoined, hfailed]
    exact h.counted

theorem Told.step {u v : Program ι Addr} {a : Act ι Addr} {new : Out ι Addr} (hu : Told u out)
    (hs : (lts net dp o).step u a = some (v, new)) : Told v (out ++ [new]) := by
  cases step_cases net dp o hs with
  | bind i hbinding => exact hu.become (by rw [hbinding]; rfl) _ _
  | fail i e hbinding => exact hu.become (by rw [hbinding]; rfl) _ _
  | panic i e hup => exact hu.become (by rw [hup]; rfl) _ _
  | join i line hmain hnew hline => exact hu.take hnew hline
  | _ => exact hu.mono _ rfl rfl rfl

theorem told_run (h : (lts net dp o).run (start net) acts = some (s, out)) : Told s out :=
  (lts net dp o).run_induction (fun _ s out => Told s out) ⟨by simp [start], by simp [start]⟩
    (fun _ _ _ _ _ _ _ _ _ hu hs => hu.step hs) h

/-! ## Where `main` is -/

/-- `main` waits on as long as a task is left and nobody has interrupted it,
and then goes straight to its end. -/
structure Led (acts : List (Act ι Addr)) (s : Program ι Addr) : Prop where
  interrupted : .ctrlC ∈ acts ↔ s.main ≠ .waiting ∧ s.allJoined = false
  waits : s.main = .waiting → s.allJoined = false
  flushes : acts.countP Act.isFlush = if s.main = .waiting ∨ s.main = .flushing then 0 else 1
  verdict : ∀ bail, s.main = .ended bail → bail = s.verdict

omit [DecidableEq ι] [DecidableEq Addr] in
theorem Led.keep {u v : Program ι Addr} (h : Led acts u) (a : Act ι Addr) (hctrlC : a ≠ .ctrlC)
    (hflush : a.isFlush = false) (hmain : v.main = u.main) (hjoined : v.joined = u.joined)
    (hfailed : v.failed = u.failed) : Led (acts ++ [a]) v := by
  have hall : v.allJoined = u.allJoined := by rw [allJoined, allJoined, hjoined]
  constructor
  · rw [List.mem_append, List.mem_singleton, or_iff_left hctrlC.symm, hmain, hall]
    exact h.interrupted
  · rw [hmain, hall]
    exact h.waits
  · rw [List.countP_append, List.countP_singleton, hflush, hmain]
    exact h.flushes
  · intro bail hend
    rw [hmain] at hend
    rw [h.verdict bail hend, Program.verdict, Program.verdict, hfailed, hall]

omit [DecidableEq Addr] in
theorem Led.take {u : Program ι Addr} (h : Led acts u) (hmain : u.main = .waiting) (i : ι) :
    Led (acts ++ [.join i]) (u.take i) := by
  have hcalm : .ctrlC ∉ acts := fun hmem => (h.interrupted.mp hmem).1 hmain
  have hflushes := h.flushes
  rw [if_pos (.inl hmain)] at hflushes
  have htake : (u.take i).main = if (u.take i).allJoined then .flushing else .waiting := rfl
  cases hall : (u.take i).allJoined with
  | false =>
      rw [hall, if_neg Bool.false_ne_true] at htake
      exact ⟨by simp [hcalm, htake], fun _ => hall, by simp [hflushes, htake, Act.isFlush],
        by simp [htake]⟩
  | true =>
      rw [hall, if_pos rfl] at htake
      exact ⟨by simp [hcalm, hall], by simp [htake], by simp [hflushes, htake, Act.isFlush],
        by simp [htake]⟩

theorem Led.step {u v : Program ι Addr} {a : Act ι Addr} {new : Out ι Addr} (hu : Led acts u)
    (hs : (lts net dp o).step u a = some (v, new)) : Led (acts ++ [a]) v := by
  have hinterrupted := hu.interrupted
  have hflushes := hu.flushes
  cases step_cases net dp o hs with
  | bind i hbinding => exact hu.keep _ (by simp) rfl rfl rfl rfl
  | fail i e hbinding => exact hu.keep _ (by simp) rfl rfl rfl rfl
  | panic i e hup => exact hu.keep _ (by simp) rfl rfl rfl rfl
  | run a p new hmay hp => exact hu.keep _ (by simp) rfl rfl rfl rfl
  | join i line hmain hnew hline => exact hu.take hmain i
  | ctrlC hmain =>
      have hall : allJoined { u with main := .flushing } = false := hu.waits hmain
      rw [if_pos (.inl hmain)] at hflushes
      exact ⟨by simp [hall], by simp, by simp [hflushes, Act.isFlush], by simp⟩
  | flush e order p new hmain hp =>
      have hall : allJoined { u with process := p, main := .flushed } = u.allJoined := rfl
      rw [hmain] at hinterrupted
      rw [if_pos (.inr hmain)] at hflushes
      exact ⟨by simpa [hall] using hinterrupted, by simp, by simp [hflushes, Act.isFlush], by simp⟩
  | summary hmain =>
      have hall : allJoined { u with main := .ended u.verdict } = u.allJoined := rfl
      rw [hmain] at hinterrupted hflushes
      exact ⟨by simpa [hall] using hinterrupted, by simp, by simpa [Act.isFlush] using hflushes,
        fun bail hend => (Main.ended.inj hend).symm⟩

theorem led_run [Nonempty ι] (h : (lts net dp o).run (start net) acts = some (s, out)) :
    Led acts s :=
  (lts net dp o).run_induction (fun acts s _ => Led acts s)
    ⟨by simp [start], by simp [start, allJoined], by simp [start], by simp [start]⟩
    (fun _ _ _ _ _ _ _ _ _ hu hs => hu.step hs) h

/-! ## Without a listener -/

/-- No connection is there, and nothing has been seen. -/
structure Unseen (s : Program ι Addr) (out : List (Out ι Addr)) : Prop where
  tasks : ∀ conn, s.process.tasks conn = none
  pending : ∀ conn, s.process.pending (.task conn) = []
  seen : (out.filterMap Out.inner).flatten = []

omit [Fintype ι] [DecidableEq ι] [DecidableEq Addr] in
theorem Unseen.keep {u v : Program ι Addr} (h : Unseen u out) (new : Out ι Addr)
    (hnew : new.inner = none) (hprocess : v.process = u.process) : Unseen v (out ++ [new]) := by
  refine ⟨hprocess ▸ h.tasks, hprocess ▸ h.pending, ?_⟩
  simp [List.filterMap_append, hnew, h.seen]

omit [Fintype ι] in
/-- A connection that is not there takes no step. -/
theorem Unseen.not_task {u : Program ι Addr} (h : Unseen u out) {a : Process.Act ι Addr}
    {conn : ℕ} (ha : a.thread = some (.task conn)) {p : Process ι Addr}
    {new : List (Process.Seen ι Addr)} :
    (Process.lts net dp o).step u.process a ≠ some (p, new) := by
  intro hp
  cases a with
  | step c input =>
      obtain ⟨_, _, _, htask, -⟩ := Process.step_step hp
      cases (h.tasks c).symm.trans htask
  | perform t e =>
      obtain ⟨eff, rest, hpending, -⟩ := Process.step_perform hp
      obtain rfl := Option.some.inj ha
      cases (h.pending conn).symm.trans hpending
  | _ => cases ha

theorem Unseen.step {u v : Program ι Addr} {a : Act ι Addr} {new : Out ι Addr} (hu : Unseen u out)
    (hidle : ∀ i, u.listening i ≠ .up) (hs : (lts net dp o).step u a = some (v, new)) :
    Unseen v (out ++ [new]) := by
  cases step_cases net dp o hs with
  | run a p new hmay hp =>
      unfold mayRun at hmay
      split at hmay
      · next i _ => exact absurd (of_decide_eq_true hmay) (hidle i)
      · next conn ha => exact absurd hp (hu.not_task ha)
      · cases hmay
  | flush e order p new hmain hp =>
      obtain ⟨-, rfl, rfl⟩ := Process.step_flush hp
      exact ⟨hu.tasks, hu.pending, by simp [List.filterMap_append, Out.inner, hu.seen]⟩
  | _ => exact hu.keep _ rfl rfl

/-- As long as no listener is up, there is nothing to see. -/
theorem unseen_run (h : (lts net dp o).run (start net) acts = some (s, out))
    (hnone : ∀ i, .bind i ∉ acts) : Unseen s out := by
  refine (lts net dp o).run_induction (fun _ s out => Unseen s out)
    ⟨fun _ => rfl, fun _ => rfl, rfl⟩ ?_ h
  intro as a rest u os v new hacts hrun hu hs
  refine hu.step (fun i hup => hnone i ?_) hs
  rw [hacts]
  exact List.mem_append_left _ ((stands_run hrun i).bound.mpr (.inl hup))

/-! ## Without a panic -/

/-- No hex pattern of a udp listener is cut inside a character, so no rule of it
can panic. -/
def Whole (net : ι → Listener Addr) : Prop :=
  ∀ i cfg p, net i = .udp cfg → cfg.profile = some p → ∀ r ∈ p.rules, r.matcher.HexWhole

omit [Fintype ι] [DecidableEq ι] in
theorem Whole.not_upsets (h : Whole net) (i : ι) (p : Process ι Addr) (a : Process.Act ι Addr) :
    ¬Process.Upsets net i p a := by
  rintro ⟨cfg, src, data, now, banner, rule, hnet, -, -, e, he⟩
  unfold Udp.ruling at he
  split at he
  · cases he
  · next pr hprofile =>
      obtain ⟨found, hfound⟩ := eval_ok (h i cfg pr hnet hprofile) data
        ((p.udp i).peers.get src).isNone
      cases hfound.symm.trans he

theorem Whole.not_panic (h : Whole net)
    (hrun : (lts net dp o).run (start net) acts = some (s, out)) (i : ι) (e : String) :
    .panic i e ∉ acts := by
  intro hmem
  obtain ⟨as, rest, rfl⟩ := List.append_of_mem hmem
  obtain ⟨u, os, ps, has, hrest, -⟩ := (lts net dp o).run_append_eq_some.mp hrun
  obtain ⟨v, new, _, hs, -, -⟩ := (lts net dp o).run_cons_eq_some.mp hrest
  cases step_cases net dp o hs with
  | panic i e hup hcrashed =>
      refine (Process.crashed_run (hosts.run has) i).mp hcrashed ?_
      exact fun _ a _ p _ _ _ => h.not_upsets i p a

/-! ## How it ends -/

theorem ended_run [Nonempty ι] {bail : Option String}
    (h : (lts net dp o).run (start net) acts = some (s, out)) (hend : s.main = .ended bail)
    (hcalm : .ctrlC ∉ acts) (i : ι) : s.joined i = true := by
  have hall : s.allJoined = true := by
    rw [← Bool.not_eq_false]
    intro hleft
    exact hcalm ((led_run h).interrupted.mpr ⟨by simp [hend], hleft⟩)
  exact of_decide_eq_true hall i

theorem bail_iff [Nonempty ι] {bail : Option String}
    (h : (lts net dp o).run (start net) acts = some (s, out)) (hend : s.main = .ended bail) :
    bail ≠ none ↔ .ctrlC ∉ acts ∧ ∃ i e, .fail i e ∈ acts := by
  have hled := led_run h
  have hcalm : .ctrlC ∉ acts ↔ s.allJoined = true := by
    rw [hled.interrupted, not_and, Bool.not_eq_false]
    exact ⟨fun hw => hw (by simp [hend]), fun hall _ => hall⟩
  have hbail : bail ≠ none ↔ 0 < s.failed ∧ s.allJoined = true := by
    rw [hled.verdict bail hend, verdict]
    split <;> simp_all
  rw [hbail, hcalm, (told_run h).counted, and_comm]
  refine and_congr_right fun hall => exists_congr fun i => exists_congr fun e => ?_
  rw [(stands_run h i).failed e]
  exact and_iff_right (of_decide_eq_true hall i)

/-- When the program is over, the listeners have run as one process and the
logger has been flushed once. Unless ctrl-c was pressed, every listener has
failed or panicked, and its error was printed. The exit status is that of an
error if ctrl-c was not pressed and some listener could not bind. Where no rule
can panic, it says what its message says: no listener was ever up. -/
theorem exit_tells [Nonempty ι] (acts : List (Act ι Addr)) (s : Program ι Addr)
    (out : List (Out ι Addr)) (bail : Option String)
    (h : (lts net dp o).run (start net) acts = some (s, out)) (hend : s.main = .ended bail) :
    (Process.lts net dp o).run (Process.start net) (acts.filterMap Act.inner) =
        some (s.process, out.filterMap Out.inner) ∧
      acts.countP Act.isFlush = 1 ∧
      (.ctrlC ∉ acts → ∀ i, ∃ e,
        .fail i e ∈ acts ∧ .stderr ("kls: " ++ e) ∈ out ∨
          .panic i e ∈ acts ∧ .stderr ("kls: listener task panicked: " ++ e) ∈ out) ∧
      (∀ m ∈ bail, m = "every listener failed to start") ∧
      (bail ≠ none ↔ .ctrlC ∉ acts ∧ ∃ i e, .fail i e ∈ acts) ∧
      (Whole net → (bail ≠ none ↔ .ctrlC ∉ acts) ∧
        (bail ≠ none → (∀ i, ∃ e, .fail i e ∈ acts) ∧
          (out.filterMap Out.inner).flatten = [])) := by
  have hled := led_run h
  have hends (hcalm : .ctrlC ∉ acts) (i : ι) : ∃ e,
      .fail i e ∈ acts ∧ .stderr ("kls: " ++ e) ∈ out ∨
        .panic i e ∈ acts ∧ .stderr ("kls: listener task panicked: " ++ e) ∈ out := by
    obtain ⟨line, hline, hprinted⟩ := (told_run h).printed i (ended_run h hend hcalm i)
    have hstands := stands_run h i
    cases hl : s.listening i with
    | failed e =>
        rw [hl] at hline
        obtain rfl := Option.some.inj hline
        exact ⟨e, .inl ⟨(hstands.failed e).mpr hl, hprinted⟩⟩
    | panicked e =>
        rw [hl] at hline
        obtain rfl := Option.some.inj hline
        exact ⟨e, .inr ⟨(hstands.panicked e).mpr hl, hprinted⟩⟩
    | binding => rw [hl] at hline; cases hline
    | up => rw [hl] at hline; cases hline
  refine ⟨hosts.run h, ?_, hends, ?_, bail_iff h hend, fun hwhole => ?_⟩
  · rw [hled.flushes, hend]
    rfl
  · intro m hm
    rw [Option.mem_def, hled.verdict bail hend, verdict] at hm
    obtain ⟨-, hm⟩ := Option.ite_none_right_eq_some.mp hm
    exact (Option.some.inj hm).symm
  · have hfail (hcalm : .ctrlC ∉ acts) (i : ι) : ∃ e, .fail i e ∈ acts := by
      obtain ⟨e, ⟨hfail, -⟩ | ⟨hpanic, -⟩⟩ := hends hcalm i
      · exact ⟨e, hfail⟩
      · exact absurd hpanic (hwhole.not_panic h i e)
    refine ⟨⟨fun hbail => ((bail_iff h hend).mp hbail).1, fun hcalm => ?_⟩, fun hbail => ?_⟩
    · obtain ⟨i⟩ := ‹Nonempty ι›
      exact (bail_iff h hend).mpr ⟨hcalm, i, hfail hcalm i⟩
    · have hall := hfail ((bail_iff h hend).mp hbail).1
      refine ⟨hall, (unseen_run h fun i hbind => ?_).seen⟩
      obtain ⟨e, he⟩ := hall i
      have hfailed := ((stands_run h i).failed e).mp he
      rcases (stands_run h i).bound.mp hbind with hup | ⟨e', hpanicked⟩
      · cases hfailed.symm.trans hup
      · cases hfailed.symm.trans hpanicked

/-- Two udp listeners on addresses that are taken. -/
def twoTaken : Bool → Listener ℕ
  | i => .udp ⟨toString i, "l", true, none, 1, 1, toString, id⟩

def takenRun : List (Act Bool ℕ) :=
  [.fail true "binding udp b", .join true, .fail false "binding udp a", .join false,
    .flush .quiet [], .summary]

theorem exit_tells_taken : ∃ s out,
    (lts twoTaken .bare (.rawOnly ⟨0, 0⟩ 0)).run (start twoTaken) takenRun = some (s, out) ∧
      s.main = .ended (some "every listener failed to start") ∧
      .stderr "kls: binding udp a" ∈ out ∧ (out.filterMap Out.inner).flatten = [] := by
  obtain ⟨s, out, hrun, hend⟩ : ∃ s out,
      (lts twoTaken .bare (.rawOnly ⟨0, 0⟩ 0)).run (start twoTaken) takenRun = some (s, out) ∧
        s.main = .ended (some "every listener failed to start") :=
    ⟨_, _, rfl, rfl⟩
  have hnone : Whole twoTaken := by
    intro i cfg p hnet hprofile
    obtain rfl := Listener.udp.inj hnet
    cases hprofile
  obtain ⟨-, -, hends, -, -, hwhole⟩ := exit_tells takenRun s out _ hrun hend
  refine ⟨s, out, hrun, hend, ?_, ((hwhole hnone).2 (Option.some_ne_none _)).2⟩
  obtain ⟨e, ⟨hfail, hprinted⟩ | ⟨hpanic, -⟩⟩ := hends (by simp [takenRun]) false
  · obtain rfl : e = "binding udp a" := by simpa [takenRun] using hfail
    exact hprinted
  · simp [takenRun] at hpanic

/-! ## That it ends -/

/-- What `main` does by itself. -/
def Act.isMain : Act ι Addr → Bool
  | .join _ => true
  | .flush _ _ => true
  | .summary => true
  | _ => false

variable (net dp o) in
/-- After the acts `first`, `main` can come to its end by itself. -/
def Finishes (s : Program ι Addr) (first : List (Act ι Addr)) : Prop :=
  ∃ more t out bail, (∀ a ∈ more, a.isMain = true) ∧
    (lts net dp o).run s (first ++ more) = some (t, out) ∧ t.main = .ended bail

theorem Finishes.of_step {u : Program ι Addr} {a : Act ι Addr} {new : Out ι Addr}
    (ha : a.isMain = true) (hs : (lts net dp o).step s a = some (u, new))
    (hu : Finishes net dp o u []) : Finishes net dp o s [] := by
  obtain ⟨more, t, out, bail, hmine, hrun, hend⟩ := hu
  exact ⟨a :: more, t, new :: out, bail, List.forall_mem_cons.mpr ⟨ha, hmine⟩,
    (lts net dp o).run_cons_eq_some.mpr ⟨u, new, out, hs, hrun, rfl⟩, hend⟩

theorem finishes_of_flushed (hmain : s.main = .flushed) : Finishes net dp o s [] := by
  have hs : (lts net dp o).step s .summary =
      some ({ s with main := .ended s.verdict }, .quiet) := by
    simp [lts, step, hmain]
  exact ⟨[.summary], _, _, s.verdict, by simp [Act.isMain],
    (lts net dp o).run_singleton_eq_some.mpr ⟨_, hs, rfl⟩, rfl⟩

theorem finishes_of_flushing (hmain : s.main = .flushing) : Finishes net dp o s [] := by
  have horder : s.process.log.Enumerates s.process.log.raw.keys.toList :=
    ⟨Finset.nodup_toList _, Finset.toList_toFinset _⟩
  have hs : (lts net dp o).step s (.flush .quiet s.process.log.raw.keys.toList) =
      some ({ s with
        process := s.process.call dp o .quiet (.flush s.process.log.raw.keys.toList)
        main := .flushed }, .seen []) := by
    simp [lts, step, hmain, Process.lts, horder]
  exact (finishes_of_flushed rfl).of_step rfl hs

omit [DecidableEq Addr] in
/-- The tasks that `main` has not been told of get fewer with each it is told of. -/
theorem left_take {i : ι} (hnew : s.joined i = false) :
    (Finset.univ.filter fun j => (s.take i).joined j = false).card <
      (Finset.univ.filter fun j => s.joined j = false).card := by
  have hother (j : ι) (hj : (s.take i).joined j = false) : j ≠ i ∧ s.joined j = false := by
    by_cases hij : j = i
    · subst hij
      simp [take] at hj
    · exact ⟨hij, by simpa [take, hij] using hj⟩
  apply Finset.card_lt_card
  rw [Finset.ssubset_iff_of_subset]
  · refine ⟨i, Finset.mem_filter.mpr ⟨Finset.mem_univ i, hnew⟩, fun hmem => ?_⟩
    exact (hother i (Finset.mem_filter.mp hmem).2).1 rfl
  · exact Finset.monotone_filter_right _ fun j _ hj => (hother j hj).2

theorem finishes_of_over (hover : ∀ i, (s.listening i).report ≠ none) (hmain : s.main = .waiting)
    (hleft : s.allJoined = false) : Finishes net dp o s [] := by
  induction hn : (Finset.univ.filter fun j => s.joined j = false).card
      using Nat.strong_induction_on generalizing s with
  | _ n ih =>
      obtain ⟨i, hi⟩ : ∃ i, s.joined i = false := by
        simpa [allJoined] using hleft
      obtain ⟨line, hline⟩ := Option.ne_none_iff_exists'.mp (hover i)
      have hs : (lts net dp o).step s (.join i) = some (s.take i, .stderr line) := by
        simp [lts, step, hmain, hi, hline]
      have htake : (s.take i).main = if (s.take i).allJoined then .flushing else .waiting := rfl
      refine Finishes.of_step rfl hs ?_
      cases hall : (s.take i).allJoined with
      | true =>
          rw [hall, if_pos rfl] at htake
          exact finishes_of_flushing htake
      | false =>
          rw [hall, if_neg Bool.false_ne_true] at htake
          exact ih _ (hn ▸ left_take hi) hover htake hall rfl

/-- From every state the program can be in, `main` comes to its end by itself
once ctrl-c is pressed, and without it if it waits no longer, or if every
listener has failed or panicked. -/
theorem main_finishes [Nonempty ι] (acts : List (Act ι Addr)) (s : Program ι Addr)
    (out : List (Out ι Addr)) (h : (lts net dp o).run (start net) acts = some (s, out))
    (hlive : ∀ bail, s.main ≠ .ended bail) :
    (s.main = .waiting → Finishes net dp o s [.ctrlC]) ∧
      (s.main ≠ .waiting → Finishes net dp o s []) ∧
      ((∀ i, (∃ e, .fail i e ∈ acts) ∨ ∃ e, .panic i e ∈ acts) → Finishes net dp o s []) := by
  have hlate (hmain : s.main ≠ .waiting) : Finishes net dp o s [] := by
    cases hm : s.main with
    | waiting => exact absurd hm hmain
    | flushing => exact finishes_of_flushing hm
    | flushed => exact finishes_of_flushed hm
    | ended bail => exact absurd hm (hlive bail)
  refine ⟨fun hmain => ?_, hlate, fun hover => ?_⟩
  · have hs : (lts net dp o).step s .ctrlC = some ({ s with main := .flushing }, .stdout "") := by
      simp [lts, step, hmain]
    have hflushing : Finishes net dp o { s with main := .flushing } [] := finishes_of_flushing rfl
    obtain ⟨more, t, out', bail, hmine, hrun, hend⟩ := hflushing
    exact ⟨more, t, _, bail, hmine,
      (lts net dp o).run_cons_eq_some.mpr ⟨_, _, _, hs, hrun, rfl⟩, hend⟩
  · by_cases hmain : s.main = .waiting
    · refine finishes_of_over (fun i => ?_) hmain ((led_run h).waits hmain)
      rcases hover i with ⟨e, hfail⟩ | ⟨e, hpanic⟩
      · rw [((stands_run h i).failed e).mp hfail]
        exact Option.some_ne_none _
      · rw [((stands_run h i).panicked e).mp hpanic]
        exact Option.some_ne_none _
    · exact hlate hmain

theorem main_finishes_taken : ∃ s out,
    (lts twoTaken .bare (.rawOnly ⟨0, 0⟩ 0)).run (start twoTaken) (takenRun.take 3) =
        some (s, out) ∧
      Finishes twoTaken .bare (.rawOnly ⟨0, 0⟩ 0) s [.ctrlC] ∧
      Finishes twoTaken .bare (.rawOnly ⟨0, 0⟩ 0) s [] := by
  obtain ⟨s, out, hrun, hmain⟩ : ∃ s out,
      (lts twoTaken .bare (.rawOnly ⟨0, 0⟩ 0)).run (start twoTaken) (takenRun.take 3) =
        some (s, out) ∧ s.main = .waiting := ⟨_, _, rfl, rfl⟩
  obtain ⟨hinterrupt, -, hover⟩ := main_finishes _ s out hrun (by simp [hmain])
  refine ⟨s, out, hrun, hinterrupt hmain, hover fun i => .inl ?_⟩
  cases i with
  | false => exact ⟨"binding udp a", by simp [takenRun]⟩
  | true => exact ⟨"binding udp b", by simp [takenRun]⟩

end Program

end KirbLaSnoop
