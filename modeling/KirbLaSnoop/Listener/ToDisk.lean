import Mathlib
import KirbLaSnoop.Listener.Calls
import KirbLaSnoop.Log.Sequential

/-!
# From the wire to the disk

The raw files of a connection are a capture of what the network has brought
for it, up to what still waits to be logged, in every run of the process. With
a run cap they are a capture of the beginning.
-/

namespace KirbLaSnoop

open Effect Lifecycle

/-- A thing that is used has not been closed. -/
theorem Lifecycle.closed_not_mem {us vs : List Use} {st : Stage}
    (h : after .fresh (us ++ .used :: vs) = some st) : .closed ∉ us := by
  obtain ⟨st', hst'⟩ := after_of_append h
  rw [after_append, hst', Option.bind_some, after_cons, Option.bind_eq_some_iff] at h
  obtain ⟨st'', hnext, -⟩ := h
  rw [← List.count_eq_zero, count_closed_of_shape (shape_of_after hst')]
  cases st' with
  | done => cases hnext
  | _ => rfl

/-- The end of a stream is the close of its connection, or the end of all. -/
theorem Call.ends_iff {c : Call} (hc : ∀ order, c ≠ .flush order) (k : Key) :
    c.ends k = decide (c.use k.1 = some .closed) := by
  cases c with
  | openConn proto name conn localAddr peer orig => by_cases h : conn = k.1 <;> simp [ends, use, h]
  | data proto name conn peer dir bs rule => by_cases h : conn = k.1 <;> simp [ends, use, h]
  | close proto name conn peer why => by_cases h : conn = k.1 <;> simp [ends, use, h]
  | error proto name conn msg => by_cases h : conn = some k.1 <;> simp [ends, use, h]
  | flush order => exact absurd rfl (hc order)
  | _ => rfl

theorem Call.use_of_bytesFor {c : Call} {k : Key} (h : c.bytesFor k ≠ []) :
    c.use k.1 = some .used := by
  cases c with
  | data proto name conn peer dir bs rule =>
      have hk : (conn, dir) = k := by
        by_contra hne
        exact h (if_neg hne)
      rw [← hk]
      exact if_pos rfl
  | _ => exact absurd rfl h

namespace Process

variable {ι Addr : Type*} [DecidableEq ι] [DecidableEq Addr] {net : ι → Listener Addr}
  {dp : Deps} {o : Options} {p p' : Process ι Addr} {seen new : List (Seen ι Addr)}

/-- Flushing is for the end of the program: no thread decides to. -/
def NoFlush (es : List (Effect Addr)) : Prop := ∀ order, .call (.flush order) ∉ es

omit [DecidableEq Addr] in
theorem noFlush_startup (listener : Listener Addr) : NoFlush listener.startup := by
  intro order he
  cases listener with
  | udp cfg =>
      simp only [Listener.startup, Udp.startup] at he
      split at he
      · simp at he
      · split at he <;> simp at he
  | tcp cfg =>
      simp only [Listener.startup, Tcp.startup] at he
      split at he <;> simp at he

theorem noFlush_turn {cfg : Udp.Config Addr} {next : ℕ} {s : Udp.State Addr}
    {input : Udp.Input Addr} {out : Outcome (Udp.State Addr) Addr}
    (hturn : Udp.Turn cfg next s input out) : NoFlush out.effects := by
  intro order he
  have hretired : ∀ now as, .call (.flush order) ∉ Udp.retired cfg now s as := by
    intro now as hmem
    obtain ⟨src, q, -, -, -, hq⟩ := (Udp.mem_retired cfg).mp hmem
    cases hq
  cases hturn with
  | overflowMore => simp at he
  | overflowOpen => simp at he
  | newPeer src data now banner rule hnew hroom =>
      obtain ⟨_, hsaid⟩ := Udp.said_of_mem_greeting_append_answer cfg
        (by simpa only [List.mem_cons, Effect.call.injEq, reduceCtorEq, false_or] using he)
      cases hsaid
  | known src data now banner rule peer hget =>
      obtain ⟨_, hsaid⟩ := Udp.said_of_mem_answer cfg
        (by simpa only [List.mem_cons, Effect.call.injEq, reduceCtorEq, false_or] using he)
      cases hsaid
  | recvError => simp at he
  | sweep now as => exact hretired now as he
  | drained now as =>
      rcases List.mem_append.mp he with he | he
      · exact hretired now as he
      · simp at he

theorem noFlush_run {acts : List (Act ι Addr)} {tr : List (List (Seen ι Addr))}
    (h : (lts net dp o).run (start net) acts = some (p, tr)) (t : Thread ι) :
    NoFlush (p.pending t) := by
  have hall : ∀ t, NoFlush (p.pending t) := by
    apply (lts net dp o).run_invariant (fun p => ∀ t, NoFlush (p.pending t)) ?_ ?_ h
    · intro t
      cases t with
      | loop i => exact noFlush_startup (net i)
      | task conn => exact fun _ => List.not_mem_nil
    · intro u a v new hu hs
      have hupdate : ∀ (t : Thread ι) (es : List (Effect Addr)), NoFlush es →
          ∀ t', NoFlush (Function.update u.pending t es t') := by
        intro t es hes t'
        by_cases ht : t' = t
        · subst ht
          rwa [Function.update_self]
        · rw [Function.update_of_ne ht]
          exact hu t'
      cases step_cases net dp o hs with
      | accept i cfg peer orig hidle => exact hupdate _ _ fun order he => by simp [Tcp.accept] at he
      | acceptError i cfg e hidle =>
          exact hupdate _ _ fun order he => by simp [Tcp.acceptError] at he
      | turn i cfg input out hidle hturn => exact hupdate _ _ (noFlush_turn hturn)
      | step conn c cfg input out htask hidle hstep =>
          apply hupdate
          intro order he
          cases Tcp.conn_of_step hstep he
      | perform t e eff rest hp =>
          have hrest : NoFlush rest := fun order he =>
            hu t order (hp ▸ List.mem_cons_of_mem _ he)
          have hdrop := hupdate t rest hrest
          unfold realize
          split <;> exact hdrop
      | flush e order => exact hu
  exact hall t

/-- The calls of an action find all files as the disk should have them. -/
def Act.Good : Act ι Addr → Prop
  | .perform _ e => e.Good
  | .flush e _ => e.Good
  | _ => True

def Act.isFlush : Act ι Addr → Bool
  | .flush _ _ => true
  | _ => false

/-- The files of every stream are a capture of what was logged for it. -/
def Kept (o : Options) (p : Process ι Addr) (seen : List (Seen ι Addr)) : Prop :=
  Logger.Wf o p.log ∧
    ∀ k, Logger.Keeps o k (logged k (happened seen)) (decide (.closed ∈ made k.1 seen)) p.log

omit [DecidableEq ι] [DecidableEq Addr] in
theorem Kept.quiet (h : Kept o p seen) (hhappened : happened new = [])
    (hmade : ∀ id, made id new = []) {log : Logger} (hraw : log.raw = p.log.raw)
    (hdisk : log.disk = p.log.disk) (hstop : log.diskStopped = p.log.diskStopped)
    (hlog : p'.log = log) : Kept o p' (seen ++ new) := by
  subst hlog
  refine ⟨h.1.congr o hraw hdisk, ?_⟩
  intro k
  rw [happened_append, hhappened, List.append_nil, made_append, hmade, List.append_nil]
  exact (h.2 k).congr hraw hdisk fun hs => hstop ▸ hs

omit [DecidableEq Addr] in
theorem Kept.handled (h : Kept o p seen) {σ : Type*} (i : ι) (out : Outcome σ Addr)
    (hlog : p'.log = (p.handled i out).log) : Kept o p' (seen ++ p.seenHandled i out) := by
  apply h.quiet (happened_seenHandled p i out) (made_seenHandled p i out) ?_ ?_ ?_ hlog
  all_goals
    dsimp only [Process.handled]
    split <;> rfl

theorem Kept.call (hraw : o.raw = true) (h : Kept o p seen) (hinv : Inv p seen) {t : Thread ι}
    {c : Call} {rest : List (Effect Addr)} (hp : p.pending t = .call c :: rest)
    (hno : NoFlush (p.pending t)) {e : Env} (he : e.Good) :
    Kept o ((p.drop t rest).call dp o e c) (seen ++ [.performed t (.call c)]) := by
  have hflush : ∀ order, c ≠ .flush order := by
    rintro order rfl
    exact hno order (hp ▸ List.mem_cons_self)
  have hposs : c.Possible p.log := fun order horder => absurd horder (hflush order)
  refine ⟨h.1.exec dp o he c, ?_⟩
  intro k
  have hlate : decide (.closed ∈ made k.1 seen) = true → c.bytesFor k = [] := by
    intro hclosed
    by_contra hne
    have huse := Call.use_of_bytesFor hne
    have huses : uses k.1 (p.pending t) = .used :: uses k.1 rest := by
      rw [hp, uses_cons, Effect.use, huse]
      rfl
    obtain ⟨i, w, hw, rfl⟩ := hinv.silent t k.1 (huses ▸ List.cons_ne_nil _ _)
    have hlife := hinv.lifecycle k.1 i w hw
    rw [huses] at hlife
    exact closed_not_mem hlife (of_decide_eq_true hclosed)
  have hkeeps := (h.2 k).exec dp hraw h.1 he hposs hlate
  have hlogged : logged k (happened (seen ++ [.performed t (.call c)])) =
      logged k (happened seen) ++ c.bytesFor k := by
    rw [happened_append, logged_append]
    exact congrArg (logged k (happened seen) ++ ·) (List.append_nil _)
  have hclosed : decide (.closed ∈ made k.1 (seen ++ [.performed t (.call c)])) =
      (decide (.closed ∈ made k.1 seen) || c.ends k) := by
    rw [made_append, made_performed, uses_cons, uses_nil, List.append_nil, Effect.use,
      Call.ends_iff hflush]
    by_cases hm : .closed ∈ made k.1 seen
    · simp [hm]
    · simp [hm, eq_comm]
  rw [hlogged, hclosed]
  exact hkeeps

theorem Kept.perform (hraw : o.raw = true) (h : Kept o p seen) (hinv : Inv p seen) {t : Thread ι}
    {eff : Effect Addr} {rest : List (Effect Addr)} (hp : p.pending t = eff :: rest)
    (hno : NoFlush (p.pending t)) {e : Env} (he : e.Good) :
    Kept o ((p.drop t rest).realize dp o t e eff) (seen ++ [.performed t eff]) := by
  have hsilent : (∀ c, eff ≠ .call c) →
      Kept o ((p.drop t rest).realize dp o t e eff) (seen ++ [.performed t eff]) := by
    intro hcall
    have hlog : ((p.drop t rest).realize dp o t e eff).log = p.log := by
      unfold realize
      split
      · exact absurd rfl (hcall _)
      · rfl
      · rfl
    refine ⟨h.1.congr o (congrArg _ hlog) (congrArg _ hlog), ?_⟩
    intro k
    have hlogged : logged k (happened (seen ++ [.performed t eff])) =
        logged k (happened seen) := by
      rw [happened_append, logged_append]
      refine (congrArg (logged k (happened seen) ++ ·) ?_).trans (List.append_nil _)
      cases eff with
      | call c => exact absurd rfl (hcall c)
      | _ => rfl
    have hmade : made k.1 (seen ++ [.performed t eff]) = made k.1 seen := by
      rw [made_append, made_performed, uses_cons, uses_nil, List.append_nil]
      cases eff with
      | call c => exact absurd rfl (hcall c)
      | _ => exact List.append_nil _
    rw [hlogged, hmade, hlog]
    exact h.2 k
  cases eff with
  | call c => exact h.call hraw hinv hp hno he
  | _ => exact hsilent nofun

theorem kept_run (hraw : o.raw = true) {acts : List (Act ι Addr)}
    (hgood : ∀ a ∈ acts, a.Good ∧ a.isFlush = false) {tr : List (List (Seen ι Addr))}
    (h : (lts net dp o).run (start net) acts = some (p, tr)) : Kept o p tr.flatten := by
  apply (lts net dp o).run_induction (fun _ p tr => Kept o p tr.flatten) ?_ ?_ h
  · exact ⟨Logger.wf_new o, Logger.keeps_new⟩
  · intro as a rest u os v new hacts hrun hu hs
    obtain ⟨hgood, hflush⟩ := hgood a (hacts ▸ List.mem_append_right _ List.mem_cons_self)
    rw [List.flatten_append, List.flatten_singleton]
    cases a with
    | accept i peer orig =>
        obtain ⟨cfg, -, rfl, rfl⟩ := step_accept hs
        exact hu.handled i _ rfl
    | acceptError i e =>
        obtain ⟨cfg, rfl, rfl⟩ := step_acceptError hs
        exact hu.handled i _ rfl
    | turn i input =>
        obtain ⟨cfg, out, -, -, rfl, rfl⟩ := step_turn hs
        exact hu.handled i out rfl
    | step conn input =>
        obtain ⟨c, cfg, out, -, -, -, rfl, rfl⟩ := step_step hs
        exact hu.quiet rfl (fun _ => rfl) rfl rfl rfl rfl
    | perform t e =>
        obtain ⟨eff, rest, hp, rfl, rfl⟩ := step_perform hs
        exact hu.perform hraw (inv_run hrun) hp (noFlush_run hrun t) hgood
    | flush e order => cases hflush

/-! ## What is on disk -/

/-- A run without a flush makes no call that flushes. -/
theorem good_callsMade {acts : List (Act ι Addr)}
    (hgood : ∀ a ∈ acts, a.Good ∧ a.isFlush = false) {tr : List (List (Seen ι Addr))}
    (h : (lts net dp o).run (start net) acts = some (p, tr)) :
    ∀ a ∈ callsMade net dp o acts, a.1.Good ∧ ∀ order, a.2 ≠ .flush order := by
  apply (lts net dp o).run_induction
    (fun as _ _ => ∀ a ∈ callsMade net dp o as, a.1.Good ∧ ∀ order, a.2 ≠ .flush order) ?_ ?_ h
  · intro a ha
    cases ha
  · intro as a rest u os v new hacts hrun hu hs call hcall
    obtain ⟨hgood, hflush⟩ := hgood a (hacts ▸ List.mem_append_right _ List.mem_cons_self)
    rw [callsMade_append_singleton hrun hs] at hcall
    rcases List.mem_append.mp hcall with hcall | hcall
    · exact hu call hcall
    · cases a with
      | perform t e =>
          obtain ⟨eff, more, hp, -, -⟩ := step_perform hs
          cases eff with
          | call c =>
              simp only [callMade, hp, List.mem_singleton] at hcall
              subst hcall
              refine ⟨hgood, ?_⟩
              rintro order rfl
              exact noFlush_run hrun t order (hp ▸ List.mem_cons_self)
          | _ => simp [callMade, hp] at hcall
      | flush e order => cases hflush
      | _ => cases hcall

/-- On disk the files of a stream are behind by what its buffer holds. -/
theorem lags_run (hraw : o.raw = true) {acts : List (Act ι Addr)}
    (hgood : ∀ a ∈ acts, a.Good ∧ a.isFlush = false) {tr : List (List (Seen ι Addr))}
    (h : (lts net dp o).run (start net) acts = some (p, tr)) (cap : ℕ) (k : Key) :
    ∃ b, Buffered.Leaves dp o cap (callsMade net dp o acts) b ∧
      b.Lags cap k (decide (.closed ∈ made k.1 tr.flatten)) p.log := by
  obtain ⟨n, hlog⟩ := log_run h
  have hcalls := good_callsMade hgood h
  have hkeeps : Logger.Keeps o k (logged k (happened tr.flatten))
      (decide (.closed ∈ made k.1 tr.flatten))
        (Logger.execAll dp o (callsMade net dp o acts) .new) := by
    refine ((kept_run hraw hgood h).2 k).congr ?_ ?_ ?_
    · rw [hlog]
      rfl
    · rw [hlog]
      rfl
    · rw [hlog]
      exact id
  obtain ⟨b, hleaves, hlags⟩ := Buffered.exists_lags cap (fun a ha => (hcalls a ha).1)
    (fun a ha => (hcalls a ha).2) hkeeps
  refine ⟨b, hleaves, ?_⟩
  rw [hlog]
  exact hlags

/-- The flush empties the table and then finishes the streams; when it is done
everything is on disk. -/
theorem leaves_flush {acts : List (Act ι Addr)} (hgood : ∀ a ∈ acts, a.Good ∧ a.isFlush = false)
    {tr : List (List (Seen ι Addr))} (h : (lts net dp o).run (start net) acts = some (p, tr))
    {e : Env} (he : e.Good) {order : List Key} {p' : Process ι Addr} {new : List (Seen ι Addr)}
    (hs : (lts net dp o).step p (.flush e order) = some (p', new)) (cap : ℕ) :
    ∃ b, Buffered.Leaves dp o cap (callsMade net dp o acts ++ [(e, .flush order)]) b ∧
      b.machine.log.disk = p'.log.disk ∧
      ∀ stem, (b.file stem).onDisk = p'.log.disk.contents (.head stem) := by
  obtain ⟨n, hlog⟩ := log_run h
  have hcalls := good_callsMade hgood h
  obtain ⟨henum, rfl, -⟩ := step_flush hs
  rw [hlog] at henum
  obtain ⟨b, hleaves, hb, hdisk⟩ := Buffered.exists_leaves_flush cap
    (fun a ha => (hcalls a ha).1) (fun a ha => (hcalls a ha).2) he henum
  have hsame : b.machine.log.disk = (p.log.exec dp o e (.flush order)).disk := by
    rw [hb, hlog, Logger.exec_withNext, Logger.execAll, List.foldl_append]
    rfl
  exact ⟨b, hleaves, hsame, fun stem => hsame ▸ hdisk stem⟩

/-- In every run, what the network has brought for a stream is what was logged
for it and what still waits to be; and the raw files are a capture of what was
logged, before the program ends and, with its tail, after that. On disk a head
file is behind by no more than a buffer while its stream is open, by nothing
once it has ended, and none is after the flush. -/
theorem wire_to_disk (hraw : o.raw = true) (acts : List (Act ι Addr))
    (hgood : ∀ a ∈ acts, a.Good ∧ a.isFlush = false) (p : Process ι Addr)
    (tr : List (List (Seen ι Addr))) (h : (lts net dp o).run (start net) acts = some (p, tr))
    (id : ℕ) (i : ι) (w : Owner Addr) (hw : (id, i, w) ∈ grants tr.flatten) (dir : Dir)
    (hin : dir = .rx ∨ (net i).Forwards) (cap : ℕ) :
    ∃ P, P ++ logged (id, dir) (p.pending (p.home id i)) = arrived net dp o (id, dir) acts ∧
      Logger.Keeps o (id, dir) P (decide (.closed ∈ made id tr.flatten)) p.log ∧
      (∃ b, Buffered.Leaves dp o cap (callsMade net dp o acts) b ∧
        b.Lags cap (id, dir) (decide (.closed ∈ made id tr.flatten)) p.log) ∧
      ∀ e order p' seen, e.Good → (lts net dp o).step p (.flush e order) = some (p', seen) →
        Logger.Keeps o (id, dir) P true p'.log ∧
          ∃ b, Buffered.Leaves dp o cap (callsMade net dp o acts ++ [(e, .flush order)]) b ∧
            b.machine.log.disk = p'.log.disk ∧
            ∀ stem, (b.file stem).onDisk = p'.log.disk.contents (.head stem) := by
  have hkept := kept_run hraw hgood h
  refine ⟨logged (id, dir) (happened tr.flatten), logged_wire h hw hin, hkept.2 (id, dir),
    lags_run hraw hgood h cap (id, dir), ?_⟩
  intro e order p' seen he hs
  refine ⟨?_, leaves_flush hgood h he hs cap⟩
  obtain ⟨henum, rfl, -⟩ := step_flush hs
  have hposs : (Call.flush order).Possible p.log := by
    intro order' horder
    obtain rfl := Call.flush.inj horder
    exact henum
  have hflushed := (hkept.2 (id, dir)).exec dp hraw hkept.1 he hposs fun _ => rfl
  have hnone : (Call.flush order).bytesFor (id, dir) = [] := rfl
  rwa [hnone, List.append_nil, Call.ends, Bool.or_true] at hflushed

/-- A udp listener without a profile, and its first datagram. -/
def quietUdp : Unit → Listener ℕ := fun _ => .udp ⟨"u", "l", true, none, 1, 1, toString, id⟩

def firstDatagram : List (Act Unit ℕ) :=
  [.perform (.loop ()) .quiet, .turn () (.datagram 7 [1, 2, 3] 0 (.ok ()) (.ok ())),
    .perform (.loop ()) .quiet, .perform (.loop ()) .quiet]

theorem wire_to_disk_datagram :
    ∃ p tr, (lts quietUdp .bare (.rawOnly ⟨2, 0⟩ 0)).run (start quietUdp) firstDatagram =
        some (p, tr) ∧
      ∃ P, P ++ logged (1, .rx) (p.pending (p.home 1 ())) =
          arrived quietUdp .bare (.rawOnly ⟨2, 0⟩ 0) (1, .rx) firstDatagram ∧
        Logger.Keeps (.rawOnly ⟨2, 0⟩ 0) (1, .rx) P false p.log := by
  have hrun : ∃ p tr, (lts quietUdp .bare (.rawOnly ⟨2, 0⟩ 0)).run (start quietUdp)
      firstDatagram = some (p, tr) ∧ grants tr.flatten = [(1, (), .peer 7)] ∧
        .closed ∉ made 1 tr.flatten := ⟨_, _, rfl, rfl, by decide⟩
  obtain ⟨p, tr, hrun, hgrants, hopen⟩ := hrun
  refine ⟨p, tr, hrun, ?_⟩
  have hgood : ∀ a ∈ firstDatagram, a.Good ∧ a.isFlush = false := by
    intro a ha
    simp only [firstDatagram, List.mem_cons, List.not_mem_nil, or_false] at ha
    rcases ha with rfl | rfl | rfl | rfl
    · exact ⟨Env.quiet_good, rfl⟩
    · exact ⟨trivial, rfl⟩
    · exact ⟨Env.quiet_good, rfl⟩
    · exact ⟨Env.quiet_good, rfl⟩
  obtain ⟨P, harrived, hkeeps, -⟩ := wire_to_disk rfl firstDatagram hgood p tr hrun 1 ()
    (.peer 7) (hgrants ▸ List.mem_cons_self) .rx (.inl rfl) 8192
  rw [decide_eq_false hopen] at hkeeps
  exact ⟨P, harrived, hkeeps⟩

end Process

end KirbLaSnoop
