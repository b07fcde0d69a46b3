import Mathlib
import KirbLaSnoop.Listener.ConnIds

/-!
# The lifecycle of every connection id

The invariant of the ids holds in every run of a process, so every id is
opened first, closed at most once and not used after that; and a greeting
leaves only for the datagram that opened the id of its peer.
-/

namespace KirbLaSnoop

open Lifecycle Effect

theorem Listener.uses_startup {Addr : Type*} (listener : Listener Addr) (id : ℕ) :
    uses id listener.startup = [] := by
  cases listener with
  | udp cfg => exact Udp.uses_startup cfg id
  | tcp cfg => exact Tcp.uses_startup cfg id

theorem Listener.call_of_mem_startup {Addr : Type*} {listener : Listener Addr} {e : Effect Addr}
    (he : e ∈ listener.startup) : ∃ c, e = .call c := by
  cases listener with
  | udp cfg =>
      simp only [startup, Udp.startup] at he
      split at he
      · exact ⟨_, List.mem_singleton.mp he⟩
      · split at he
        · rcases List.mem_cons.mp he with rfl | he
          · exact ⟨_, rfl⟩
          · exact ⟨_, List.mem_singleton.mp he⟩
        · exact ⟨_, List.mem_singleton.mp he⟩
  | tcp cfg =>
      simp only [startup, Tcp.startup] at he
      split at he
      · rcases List.mem_cons.mp he with rfl | he
        · exact ⟨_, rfl⟩
        · exact ⟨_, List.mem_singleton.mp he⟩
      · exact ⟨_, List.mem_singleton.mp he⟩

namespace Process

variable {ι Addr : Type*} [DecidableEq ι] [DecidableEq Addr] (net : ι → Listener Addr)
  (dp : Deps) (o : Options)

/-! ## Runs -/

omit [DecidableEq ι] in
theorem inv_start : Inv (start net) ([] : List (Seen ι Addr)) := by
  have hquiet : ∀ id t, uses id ((start net).pending t) = [] := by
    intro id t
    cases t with
    | loop i => exact (net i).uses_startup id
    | task conn => rfl
  refine ⟨Nat.one_pos, rfl, nofun, fun t id hne => absurd (hquiet id t) hne,
    fun id hne => absurd rfl hne, ?_, nofun, nofun, ?_, fun _ _ => rfl⟩
  · intro i src q hq
    simp [start, Udp.State.new] at hq
  · intro t pre conn peer post hsplit
    have hmem : .spawn conn peer ∈ (start net).pending t :=
      hsplit ▸ List.mem_append_right _ List.mem_cons_self
    cases t with
    | loop i =>
        obtain ⟨c, hc⟩ := Listener.call_of_mem_startup hmem
        cases hc
    | task id => cases hmem

variable {net dp o} {p p' : Process ι Addr} {seen new : List (Seen ι Addr)}

theorem Inv.move (h : Inv p seen) (hmove : Move dp o p p' new) : Inv p' (seen ++ new) := by
  cases hmove with
  | accept i cfg peer orig hidle => exact h.handled hidle (h.fair_accept cfg i peer orig)
  | acceptError i cfg e hidle => exact h.handled hidle (h.fair_acceptError cfg i e)
  | turn i cfg input out hidle hturn => exact h.handled hidle (h.fair_turn hturn)
  | step conn c cfg input out htask hidle hstep => exact h.stepped htask hidle hstep
  | perform t e eff rest hp => exact h.realize hp dp o e
  | flush e order =>
      rw [List.append_nil]
      exact h.call dp o e (.flush order)

theorem inv_run {acts : List (Act ι Addr)} {tr : List (List (Seen ι Addr))}
    (h : (lts net dp o).run (start net) acts = some (p, tr)) : Inv p tr.flatten := by
  apply (lts net dp o).run_induction (fun _ p tr => Inv p tr.flatten) (inv_start net) ?_ h
  intro as a rest u os v new _ _ hu hs
  rw [List.flatten_append, List.flatten_singleton]
  exact hu.move (step_cases net dp o hs)

/-! ## Greetings -/

/-- A greeting is one of the effects of an input for which the id of its peer
was opened. -/
def Greeted (seen : List (Seen ι Addr)) (i : ι) (e : Effect Addr) : Prop :=
  ∀ dst conn bytes, e = .sent dst conn .onConnect bytes →
    ∃ effects c, .handled (.loop i) effects ∈ seen ∧ e ∈ effects ∧ .call c ∈ effects ∧
      c.use conn = some .opened

structure GreetInv (p : Process ι Addr) (seen : List (Seen ι Addr)) : Prop where
  pending : ∀ i e, e ∈ p.pending (.loop i) → Greeted seen i e
  performed : ∀ i e, .performed (.loop i) e ∈ seen → Greeted seen i e

omit [DecidableEq ι] [DecidableEq Addr] in
theorem Greeted.mono {i : ι} {e : Effect Addr} (h : Greeted seen i e) :
    Greeted (seen ++ new) i e := by
  intro dst conn bytes he
  obtain ⟨effects, c, hmem, hrest⟩ := h dst conn bytes he
  exact ⟨effects, c, List.mem_append_left _ hmem, hrest⟩

omit [DecidableEq Addr] in
theorem GreetInv.handled (h : GreetInv p seen) {σ : Type*} {i : ι} {out : Outcome σ Addr}
    (udp : ι → Udp.State Addr)
    (hgreet : ∀ e ∈ out.effects, ∀ dst conn bytes, e = .sent dst conn .onConnect bytes →
      ∃ c, .call c ∈ out.effects ∧ c.use conn = some .opened) :
    GreetInv { p.handled i out with udp := udp } (seen ++ p.seenHandled i out) := by
  have hlast : .handled (.loop i) out.effects ∈ seen ++ p.seenHandled i out :=
    List.mem_append_right _ (List.mem_append_right _ List.mem_cons_self)
  constructor
  · intro j e he
    change e ∈ Function.update p.pending (.loop i) out.effects (.loop j) at he
    by_cases hj : j = i
    · subst hj
      rw [Function.update_self] at he
      intro dst conn bytes hsent
      obtain ⟨c, hc, huse⟩ := hgreet e he dst conn bytes hsent
      exact ⟨out.effects, c, hlast, he, hc, huse⟩
    · have hne : (.loop j : Thread ι) ≠ .loop i := fun heq => hj (Thread.loop.inj heq)
      rw [Function.update_of_ne hne] at he
      exact (h.pending j e he).mono
  · intro j e he
    rcases List.mem_append.mp he with he | he
    · exact (h.performed j e he).mono
    · rcases List.mem_append.mp he with he | he
      · obtain ⟨w, -, hw⟩ := Option.map_eq_some_iff.mp (Option.mem_toList.mp he)
        cases hw
      · cases List.mem_singleton.mp he

omit [DecidableEq Addr] in
theorem GreetInv.drop (h : GreetInv p seen) {t : Thread ι} {eff : Effect Addr}
    {rest : List (Effect Addr)} (hp : p.pending t = eff :: rest) :
    GreetInv (p.drop t rest) (seen ++ [.performed t eff]) := by
  constructor
  · intro i e he
    apply Greeted.mono
    apply h.pending i e
    by_cases ht : (.loop i : Thread ι) = t
    · subst ht
      have hrest : (p.drop (.loop i) rest).pending (.loop i) = rest := Function.update_self _ _ _
      rw [hrest] at he
      rw [hp]
      exact List.mem_cons_of_mem _ he
    · have hsame : (p.drop t rest).pending (.loop i) = p.pending (.loop i) :=
        Function.update_of_ne ht _ _
      rwa [hsame] at he
  · intro i e he
    apply Greeted.mono
    rcases List.mem_append.mp he with he | he
    · exact h.performed i e he
    · cases List.mem_singleton.mp he
      exact h.pending i _ (hp ▸ List.mem_cons_self)

theorem GreetInv.move (h : GreetInv p seen) (hmove : Move dp o p p' new) :
    GreetInv p' (seen ++ new) := by
  cases hmove with
  | accept i cfg peer orig hidle =>
      have hsilent : ∀ e ∈ (Tcp.accept cfg p.log.nextConn peer orig).effects, ∀ dst conn bytes,
          e ≠ .sent dst conn .onConnect bytes := by
        simp [Tcp.accept]
      exact h.handled p.udp fun e he dst conn bytes heq => absurd heq (hsilent e he dst conn bytes)
  | acceptError i cfg msg hidle =>
      have hsilent : ∀ e ∈ (Tcp.acceptError cfg msg).effects, ∀ dst conn bytes,
          e ≠ .sent dst conn .onConnect bytes := by
        simp [Tcp.acceptError]
      exact h.handled p.udp fun e he dst conn bytes heq => absurd heq (hsilent e he dst conn bytes)
  | turn i cfg input out hidle hturn =>
      apply h.handled
      rintro e he dst conn bytes rfl
      rcases Udp.turn_effects cfg hturn he with ⟨c, hc⟩ | ⟨_, _, _, _, hsent, hopen⟩
      · cases hc
      · cases hsent
        exact hopen rfl
  | step conn c cfg input out htask hidle hstep =>
      constructor
      · intro i e he
        have hne : (.loop i : Thread ι) ≠ .task conn := by simp
        change e ∈ Function.update p.pending (.task conn) out.2 (.loop i) at he
        rw [Function.update_of_ne hne] at he
        exact (h.pending i e he).mono
      · intro i e he
        rcases List.mem_append.mp he with he | he
        · exact (h.performed i e he).mono
        · cases List.mem_singleton.mp he
  | perform t e eff rest hp =>
      have hdrop := h.drop hp
      unfold realize
      split
      · exact ⟨hdrop.pending, hdrop.performed⟩
      · exact ⟨hdrop.pending, hdrop.performed⟩
      · exact hdrop
  | flush e order =>
      rw [List.append_nil]
      exact ⟨h.pending, h.performed⟩

theorem greetInv_run {acts : List (Act ι Addr)} {tr : List (List (Seen ι Addr))}
    (h : (lts net dp o).run (start net) acts = some (p, tr)) : GreetInv p tr.flatten := by
  apply (lts net dp o).run_induction (fun _ p tr => GreetInv p tr.flatten) ?_ ?_ h
  · refine ⟨fun i e he => ?_, nofun⟩
    rintro dst conn bytes rfl
    obtain ⟨c, hc⟩ := Listener.call_of_mem_startup he
    cases hc
  · intro as a rest u os v new _ _ hu hs
    rw [List.flatten_append, List.flatten_singleton]
    exact hu.move (step_cases net dp o hs)

/-! ## Lifecycles -/

/-- The uses of an id that are decided but not performed yet. -/
def owed (p : Process ι Addr) (id : ℕ) (i : ι) : List Use :=
  uses id (p.pending (.loop i)) ++ uses id (p.pending (.task id))

/-- The connection has ended, or the period of the peer or of the overflow
stream is over. -/
def Retired (p : Process ι Addr) (id : ℕ) (i : ι) : Owner Addr → Prop
  | .connection _ => ∃ c, p.tasks id = some c ∧ c.stage = .ended
  | .peer src => ∀ q, (p.udp i).peers.get src = some q → q.conn ≠ id
  | .overflow => (p.udp i).overflowConn ≠ some id

omit [DecidableEq ι] in
theorem stage_eq (p : Process ι Addr) (id : ℕ) (i : ι) (w : Owner Addr) :
    (p.Retired id i w → p.stage id i w = .done) ∧
      (¬ p.Retired id i w → p.stage id i w = .live) := by
  cases w with
  | connection peer =>
      cases hc : p.tasks id with
      | none => simp [Retired, stage, hc]
      | some c => simp [Retired, stage, hc]
  | peer src =>
      cases hq : (p.udp i).peers.get src with
      | none => simp [Retired, stage, Udp.stage, hq]
      | some q => simp [Retired, stage, Udp.stage, hq]
  | overflow => simp [Retired, stage, Udp.stage]

omit [DecidableEq ι] in
theorem Inv.whole (h : Inv p seen) {id : ℕ} {i : ι} {w : Owner Addr}
    (hw : (id, i, w) ∈ grants seen) : Shape (p.stage id i w) (made id seen ++ p.owed id i) := by
  have hlife := shape_of_after (h.lifecycle id i w hw)
  have howed : p.owed id i = uses id (p.pending (p.home id i)) := by
    cases ht : p.tasks id with
    | none => rw [owed, h.idle id ht, uses_nil, List.append_nil, home_eq_loop ht]
    | some c =>
        have hhome := home_eq_task ht i
        have hloop : uses id (p.pending (.loop i)) = [] := by
          by_contra hne
          obtain ⟨j, w', hw', heq⟩ := h.silent _ id hne
          obtain ⟨rfl, -⟩ := h.unique hw hw'
          cases heq.trans hhome
        rw [owed, hloop, List.nil_append, hhome]
  rwa [howed]

/-- Over every run: ids are given out once; the calls for an id are its open,
then data and errors, then at most a close; it is closed once when its owner
has retired; a tracked source has one open id; and a greeting leaves only for
the datagram that opened one. -/
theorem conn_id_lifecycle {acts : List (Act ι Addr)} {tr : List (List (Seen ι Addr))}
    (h : (lts net dp o).run (start net) acts = some (p, tr)) :
    ((grants tr.flatten).map Prod.fst).Nodup ∧
    (∀ id, made id tr.flatten ≠ [] → ∃ i w, (id, i, w) ∈ grants tr.flatten) ∧
    (∀ id, made id tr.flatten = [] ∨ ∃ n,
      made id tr.flatten = .opened :: List.replicate n .used ∨
        made id tr.flatten = .opened :: (List.replicate n .used ++ [.closed])) ∧
    (∀ id i w, (id, i, w) ∈ grants tr.flatten →
      (p.Retired id i w → (made id tr.flatten ++ p.owed id i).count .closed = 1) ∧
      (¬ p.Retired id i w → (made id tr.flatten ++ p.owed id i).count .closed = 0)) ∧
    (∀ i src q, (p.udp i).peers.get src = some q →
      ∃! id, (id, i, .peer src) ∈ grants tr.flatten ∧
        .opened ∈ made id tr.flatten ++ p.owed id i ∧
          .closed ∉ made id tr.flatten ++ p.owed id i) ∧
    ∀ i dst conn bytes, .performed (.loop i) (.sent dst conn .onConnect bytes) ∈ tr.flatten →
      ∃ effects c, .handled (.loop i) effects ∈ tr.flatten ∧
        .sent dst conn .onConnect bytes ∈ effects ∧ .call c ∈ effects ∧
          c.use conn = some .opened := by
  have hinv := inv_run h
  have hcount : ∀ id i w, (id, i, w) ∈ grants tr.flatten →
      (made id tr.flatten ++ p.owed id i).count .closed =
        if p.stage id i w = .done then 1 else 0 :=
    fun id i w hw => count_closed_of_shape (hinv.whole hw)
  refine ⟨?_, hinv.named, ?_, ?_, ?_, ?_⟩
  · rw [hinv.ids]
    exact List.nodup_range'
  · intro id
    by_cases hmade : made id tr.flatten = []
    · exact .inl hmade
    · obtain ⟨i, w, hw⟩ := hinv.named id hmade
      obtain ⟨st, hst⟩ := after_of_append (hinv.lifecycle id i w hw)
      have hshape := shape_of_after hst
      cases st with
      | fresh => exact .inl hshape
      | live =>
          obtain ⟨n, hn⟩ := hshape
          exact .inr ⟨n, .inl hn⟩
      | done =>
          obtain ⟨n, hn⟩ := hshape
          exact .inr ⟨n, .inr hn⟩
  · intro id i w hw
    constructor
    · intro hretired
      rw [hcount id i w hw, (p.stage_eq id i w).1 hretired]
      rfl
    · intro hopen
      rw [hcount id i w hw, (p.stage_eq id i w).2 hopen]
      rfl
  · intro i src q hq
    have hgrant := hinv.peers i src q hq
    have hlive : p.stage q.conn i (.peer src) = .live :=
      (p.stage_eq q.conn i (.peer src)).2 fun hretired => hretired q hq rfl
    refine ⟨q.conn, ⟨hgrant, opened_mem_of_shape (hinv.whole hgrant) ?_, ?_⟩, ?_⟩
    · rw [hlive]
      exact nofun
    · have hzero := hcount q.conn i (.peer src) hgrant
      rw [hlive] at hzero
      exact List.count_eq_zero.mp hzero
    · rintro id ⟨hid, -, hclosed⟩
      by_contra hne
      have hretired : p.Retired id i (.peer src) := by
        intro q' hq'
        obtain rfl : q = q' := Option.some.inj (hq.symm.trans hq')
        exact Ne.symm hne
      have hone := hcount id i (.peer src) hid
      rw [(p.stage_eq id i (.peer src)).1 hretired, List.count_eq_zero.mpr hclosed] at hone
      cases hone
  · intro i dst conn bytes hsent
    exact (greetInv_run h).performed i _ hsent dst conn bytes rfl

/-- One datagram on a udp listener, with both its calls made. -/
theorem conn_id_lifecycle_peer :
    let cfg : Udp.Config ℕ := ⟨"u", "l", true, none, 1, 1, toString, id⟩
    ∃ p tr, (lts (fun _ : Unit => .udp cfg) .bare (.rawOnly ⟨0, 0⟩ 0)).run
        (start fun _ : Unit => .udp cfg)
        [.perform (.loop ()) .quiet, .turn () (.datagram 7 [] 0 (.ok ()) (.ok ())),
          .perform (.loop ()) .quiet, .perform (.loop ()) .quiet] = some (p, tr) ∧
      made 1 tr.flatten = [.opened, .used] ∧ ((grants tr.flatten).map Prod.fst).Nodup := by
  refine ⟨_, _, rfl, rfl, ?_⟩
  have h := @conn_id_lifecycle Unit ℕ _ _
    (fun _ => .udp ⟨"u", "l", true, none, 1, 1, toString, id⟩) .bare (.rawOnly ⟨0, 0⟩ 0) _
    [.perform (.loop ()) .quiet, .turn () (.datagram 7 [] 0 (.ok ()) (.ok ())),
      .perform (.loop ()) .quiet, .perform (.loop ()) .quiet] _ rfl
  exact h.1

end Process

end KirbLaSnoop
