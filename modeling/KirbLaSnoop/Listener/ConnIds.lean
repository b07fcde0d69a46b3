import Mathlib
import KirbLaSnoop.Log.Frame
import KirbLaSnoop.Listener.Process
import KirbLaSnoop.Listener.TcpUses

/-!
# Connection ids over a whole run

Every id is given out once, and the thread that it belongs to opens it, uses
it and closes it. What a thread has not yet performed counts as pending: the
calls made for an id, followed by the pending ones, are always in order.
-/

namespace KirbLaSnoop

open Lifecycle Effect

namespace Process

variable {ι Addr : Type*}

def Seen.grant : Seen ι Addr → Option (ℕ × ι × Owner Addr)
  | .took id i w => some (id, i, w)
  | _ => none

def Seen.use (id : ℕ) : Seen ι Addr → Option Use
  | .performed _ e => e.use id
  | _ => none

/-- The ids that have been given out, each with its listener and owner. -/
def grants (seen : List (Seen ι Addr)) : List (ℕ × ι × Owner Addr) := seen.filterMap Seen.grant

/-- The calls made so far, read as uses of an id. -/
def made (id : ℕ) (seen : List (Seen ι Addr)) : List Use := seen.filterMap (Seen.use id)

theorem grants_append (seen seen' : List (Seen ι Addr)) :
    grants (seen ++ seen') = grants seen ++ grants seen' :=
  List.filterMap_append

theorem mem_grants_append {seen : List (Seen ι Addr)} {g : ℕ × ι × Owner Addr}
    (hg : g ∈ grants seen) (seen' : List (Seen ι Addr)) : g ∈ grants (seen ++ seen') := by
  rw [grants_append]
  exact List.mem_append_left _ hg

theorem made_append (id : ℕ) (seen seen' : List (Seen ι Addr)) :
    made id (seen ++ seen') = made id seen ++ made id seen' :=
  List.filterMap_append

theorem made_performed (id : ℕ) (t : Thread ι) (e : Effect Addr) :
    made id [.performed t e] = uses id [e] := by
  rw [uses_cons, uses_nil, List.append_nil]
  cases h : e.use id <;> simp [made, Seen.use, h]

/-- The thread that performs the next call for an id: the loop that has taken
it, until the task of the connection is there. -/
def home (p : Process ι Addr) (id : ℕ) (i : ι) : Thread ι :=
  if (p.tasks id).isSome then .task id else .loop i

theorem home_eq_loop {p : Process ι Addr} {id : ℕ} (h : p.tasks id = none) (i : ι) :
    p.home id i = .loop i := by
  rw [home, h]
  rfl

theorem home_eq_task {p : Process ι Addr} {id : ℕ} {c : Connection ι Addr}
    (h : p.tasks id = some c) (i : ι) : p.home id i = .task id := by
  rw [home, h]
  rfl

theorem home_congr {p q : Process ι Addr} {id : ℕ} (h : q.tasks id = p.tasks id) (i : ι) :
    q.home id i = p.home id i := by
  rw [home, home, h]

variable [DecidableEq Addr]

/-- The stage of an id once nothing is pending. -/
def stage (p : Process ι Addr) (id : ℕ) (i : ι) : Owner Addr → Stage
  | .connection _ =>
      match p.tasks id with
      | some c => if c.stage = .ended then .done else .live
      | none => .live
  | w => Udp.stage (p.udp i) id w

theorem stage_connection {p : Process ι Addr} {id : ℕ} {c : Connection ι Addr}
    (h : p.tasks id = some c) (i : ι) (peer : Addr) :
    p.stage id i (.connection peer) = if c.stage = .ended then .done else .live := by
  simp only [stage, h]

theorem stage_congr {p q : Process ι Addr} {id : ℕ} (htasks : q.tasks id = p.tasks id)
    (hudp : q.udp = p.udp) (i : ι) (w : Owner Addr) : q.stage id i w = p.stage id i w := by
  cases w with
  | connection peer => simp only [stage, htasks]
  | _ => simp only [stage, hudp]

structure Inv (p : Process ι Addr) (seen : List (Seen ι Addr)) : Prop where
  pos : 0 < p.log.nextConn
  ids : (grants seen).map Prod.fst = List.range' 1 (p.log.nextConn - 1)
  lifecycle : ∀ id i w, (id, i, w) ∈ grants seen →
    after .fresh (made id seen ++ uses id (p.pending (p.home id i))) = some (p.stage id i w)
  silent : ∀ t id, uses id (p.pending t) ≠ [] → ∃ i w, (id, i, w) ∈ grants seen ∧ t = p.home id i
  named : ∀ id, made id seen ≠ [] → ∃ i w, (id, i, w) ∈ grants seen
  peers : ∀ i src q, (p.udp i).peers.get src = some q → (q.conn, i, .peer src) ∈ grants seen
  overflow : ∀ i id, (p.udp i).overflowConn = some id → (id, i, .overflow) ∈ grants seen
  tasks : ∀ id c, p.tasks id = some c → (id, c.listener, .connection c.peer) ∈ grants seen
  spawns : ∀ t pre conn peer post, p.pending t = pre ++ .spawn conn peer :: post →
    post = [] ∧ p.tasks conn = none ∧ ∃ i, t = .loop i ∧ (conn, i, .connection peer) ∈ grants seen
  idle : ∀ id, p.tasks id = none → p.pending (.task id) = []

variable {p : Process ι Addr} {seen : List (Seen ι Addr)}

theorem Inv.unique (h : Inv p seen) {id : ℕ} {i j : ι} {w w' : Owner Addr}
    (hw : (id, i, w) ∈ grants seen) (hw' : (id, j, w') ∈ grants seen) : i = j ∧ w = w' := by
  have hnodup : ((grants seen).map Prod.fst).Nodup := by
    rw [h.ids]
    exact List.nodup_range'
  have heq := List.inj_on_of_nodup_map hnodup hw hw' rfl
  simpa using heq

theorem Inv.lt_next (h : Inv p seen) {id : ℕ} {i : ι} {w : Owner Addr}
    (hw : (id, i, w) ∈ grants seen) : id < p.log.nextConn := by
  have hmem : id ∈ (grants seen).map Prod.fst := List.mem_map_of_mem hw
  have hpos := h.pos
  rw [h.ids, List.mem_range'_1] at hmem
  omega

theorem Inv.tasks_none (h : Inv p seen) {id : ℕ} {i : ι} {w : Owner Addr}
    (hw : (id, i, w) ∈ grants seen) (hnot : ∀ peer, w ≠ .connection peer) : p.tasks id = none := by
  cases ht : p.tasks id with
  | none => rfl
  | some c => exact absurd (h.unique hw (h.tasks id c ht)).2 (hnot c.peer)

theorem Inv.tasks_next (h : Inv p seen) : p.tasks p.log.nextConn = none := by
  cases ht : p.tasks p.log.nextConn with
  | none => rfl
  | some c => exact absurd (h.lt_next (h.tasks _ c ht)) (Nat.lt_irrefl _)

/-- Of the past only the ids given out and the uses made of them count. -/
theorem Inv.congr_seen (h : Inv p seen) {seen' : List (Seen ι Addr)}
    (hgrants : grants seen' = grants seen) (hmade : ∀ id, made id seen' = made id seen) :
    Inv p seen' := by
  constructor
  · exact h.pos
  · rw [hgrants]
    exact h.ids
  · intro id i w hw
    rw [hgrants] at hw
    rw [hmade]
    exact h.lifecycle id i w hw
  · rw [hgrants]
    exact h.silent
  · intro id hne
    rw [hmade] at hne
    rw [hgrants]
    exact h.named id hne
  · rw [hgrants]
    exact h.peers
  · rw [hgrants]
    exact h.overflow
  · rw [hgrants]
    exact h.tasks
  · rw [hgrants]
    exact h.spawns
  · exact h.idle

/-! ## Performing -/

/-- A call changes nothing but the logger, and gives out no id. -/
theorem Inv.call (h : Inv p seen) (dp : Deps) (o : Options) (e : Env) (c : Call) :
    Inv (p.call dp o e c) seen := by
  have hnext : (p.call dp o e c).log.nextConn = p.log.nextConn :=
    Logger.nextConn_exec dp o e c p.log
  exact ⟨hnext ▸ h.pos, hnext ▸ h.ids, h.lifecycle, h.silent, h.named, h.peers, h.overflow,
    h.tasks, h.spawns, h.idle⟩

theorem Inv.spawn (h : Inv p seen) {i : ι} {conn : ℕ} {peer : Addr}
    (hpend : p.pending (.loop i) = []) (hnone : p.tasks conn = none)
    (hgrant : (conn, i, .connection peer) ∈ grants seen) : Inv (p.spawn i conn peer) seen := by
  have hself : (p.spawn i conn peer).tasks conn = some ⟨i, peer, .start⟩ :=
    Function.update_self _ _ _
  have hother : ∀ id, id ≠ conn → (p.spawn i conn peer).tasks id = p.tasks id :=
    fun id hid => Function.update_of_ne hid _ _
  refine ⟨h.pos, h.ids, ?_, ?_, h.named, h.peers, h.overflow, ?_, ?_, ?_⟩
  · intro id j w hw
    have hlife := h.lifecycle id j w hw
    by_cases hid : id = conn
    · subst hid
      obtain ⟨rfl, rfl⟩ := h.unique hw hgrant
      have hlive : (p.spawn j id peer).stage id j (.connection peer) = .live :=
        (stage_connection hself j peer).trans (if_neg nofun)
      have hwas : p.stage id j (.connection peer) = .live := by
        simp only [stage, hnone]
      have hidle : (p.spawn j id peer).pending (.task id) = [] := h.idle id hnone
      rw [home_eq_loop hnone, hpend, hwas] at hlife
      rw [home_eq_task hself, hidle, hlive]
      exact hlife
    · rw [home_congr (hother id hid), stage_congr (hother id hid) rfl]
      exact hlife
  · intro t id hne
    obtain ⟨j, w, hw, ht⟩ := h.silent t id hne
    refine ⟨j, w, hw, ?_⟩
    by_cases hid : id = conn
    · subst hid
      obtain ⟨rfl, -⟩ := h.unique hw hgrant
      have hempty : (p.spawn j id peer).pending t = [] := by
        rw [ht, home_eq_loop hnone]
        exact hpend
      rw [hempty] at hne
      exact absurd rfl hne
    · exact ht.trans (home_congr (hother id hid) j).symm
  · intro id c hc
    by_cases hid : id = conn
    · subst hid
      rw [hself, Option.some.injEq] at hc
      subst hc
      exact hgrant
    · rw [hother id hid] at hc
      exact h.tasks id c hc
  · intro t pre c q post hsplit
    obtain ⟨hpost, hc, j, rfl, hj⟩ := h.spawns t pre c q post hsplit
    have hne : c ≠ conn := by
      rintro rfl
      obtain ⟨rfl, -⟩ := h.unique hj hgrant
      have hempty := hpend.symm.trans hsplit
      exact absurd hempty.symm (List.append_ne_nil_of_right_ne_nil _ (List.cons_ne_nil _ _))
    exact ⟨hpost, (hother c hne).trans hc, j, rfl, hj⟩
  · intro id hid
    by_cases hconn : id = conn
    · subst hconn
      cases hself.symm.trans hid
    · rw [hother id hconn] at hid
      exact h.idle id hid

variable [DecidableEq ι]

/-- The first pending effect moves to what has been made. -/
theorem Inv.drop (h : Inv p seen) {t : Thread ι} {eff : Effect Addr}
    {rest : List (Effect Addr)} (hp : p.pending t = eff :: rest) :
    Inv (p.drop t rest) (seen ++ [.performed t eff]) := by
  have hgrants : grants (seen ++ [.performed t eff]) = grants seen := by
    rw [grants_append]
    exact List.append_nil _
  have hself : (p.drop t rest).pending t = rest := Function.update_self _ _ _
  have hother : ∀ t', t' ≠ t → (p.drop t rest).pending t' = p.pending t' :=
    fun t' ht' => Function.update_of_ne ht' _ _
  have hhome : ∀ id i, (p.drop t rest).home id i = p.home id i := fun _ _ => rfl
  have hstage : ∀ id i w, (p.drop t rest).stage id i w = p.stage id i w := fun _ _ _ => rfl
  have huses : ∀ id, uses id (p.pending t) = uses id [eff] ++ uses id rest := by
    intro id
    rw [hp, ← uses_append]
    rfl
  refine ⟨h.pos, hgrants ▸ h.ids, ?_, ?_, ?_, ?_, ?_, ?_, ?_, ?_⟩
  · intro id i w hw
    rw [hgrants] at hw
    have hlife := h.lifecycle id i w hw
    rw [hstage, hhome, made_append, made_performed]
    by_cases ht : p.home id i = t
    · rw [ht] at hlife ⊢
      rw [hself, List.append_assoc, ← huses]
      exact hlife
    · have hnot : uses id [eff] = [] := by
        by_contra hne
        have hpend : uses id (p.pending t) ≠ [] := by
          rw [huses]
          exact List.append_ne_nil_of_left_ne_nil hne _
        obtain ⟨j, w', hw', rfl⟩ := h.silent t id hpend
        obtain ⟨rfl, -⟩ := h.unique hw hw'
        exact ht rfl
      rw [hother _ ht, hnot, List.append_nil]
      exact hlife
  · intro t' id hne
    rw [hgrants]
    apply h.silent t' id
    by_cases ht : t' = t
    · subst ht
      rw [hself] at hne
      rw [huses]
      exact List.append_ne_nil_of_right_ne_nil _ hne
    · rwa [hother t' ht] at hne
  · intro id hne
    rw [hgrants]
    rw [made_append, made_performed] at hne
    by_cases hmade : made id seen = []
    · have hpend : uses id (p.pending t) ≠ [] := by
        rw [huses]
        rw [hmade, List.nil_append] at hne
        exact List.append_ne_nil_of_left_ne_nil hne _
      obtain ⟨i, w, hw, -⟩ := h.silent t id hpend
      exact ⟨i, w, hw⟩
    · exact h.named id hmade
  · intro i src q hq
    rw [hgrants]
    exact h.peers i src q hq
  · intro i id hid
    rw [hgrants]
    exact h.overflow i id hid
  · intro id c hc
    rw [hgrants]
    exact h.tasks id c hc
  · intro t' pre conn peer post hpend
    rw [hgrants]
    by_cases ht : t' = t
    · subst ht
      rw [hself] at hpend
      exact h.spawns t' (eff :: pre) conn peer post (by rw [hp, hpend]; rfl)
    · rw [hother t' ht] at hpend
      exact h.spawns t' pre conn peer post hpend
  · intro id hid
    by_cases ht : (.task id : Thread ι) = t
    · have hnone := h.idle id hid
      rw [ht, hp] at hnone
      cases hnone
    · rw [hother _ ht]
      exact h.idle id hid

theorem Inv.realize (h : Inv p seen) {t : Thread ι} {eff : Effect Addr}
    {rest : List (Effect Addr)} (hp : p.pending t = eff :: rest) (dp : Deps) (o : Options)
    (e : Env) : Inv ((p.drop t rest).realize dp o t e eff) (seen ++ [.performed t eff]) := by
  have hdrop := h.drop hp
  cases eff with
  | call c => exact hdrop.call dp o e c
  | spawn conn peer =>
      obtain ⟨hrest, hnone, i, rfl, hgrant⟩ := h.spawns t [] conn peer rest hp
      have hself : (p.drop (.loop i) rest).pending (.loop i) = [] :=
        (Function.update_self _ _ _).trans hrest
      exact hdrop.spawn hself hnone (mem_grants_append hgrant _)
  | _ => exact hdrop

/-! ## Handling -/

omit [DecidableEq ι] [DecidableEq Addr] in
theorem grants_seenHandled {σ : Type*} (p : Process ι Addr) (i : ι) (out : Outcome σ Addr) :
    grants (p.seenHandled i out) = (out.took.map fun w => (p.log.nextConn, i, w)).toList := by
  cases h : out.took <;> simp [grants, seenHandled, Seen.grant, h]

omit [DecidableEq ι] [DecidableEq Addr] in
theorem made_seenHandled {σ : Type*} (p : Process ι Addr) (i : ι) (out : Outcome σ Addr)
    (id : ℕ) : made id (p.seenHandled i out) = [] := by
  cases h : out.took <;> simp [made, seenHandled, Seen.use, h]

omit [DecidableEq ι] [DecidableEq Addr] in
theorem granted_seenHandled {σ : Type*} {i : ι} {out : Outcome σ Addr} {w : Owner Addr}
    (htook : out.took = some w) :
    (p.log.nextConn, i, w) ∈ grants (seen ++ p.seenHandled i out) := by
  rw [grants_append, grants_seenHandled, htook]
  exact List.mem_append_right _ List.mem_cons_self

/-- What a loop hands over when it has handled an input in state `p`: it uses
its own ids and the one it takes, and takes each from stage to stage. The
states of the udp loops are then `udp`. -/
structure Fair {σ : Type*} (p : Process ι Addr) (seen : List (Seen ι Addr)) (i : ι)
    (out : Outcome σ Addr) (udp : ι → Udp.State Addr) : Prop where
  names : ∀ id, uses id out.effects ≠ [] →
    (∃ w, (id, i, w) ∈ grants seen ∧ p.tasks id = none) ∨ id = p.log.nextConn ∧ out.took.isSome
  old : ∀ id j w, (id, j, w) ∈ grants seen →
    after (p.stage id j w) (uses id out.effects) = some ({ p with udp := udp }.stage id j w)
  new : ∀ w, out.took = some w →
    after .fresh (uses p.log.nextConn out.effects) =
      some ({ p with udp := udp }.stage p.log.nextConn i w)
  peers : ∀ j src q, (udp j).peers.get src = some q →
    (q.conn, j, .peer src) ∈ grants (seen ++ p.seenHandled i out)
  overflow : ∀ j id, (udp j).overflowConn = some id →
    (id, j, .overflow) ∈ grants (seen ++ p.seenHandled i out)
  spawns : ∀ pre conn peer post, out.effects = pre ++ .spawn conn peer :: post →
    post = [] ∧ conn = p.log.nextConn ∧ out.took = some (.connection peer)

theorem Inv.handled (h : Inv p seen) {σ : Type*} {i : ι} {out : Outcome σ Addr}
    {udp : ι → Udp.State Addr} (hidle : p.pending (.loop i) = []) (hfair : Fair p seen i out udp) :
    Inv { p.handled i out with udp := udp } (seen ++ p.seenHandled i out) := by
  have hpos := h.pos
  have hself : Function.update p.pending (.loop i) out.effects (.loop i) = out.effects :=
    Function.update_self _ _ _
  have hother : ∀ t, t ≠ .loop i →
      Function.update p.pending (.loop i) out.effects t = p.pending t :=
    fun t ht => Function.update_of_ne ht _ _
  have hmade : ∀ id, made id (seen ++ p.seenHandled i out) = made id seen := by
    intro id
    rw [made_append, made_seenHandled, List.append_nil]
  have hnew : ∀ id j w, (id, j, w) ∈ grants (seen ++ p.seenHandled i out) →
      (id, j, w) ∈ grants seen ∨ id = p.log.nextConn ∧ j = i ∧ out.took = some w := by
    intro id j w hw
    rw [grants_append, List.mem_append, grants_seenHandled, Option.mem_toList,
      Option.map_eq_some_iff] at hw
    rcases hw with hw | ⟨w', hw', heq⟩
    · exact .inl hw
    · simp only [Prod.mk.injEq] at heq
      obtain ⟨rfl, rfl, rfl⟩ := heq
      exact .inr ⟨rfl, rfl, hw'⟩
  have hfresh := h.tasks_next
  refine ⟨?_, ?_, ?_, ?_, ?_, hfair.peers, hfair.overflow, ?_, ?_, ?_⟩
  · dsimp only [Process.handled]
    split
    · exact Nat.succ_pos _
    · exact hpos
  · rw [grants_append, List.map_append, h.ids, grants_seenHandled]
    dsimp only [Process.handled]
    cases htook : out.took with
    | none => simp
    | some w =>
        have hsucc : p.log.nextConn + 1 - 1 = p.log.nextConn - 1 + 1 := by omega
        have hlast : 1 + (p.log.nextConn - 1) = p.log.nextConn := by omega
        simp [Logger.nextConnId, hsucc, List.range'_concat, hlast]
  · intro id j w hw
    rw [hmade]
    rcases hnew id j w hw with hold | ⟨rfl, rfl, htook⟩
    · have hlife := h.lifecycle id j w hold
      have hstep := hfair.old id j w hold
      change after .fresh (made id seen ++
        uses id (Function.update p.pending (.loop i) out.effects (p.home id j))) = _
      by_cases hhome : p.home id j = .loop i
      · rw [hhome, hidle, uses_nil, List.append_nil] at hlife
        rw [hhome, hself]
        exact after_extend hlife hstep
      · have hquiet : uses id out.effects = [] := by
          by_contra hne
          rcases hfair.names id hne with ⟨w', hw', hnone⟩ | ⟨rfl, -⟩
          · obtain ⟨rfl, -⟩ := h.unique hold hw'
            exact hhome (home_eq_loop hnone j)
          · exact absurd (h.lt_next hold) (Nat.lt_irrefl _)
        rw [hquiet, after_nil, Option.some.injEq] at hstep
        rw [hother _ hhome, hlife, hstep]
        rfl
    · have hnone : made p.log.nextConn seen = [] := by
        by_contra hne
        obtain ⟨k, w', hw'⟩ := h.named _ hne
        exact absurd (h.lt_next hw') (Nat.lt_irrefl _)
      have hhome := home_eq_loop hfresh j
      change after .fresh (made p.log.nextConn seen ++ uses p.log.nextConn
        (Function.update p.pending (.loop j) out.effects (p.home p.log.nextConn j))) = _
      rw [hnone, hhome, hself]
      exact hfair.new w htook
  · intro t id hne
    change uses id (Function.update p.pending (.loop i) out.effects t) ≠ [] at hne
    by_cases ht : t = .loop i
    · subst ht
      rw [hself] at hne
      rcases hfair.names id hne with ⟨w, hw, hnone⟩ | ⟨rfl, htook⟩
      · exact ⟨i, w, mem_grants_append hw _, (home_eq_loop hnone i).symm⟩
      · obtain ⟨w, hw⟩ := Option.isSome_iff_exists.mp htook
        exact ⟨i, w, granted_seenHandled hw, (home_eq_loop hfresh i).symm⟩
    · rw [hother t ht] at hne
      obtain ⟨j, w, hw, hhome⟩ := h.silent t id hne
      exact ⟨j, w, mem_grants_append hw _, hhome⟩
  · intro id hne
    rw [hmade] at hne
    obtain ⟨j, w, hw⟩ := h.named id hne
    exact ⟨j, w, mem_grants_append hw _⟩
  · intro id c hc
    exact mem_grants_append (h.tasks id c hc) _
  · intro t pre conn peer post hsplit
    change Function.update p.pending (.loop i) out.effects t = _ at hsplit
    by_cases ht : t = .loop i
    · subst ht
      rw [hself] at hsplit
      obtain ⟨hpost, rfl, htook⟩ := hfair.spawns pre conn peer post hsplit
      exact ⟨hpost, hfresh, i, rfl, granted_seenHandled htook⟩
    · rw [hother t ht] at hsplit
      obtain ⟨hpost, hnone, j, hj, hgrant⟩ := h.spawns t pre conn peer post hsplit
      exact ⟨hpost, hnone, j, hj, mem_grants_append hgrant _⟩
  · intro id hid
    exact (hother (.task id) nofun).trans (h.idle id hid)

theorem Inv.stepped (h : Inv p seen) {conn : ℕ} {c : Connection ι Addr} {cfg : Tcp.Config Addr}
    {input : Tcp.Input} {out : Tcp.Stage × List (Effect Addr)} (htask : p.tasks conn = some c)
    (hidle : p.pending (.task conn) = []) (hstep : Tcp.Step cfg conn c.peer c.stage input out) :
    Inv (p.stepped conn c out) (seen ++ [.handled (.task conn) out.2]) := by
  obtain ⟨hrunning, hlast, hquiet, hspawn⟩ := Tcp.step_uses cfg conn c.peer hstep
  have hgrants : grants (seen ++ [.handled (.task conn) out.2]) = grants seen := by
    rw [grants_append]
    exact List.append_nil _
  have hmade : ∀ id, made id (seen ++ [.handled (.task conn) out.2]) = made id seen := by
    intro id
    rw [made_append]
    exact List.append_nil _
  have hself : (p.stepped conn c out).pending (.task conn) = out.2 := Function.update_self _ _ _
  have hother : ∀ t, t ≠ .task conn → (p.stepped conn c out).pending t = p.pending t :=
    fun t ht => Function.update_of_ne ht _ _
  have hnow : (p.stepped conn c out).tasks conn = some { c with stage := out.1 } :=
    Function.update_self _ _ _
  have helse : ∀ id, id ≠ conn → (p.stepped conn c out).tasks id = p.tasks id :=
    fun id hid => Function.update_of_ne hid _ _
  have hgrant := h.tasks conn c htask
  have hhome : ∀ id i, (p.stepped conn c out).home id i = p.home id i := by
    intro id i
    by_cases hid : id = conn
    · subst hid
      exact (home_eq_task hnow i).trans (home_eq_task htask i).symm
    · exact home_congr (helse id hid) i
  suffices hstepped : Inv (p.stepped conn c out) seen from hstepped.congr_seen hgrants hmade
  refine ⟨h.pos, h.ids, ?_, ?_, h.named, h.peers, h.overflow, ?_, ?_, ?_⟩
  · intro id i w hw
    have hlife := h.lifecycle id i w hw
    rw [hhome]
    by_cases hid : id = conn
    · subst hid
      obtain ⟨rfl, rfl⟩ := h.unique hw hgrant
      rw [home_eq_task htask, hidle, uses_nil, List.append_nil, stage_connection htask,
        if_neg hrunning] at hlife
      rw [home_eq_task htask, hself, stage_connection hnow]
      exact after_extend hlife hlast
    · rw [stage_congr (helse id hid) rfl]
      by_cases ht : p.home id i = .task conn
      · rw [ht, hidle, uses_nil] at hlife
        rw [ht, hself, hquiet id (Ne.symm hid)]
        exact hlife
      · rw [hother _ ht]
        exact hlife
  · intro t id hne
    by_cases ht : t = .task conn
    · subst ht
      rw [hself] at hne
      by_cases hid : conn = id
      · subst hid
        exact ⟨c.listener, .connection c.peer, hgrant, (home_eq_task hnow _).symm⟩
      · exact absurd (hquiet id hid) hne
    · rw [hother t ht] at hne
      obtain ⟨i, w, hw, heq⟩ := h.silent t id hne
      exact ⟨i, w, hw, heq.trans (hhome id i).symm⟩
  · intro id d hd
    by_cases hid : id = conn
    · subst hid
      rw [hnow, Option.some.injEq] at hd
      subst hd
      exact hgrant
    · rw [helse id hid] at hd
      exact h.tasks id d hd
  · intro t pre d q post hsplit
    by_cases ht : t = .task conn
    · subst ht
      rw [hself] at hsplit
      exact absurd (hsplit ▸ List.mem_append_right _ List.mem_cons_self) (hspawn d q)
    · rw [hother t ht] at hsplit
      obtain ⟨hpost, hnone, hrest⟩ := h.spawns t pre d q post hsplit
      have hne : d ≠ conn := by
        rintro rfl
        cases hnone.symm.trans htask
      exact ⟨hpost, (helse d hne).trans hnone, hrest⟩
  · intro id hid
    by_cases hconn : id = conn
    · subst hconn
      cases hnow.symm.trans hid
    · rw [helse id hconn] at hid
      have hne : (.task id : Thread ι) ≠ .task conn := fun heq => hconn (Thread.task.inj heq)
      exact (hother _ hne).trans (h.idle id hid)

/-- A turn of a udp loop is fair to the other threads. -/
theorem Inv.fair_turn (h : Inv p seen) {cfg : Udp.Config Addr} {i : ι} {input : Udp.Input Addr}
    {out : Outcome (Udp.State Addr) Addr}
    (hturn : Udp.Turn cfg p.log.nextConn (p.udp i) input out) :
    Fair p seen i out (Function.update p.udp i out.state) := by
  have hself : Function.update p.udp i out.state i = out.state := Function.update_self _ _ _
  have hother : ∀ j, j ≠ i → Function.update p.udp i out.state j = p.udp j :=
    fun j hj => Function.update_of_ne hj _ _
  have howned : ∀ id, uses id out.effects ≠ [] →
      (∃ w, (id, i, w) ∈ grants seen ∧ ∀ peer, w ≠ .connection peer) ∨
        id = p.log.nextConn ∧ out.took.isSome := by
    intro id hne
    rcases Udp.turn_names cfg hturn hne with (⟨src, q, hq, rfl⟩ | hconn) | hnew
    · exact .inl ⟨_, h.peers i src q hq, nofun⟩
    · exact .inl ⟨_, h.overflow i id hconn, nofun⟩
    · exact .inr hnew
  have hquiet : ∀ id j w, (id, j, w) ∈ grants seen → (j = i → ∃ peer, w = .connection peer) →
      uses id out.effects = [] := by
    intro id j w hw hforeign
    by_contra hne
    rcases howned id hne with ⟨w', hw', hnot⟩ | ⟨rfl, -⟩
    · obtain ⟨rfl, rfl⟩ := h.unique hw hw'
      obtain ⟨peer, rfl⟩ := hforeign rfl
      exact hnot peer rfl
    · exact absurd (h.lt_next hw) (Nat.lt_irrefl _)
  refine ⟨?_, ?_, ?_, ?_, ?_, ?_⟩
  · intro id hne
    rcases howned id hne with ⟨w, hw, hnot⟩ | hnew
    · exact .inl ⟨w, hw, h.tasks_none hw hnot⟩
    · exact .inr hnew
  · intro id j w hw
    by_cases hpeer : ∃ peer, w = .connection peer
    · obtain ⟨peer, rfl⟩ := hpeer
      rw [hquiet id j _ hw fun _ => ⟨peer, rfl⟩]
      rfl
    · have hnot : ∀ peer, w ≠ .connection peer := fun peer hw' => hpeer ⟨peer, hw'⟩
      have hstage : ∀ q : Process ι Addr, q.stage id j w = Udp.stage (q.udp j) id w := by
        intro q
        cases w with
        | connection peer => exact absurd rfl (hnot peer)
        | _ => rfl
      rw [hstage, hstage]
      by_cases hj : j = i
      · subst hj
        dsimp only
        rw [hself]
        apply Udp.turn_stage cfg hturn (Nat.ne_of_gt (h.lt_next hw)) ?_ ?_ hnot
        · rintro src q hq rfl
          exact (h.unique hw (h.peers j src q hq)).2
        · intro hconn
          exact (h.unique hw (h.overflow j id hconn)).2
      · dsimp only
        rw [hquiet id j w hw fun heq => absurd heq hj, hother j hj]
        rfl
  · intro w htook
    obtain ⟨hafter, hlive⟩ := Udp.turn_took cfg hturn htook
    rw [hafter]
    cases w with
    | connection peer => simp only [stage, h.tasks_next]
    | _ =>
        simp only [stage, hself]
        rw [hlive]
  · intro j src q hq
    by_cases hj : j = i
    · subst hj
      rw [hself] at hq
      rcases Udp.turn_peers cfg hturn hq with ⟨q', hq', hsame⟩ | ⟨hnext, htook⟩
      · exact mem_grants_append (hsame ▸ h.peers j src q' hq') _
      · exact hnext ▸ granted_seenHandled htook
    · rw [hother j hj] at hq
      exact mem_grants_append (h.peers j src q hq) _
  · intro j id hid
    by_cases hj : j = i
    · subst hj
      rw [hself] at hid
      rcases Udp.turn_overflowConn cfg hturn hid with hold | ⟨hnext, htook⟩
      · exact mem_grants_append (h.overflow j id hold) _
      · exact hnext ▸ granted_seenHandled htook
    · rw [hother j hj] at hid
      exact mem_grants_append (h.overflow j id hid) _
  · intro pre conn peer post heq
    have hmem : .spawn conn peer ∈ out.effects := heq ▸ List.mem_append_right _ List.mem_cons_self
    rcases Udp.turn_effects cfg hturn hmem with ⟨c, hc⟩ | ⟨_, _, _, _, hc, -⟩ <;> cases hc

omit [DecidableEq ι] in
theorem Inv.fair_accept (h : Inv p seen) (cfg : Tcp.Config Addr) (i : ι) (peer : Addr)
    (orig : Option String) :
    Fair p seen i (Tcp.accept cfg p.log.nextConn peer orig) p.udp := by
  have huses : ∀ id, uses id (Tcp.accept cfg p.log.nextConn peer orig).effects =
      if p.log.nextConn = id then [.opened] else [] := by
    intro id
    by_cases hid : p.log.nextConn = id <;> simp [Tcp.accept, use, Call.use, hid]
  refine ⟨?_, ?_, ?_, ?_, ?_, ?_⟩
  · intro id hne
    rw [huses] at hne
    by_cases hid : p.log.nextConn = id
    · exact .inr ⟨hid.symm, rfl⟩
    · rw [if_neg hid] at hne
      exact absurd rfl hne
  · intro id j w hw
    rw [huses, if_neg (Nat.ne_of_gt (h.lt_next hw))]
    rfl
  · intro w htook
    obtain rfl := Option.some.inj htook
    rw [huses, if_pos rfl]
    simp [stage, h.tasks_next, Stage.next]
  · intro j src q hq
    exact mem_grants_append (h.peers j src q hq) _
  · intro j id hid
    exact mem_grants_append (h.overflow j id hid) _
  · intro pre conn q post heq
    rcases pre with _ | ⟨e, pre⟩
    · cases heq
    · obtain ⟨rfl, htail⟩ := List.cons.inj heq
      rcases pre with _ | ⟨e', pre⟩
      · obtain ⟨hspawn, rfl⟩ := List.cons.inj htail
        cases hspawn
        exact ⟨rfl, rfl, rfl⟩
      · obtain ⟨-, hnil⟩ := List.cons.inj htail
        exact absurd hnil.symm (List.append_ne_nil_of_right_ne_nil _ (List.cons_ne_nil _ _))

omit [DecidableEq ι] in
theorem Inv.fair_acceptError (h : Inv p seen) (cfg : Tcp.Config Addr) (i : ι) (e : String) :
    Fair p seen i (Tcp.acceptError cfg e) p.udp := by
  have huses : ∀ id, uses id (Tcp.acceptError cfg e).effects = [] := fun _ => rfl
  refine ⟨fun id hne => absurd (huses id) hne, ?_, nofun, ?_, ?_, ?_⟩
  · intro id j w _
    rw [huses]
    rfl
  · intro j src q hq
    exact mem_grants_append (h.peers j src q hq) _
  · intro j id hid
    exact mem_grants_append (h.overflow j id hid) _
  · intro pre conn q post heq
    rcases pre with _ | ⟨e, pre⟩
    · cases heq
    · obtain ⟨-, hnil⟩ := List.cons.inj heq
      exact absurd hnil.symm (List.append_ne_nil_of_right_ne_nil _ (List.cons_ne_nil _ _))

end Process

end KirbLaSnoop
