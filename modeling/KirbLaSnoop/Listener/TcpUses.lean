import Mathlib
import KirbLaSnoop.Listener.Tcp
import KirbLaSnoop.Listener.Uses

/-!
# How a tcp connection uses its id

Every step of a task goes on with its connection, or ends it with the close
as its last effect. No other id is used.
-/

namespace KirbLaSnoop

open Lifecycle Effect

variable {Addr : Type*}

namespace Tcp

variable (cfg : Config Addr) (conn : ℕ) (peer : Addr)

theorem uses_startup (id : ℕ) : uses id (startup cfg) = [] := by
  unfold startup
  dsimp only
  split <;> rfl

/-- An effect with which a connection goes on. -/
inductive Goes : Effect Addr → Prop
  | data (proto : Proto) (name q : String) (dir : Dir) (bs : List UInt8) (rule : Option String) :
      Goes (.call (.data proto name conn q dir bs rule))
  | error (proto : Proto) (name msg : String) : Goes (.call (.error proto name (some conn) msg))
  | sent (dst : Addr) (trigger : Trigger) (bs : List UInt8) : Goes (.sent dst conn trigger bs)
  | relayed (dir : Dir) (bs : List UInt8) : Goes (.relayed conn dir bs)
  | shutdown (dir : Dir) : Goes (.shutdown conn dir)

theorem use_of_goes {e : Effect Addr} (h : Goes conn e) (id : ℕ) :
    e.use id = none ∨ conn = id ∧ e.use id = some .used := by
  by_cases hid : conn = id
  · cases h with
    | data proto name q dir bs rule => exact .inr ⟨hid, if_pos hid⟩
    | error proto name msg => exact .inr ⟨hid, if_pos (congrArg some hid)⟩
    | _ => exact .inl rfl
  · left
    cases h with
    | data proto name q dir bs rule => exact if_neg hid
    | error proto name msg => exact if_neg fun hsome => hid (Option.some.inj hsome)
    | _ => rfl

theorem uses_goes {es : List (Effect Addr)} (h : ∀ e ∈ es, Goes conn e) (id : ℕ) :
    (conn ≠ id → uses id es = []) ∧ ∀ u ∈ uses id es, u = .used :=
  uses_of_forall fun e he => use_of_goes conn (h e he) id

/-- What a step of a connection comes to: it goes on, or its last effect is
the close. -/
def Told (out : Stage × List (Effect Addr)) : Prop :=
  (out.1 ≠ .ended ∧ ∀ e ∈ out.2, Goes conn e) ∨
    out.1 = .ended ∧ ∃ before why, (∀ e ∈ before, Goes conn e) ∧
      out.2 = before ++ [.call (.close .tcp cfg.name conn (cfg.display peer) why)]

theorem told_ended {es : List (Effect Addr)} (h : ∀ e ∈ es, Goes conn e)
    (outcome : Except String String) :
    Told cfg conn peer (.ended, es ++ finish cfg conn peer outcome) := by
  cases outcome with
  | ok why => exact .inr ⟨rfl, es, why, h, rfl⟩
  | error msg =>
      refine .inr ⟨rfl, es ++ [.call (.error .tcp cfg.name (some conn) msg)], "error", ?_, ?_⟩
      · intro e he
        rcases List.mem_append.mp he with he | he
        · exact h e he
        · rw [List.mem_singleton.mp he]
          exact .error _ _ _
      · rw [List.append_assoc]
        rfl

theorem goes_send (a : Action) (received : List UInt8) (trigger : Trigger) (sending : Sending) :
    ∀ e ∈ (send cfg conn peer a received trigger sending).1, Goes conn e := by
  have hhangup : ∀ e ∈ (if a.close then [.shutdown conn .tx] else [] : List (Effect Addr)),
      Goes conn e := by
    intro e he
    cases hclose : a.close with
    | true =>
        rw [hclose, if_pos rfl, List.mem_singleton] at he
        rw [he]
        exact .shutdown _
    | false =>
        rw [hclose] at he
        cases he
  unfold send
  split
  · exact nofun
  · split
    · exact nofun
    · next payload _ =>
        dsimp only
        split
        · exact hhangup
        · split
          · intro e he
            rcases List.mem_cons.mp he with rfl | he
            · exact .sent _ _ _
            · rcases List.mem_cons.mp he with rfl | he
              · exact .data _ _ _ _ _ _
              · exact hhangup e he
          · intro e he
            rw [List.mem_singleton.mp he]
            exact .sent _ _ _
          · intro e he
            rw [List.mem_singleton.mp he]
            exact .sent _ _ _

theorem told_finish (outcome : Except String String) :
    Told cfg conn peer (.ended, finish cfg conn peer outcome) := by
  have h : Told cfg conn peer (.ended, [] ++ finish cfg conn peer outcome) :=
    told_ended cfg conn peer (List.forall_mem_nil _) outcome
  rwa [List.nil_append] at h

theorem told_proceed {next : Stage} (hnext : next ≠ .ended)
    {sent : List (Effect Addr) × Except String Bool} (h : ∀ e ∈ sent.1, Goes conn e) :
    Told cfg conn peer (proceed cfg conn peer next sent) := by
  unfold proceed
  split
  · exact told_ended cfg conn peer h _
  · exact .inl ⟨hnext, h⟩
  · exact told_ended cfg conn peer h _

theorem Told.cons {e : Effect Addr} (he : Goes conn e) {out : Stage × List (Effect Addr)}
    (h : Told cfg conn peer out) : Told cfg conn peer (out.1, e :: out.2) := by
  rcases h with ⟨hstage, hgoes⟩ | ⟨hstage, before, why, hgoes, heq⟩
  · exact .inl ⟨hstage, List.forall_mem_cons.mpr ⟨he, hgoes⟩⟩
  · exact .inr ⟨hstage, e :: before, why, List.forall_mem_cons.mpr ⟨he, hgoes⟩, by rw [heq]; rfl⟩

theorem goes_pump {dir : Dir} {state : Pump} {input : Input} {out : Pump × List (Effect Addr)}
    (h : pump cfg conn peer dir state input = some out) : ∀ e ∈ out.2, Goes conn e := by
  intro e he
  unfold pump at h
  split at h
  · next dir' res =>
      obtain rfl := Option.some.inj h
      unfold pumpRead at he
      split at he
      · rw [List.mem_singleton.mp he]
        exact .shutdown _
      · rw [List.mem_singleton.mp he]
        exact .shutdown _
      · rw [List.mem_singleton.mp he]
        exact .data _ _ _ _ _ _
  · next rest dir' res =>
      unfold pumpWrite at h
      split at h
      · obtain rfl := Option.some.inj h
        rw [List.mem_singleton.mp he]
        exact .shutdown _
      · split at h
        · obtain rfl := Option.some.inj h
          rw [List.mem_singleton.mp he]
          exact .relayed _ _
        · rw [Option.ite_none_right_eq_some] at h
          obtain rfl := Option.some.inj h.2
          rw [List.mem_singleton.mp he]
          exact .relayed _ _
  · cases h

theorem told_join (rx tx : Pump) {es : List (Effect Addr)} (h : ∀ e ∈ es, Goes conn e) :
    Told cfg conn peer (join cfg conn peer rx tx es) := by
  unfold join
  split
  · exact told_ended cfg conn peer h _
  · exact .inl ⟨nofun, h⟩

theorem told_read (first : Bool) (res : Except String (List UInt8)) (sending : Sending) :
    Told cfg conn peer (read cfg conn peer first res sending) := by
  unfold read
  split
  · exact told_finish cfg conn peer _
  · exact told_finish cfg conn peer _
  · next data _ =>
      have hrx : Goes conn
          (.call (.data .tcp cfg.name conn (cfg.display peer) .rx data none) : Effect Addr) :=
        .data _ _ _ _ _ _
      have hone : ∀ e ∈ [(.call (.data .tcp cfg.name conn (cfg.display peer) .rx data none) :
          Effect Addr)], Goes conn e := List.forall_mem_singleton.mpr hrx
      dsimp only
      split
      · exact .inl ⟨nofun, hone⟩
      · split
        · exact .inl ⟨nofun, hone⟩
        · exact .inl ⟨nofun, hone⟩
        · exact (told_proceed cfg conn peer (by exact nofun)
            (goes_send cfg conn peer _ data _ sending)).cons cfg conn peer hrx

theorem told_step {stage : Stage} {input : Input} {out : Stage × List (Effect Addr)}
    (hstep : Step cfg conn peer stage input out) :
    stage ≠ .ended ∧ Told cfg conn peer out := by
  cases hstep with
  | greet sending hserve =>
      refine ⟨nofun, ?_⟩
      unfold greet
      split
      · exact .inl ⟨nofun, nofun⟩
      · exact told_proceed cfg conn peer (by exact nofun) (goes_send cfg conn peer _ _ _ sending)
  | connect up res hforward =>
      refine ⟨nofun, ?_⟩
      unfold connect
      split
      · exact .inl ⟨nofun, nofun⟩
      · exact told_ended cfg conn peer (List.forall_mem_singleton.mpr (.error _ _ _)) _
  | read first res sending => exact ⟨nofun, told_read cfg conn peer first res sending⟩
  | pumpRx rx tx input out hpump =>
      exact ⟨nofun, told_join cfg conn peer _ _ (goes_pump cfg conn peer hpump)⟩
  | pumpTx rx tx input out hpump =>
      exact ⟨nofun, told_join cfg conn peer _ _ (goes_pump cfg conn peer hpump)⟩

/-- A step takes the id of its connection from live to the stage that the
task is in then, uses no other id and starts no task. -/
theorem step_uses {stage : Stage} {input : Input} {out : Stage × List (Effect Addr)}
    (hstep : Step cfg conn peer stage input out) :
    stage ≠ .ended ∧
      after .live (uses conn out.2) = some (if out.1 = .ended then .done else .live) ∧
      (∀ id, conn ≠ id → uses id out.2 = []) ∧ ∀ c q, .spawn c q ∉ out.2 := by
  obtain ⟨hstage, htold⟩ := told_step cfg conn peer hstep
  refine ⟨hstage, ?_⟩
  rcases htold with ⟨hon, hgoes⟩ | ⟨hend, before, why, hgoes, heq⟩
  · refine ⟨?_, fun id => (uses_goes conn hgoes id).1, fun c q hmem => nomatch hgoes _ hmem⟩
    rw [if_neg hon]
    exact after_used (uses_goes conn hgoes conn).2
  · refine ⟨?_, ?_, ?_⟩
    · rw [if_pos hend, heq, uses_append]
      exact after_extend (after_used (uses_goes conn hgoes conn).2)
        (by simp [use, Call.use, Lifecycle.Stage.next])
    · intro id hid
      rw [heq, uses_append, (uses_goes conn hgoes id).1 hid]
      simp [use, Call.use, hid]
    · intro c q hmem
      rw [heq, List.mem_append, List.mem_singleton] at hmem
      rcases hmem with hmem | hmem
      · exact nomatch hgoes _ hmem
      · cases hmem

end Tcp

end KirbLaSnoop
