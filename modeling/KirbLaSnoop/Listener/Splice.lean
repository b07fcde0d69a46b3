import Mathlib
import KirbLaSnoop.Lib.Transition
import KirbLaSnoop.Listener.Tcp

/-!
# The two directions of a splice

The two pumps of a splice take turns in any order. Seen from one direction
the other is not there: a run of the splice, restricted to the inputs and the
effects of a direction, is a run of that pump alone. A pump hands on what it
has read and logged, and nothing else.
-/

namespace KirbLaSnoop

namespace Effect

variable {Addr : Type*}

/-- The direction of a splice to which an effect belongs. -/
def lane : Effect Addr → Option Dir
  | .call (.data _ _ _ _ dir _ _) => some dir
  | .relayed _ dir _ => some dir
  | .shutdown _ dir => some dir
  | _ => none

def loggedFor (k : Key) : Effect Addr → List UInt8
  | .call c => c.bytesFor k
  | _ => []

def relayedFor (k : Key) : Effect Addr → List UInt8
  | .relayed conn dir bs => if (conn, dir) = k then bs else []
  | _ => []

def logged (k : Key) (es : List (Effect Addr)) : List UInt8 := es.flatMap (loggedFor k)

def delivered (k : Key) (es : List (Effect Addr)) : List UInt8 := es.flatMap (relayedFor k)

@[simp] theorem logged_append (k : Key) (es es' : List (Effect Addr)) :
    logged k (es ++ es') = logged k es ++ logged k es' := List.flatMap_append

@[simp] theorem delivered_append (k : Key) (es es' : List (Effect Addr)) :
    delivered k (es ++ es') = delivered k es ++ delivered k es' := List.flatMap_append

def along (dir : Dir) (es : List (Effect Addr)) : List (Effect Addr) :=
  es.filter fun e => e.lane = some dir

@[simp] theorem along_append (dir : Dir) (es es' : List (Effect Addr)) :
    along dir (es ++ es') = along dir es ++ along dir es' := List.filter_append ..

theorem along_cons_same {dir : Dir} {e : Effect Addr} (h : e.lane = some dir)
    (es : List (Effect Addr)) : along dir (e :: es) = e :: along dir es :=
  List.filter_cons_of_pos (decide_eq_true h)

theorem along_eq_self {dir : Dir} {es : List (Effect Addr)} (h : ∀ e ∈ es, e.lane = some dir) :
    along dir es = es := List.filter_eq_self.mpr fun e he => decide_eq_true (h e he)

theorem along_eq_nil {dir : Dir} {es : List (Effect Addr)} (h : ∀ e ∈ es, e.lane ≠ some dir) :
    along dir es = [] := List.filter_eq_nil_iff.mpr fun e he => by simpa using h e he

theorem mem_along {dir : Dir} {e : Effect Addr} {es : List (Effect Addr)}
    (h : e.lane = some dir) : e ∈ along dir es ↔ e ∈ es := by
  simp [along, h]

/-- What only the effects of a direction contribute to is found among them. -/
theorem flatMap_along {dir : Dir} {f : Effect Addr → List UInt8}
    (hf : ∀ e, e.lane ≠ some dir → f e = []) (es : List (Effect Addr)) :
    (along dir es).flatMap f = es.flatMap f := by
  induction es with
  | nil => rfl
  | cons e es ih =>
      by_cases he : e.lane = some dir
      · rw [along_cons_same he, List.flatMap_cons, List.flatMap_cons, ih]
      · have hcons : along dir (e :: es) = along dir es :=
          List.filter_cons_of_neg (by simpa using he)
        rw [hcons, List.flatMap_cons, ih, hf e he, List.nil_append]

theorem logged_along (conn : ℕ) (dir : Dir) (es : List (Effect Addr)) :
    logged (conn, dir) (along dir es) = logged (conn, dir) es := by
  refine flatMap_along (fun e he => ?_) es
  cases e with
  | call c =>
      cases c with
      | data proto name conn' peer dir' bs rule =>
          have hne : (conn', dir') ≠ (conn, dir) := fun h =>
            he (congrArg some (Prod.mk.inj h).2)
          exact if_neg hne
      | _ => rfl
  | _ => rfl

theorem delivered_along (conn : ℕ) (dir : Dir) (es : List (Effect Addr)) :
    delivered (conn, dir) (along dir es) = delivered (conn, dir) es := by
  refine flatMap_along (fun e he => ?_) es
  cases e with
  | relayed conn' dir' bs =>
      have hne : (conn', dir') ≠ (conn, dir) := fun h =>
        he (congrArg some (Prod.mk.inj h).2)
      exact if_neg hne
  | _ => rfl

end Effect

namespace Tcp

open Effect

variable {Addr : Type*} (cfg : Config Addr) (conn : ℕ) (peer : Addr)

/-- The direction of a splice for which an input is. -/
def Input.lane : Input → Option Dir
  | .pumpRead dir _ => some dir
  | .pumpWrite dir _ => some dir
  | _ => none

def Input.readFor (dir : Dir) : Input → List UInt8
  | .pumpRead dir' (.ok bs) => if dir' = dir then bs else []
  | _ => []

def bytesRead (dir : Dir) (acts : List Input) : List UInt8 := acts.flatMap (Input.readFor dir)

@[simp] theorem bytesRead_append (dir : Dir) (acts acts' : List Input) :
    bytesRead dir (acts ++ acts') = bytesRead dir acts ++ bytesRead dir acts' :=
  List.flatMap_append

def inputsFor (dir : Dir) (acts : List Input) : List Input :=
  acts.filter fun a => a.lane = some dir

theorem inputsFor_cons_same {dir : Dir} {a : Input} (h : a.lane = some dir) (acts : List Input) :
    inputsFor dir (a :: acts) = a :: inputsFor dir acts :=
  List.filter_cons_of_pos (decide_eq_true h)

theorem inputsFor_cons_ne {dir : Dir} {a : Input} (h : a.lane ≠ some dir) (acts : List Input) :
    inputsFor dir (a :: acts) = inputsFor dir acts :=
  List.filter_cons_of_neg (by simpa using h)

theorem bytesRead_inputsFor (dir : Dir) (acts : List Input) :
    bytesRead dir (inputsFor dir acts) = bytesRead dir acts := by
  induction acts with
  | nil => rfl
  | cons a acts ih =>
      by_cases ha : a.lane = some dir
      · rw [inputsFor_cons_same ha, bytesRead, List.flatMap_cons, ← bytesRead, ih]
        rfl
      · have hnone : a.readFor dir = [] := by
          unfold Input.readFor
          split
          · exact if_neg fun h => ha (congrArg some h)
          · trivial
        rw [inputsFor_cons_ne ha, ih, bytesRead, bytesRead, List.flatMap_cons, hnone,
          List.nil_append]

/-! ## A pump by itself -/

/-- A pump that does not know of the other. -/
def lane (dir : Dir) : Lts Pump Input (List (Effect Addr)) where
  step state input :=
    if input.lane = some dir then pump cfg conn peer dir state input else none

/-- What a pump can do. -/
inductive Pumps (dir : Dir) : Pump → Input → Pump → List (Effect Addr) → Prop
  | atEnd (res : Except String (List UInt8)) (hres : ∀ bs, res = .ok bs → bs = []) :
      Pumps dir .reading (.pumpRead dir res) .done [.shutdown conn dir]
  | took (bs : List UInt8) :
      Pumps dir .reading (.pumpRead dir (.ok bs)) (.writing bs)
        [.call (.data .tcp cfg.name conn (cfg.display peer) dir bs (some "forward"))]
  | failed (rest : List UInt8) (e : String) :
      Pumps dir (.writing rest) (.pumpWrite dir (.error e)) .done [.shutdown conn dir]
  | partly (rest : List UInt8) (n : ℕ) :
      Pumps dir (.writing rest) (.pumpWrite dir (.ok n)) (.writing (rest.drop n))
        [.relayed conn dir (rest.take n)]
  | wrote (rest : List UInt8) :
      Pumps dir (.writing rest) (.pumpWrite dir (.ok rest.length)) .reading
        [.relayed conn dir rest]

theorem lane_cases {dir : Dir} {p q : Pump} {a : Input} {es : List (Effect Addr)}
    (h : (lane cfg conn peer dir).step p a = some (q, es)) :
    a.lane = some dir ∧ Pumps cfg conn peer dir p a q es := by
  obtain ⟨hlane, hpump⟩ := Option.ite_none_right_eq_some.mp h
  refine ⟨hlane, ?_⟩
  unfold pump at hpump
  split at hpump
  · next dir' res =>
      obtain rfl := Option.some.inj hlane
      cases res with
      | error e =>
          obtain ⟨rfl, rfl⟩ := Prod.mk.inj (Option.some.inj hpump)
          exact .atEnd _ nofun
      | ok bs =>
          cases bs with
          | nil =>
              obtain ⟨rfl, rfl⟩ := Prod.mk.inj (Option.some.inj hpump)
              exact .atEnd _ fun bs hbs => (Except.ok.inj hbs).symm
          | cons b bs =>
              obtain ⟨rfl, rfl⟩ := Prod.mk.inj (Option.some.inj hpump)
              exact .took _
  · next rest dir' res =>
      obtain rfl := Option.some.inj hlane
      cases res with
      | error e =>
          obtain ⟨rfl, rfl⟩ := Prod.mk.inj (Option.some.inj hpump)
          exact .failed rest e
      | ok n =>
          unfold pumpWrite at hpump
          dsimp only at hpump
          split at hpump
          · obtain ⟨rfl, rfl⟩ := Prod.mk.inj (Option.some.inj hpump)
            exact .partly rest n
          · obtain ⟨rfl, hout⟩ := Option.ite_none_right_eq_some.mp hpump
            obtain ⟨rfl, rfl⟩ := Prod.mk.inj (Option.some.inj hout)
            exact .wrote rest
  · cases hpump

/-- What a pump has handed on, by its state. It shuts the far half down when
all is `shut`, and when a write has failed, which has `cut` it short and is the
last that the pump has done. -/
inductive Kept (dir : Dir) (acts : List Input) : Pump → List (Effect Addr) → Prop
  | reading {es : List (Effect Addr)} (hopen : .shutdown conn dir ∉ es)
      (hall : delivered (conn, dir) es = bytesRead dir acts) : Kept dir acts .reading es
  | writing {es : List (Effect Addr)} {rest : List UInt8} (hopen : .shutdown conn dir ∉ es)
      (hall : delivered (conn, dir) es ++ rest = bytesRead dir acts) :
      Kept dir acts (.writing rest) es
  | shut {es : List (Effect Addr)} (hopen : .shutdown conn dir ∉ es)
      (hall : delivered (conn, dir) es = bytesRead dir acts) :
      Kept dir acts .done (es ++ [.shutdown conn dir])
  | cut {es : List (Effect Addr)} {e : String}
      (hfail : acts.getLast? = some (.pumpWrite dir (.error e)))
      (hopen : .shutdown conn dir ∉ es)
      (hpart : delivered (conn, dir) es <+: bytesRead dir acts) :
      Kept dir acts .done (es ++ [.shutdown conn dir])

theorem delivered_shutdown (dir : Dir) (es : List (Effect Addr)) :
    delivered (conn, dir) (es ++ [.shutdown conn dir]) = delivered (conn, dir) es := by
  rw [delivered_append]
  exact List.append_nil _

theorem Kept.prefix {dir : Dir} {acts : List Input} {p : Pump} {es : List (Effect Addr)}
    (h : Kept conn dir acts p es) : delivered (conn, dir) es <+: bytesRead dir acts := by
  cases h with
  | reading hopen hall => exact hall ▸ List.prefix_rfl
  | writing hopen hall => exact hall ▸ List.prefix_append _ _
  | shut hopen hall => rw [delivered_shutdown, hall]
  | cut hfail hopen hpart =>
      rw [delivered_shutdown]
      exact hpart

/-- If the far half has been shut down, everything ever read in the direction
was handed on before, or else a write has just failed. -/
theorem Kept.before_shutdown {dir : Dir} {acts : List Input} {p : Pump}
    {pre post : List (Effect Addr)}
    (h : Kept conn dir acts p (pre ++ .shutdown conn dir :: post)) :
    delivered (conn, dir) pre = bytesRead dir acts ∨
      ∃ e, acts.getLast? = some (.pumpWrite dir (.error e)) := by
  have hmem : .shutdown conn dir ∈ pre ++ (.shutdown conn dir : Effect Addr) :: post :=
    List.mem_append_right pre List.mem_cons_self
  generalize hes : pre ++ (.shutdown conn dir : Effect Addr) :: post = es at h hmem
  cases h with
  | reading hopen => exact absurd hmem hopen
  | writing hopen => exact absurd hmem hopen
  | cut hfail hopen => exact .inr ⟨_, hfail⟩
  | shut hopen hall =>
      obtain ⟨rfl, -, -⟩ :=
        (List.append_cons_inj_of_notMem hopen (List.not_mem_nil)).mp hes.symm
      exact .inl hall

theorem Kept.shutdown_mem {dir : Dir} {acts : List Input} {es : List (Effect Addr)}
    (h : Kept conn dir acts .done es) : .shutdown conn dir ∈ es := by
  cases h with
  | shut hopen hall => exact List.mem_append_right _ List.mem_cons_self
  | cut hfail hopen hpart => exact List.mem_append_right _ List.mem_cons_self

theorem Kept.complete {dir : Dir} {acts : List Input} {es : List (Effect Addr)}
    (h : Kept conn dir acts .done es) (hwrites : ∀ e, .pumpWrite dir (.error e) ∉ acts) :
    delivered (conn, dir) es = bytesRead dir acts := by
  cases h with
  | shut hopen hall => rw [delivered_shutdown, hall]
  | cut hfail hopen hpart => exact absurd (List.mem_of_getLast? hfail) (hwrites _)

theorem Kept.step {dir : Dir} {acts : List Input} {p q : Pump} {a : Input}
    {es es' : List (Effect Addr)} (h : Kept conn dir acts p es)
    (hpump : Pumps cfg conn peer dir p a q es') : Kept conn dir (acts ++ [a]) q (es ++ es') := by
  cases hpump with
  | atEnd res hres =>
      cases h with
      | reading hopen hall =>
          refine .shut hopen ?_
          have hnothing : bytesRead dir [.pumpRead dir res] = [] := by
            cases res with
            | error e => rfl
            | ok bs =>
                obtain rfl := hres bs rfl
                simp [bytesRead, Input.readFor]
          rw [bytesRead_append, hnothing, List.append_nil, hall]
  | took bs =>
      cases h with
      | reading hopen hall =>
          refine .writing (by simp [hopen]) ?_
          rw [delivered_append, bytesRead_append, hall]
          simp [delivered, relayedFor, bytesRead, Input.readFor]
  | failed rest e =>
      cases h with
      | writing hopen hall =>
          refine .cut (e := e) (by simp) hopen ?_
          rw [bytesRead_append, ← hall, List.append_assoc]
          exact List.prefix_append _ _
  | partly rest n =>
      cases h with
      | writing hopen hall =>
          refine .writing (by simp [hopen]) ?_
          rw [delivered_append, bytesRead_append, ← hall]
          simp [delivered, relayedFor, bytesRead, Input.readFor]
  | wrote rest =>
      cases h with
      | writing hopen hall =>
          refine .reading (by simp [hopen]) ?_
          rw [delivered_append, bytesRead_append, ← hall]
          simp [delivered, relayedFor, bytesRead, Input.readFor]

theorem logged_pumps {dir : Dir} {p q : Pump} {a : Input} {es : List (Effect Addr)}
    (h : Pumps cfg conn peer dir p a q es) : logged (conn, dir) es = bytesRead dir [a] := by
  cases h with
  | atEnd res hres =>
      cases res with
      | error e => rfl
      | ok bs =>
          obtain rfl := hres bs rfl
          simp [logged, loggedFor, bytesRead, Input.readFor]
  | took bs => simp [logged, loggedFor, Call.bytesFor, bytesRead, Input.readFor]
  | _ => rfl

theorem lane_run {dir : Dir} {acts : List Input} {p : Pump} {tr : List (List (Effect Addr))}
    (hrun : (lane cfg conn peer dir).run .reading acts = some (p, tr)) :
    logged (conn, dir) tr.flatten = bytesRead dir acts ∧ Kept conn dir acts p tr.flatten := by
  refine (lane cfg conn peer dir).run_induction
    (fun as u os => logged (conn, dir) os.flatten = bytesRead dir as ∧
      Kept conn dir as u os.flatten) ⟨rfl, .reading List.not_mem_nil rfl⟩ ?_ hrun
  rintro as a rest u os v o - - ⟨hlogged, hkept⟩ hstep
  obtain ⟨-, hpumps⟩ := lane_cases cfg conn peer hstep
  rw [List.flatten_append, List.flatten_singleton]
  refine ⟨?_, hkept.step cfg conn peer hpumps⟩
  rw [logged_append, bytesRead_append, hlogged, logged_pumps cfg conn peer hpumps]

/-! ## The two of them -/

def Stage.pump (stage : Stage) (dir : Dir) : Pump :=
  match stage, dir with
  | .splicing rx _, .rx => rx
  | .splicing _ tx, .tx => tx
  | .ended, _ => .done
  | _, _ => .reading

/-- The upstream has answered, or the task has ended. -/
inductive Stage.Spliced : Stage → Prop
  | splicing (rx tx : Pump) : Spliced (.splicing rx tx)
  | ended : Spliced .ended

/-- The task after the pump of `dir` has had its turn. -/
def Stage.taking (stage : Stage) (dir : Dir) (out : Pump × List (Effect Addr)) :
    Stage × List (Effect Addr) :=
  match dir with
  | .rx => join cfg conn peer out.1 (stage.pump .tx) out.2
  | .tx => join cfg conn peer (stage.pump .rx) out.1 out.2

theorem handle_splicing (rx tx : Pump) (a : Input) :
    handle cfg conn peer (.splicing rx tx) a =
      (pump cfg conn peer a.dir ((Stage.splicing rx tx).pump a.dir) a).map
        ((Stage.splicing rx tx).taking cfg conn peer a.dir) := by
  simp only [handle]
  cases a.dir <;> rfl

theorem join_pump (rx tx : Pump) (es : List (Effect Addr)) (dir : Dir) :
    (join cfg conn peer rx tx es).1.pump dir = (Stage.splicing rx tx).pump dir := by
  unfold join
  split
  · next h =>
      obtain ⟨rfl, rfl⟩ := h
      cases dir <;> rfl
  · trivial

theorem join_spliced (rx tx : Pump) (es : List (Effect Addr)) :
    (join cfg conn peer rx tx es).1.Spliced := by
  unfold join
  split
  · exact .ended
  · exact .splicing _ _

/-- What is logged at the end belongs to neither direction. -/
theorem along_join (rx tx : Pump) (es : List (Effect Addr)) (dir : Dir) :
    along dir (join cfg conn peer rx tx es).2 = along dir es := by
  unfold join
  split
  · rw [along_append]
    exact List.append_nil _
  · trivial

theorem taking_pump_self (stage : Stage) (dir : Dir) (out : Pump × List (Effect Addr)) :
    (stage.taking cfg conn peer dir out).1.pump dir = out.1 := by
  cases dir <;> exact join_pump cfg conn peer _ _ _ _

theorem taking_pump_ne (stage : Stage) {dir dir' : Dir} (h : dir' ≠ dir)
    (out : Pump × List (Effect Addr)) :
    (stage.taking cfg conn peer dir out).1.pump dir' = stage.pump dir' := by
  cases dir <;> cases dir' <;> first | exact absurd rfl h | exact join_pump cfg conn peer _ _ _ _

theorem along_taking (stage : Stage) (dir dir' : Dir) (out : Pump × List (Effect Addr)) :
    along dir' (stage.taking cfg conn peer dir out).2 = along dir' out.2 := by
  cases dir <;> exact along_join cfg conn peer _ _ _ _

theorem taking_spliced (stage : Stage) (dir : Dir) (out : Pump × List (Effect Addr)) :
    (stage.taking cfg conn peer dir out).1.Spliced := by
  cases dir <;> exact join_spliced cfg conn peer _ _ _

theorem pump_lane {p : Pump} {a : Input} {out : Pump × List (Effect Addr)}
    (h : pump cfg conn peer a.dir p a = some out) : a.lane = some a.dir := by
  unfold pump at h
  split at h
  · rfl
  · rfl
  · cases h

theorem along_pump {dir : Dir} {p q : Pump} {a : Input} {es : List (Effect Addr)}
    (h : Pumps cfg conn peer dir p a q es) : ∀ e ∈ es, e.lane = some dir := by
  cases h <;> exact List.forall_mem_singleton.mpr rfl

/-- A step of a splice is the step of one pump. -/
theorem splice_step {stage : Stage} {a : Input} {out : Stage × List (Effect Addr)}
    (hspliced : stage.Spliced) (h : (lts cfg conn peer).step stage a = some out) :
    ∃ dir q es, a.lane = some dir ∧
      (lane cfg conn peer dir).step (stage.pump dir) a = some (q, es) ∧
      out = stage.taking cfg conn peer dir (q, es) := by
  cases hspliced with
  | ended => cases h
  | splicing rx tx =>
      obtain ⟨⟨q, es⟩, hpump, rfl⟩ :=
        Option.map_eq_some_iff.mp ((handle_splicing cfg conn peer rx tx a).symm.trans h)
      have hlane := pump_lane cfg conn peer hpump
      exact ⟨a.dir, q, es, hlane, (if_pos hlane).trans hpump, rfl⟩

/-- Whatever a pump can do by itself it can do beside the other. -/
theorem splice_enabled {stage : Stage} {dir : Dir} {a : Input} {q : Pump}
    {es : List (Effect Addr)} (hspliced : stage.Spliced)
    (h : (lane cfg conn peer dir).step (stage.pump dir) a = some (q, es)) :
    (lts cfg conn peer).step stage a = some (stage.taking cfg conn peer dir (q, es)) := by
  obtain ⟨hlane, hpump⟩ := Option.ite_none_right_eq_some.mp h
  have hdir : a.dir = dir := by
    cases a with
    | pumpRead dir' res => exact Option.some.inj hlane
    | pumpWrite dir' res => exact Option.some.inj hlane
    | _ => cases hlane
  subst hdir
  cases hspliced with
  | ended => cases hpump
  | splicing rx tx =>
      refine (handle_splicing cfg conn peer rx tx a).trans ?_
      rw [hpump]
      rfl

/-- The run of a splice, seen from one direction. -/
theorem splice_run {stage stage' : Stage} {acts : List Input} {tr : List (List (Effect Addr))}
    (hspliced : stage.Spliced) (hrun : (lts cfg conn peer).run stage acts = some (stage', tr))
    (dir : Dir) :
    stage'.Spliced ∧ ∃ ptr, (lane cfg conn peer dir).run (stage.pump dir) (inputsFor dir acts) =
      some (stage'.pump dir, ptr) ∧ ptr.flatten = along dir tr.flatten := by
  induction acts generalizing stage tr with
  | nil =>
      obtain ⟨rfl, rfl⟩ := (lts cfg conn peer).run_nil_eq_some.mp hrun
      exact ⟨hspliced, [], rfl, rfl⟩
  | cons a acts ih =>
      obtain ⟨u, es, os, hstep, hrest, rfl⟩ := (lts cfg conn peer).run_cons_eq_some.mp hrun
      obtain ⟨dir', q, es', hlane, hpump, hout⟩ := splice_step cfg conn peer hspliced hstep
      obtain rfl : u = (stage.taking cfg conn peer dir' (q, es')).1 := congrArg Prod.fst hout
      obtain rfl : es = (stage.taking cfg conn peer dir' (q, es')).2 := congrArg Prod.snd hout
      obtain ⟨hspliced', ptr, hptr, hflat⟩ := ih (taking_spliced cfg conn peer _ _ _) hrest
      refine ⟨hspliced', ?_⟩
      have hes := along_pump cfg conn peer (lane_cases cfg conn peer hpump).2
      rw [List.flatten_cons, along_append, along_taking]
      by_cases hdir : dir = dir'
      · subst hdir
        rw [taking_pump_self] at hptr
        rw [inputsFor_cons_same hlane, along_eq_self hes, ← hflat]
        exact ⟨es' :: ptr, (lane cfg conn peer dir).run_cons_eq_some.mpr
          ⟨q, es', ptr, hpump, hptr, rfl⟩, rfl⟩
      · have hne : a.lane ≠ some dir := fun h => hdir (Option.some.inj (h.symm.trans hlane))
        rw [taking_pump_ne cfg conn peer stage hdir] at hptr
        rw [inputsFor_cons_ne hne, along_eq_nil fun e he h =>
          hdir (Option.some.inj (h.symm.trans (hes e he)))]
        exact ⟨ptr, hptr, hflat⟩

theorem splice_kept {stage : Stage} {acts : List Input} {tr : List (List (Effect Addr))}
    (hrun : (lts cfg conn peer).run (.splicing .reading .reading) acts = some (stage, tr))
    (dir : Dir) :
    logged (conn, dir) tr.flatten = bytesRead dir acts ∧
      Kept conn dir (inputsFor dir acts) (stage.pump dir) (along dir tr.flatten) := by
  obtain ⟨-, ptr, hptr, hflat⟩ := splice_run cfg conn peer (.splicing _ _) hrun dir
  have hstart : (Stage.splicing .reading .reading).pump dir = .reading := by
    cases dir <;> rfl
  rw [hstart] at hptr
  obtain ⟨hlogged, hkept⟩ := lane_run cfg conn peer hptr
  rw [hflat] at hlogged hkept
  rw [logged_along, bytesRead_inputsFor] at hlogged
  exact ⟨hlogged, hkept⟩

/-- A direction that is over has shut the far half down. -/
theorem splice_half_closes {stage : Stage} {acts : List Input} {tr : List (List (Effect Addr))}
    (hrun : (lts cfg conn peer).run (.splicing .reading .reading) acts = some (stage, tr))
    {dir : Dir} (hdone : stage.pump dir = .done) : .shutdown conn dir ∈ tr.flatten := by
  have hkept := (splice_kept cfg conn peer hrun dir).2
  rw [hdone] at hkept
  exact (mem_along rfl).mp hkept.shutdown_mem

/-- The task of a connection that is forwarded: as long as the upstream has
not answered nothing is read, and after that the pumps run. -/
theorem forward_run {up : String} (hforward : cfg.upstream = some up) {stage : Stage}
    {acts : List Input} {tr : List (List (Effect Addr))}
    (hrun : (lts cfg conn peer).run .start acts = some (stage, tr)) :
    (.connect (.ok ()) ∉ acts ∧ ∀ dir, bytesRead dir acts = [] ∧ along dir tr.flatten = []) ∨
      ∃ rest os, acts = .connect (.ok ()) :: rest ∧ tr = [] :: os ∧
        (lts cfg conn peer).run (.splicing .reading .reading) rest = some (stage, os) := by
  cases acts with
  | nil =>
      obtain ⟨rfl, rfl⟩ := (lts cfg conn peer).run_nil_eq_some.mp hrun
      exact .inl ⟨List.not_mem_nil, fun _ => ⟨rfl, rfl⟩⟩
  | cons a acts =>
      obtain ⟨u, es, os, hstep, hrest, rfl⟩ := (lts cfg conn peer).run_cons_eq_some.mp hrun
      have hcases := step_cases cfg conn peer hstep
      generalize hout : (u, es) = out at hcases
      cases hcases with
      | greet sending hserve => cases hserve.symm.trans hforward
      | connect up' res =>
          cases res with
          | ok _ =>
              obtain ⟨rfl, rfl⟩ := Prod.mk.inj hout
              exact .inr ⟨acts, os, rfl, rfl, hrest⟩
          | error e =>
              obtain ⟨rfl, rfl⟩ := Prod.mk.inj hout
              cases acts with
              | nil =>
                  obtain ⟨rfl, rfl⟩ := (lts cfg conn peer).run_nil_eq_some.mp hrest
                  refine .inl ⟨by simp, fun _ => ⟨rfl, rfl⟩⟩
              | cons b acts =>
                  obtain ⟨v, es, os, hnext, -, -⟩ :=
                    (lts cfg conn peer).run_cons_eq_some.mp hrest
                  cases hnext

/-- Forwarding is transparent. In each direction, whatever the other does and
whatever the sizes of reads and writes: what reached the far side is a prefix
of what was logged, which is what was read; the far half is shut down when all
that was read has been written, or by a write that fails, which is the last
thing the direction does; the pump does what it would do alone, and what it can
do alone it can do here; and when the direction is over all is written, unless
a write failed. -/
theorem forward_transparent {up : String} (hforward : cfg.upstream = some up) {stage : Stage}
    {acts : List Input} {tr : List (List (Effect Addr))}
    (hrun : (lts cfg conn peer).run .start acts = some (stage, tr)) (dir : Dir) :
    delivered (conn, dir) tr.flatten <+: logged (conn, dir) tr.flatten ∧
      logged (conn, dir) tr.flatten = bytesRead dir acts ∧
      (∀ pre post, tr.flatten = pre ++ .shutdown conn dir :: post →
        delivered (conn, dir) pre = bytesRead dir acts ∨
          ∃ e, (inputsFor dir acts).getLast? = some (.pumpWrite dir (.error e))) ∧
      (.connect (.ok ()) ∈ acts →
        (∃ ptr, (lane cfg conn peer dir).run .reading (inputsFor dir acts) =
          some (stage.pump dir, ptr) ∧ ptr.flatten = along dir tr.flatten) ∧
        ∀ a q es, (lane cfg conn peer dir).step (stage.pump dir) a = some (q, es) →
          ∃ out, (lts cfg conn peer).step stage a = some out ∧ out.1.pump dir = q ∧
            along dir out.2 = es) ∧
      (stage = .ended ∨ stage.pump dir = .done → (∀ e, .pumpWrite dir (.error e) ∉ acts) →
        delivered (conn, dir) tr.flatten = logged (conn, dir) tr.flatten) := by
  rcases forward_run cfg conn peer hforward hrun with
    ⟨hoffline, hnothing⟩ | ⟨rest, os, rfl, rfl, hsplice⟩
  · obtain ⟨hread, halong⟩ := hnothing dir
    have hlogged : logged (conn, dir) tr.flatten = [] := by
      rw [← logged_along, halong]
      rfl
    have hdelivered : delivered (conn, dir) tr.flatten = [] := by
      rw [← delivered_along, halong]
      rfl
    rw [hlogged, hdelivered, hread]
    refine ⟨List.prefix_rfl, rfl, fun pre post hes => ?_, fun h => absurd h hoffline,
      fun _ _ => rfl⟩
    have hmem : (.shutdown conn dir : Effect Addr) ∈ along dir tr.flatten :=
      (mem_along rfl).mpr (hes ▸ List.mem_append_right pre List.mem_cons_self)
    rw [halong] at hmem
    cases hmem
  · obtain ⟨hspliced, ptr, hptr, hflat⟩ :=
      splice_run cfg conn peer (.splicing .reading .reading) hsplice dir
    obtain ⟨hlogged, hkept⟩ := splice_kept cfg conn peer hsplice dir
    have hstart : (Stage.splicing .reading .reading).pump dir = .reading := by
      cases dir <;> rfl
    have hinputs : inputsFor dir (.connect (.ok ()) :: rest) = inputsFor dir rest :=
      inputsFor_cons_ne (by simp [Input.lane]) rest
    have hread : bytesRead dir (.connect (.ok ()) :: rest) = bytesRead dir rest := rfl
    have htrace : ([] :: os).flatten = os.flatten := rfl
    rw [hinputs, hread, htrace]
    refine ⟨?_, hlogged, ?_, fun _ => ⟨⟨ptr, hstart ▸ hptr, hflat⟩, ?_⟩, ?_⟩
    · rw [hlogged, ← delivered_along, ← bytesRead_inputsFor]
      exact hkept.prefix
    · intro pre post hes
      rw [hes, along_append, along_cons_same rfl] at hkept
      rw [← delivered_along, ← bytesRead_inputsFor]
      exact hkept.before_shutdown conn
    · intro a q es hstep
      refine ⟨_, splice_enabled cfg conn peer hspliced hstep, ?_, ?_⟩
      · exact taking_pump_self cfg conn peer _ _ _
      · rw [along_taking]
        exact along_eq_self (along_pump cfg conn peer (lane_cases cfg conn peer hstep).2)
    · intro hover hwrites
      have hdone : stage.pump dir = .done := hover.elim (fun h => h ▸ rfl) id
      rw [hdone] at hkept
      rw [hlogged, ← delivered_along, ← bytesRead_inputsFor]
      refine hkept.complete conn fun e he => hwrites e ?_
      exact List.mem_cons_of_mem _ (List.mem_filter.mp he).1

/-- The client sends three bytes and half-closes; the first write is a short
one, and part of the answer comes after that. -/
theorem forward_transparent_half_close :
    let cfg : Config ℕ := ⟨"t", "l", none, some "up", toString⟩
    let acts : List Input :=
      [.connect (.ok ()), .pumpRead .rx (.ok [1, 2, 3]), .pumpWrite .rx (.ok 1),
        .pumpRead .tx (.ok [7]), .pumpWrite .rx (.ok 2), .pumpRead .rx (.ok []),
        .pumpWrite .tx (.ok 1), .pumpRead .tx (.ok [8]), .pumpWrite .tx (.ok 1),
        .pumpRead .tx (.error "reset")]
    ∃ tr, (lts cfg 1 9).run .start acts = some (.ended, tr) ∧
      delivered (1, .tx) tr.flatten = logged (1, .tx) tr.flatten ∧
      delivered (1, .tx) tr.flatten = [7, 8] := by
  intro cfg acts
  have hup : cfg.upstream = some "up" := rfl
  refine ⟨_, rfl, ?_, by decide +kernel⟩
  obtain ⟨-, -, -, -, hall⟩ := @forward_transparent ℕ cfg 1 9 _ hup _ acts _ rfl .tx
  exact hall (.inl rfl) (by simp [acts])

/-- The client sends two bytes and the write to the upstream fails: the far half
is shut down, and neither byte was handed on. -/
theorem not_shutdown_after_all :
    ¬∀ (cfg : Config ℕ) (conn peer : ℕ) (up : String), cfg.upstream = some up →
      ∀ (acts : List Input) (stage : Stage) (tr : List (List (Effect ℕ))),
        (lts cfg conn peer).run .start acts = some (stage, tr) → ∀ (dir : Dir) pre post,
          tr.flatten = pre ++ .shutdown conn dir :: post →
            delivered (conn, dir) pre = bytesRead dir acts := by
  intro h
  have hpre := h ⟨"t", "l", none, some "up", toString⟩ 1 9 "up" rfl
    [.connect (.ok ()), .pumpRead .rx (.ok [1, 2]), .pumpWrite .rx (.error "broken pipe")] _ _ rfl
    .rx [.call (.data .tcp "t" 1 "9" .rx [1, 2] (some "forward"))] [] rfl
  exact absurd hpre (by decide)

end Tcp

end KirbLaSnoop
