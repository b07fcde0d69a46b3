import Mathlib

/-!
# Labelled transition systems and their runs

A step function takes a state and an action; it either refuses the action or
returns the next state with one observation. Everything nondeterministic is
in the action, so a run is a list of actions and its trace is the list of
observations, oldest first.
-/

namespace KirbLaSnoop

/-- A partial step function with an observation for every step. -/
structure Lts (σ α ω : Type*) where
  step : σ → α → Option (σ × ω)

namespace Lts

variable {σ α ω : Type*} (m : Lts σ α ω)

/-- Perform the actions in order; `none` as soon as one of them is refused. -/
def run : σ → List α → Option (σ × List ω)
  | s, [] => some (s, [])
  | s, a :: as => (m.step s a).bind fun p => (run p.1 as).map fun q => (q.1, p.2 :: q.2)

@[simp] theorem run_nil (s : σ) : m.run s [] = some (s, []) := rfl

theorem run_nil_eq_some {s t : σ} {tr : List ω} :
    m.run s [] = some (t, tr) ↔ s = t ∧ [] = tr := by
  rw [run_nil, Option.some.injEq, Prod.mk.injEq]

theorem run_cons_eq_some {s t : σ} {a : α} {as : List α} {tr : List ω} :
    m.run s (a :: as) = some (t, tr) ↔
      ∃ u o os, m.step s a = some (u, o) ∧ m.run u as = some (t, os) ∧ tr = o :: os := by
  constructor
  · intro h
    obtain ⟨⟨u, o⟩, hstep, h⟩ := Option.bind_eq_some_iff.mp h
    obtain ⟨⟨v, os⟩, hrun, h⟩ := Option.map_eq_some_iff.mp h
    simp only [Prod.mk.injEq] at h
    obtain ⟨rfl, rfl⟩ := h
    exact ⟨u, o, os, hstep, hrun, rfl⟩
  · rintro ⟨u, o, os, hstep, hrun, rfl⟩
    simp [run, hstep, hrun]

theorem run_append_eq_some {s t : σ} {as bs : List α} {tr : List ω} :
    m.run s (as ++ bs) = some (t, tr) ↔
      ∃ u os ps, m.run s as = some (u, os) ∧ m.run u bs = some (t, ps) ∧ tr = os ++ ps := by
  induction as generalizing s tr with
  | nil =>
      constructor
      · intro h
        exact ⟨s, [], tr, rfl, h, rfl⟩
      · rintro ⟨u, os, ps, h, hrun, rfl⟩
        obtain ⟨rfl, rfl⟩ := m.run_nil_eq_some.mp h
        exact hrun
  | cons a as ih =>
      rw [List.cons_append, run_cons_eq_some]
      constructor
      · rintro ⟨u, o, os, hstep, hrun, rfl⟩
        obtain ⟨v, ps, qs, has, hbs, rfl⟩ := ih.mp hrun
        exact ⟨v, o :: ps, qs, m.run_cons_eq_some.mpr ⟨u, o, ps, hstep, has, rfl⟩, hbs, rfl⟩
      · rintro ⟨v, os, qs, has, hbs, rfl⟩
        obtain ⟨u, o, ps, hstep, hrun, rfl⟩ := m.run_cons_eq_some.mp has
        exact ⟨u, o, ps ++ qs, hstep, ih.mpr ⟨v, ps, qs, hrun, hbs, rfl⟩, rfl⟩

theorem run_singleton_eq_some {s t : σ} {a : α} {tr : List ω} :
    m.run s [a] = some (t, tr) ↔ ∃ o, m.step s a = some (t, o) ∧ tr = [o] := by
  rw [run_cons_eq_some]
  constructor
  · rintro ⟨u, o, os, hstep, hrun, rfl⟩
    obtain ⟨rfl, rfl⟩ := m.run_nil_eq_some.mp hrun
    exact ⟨o, hstep, rfl⟩
  · rintro ⟨o, hstep, rfl⟩
    exact ⟨t, o, [], hstep, rfl, rfl⟩

/-- The step that made an observation, with the runs before and after it. -/
theorem run_split {s t : σ} {acts : List α} {pre post : List ω} {o : ω}
    (h : m.run s acts = some (t, pre ++ o :: post)) :
    ∃ as a rest u v, acts = as ++ a :: rest ∧ m.run s as = some (u, pre) ∧
      m.step u a = some (v, o) ∧ m.run v rest = some (t, post) := by
  induction pre generalizing s acts with
  | nil =>
      cases acts with
      | nil => cases (m.run_nil_eq_some.mp h).2
      | cons a rest =>
          obtain ⟨v, o', os, hstep, hrun, hos⟩ := m.run_cons_eq_some.mp h
          obtain ⟨rfl, rfl⟩ := List.cons.inj hos
          exact ⟨[], a, rest, s, v, rfl, rfl, hstep, hrun⟩
  | cons p pre ih =>
      cases acts with
      | nil => cases (m.run_nil_eq_some.mp h).2
      | cons a acts =>
          obtain ⟨v, o', os, hstep, hrun, hos⟩ := m.run_cons_eq_some.mp h
          obtain ⟨rfl, rfl⟩ := List.cons.inj hos
          obtain ⟨as, b, rest, u, w, rfl, has, hb, hrest⟩ := ih hrun
          exact ⟨a :: as, b, rest, u, w, rfl, m.run_cons_eq_some.mpr ⟨v, _, _, hstep, has, rfl⟩,
            hb, hrest⟩

/-- The induction rule for runs. The invariant may speak of the actions taken
and of the trace left so far, besides the state; a step may use that its
action is one of the whole run. -/
theorem run_induction {s : σ} {acts : List α} (I : List α → σ → List ω → Prop) (hinit : I [] s [])
    (hstep : ∀ as a rest u os v o, acts = as ++ a :: rest → m.run s as = some (u, os) →
      I as u os → m.step u a = some (v, o) → I (as ++ [a]) v (os ++ [o]))
    {t : σ} {tr : List ω} (h : m.run s acts = some (t, tr)) : I acts t tr := by
  suffices hall : ∀ as, as <+: acts → ∀ t tr, m.run s as = some (t, tr) → I as t tr from
    hall acts List.prefix_rfl t tr h
  intro as
  induction as using List.reverseRecOn with
  | nil =>
      intro _ t tr h
      obtain ⟨rfl, rfl⟩ := m.run_nil_eq_some.mp h
      exact hinit
  | append_singleton as a ih =>
      rintro ⟨rest, hrest⟩ t tr h
      obtain ⟨u, os, ps, has, ha, rfl⟩ := m.run_append_eq_some.mp h
      obtain ⟨o, hs, rfl⟩ := m.run_singleton_eq_some.mp ha
      have hacts : acts = as ++ a :: rest := by
        rw [← hrest, List.append_assoc, List.singleton_append]
      exact hstep as a rest u os t o hacts has (ih ⟨a :: rest, hacts.symm⟩ u os has) hs

/-- A property of states that holds at the start and survives every step
holds after every run. -/
theorem run_invariant {s : σ} (I : σ → Prop) (hinit : I s)
    (hstep : ∀ u a v o, I u → m.step u a = some (v, o) → I v)
    {as : List α} {t : σ} {tr : List ω} (h : m.run s as = some (t, tr)) : I t :=
  m.run_induction (fun _ u _ => I u) hinit (fun _ a _ u _ v o _ _ hu hs => hstep u a v o hu hs) h

/-- A property of single observations, given an invariant of the states in
which they are made, holds of every observation of a run. -/
theorem run_forall_mem {s : σ} (I : σ → Prop) (P : ω → Prop) (hinit : I s)
    (hstep : ∀ u a v o, I u → m.step u a = some (v, o) → I v ∧ P o)
    {as : List α} {t : σ} {tr : List ω} (h : m.run s as = some (t, tr)) :
    ∀ o ∈ tr, P o := by
  refine (m.run_induction (fun _ u os => I u ∧ ∀ o ∈ os, P o) ⟨hinit, by simp⟩ ?_ h).2
  intro _ a _ u os v o _ _ hu hs
  obtain ⟨hv, ho⟩ := hstep u a v o hu.1 hs
  refine ⟨hv, fun o' ho' => ?_⟩
  rcases List.mem_append.mp ho' with ho' | ho'
  · exact hu.2 o' ho'
  · rw [List.mem_singleton.mp ho']
    exact ho

section Measure

variable (I : σ → Prop) (f : σ → ℕ) (g : ω → ℕ)

/-- A measure of the states that no step makes less, and that every step shows
in its observation. -/
def Shows : Prop :=
  ∀ u a v o, I u → m.step u a = some (v, o) → I v ∧ f u ≤ f v ∧ g o = f v

variable {m I f g}

theorem Shows.le_final (h : m.Shows I f g) {s t : σ} {acts : List α} {tr : List ω} (hs : I s)
    (hrun : m.run s acts = some (t, tr)) : ∀ o ∈ tr, g o ≤ f t := by
  refine (m.run_induction (fun _ u os => I u ∧ ∀ o ∈ os, g o ≤ f u) ⟨hs, by simp⟩ ?_ hrun).2
  rintro _ a _ u os v o _ _ ⟨hu, hos⟩ hstep
  obtain ⟨hv, hle, ho⟩ := h u a v o hu hstep
  refine ⟨hv, fun o' ho' => ?_⟩
  rcases List.mem_append.mp ho' with ho' | ho'
  · exact (hos o' ho').trans hle
  · rw [List.mem_singleton.mp ho', ho]

/-- As long as the measure is zero, so is everything that was observed. -/
theorem Shows.zero_iff (h : m.Shows I f g) {s u : σ} {acts : List α} {tr : List ω} (hs : I s)
    (hzero : f s = 0) (hrun : m.run s acts = some (u, tr)) :
    I u ∧ (f u = 0 ↔ ∀ o ∈ tr, g o = 0) := by
  refine m.run_induction (fun _ u os => I u ∧ (f u = 0 ↔ ∀ o ∈ os, g o = 0))
    ⟨hs, by simpa using hzero⟩ ?_ hrun
  rintro _ a _ u os v o _ _ ⟨hu, hos⟩ hstep
  obtain ⟨hv, hle, ho⟩ := h u a v o hu hstep
  refine ⟨hv, ?_⟩
  rw [List.forall_mem_append, List.forall_mem_singleton, ho, ← hos]
  omega

/-- The first observation above zero is made by the step that takes the
measure there. -/
theorem Shows.isLeast_iff (h : m.Shows I f g) {s u v : σ} {as : List α} {a : α}
    {pre post : List ω} {o : ω} (hs : I s) (hzero : f s = 0) (hrun : m.run s as = some (u, pre))
    (hstep : m.step u a = some (v, o)) :
    IsLeast {j | ∃ o', (pre ++ o :: post)[j]? = some o' ∧ 0 < g o'} pre.length ↔
      f u = 0 ∧ 0 < f v := by
  obtain ⟨hu, hpre⟩ := h.zero_iff hs hzero hrun
  obtain ⟨-, -, ho⟩ := h u a v o hu hstep
  have hhere : (pre ++ o :: post)[pre.length]? = some o := by simp
  rw [hpre]
  constructor
  · rintro ⟨⟨o', ho', hpos⟩, hleast⟩
    cases hhere.symm.trans ho'
    refine ⟨fun o' hmem => ?_, ho ▸ hpos⟩
    obtain ⟨j, hj, rfl⟩ := List.mem_iff_getElem.mp hmem
    by_contra hne
    refine Nat.not_le.mpr hj (hleast ⟨pre[j], ?_, Nat.pos_of_ne_zero hne⟩)
    rw [List.getElem?_append_left hj, List.getElem?_eq_getElem hj]
  · rintro ⟨hall, hpos⟩
    refine ⟨⟨o, hhere, ho ▸ hpos⟩, ?_⟩
    rintro j ⟨o', ho', hpos'⟩
    by_contra hlt
    rw [List.getElem?_append_left (Nat.not_le.mp hlt)] at ho'
    exact Nat.ne_of_gt hpos' (hall o' (List.mem_of_getElem? ho'))

end Measure

/-- Every step of the run that takes `acts` from `s` meets the condition `C`,
which may look back at the actions before it. -/
def Throughout (s : σ) (acts : List α) (C : List α → σ → α → Prop) : Prop :=
  ∀ as a rest u tr, acts = as ++ a :: rest → m.run s as = some (u, tr) → C as u a

theorem throughout_nil (s : σ) (C : List α → σ → α → Prop) : m.Throughout s [] C := by
  intro as a rest u tr hacts _
  exact absurd hacts.symm (List.append_ne_nil_of_right_ne_nil as (List.cons_ne_nil a rest))

theorem throughout_cons (s : σ) (a : α) (acts : List α) (C : List α → σ → α → Prop)
    (ha : C [] s a)
    (hrest : ∀ u o, m.step s a = some (u, o) → m.Throughout u acts fun as => C (a :: as)) :
    m.Throughout s (a :: acts) C := by
  intro as b rest u tr hacts hrun
  cases as with
  | nil =>
      obtain ⟨rfl, rfl⟩ := List.cons.inj hacts
      obtain ⟨rfl, rfl⟩ := m.run_nil_eq_some.mp hrun
      exact ha
  | cons a' as =>
      obtain ⟨rfl, htail⟩ := List.cons.inj hacts
      obtain ⟨v, o, os, hs, has, rfl⟩ := m.run_cons_eq_some.mp hrun
      exact hrest v o hs as b rest u os htail has

theorem throughout_cons_of_step {s u : σ} {a : α} {o : ω} {acts : List α}
    {C : List α → σ → α → Prop} (hstep : m.step s a = some (u, o)) (ha : C [] s a)
    (hrest : m.Throughout u acts fun as => C (a :: as)) : m.Throughout s (a :: acts) C := by
  refine m.throughout_cons s a acts C ha ?_
  intro v o' hv
  obtain ⟨rfl, -⟩ := Prod.mk.inj (Option.some.inj (hstep.symm.trans hv))
  exact hrest

theorem Throughout.head {s : σ} {a : α} {acts : List α} {C : List α → σ → α → Prop}
    (h : m.Throughout s (a :: acts) C) : C [] s a :=
  h [] a acts s [] rfl rfl

theorem Throughout.tail {s u : σ} {a : α} {o : ω} {acts : List α} {C : List α → σ → α → Prop}
    (h : m.Throughout s (a :: acts) C) (hstep : m.step s a = some (u, o)) :
    m.Throughout u acts fun as => C (a :: as) := by
  intro as b rest v tr hacts hrun
  exact h (a :: as) b rest v (o :: tr) (congrArg (a :: ·) hacts)
    (m.run_cons_eq_some.mpr ⟨u, o, tr, hstep, hrun, rfl⟩)

theorem throughout_concat {s u : σ} {as : List α} {a : α} {tr : List ω}
    {C : List α → σ → α → Prop} (hrun : m.run s as = some (u, tr)) :
    m.Throughout s (as ++ [a]) C ↔ m.Throughout s as C ∧ C as u a := by
  constructor
  · intro h
    refine ⟨fun front b rest v os hacts hfront => ?_, h as a [] u tr rfl hrun⟩
    exact h front b (rest ++ [a]) v os (by rw [hacts, List.append_assoc]; rfl) hfront
  · rintro ⟨has, ha⟩ front b rest v os hacts hfront
    rcases List.eq_nil_or_concat rest with rfl | ⟨rest, c, rfl⟩
    · obtain ⟨rfl, hlast⟩ := List.append_inj' hacts rfl
      obtain rfl := List.singleton_inj.mp hlast
      obtain ⟨rfl, -⟩ := Prod.mk.inj (Option.some.inj (hrun.symm.trans hfront))
      exact ha
    · rw [List.concat_eq_append, ← List.cons_append, ← List.append_assoc] at hacts
      exact has front b rest v os (List.append_inj_left' hacts rfl) hfront

/-! ## What a run brings -/

variable {β : Type*} (f : σ → α → List β)

/-- What the actions of a run bring, each read off the state it is taken in. -/
def gather : σ → List α → List β
  | _, [] => []
  | s, a :: as => f s a ++ (m.step s a).elim [] fun p => gather p.1 as

theorem gather_append {s u : σ} {as bs : List α} {os : List ω} (h : m.run s as = some (u, os)) :
    m.gather f s (as ++ bs) = m.gather f s as ++ m.gather f u bs := by
  induction as generalizing s os with
  | nil =>
      obtain ⟨rfl, rfl⟩ := m.run_nil_eq_some.mp h
      rfl
  | cons a as ih =>
      obtain ⟨v, o, os, hstep, hrun, rfl⟩ := m.run_cons_eq_some.mp h
      rw [List.cons_append, gather, gather, hstep, Option.elim_some, Option.elim_some, ih hrun,
        List.append_assoc]

theorem gather_singleton {s t : σ} {a : α} {o : ω} (h : m.step s a = some (t, o)) :
    m.gather f s [a] = f s a := by
  rw [gather, h]
  exact List.append_nil _

/-! ## One system inside another -/

section Hosts

variable {τ β χ : Type*} {m}

/-- Every step is one of the inner system, which the observation shows, or it
leaves the inner system alone. -/
def Hosts (m : Lts σ α ω) (inner : Lts τ β χ) (f : σ → τ) (act : α → Option β)
    (shown : ω → Option χ) : Prop :=
  ∀ s a t o, m.step s a = some (t, o) →
    (act a = none ∧ shown o = none ∧ f t = f s) ∨
      ∃ b c, act a = some b ∧ shown o = some c ∧ inner.step (f s) b = some (f t, c)

/-- So every run is one of the inner system. -/
theorem Hosts.run {inner : Lts τ β χ} {f : σ → τ} {act : α → Option β} {shown : ω → Option χ}
    (h : m.Hosts inner f act shown) {s t : σ} {acts : List α} {tr : List ω}
    (hrun : m.run s acts = some (t, tr)) :
    inner.run (f s) (acts.filterMap act) = some (f t, tr.filterMap shown) := by
  induction acts generalizing s tr with
  | nil =>
      obtain ⟨rfl, rfl⟩ := m.run_nil_eq_some.mp hrun
      rfl
  | cons a acts ih =>
      obtain ⟨u, o, os, hstep, hrest, rfl⟩ := m.run_cons_eq_some.mp hrun
      rcases h s a u o hstep with ⟨hact, hshown, hf⟩ | ⟨b, c, hact, hshown, hinner⟩
      · rw [List.filterMap_cons_none hact, List.filterMap_cons_none hshown, ← hf]
        exact ih hrest
      · rw [List.filterMap_cons_some hact, List.filterMap_cons_some hshown]
        exact inner.run_cons_eq_some.mpr ⟨f u, c, _, hinner, ih hrest, rfl⟩

end Hosts

end Lts

end KirbLaSnoop
