import Mathlib
import KirbLaSnoop.Listener.ToDisk
import KirbLaSnoop.Log.Stats

/-!
# A process and its counters

A call adds to the counters before it does anything else, one counter at a
time. Other threads may come in between, and so may the flush of `main` and its
summary.
-/

namespace KirbLaSnoop

namespace Effect

variable {Addr : Type*}

def ofCall {β : Type*} (f : Call → List β) : Effect Addr → List β
  | .call c => f c
  | _ => []

/-- What an effect adds to the counters. -/
def adds : Effect Addr → List (Tally × ℕ) := ofCall Call.adds

end Effect

/-- The call that a thread makes next has made some of its additions. -/
structure Counted (ι Addr : Type*) where
  process : Process ι Addr
  stats : Stats
  made : Thread ι → ℕ

namespace Counted

variable {ι Addr : Type*}

inductive Act (ι Addr : Type*) where
  | add (t : Thread ι)
  | act (a : Process.Act ι Addr)

def Act.inner : Act ι Addr → Option (Process.Act ι Addr)
  | .add _ => none
  | .act a => some a

/-- What the thread's next call adds to the counters. -/
def nextAdds (p : Process ι Addr) (t : Thread ι) : List (Tally × ℕ) :=
  (p.pending t).head?.elim [] Effect.adds

section Step

variable (net : ι → Listener Addr) (dp : Deps) (o : Options)

def start : Counted ι Addr := ⟨Process.start net, {}, fun _ => 0⟩

variable [DecidableEq ι]

/-- A call that has made its additions goes on. -/
def ready (c : Counted ι Addr) : Process.Act ι Addr → Bool
  | .perform t _ => c.made t == (nextAdds c.process t).length
  | _ => true

def madeAfter (c : Counted ι Addr) : Process.Act ι Addr → Thread ι → ℕ
  | .perform t _ => Function.update c.made t 0
  | _ => c.made

def add (c : Counted ι Addr) (t : Thread ι) (a : Tally × ℕ) : Counted ι Addr :=
  { c with
    stats := c.stats.fetchAdd a.1 a.2
    made := Function.update c.made t (c.made t + 1) }

variable [DecidableEq Addr]

def lts : Lts (Counted ι Addr) (Act ι Addr) (Option (List (Process.Seen ι Addr))) where
  step c a :=
    match a with
    | .add t => (nextAdds c.process t)[c.made t]?.map fun a => (c.add t a, none)
    | .act a =>
        if c.ready a then
          ((Process.lts net dp o).step c.process a).map fun pn =>
            (⟨pn.1, c.stats, c.madeAfter a⟩, some pn.2)
        else none

theorem hosts : (lts net dp o).Hosts (Process.lts net dp o) process Act.inner id := by
  intro c a c' seen h
  cases a with
  | add t =>
      obtain ⟨a, -, heq⟩ := Option.map_eq_some_iff.mp h
      cases heq
      exact .inl ⟨rfl, rfl, rfl⟩
  | act a =>
      simp only [lts, Option.ite_none_right_eq_some, Option.map_eq_some_iff] at h
      obtain ⟨-, ⟨p, new⟩, hstep, heq⟩ := h
      cases heq
      exact .inr ⟨a, new, rfl, rfl, hstep⟩

end Step

/-! ## What the counters hold -/

/-- The additions of calls that have not gone on yet, with their threads. -/
def Begun [DecidableEq ι] (c : Counted ι Addr) (begun : List (Thread ι × Tally × ℕ)) : Prop :=
  ∀ t, (begun.filter fun a => a.1 = t).map Prod.snd = (nextAdds c.process t).take (c.made t)

/-- The counters hold what the effects that have happened add, and what calls
that have not gone on yet have added. -/
structure Books [DecidableEq ι] (c : Counted ι Addr) (adds : List (Tally × ℕ))
    (begun : List (Thread ι × Tally × ℕ)) : Prop where
  front : c.Begun begun
  within : ∀ t, c.made t ≤ (nextAdds c.process t).length
  stats : c.stats = .after (adds ++ begun.map Prod.snd)

variable [DecidableEq ι] {c c' : Counted ι Addr} {begun : List (Thread ι × Tally × ℕ)}
  {adds : List (Tally × ℕ)}

theorem Begun.eq_nil (h : c.Begun begun) (hidle : ∀ t, c.made t = 0) : begun = [] := by
  rw [List.eq_nil_iff_forall_not_mem]
  intro a ha
  have hempty := h a.1
  rw [hidle, List.take_zero, List.map_eq_nil_iff] at hempty
  exact absurd (hempty ▸ List.mem_filter.mpr ⟨ha, by simp⟩) List.not_mem_nil

theorem Books.idle (h : c.Books adds begun) (hidle : ∀ t, c.process.pending t = []) (t : Thread ι) :
    c.made t = 0 := by
  have hle := h.within t
  rwa [nextAdds, hidle, List.head?_nil, Option.elim_none, List.length_nil, Nat.le_zero] at hle

/-- The next addition of a call. -/
theorem Books.add {t : Thread ι} {a : Tally × ℕ} (h : c.Books adds begun)
    (ha : (nextAdds c.process t)[c.made t]? = some a) :
    (c.add t a).Books adds (begun ++ [(t, a)]) := by
  obtain ⟨hlt, -⟩ := List.getElem?_eq_some_iff.mp ha
  refine ⟨?_, ?_, ?_⟩
  · intro t'
    change _ = (nextAdds c.process t').take (Function.update c.made t (c.made t + 1) t')
    by_cases ht : t' = t
    · subst ht
      simp [h.front t', List.take_add_one, ha]
    · rw [Function.update_of_ne ht, ← h.front t', List.filter_append, List.map_append]
      simp [Ne.symm ht]
  · intro t'
    change Function.update c.made t (c.made t + 1) t' ≤ (nextAdds c.process t').length
    by_cases ht : t' = t
    · subst ht
      rwa [Function.update_self]
    · rw [Function.update_of_ne ht]
      exact h.within t'
  · change c.stats.fetchAdd a.1 a.2 = _
    rw [h.stats, List.map_append, ← List.append_assoc]
    exact (Stats.after_concat _ a).symm

variable [DecidableEq Addr] {net : ι → Listener Addr} {dp : Deps} {o : Options}

/-- The effect of a step that performs one, and where its thread stands then. -/
theorem pending_perform {p p' : Process ι Addr} {t : Thread ι} {e : Env}
    {new : List (Process.Seen ι Addr)}
    (hs : (Process.lts net dp o).step p (.perform t e) = some (p', new)) :
    ∃ eff rest, p.pending t = eff :: rest ∧ p'.pending = Function.update p.pending t rest ∧
      Process.happened new = [eff] := by
  obtain ⟨eff, rest, hp, rfl, rfl⟩ := Process.step_perform hs
  refine ⟨eff, rest, hp, ?_, rfl⟩
  cases eff with
  | spawn conn peer => cases t <;> rfl
  | _ => rfl

/-- Every other step gives effects to a thread that has none. -/
theorem pending_step {p p' : Process ι Addr} {a : Process.Act ι Addr}
    {new : List (Process.Seen ι Addr)} (hs : (Process.lts net dp o).step p a = some (p', new))
    (ha : ∀ t e, a ≠ .perform t e) :
    Process.happened new = [] ∧ ∀ t, p'.pending t = p.pending t ∨ p.pending t = [] := by
  have hupdate (t t' : Thread ι) (es : List (Effect Addr)) (hidle : p.pending t = []) :
      Function.update p.pending t es t' = p.pending t' ∨ p.pending t' = [] := by
    by_cases ht : t' = t
    · exact .inr (ht ▸ hidle)
    · exact .inl (Function.update_of_ne ht _ _)
  cases a with
  | accept i peer orig =>
      simp only [Process.lts] at hs
      split at hs
      · next cfg hnet hidle =>
          obtain ⟨rfl, rfl⟩ := Prod.mk.inj (Option.some.inj hs)
          exact ⟨Process.happened_seenHandled _ _ _, fun t => hupdate _ t _ hidle⟩
      · cases hs
  | acceptError i e =>
      simp only [Process.lts] at hs
      split at hs
      · next cfg hnet hidle =>
          obtain ⟨rfl, rfl⟩ := Prod.mk.inj (Option.some.inj hs)
          exact ⟨Process.happened_seenHandled _ _ _, fun t => hupdate _ t _ hidle⟩
      · cases hs
  | turn i input =>
      simp only [Process.lts] at hs
      split at hs
      · next cfg hnet hidle =>
          obtain ⟨out, -, hs⟩ := Option.map_eq_some_iff.mp hs
          obtain ⟨rfl, rfl⟩ := Prod.mk.inj hs
          exact ⟨Process.happened_seenHandled _ _ _, fun t => hupdate _ t _ hidle⟩
      · cases hs
  | step conn input =>
      simp only [Process.lts] at hs
      split at hs
      · next c htask hidle =>
          split at hs
          · obtain ⟨out, -, hs⟩ := Option.map_eq_some_iff.mp hs
            obtain ⟨rfl, rfl⟩ := Prod.mk.inj hs
            exact ⟨rfl, fun t => hupdate _ t _ hidle⟩
          · cases hs
      · cases hs
  | perform t e => exact absurd rfl (ha t e)
  | flush e order =>
      obtain ⟨-, rfl, rfl⟩ := Process.step_flush hs
      exact ⟨rfl, fun t => .inl rfl⟩

/-- A call that goes on leaves its additions in the books. -/
theorem Books.perform {t : Thread ι} {e : Env} {p : Process ι Addr}
    {new : List (Process.Seen ι Addr)} (h : c.Books adds begun)
    (hready : c.ready (.perform t e) = true)
    (hs : (Process.lts net dp o).step c.process (.perform t e) = some (p, new)) :
    Books ⟨p, c.stats, c.madeAfter (.perform t e)⟩
      (adds ++ (Process.happened new).flatMap Effect.adds)
      (begun.filter fun a => !decide (a.1 = t)) := by
  obtain ⟨eff, rest, hp, hpending, hnew⟩ := pending_perform hs
  have hmade : c.made t = eff.adds.length := by
    simpa [ready, nextAdds, hp] using hready
  have hown : (begun.filter fun a => a.1 = t).map Prod.snd = eff.adds := by
    rw [h.front t, nextAdds, hp, List.head?_cons, Option.elim_some, hmade, List.take_length]
  have hnext {t' : Thread ι} (ht : t' ≠ t) : nextAdds p t' = nextAdds c.process t' := by
    rw [nextAdds, hpending, Function.update_of_ne ht, nextAdds]
  refine ⟨?_, ?_, ?_⟩
  · intro t'
    change _ = (nextAdds p t').take (Function.update c.made t 0 t')
    by_cases ht : t' = t
    · subst ht
      simp [List.filter_filter]
    · rw [Function.update_of_ne ht, hnext ht, ← h.front t', List.filter_filter]
      congr 1
      apply List.filter_congr
      intro a _
      by_cases ha : a.1 = t'
      · simp [ha, ht]
      · simp [ha]
  · intro t'
    change Function.update c.made t 0 t' ≤ _
    by_cases ht : t' = t
    · subst ht
      rw [Function.update_self]
      exact Nat.zero_le _
    · rw [Function.update_of_ne ht, hnext ht]
      exact h.within t'
  · change c.stats = _
    rw [h.stats, hnew, List.flatMap_singleton, ← hown, List.append_assoc, ← List.map_append]
    apply Stats.after_perm
    exact ((List.filter_append_perm _ begun).symm.map _).append_left adds

/-- Every other step leaves the calls that have begun where they are. -/
theorem Books.other {a : Process.Act ι Addr} {p : Process ι Addr}
    {new : List (Process.Seen ι Addr)} (h : c.Books adds begun) (ha : ∀ t e, a ≠ .perform t e)
    (hs : (Process.lts net dp o).step c.process a = some (p, new)) :
    Books ⟨p, c.stats, c.madeAfter a⟩ (adds ++ (Process.happened new).flatMap Effect.adds)
      begun := by
  obtain ⟨hnew, hpending⟩ := pending_step hs ha
  have hmade : c.madeAfter a = c.made := by
    cases a with
    | perform t e => exact absurd rfl (ha t e)
    | _ => rfl
  have hnext (t : Thread ι) : nextAdds p t = nextAdds c.process t ∨ c.made t = 0 := by
    rcases hpending t with hsame | hidle
    · exact .inl (by rw [nextAdds, hsame, nextAdds])
    · have hle := h.within t
      rw [nextAdds, hidle] at hle
      exact .inr (Nat.le_zero.mp hle)
  refine ⟨?_, ?_, ?_⟩
  · intro t
    change _ = (nextAdds p t).take (c.madeAfter a t)
    rw [hmade, h.front t]
    rcases hnext t with hsame | hzero
    · rw [hsame]
    · rw [hzero, List.take_zero, List.take_zero]
  · intro t
    change c.madeAfter a t ≤ (nextAdds p t).length
    rw [hmade]
    rcases hnext t with hsame | hzero
    · rw [hsame]
      exact h.within t
    · rw [hzero]
      exact Nat.zero_le _
  · rw [hnew, List.flatMap_nil, List.append_nil]
    exact h.stats

theorem Books.act {a : Process.Act ι Addr} {p : Process ι Addr} {new : List (Process.Seen ι Addr)}
    (h : c.Books adds begun) (hready : c.ready a = true)
    (hs : (Process.lts net dp o).step c.process a = some (p, new)) :
    ∃ begun', Books ⟨p, c.stats, c.madeAfter a⟩
      (adds ++ (Process.happened new).flatMap Effect.adds) begun' := by
  by_cases ha : ∃ t e, a = .perform t e
  · obtain ⟨t, e, rfl⟩ := ha
    exact ⟨_, h.perform hready hs⟩
  · exact ⟨begun, h.other (fun t e heq => ha ⟨t, e, heq⟩) hs⟩

theorem books_run {acts : List (Act ι Addr)} {tr : List (Option (List (Process.Seen ι Addr)))}
    (h : (lts net dp o).run (start net) acts = some (c, tr)) :
    ∃ begun,
      c.Books ((Process.happened (tr.filterMap id).flatten).flatMap Effect.adds) begun := by
  apply (lts net dp o).run_induction (fun _ c tr => ∃ begun,
    c.Books ((Process.happened (tr.filterMap id).flatten).flatMap Effect.adds) begun) ?_ ?_ h
  · exact ⟨[], fun t => rfl, fun t => Nat.zero_le _, rfl⟩
  · intro as a rest u os v out _ _ hu hs
    obtain ⟨begun, hbooks⟩ := hu
    cases a with
    | add t =>
        obtain ⟨a, ha, heq⟩ := Option.map_eq_some_iff.mp hs
        cases heq
        refine ⟨begun ++ [(t, a)], ?_⟩
        simpa using hbooks.add ha
    | act a =>
        simp only [lts, Option.ite_none_right_eq_some, Option.map_eq_some_iff] at hs
        obtain ⟨hready, ⟨p, new⟩, hstep, heq⟩ := hs
        cases heq
        rw [List.filterMap_append, List.flatten_append, Process.happened_append,
          List.flatMap_append]
        simpa using hbooks.act hready hstep

end Counted

end KirbLaSnoop
