import Mathlib

/-!
# Lifecycles

A thing is opened, used any number of times, and closed. The uses of one
thing are read by an automaton; a history that it accepts has that shape.
-/

namespace KirbLaSnoop

/-- What an event does with the thing it names. -/
inductive Use where
  | opened
  | used
  | closed
  deriving DecidableEq

namespace Lifecycle

inductive Stage where
  | fresh
  | live
  | done
  deriving DecidableEq

def Stage.next : Stage → Use → Option Stage
  | .fresh, .opened => some .live
  | .live, .used => some .live
  | .live, .closed => some .done
  | _, _ => none

/-- The stage after some more uses; `none` if one of them is out of order. -/
def after : Stage → List Use → Option Stage
  | st, [] => some st
  | st, u :: us => (st.next u).bind fun st => after st us

@[simp] theorem after_nil (st : Stage) : after st [] = some st := rfl

@[simp] theorem after_cons (st : Stage) (u : Use) (us : List Use) :
    after st (u :: us) = (st.next u).bind fun st => after st us := rfl

theorem after_append (st : Stage) (us vs : List Use) :
    after st (us ++ vs) = (after st us).bind fun st => after st vs := by
  induction us generalizing st with
  | nil => rfl
  | cons u us ih =>
      rw [List.cons_append, after_cons, after_cons]
      cases st.next u with
      | none => rfl
      | some st => exact ih st

theorem after_extend {st st' st'' : Stage} {us vs : List Use} (h : after st us = some st')
    (h' : after st' vs = some st'') : after st (us ++ vs) = some st'' := by
  rw [after_append, h]
  exact h'

/-- What has happened by then was in order. -/
theorem after_of_append {st st'' : Stage} {us vs : List Use} (h : after st (us ++ vs) = some st'') :
    ∃ st', after st us = some st' := by
  rw [after_append, Option.bind_eq_some_iff] at h
  obtain ⟨st', hst', -⟩ := h
  exact ⟨st', hst'⟩

theorem after_used {us : List Use} (h : ∀ u ∈ us, u = .used) : after .live us = some .live := by
  induction us with
  | nil => rfl
  | cons u us ih =>
      rw [h u List.mem_cons_self, after_cons]
      exact ih fun v hv => h v (List.mem_cons_of_mem _ hv)

/-- The histories of a thing that is at a stage. -/
def Shape : Stage → List Use → Prop
  | .fresh, us => us = []
  | .live, us => ∃ n, us = .opened :: List.replicate n .used
  | .done, us => ∃ n, us = .opened :: (List.replicate n .used ++ [.closed])

theorem shape_of_after {st : Stage} {us : List Use} (h : after .fresh us = some st) :
    Shape st us := by
  induction us using List.reverseRecOn generalizing st with
  | nil =>
      cases h
      rfl
  | append_singleton us u ih =>
      rw [after_append, Option.bind_eq_some_iff] at h
      obtain ⟨st', hst', hnext⟩ := h
      rw [after_cons, Option.bind_eq_some_iff] at hnext
      obtain ⟨st'', hnext, hst''⟩ := hnext
      cases hst''
      have hshape := ih hst'
      cases st' with
      | fresh =>
          cases u with
          | opened =>
              cases hnext
              exact ⟨0, by rw [show us = [] from hshape]; rfl⟩
          | _ => cases hnext
      | live =>
          obtain ⟨n, rfl⟩ := hshape
          cases u with
          | opened => cases hnext
          | used =>
              cases hnext
              exact ⟨n + 1, by rw [List.replicate_succ', List.cons_append]⟩
          | closed =>
              cases hnext
              exact ⟨n, by rw [List.cons_append]⟩
      | done => cases u <;> cases hnext

theorem count_closed_of_shape {st : Stage} {us : List Use} (h : Shape st us) :
    us.count .closed = if st = .done then 1 else 0 := by
  cases st with
  | fresh =>
      rw [show us = [] from h]
      rfl
  | live =>
      obtain ⟨n, rfl⟩ := h
      simp [List.count_replicate]
  | done =>
      obtain ⟨n, rfl⟩ := h
      simp [List.count_replicate]

theorem opened_mem_of_shape {st : Stage} {us : List Use} (h : Shape st us) (hst : st ≠ .fresh) :
    .opened ∈ us := by
  cases st with
  | fresh => exact absurd rfl hst
  | live =>
      obtain ⟨n, rfl⟩ := h
      exact List.mem_cons_self
  | done =>
      obtain ⟨n, rfl⟩ := h
      exact List.mem_cons_self

end Lifecycle

end KirbLaSnoop
