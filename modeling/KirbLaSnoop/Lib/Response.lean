import Mathlib.Data.List.Basic

/-!
# Requests that are answered in time

Some events of a history stir, and after them requests may be due. The history
is prompt if each request that is ever due is served before anything stirs
again.
-/

namespace KirbLaSnoop

/-- Requests only become due by an event that stirs, and are due no more once
they are served. -/
structure Obligation (α ρ : Type*) where
  Stirs : α → Prop
  Serves : ρ → α → Prop
  Due : List α → ρ → Prop
  of_append : ∀ {l q : List α} {r : ρ}, (∀ a ∈ q, ¬Stirs a) → Due (l ++ q) r →
    Due l r ∧ ∀ a ∈ q, ¬Serves r a

namespace Obligation

variable {α ρ : Type*} (O : Obligation α ρ)

/-- The request is served before anything stirs. -/
def Follows (r : ρ) (l : List α) : Prop :=
  ∃ since a later, l = since ++ a :: later ∧ O.Serves r a ∧ ∀ b ∈ since, ¬O.Stirs b

def Prompt (l : List α) : Prop :=
  ∀ before after, l = before ++ after → ∀ r, O.Due before r → O.Follows r after

variable {O} {r : ρ} {l l' : List α}

theorem not_follows_nil : ¬O.Follows r [] := by
  rintro ⟨since, a, later, h, -⟩
  simp at h

theorem follows_cons {a : α} (h : O.Serves r a) (l : List α) : O.Follows r (a :: l) :=
  ⟨[], a, l, rfl, h, List.forall_mem_nil _⟩

theorem Follows.append (h : O.Follows r l) (l' : List α) : O.Follows r (l ++ l') := by
  obtain ⟨since, a, later, rfl, hserves, hquiet⟩ := h
  exact ⟨since, a, later ++ l', by simp, hserves, hquiet⟩

theorem Follows.after (h : O.Follows r l) (hl' : ∀ a ∈ l', ¬O.Stirs a) :
    O.Follows r (l' ++ l) := by
  obtain ⟨since, a, later, rfl, hserves, hquiet⟩ := h
  exact ⟨l' ++ since, a, later, by simp, hserves, List.forall_mem_append.mpr ⟨hl', hquiet⟩⟩

/-- What does not serve the request can be passed over. -/
theorem Follows.of_append (h : O.Follows r (l' ++ l)) (hl' : ∀ a ∈ l', ¬O.Serves r a) :
    O.Follows r l := by
  obtain ⟨since, a, later, heq, hserves, hquiet⟩ := h
  rcases List.append_eq_append_iff.mp heq with ⟨rest, rfl, rfl⟩ | ⟨rest, rfl, hcons⟩
  · exact ⟨rest, a, later, rfl, hserves, fun b hb => hquiet b (List.mem_append_right _ hb)⟩
  · rcases List.cons_eq_append_iff.mp hcons with ⟨rfl, rfl⟩ | ⟨rest, rfl, rfl⟩
    · exact follows_cons hserves later
    · exact absurd hserves (hl' a (List.mem_append_right _ List.mem_cons_self))

/-- Whatever is due while nothing stirs was due before, and is still to come. -/
theorem follows_of_due {q q' : List α} (hq : ∀ a ∈ q ++ q', ¬O.Stirs a)
    (hfollows : ∀ r, O.Due l r → O.Follows r (q ++ q')) (hdue : O.Due (l ++ q) r) :
    O.Follows r q' := by
  obtain ⟨hold, hnot⟩ := O.of_append (fun a ha => hq a (List.mem_append_left _ ha)) hdue
  exact (hfollows r hold).of_append hnot

theorem Prompt.not_due (h : O.Prompt l) : ¬O.Due l r :=
  fun hdue => not_follows_nil (h l [] (List.append_nil l).symm r hdue)

theorem prompt_of_forall (h : ∀ before, before <+: l → ∀ r, ¬O.Due before r) : O.Prompt l := by
  rintro before after rfl r hdue
  exact absurd hdue (h before (List.prefix_append _ _) r)

/-- While nothing stirs, what is due at the beginning has to be served. -/
theorem prompt_of_quiet {q : List α} (hl : ∀ a ∈ l, ¬O.Stirs a) (hq : ∀ a ∈ q, ¬O.Stirs a)
    (hkeep : ∀ before, before <+: l → ∀ r, O.Due before r → O.Due l r)
    (hfollows : ∀ r, O.Due l r → O.Follows r q) : O.Prompt (l ++ q) := by
  intro before after heq r hdue
  rcases List.append_eq_append_iff.mp heq with ⟨rest, rfl, rfl⟩ | ⟨rest, rfl, rfl⟩
  · exact follows_of_due hq hfollows hdue
  · have hend := hkeep before (List.prefix_append _ _) r hdue
    exact (hfollows r hend).after fun a ha => hl a (List.mem_append_right _ ha)

/-- Nothing is due at the end of a prompt history, so what follows may be
looked at alone. -/
theorem Prompt.extend (h : O.Prompt l)
    (hl' : ∀ before after, l' = before ++ after → before ≠ [] →
      ∀ r, O.Due (l ++ before) r → O.Follows r after) : O.Prompt (l ++ l') := by
  intro before after heq r hdue
  rcases List.append_eq_append_iff.mp heq with ⟨rest, rfl, hrest⟩ | ⟨rest, hrest, rfl⟩
  · rcases List.eq_nil_or_concat rest with rfl | ⟨front, a, rfl⟩
    · rw [List.append_nil] at hdue
      exact absurd hdue h.not_due
    · exact hl' _ after hrest (by simp) r hdue
  · exact (h before rest hrest r hdue).append l'

theorem Prompt.quiet (h : O.Prompt l) (hl' : ∀ a ∈ l', ¬O.Stirs a) : O.Prompt (l ++ l') := by
  apply h.extend
  rintro before after rfl - r hdue
  exact follows_of_due hl' (fun r hold => absurd hold h.not_due) hdue

/-- An event that stirs, and all that is due by it. -/
theorem Prompt.stir (h : O.Prompt l) {a : α} (hl' : ∀ a ∈ l', ¬O.Stirs a)
    (hfollows : ∀ r, O.Due (l ++ [a]) r → O.Follows r l') : O.Prompt (l ++ a :: l') := by
  apply h.extend
  intro before after heq hne r hdue
  obtain ⟨rest, rfl, rfl⟩ := (List.cons_eq_append_iff.mp heq).resolve_left fun h => hne h.1
  rw [List.append_cons] at hdue
  exact follows_of_due hl' hfollows hdue

end Obligation

end KirbLaSnoop
