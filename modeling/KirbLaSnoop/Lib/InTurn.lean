import Mathlib

/-!
# Going through a list until something stops

`InTurn pass good l` says of a list that is gone through from the front, as
long as its elements `pass`, that every element reached is `good`. Of a list
that is gone through to its end, `EachStep` says what holds at every element,
which may look back at those before it.
-/

variable {α : Type*} {pass good : α → Prop} {a : α} {l : List α}

def InTurn (pass good : α → Prop) (l : List α) : Prop :=
  ∀ done a later, l = done ++ a :: later → (∀ d ∈ done, pass d) → good a

namespace InTurn

theorem nil (pass good : α → Prop) : InTurn pass good [] := by
  intro done a later h _
  simp at h

theorem of_forall (h : ∀ a ∈ l, good a) : InTurn pass good l := by
  rintro done a later rfl _
  exact h a (List.mem_append_right _ List.mem_cons_self)

theorem cons_iff : InTurn pass good (a :: l) ↔ good a ∧ (pass a → InTurn pass good l) := by
  constructor
  · intro h
    refine ⟨h [] a l rfl (List.forall_mem_nil _), fun ha done b later hl hdone => ?_⟩
    exact h (a :: done) b later (by rw [hl]; rfl) (List.forall_mem_cons.mpr ⟨ha, hdone⟩)
  · rintro ⟨hgood, hrest⟩ done b later hl hdone
    cases done with
    | nil =>
        obtain ⟨rfl, -⟩ := List.cons.inj hl
        exact hgood
    | cons d done =>
        obtain ⟨rfl, htail⟩ := List.cons.inj hl
        rw [List.forall_mem_cons] at hdone
        exact hrest hdone.1 done b later htail hdone.2

/-- Only what good elements pass by matters. -/
theorem congr {pass' good' : α → Prop} (hgood : ∀ a, good a ↔ good' a)
    (hpass : ∀ a, good a → (pass a ↔ pass' a)) (l : List α) :
    InTurn pass good l ↔ InTurn pass' good' l := by
  induction l with
  | nil => exact iff_of_true (nil _ _) (nil _ _)
  | cons a l ih =>
      rw [cons_iff, cons_iff, ih, ← hgood]
      constructor
      · rintro ⟨ha, hrest⟩
        exact ⟨ha, fun hp => hrest ((hpass a ha).mpr hp)⟩
      · rintro ⟨ha, hrest⟩
        exact ⟨ha, fun hp => hrest ((hpass a ha).mp hp)⟩

end InTurn

/-! ## At every element -/

def EachStep (C : List α → α → Prop) (l : List α) : Prop :=
  ∀ done a later, l = done ++ a :: later → C done a

namespace EachStep

variable {C : List α → α → Prop}

theorem nil (C : List α → α → Prop) : EachStep C [] := by
  intro done a later h
  simp at h

theorem concat_iff : EachStep C (l ++ [a]) ↔ EachStep C l ∧ C l a := by
  constructor
  · intro h
    refine ⟨fun done b later hl => h done b (later ++ [a]) (by rw [hl]; simp), ?_⟩
    exact h l a [] rfl
  · rintro ⟨hfront, hlast⟩ done b later hl
    rcases List.eq_nil_or_concat later with rfl | ⟨later, c, rfl⟩
    · obtain ⟨rfl, hba⟩ := List.append_inj' hl rfl
      obtain ⟨rfl, -⟩ := List.cons.inj hba
      exact hlast
    · rw [List.concat_eq_append, ← List.cons_append, ← List.append_assoc] at hl
      exact hfront done b later (List.append_inj_left' hl rfl)

theorem append_iff {l' : List α} :
    EachStep C (l ++ l') ↔ EachStep C l ∧ EachStep (fun done => C (l ++ done)) l' := by
  induction l' using List.reverseRecOn with
  | nil => simp [EachStep.nil]
  | append_singleton l' a ih =>
      rw [← List.append_assoc, concat_iff, ih, concat_iff, and_assoc]

theorem imp {C' : List α → α → Prop} (h : EachStep C l) (himp : ∀ done a, C done a → C' done a) :
    EachStep C' l :=
  fun done a later hl => himp done a (h done a later hl)

/-- A property that the first failure of `C` breaks, and that nothing breaks
before, holds after every beginning of the list just when `C` never fails. -/
theorem forall_prefix_iff {K : List α → Prop} (hnil : K [])
    (hstep : ∀ l a, EachStep C l → (K (l ++ [a]) ↔ C l a)) (l : List α) :
    (∀ pre, pre <+: l → K pre) ↔ EachStep C l := by
  induction l using List.reverseRecOn with
  | nil =>
      refine iff_of_true ?_ (nil C)
      intro pre hpre
      rwa [List.prefix_nil.mp hpre]
  | append_singleton l a ih =>
      rw [concat_iff, ← ih]
      constructor
      · intro hall
        have hfront : ∀ pre, pre <+: l → K pre :=
          fun pre hpre => hall pre (hpre.trans (List.prefix_append l [a]))
        exact ⟨hfront, (hstep l a (ih.mp hfront)).mp (hall _ List.prefix_rfl)⟩
      · rintro ⟨hfront, hlast⟩ pre hpre
        rcases List.prefix_concat_iff.mp hpre with rfl | hpre
        · exact (hstep l a (ih.mp hfront)).mpr hlast
        · exact hfront pre hpre

end EachStep
