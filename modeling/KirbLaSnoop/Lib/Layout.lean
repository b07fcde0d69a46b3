import Mathlib

/-!
# Texts of fixed fields

A text made of fields of fixed widths, one for each value. Where each field
keeps the order of its values, the texts are in the order of the lists of
values.
-/

namespace Layout

variable {α β : Type*} [LinearOrder α] [LinearOrder β]

/-- Texts of one length compare before anything after them. -/
theorem append_lt_append_iff {s t u v : List α} (h : s.length = t.length) :
    s ++ u < t ++ v ↔ s < t ∨ s = t ∧ u < v := by
  induction s generalizing t with
  | nil =>
      obtain rfl := List.eq_nil_of_length_eq_zero h.symm
      simp
  | cons a s ih =>
      obtain ⟨b, t, rfl⟩ := List.exists_cons_of_length_eq_add_one h.symm
      have hlength : s.length = t.length := Nat.succ.inj h
      simp only [List.cons_append, List.cons_lt_cons_iff, ih hlength, List.cons.injEq]
      tauto

/-- A way to write the values of a domain in one width and in order. -/
structure Field (α β : Type*) [LinearOrder α] [LinearOrder β] where
  text : β → List α
  width : ℕ
  dom : Set β
  length_text : ∀ b ∈ dom, (text b).length = width
  text_lt : ∀ a ∈ dom, ∀ b ∈ dom, a < b → text a < text b

namespace Field

variable {f : Field α β} {a b : β}

theorem text_strictMonoOn (f : Field α β) : StrictMonoOn f.text f.dom :=
  fun a ha b hb => f.text_lt a ha b hb

theorem text_lt_text_iff (ha : a ∈ f.dom) (hb : b ∈ f.dom) : f.text a < f.text b ↔ a < b :=
  f.text_strictMonoOn.lt_iff_lt ha hb

theorem text_eq_text_iff (ha : a ∈ f.dom) (hb : b ∈ f.dom) : f.text a = f.text b ↔ a = b :=
  f.text_strictMonoOn.injOn.eq_iff ha hb

end Field

def render : List (Field α β) → List β → List α
  | f :: fs, b :: bs => f.text b ++ render fs bs
  | _, _ => []

/-- Each value is of the domain of its field. -/
def Fits (fs : List (Field α β)) (bs : List β) : Prop := List.Forall₂ (fun f b => b ∈ f.dom) fs bs

theorem render_lt_render_iff {fs : List (Field α β)} {as bs : List β} (has : Fits fs as)
    (hbs : Fits fs bs) : render fs as < render fs bs ↔ as < bs := by
  induction has generalizing bs with
  | nil =>
      cases hbs
      simp [render]
  | @cons f a fs as ha has ih =>
      cases hbs with
      | @cons _ b _ bs hb hbs =>
          have hlength : (f.text a).length = (f.text b).length :=
            (f.length_text a ha).trans (f.length_text b hb).symm
          rw [render, render, append_lt_append_iff hlength, List.cons_lt_cons_iff, ih hbs,
            Field.text_lt_text_iff ha hb, Field.text_eq_text_iff ha hb]

theorem render_le_render_iff {fs : List (Field α β)} {as bs : List β} (has : Fits fs as)
    (hbs : Fits fs bs) : render fs as ≤ render fs bs ↔ as ≤ bs := by
  rw [← not_lt, render_lt_render_iff hbs has, not_lt]

theorem render_eq_render_iff {fs : List (Field α β)} {as bs : List β} (has : Fits fs as)
    (hbs : Fits fs bs) : render fs as = render fs bs ↔ as = bs := by
  rw [le_antisymm_iff, render_le_render_iff has hbs, render_le_render_iff hbs has,
    ← le_antisymm_iff]

end Layout
