import Mathlib

/-!
# Operations seen through a view

An operation is hidden from a view if it never changes what is seen, and
respected by it if what is seen afterwards depends only on what was seen
before. The states are those of an invariant that the operations keep.
-/

namespace View

variable {σ τ α : Type*} {I : σ → Prop} {v : σ → τ}

def Hidden (I : σ → Prop) (v : σ → τ) (f : σ → σ) : Prop := ∀ s, I s → v (f s) = v s

def Respected (I : σ → Prop) (v : σ → τ) (f : σ → σ) : Prop :=
  ∀ s t, I s → I t → v s = v t → v (f s) = v (f t)

theorem Hidden.respected {f : σ → σ} (h : Hidden I v f) : Respected I v f := by
  intro s t hs ht hst
  rw [h s hs, h t ht, hst]

variable {run : σ → α → σ} {l : List α}

theorem foldl_keeps (hI : ∀ a ∈ l, ∀ s, I s → I (run s a)) {s : σ} (hs : I s) :
    I (l.foldl run s) := by
  induction l generalizing s with
  | nil => exact hs
  | cons a l ih =>
      exact ih (fun b hb => hI b (List.mem_cons_of_mem a hb)) (hI a List.mem_cons_self s hs)

variable (run) in
/-- Of a list of operations only those that are not hidden can be seen. -/
theorem foldl_filter (visible : α → Bool) (hI : ∀ a ∈ l, ∀ s, I s → I (run s a))
    (hhidden : ∀ a ∈ l, visible a = false → Hidden I v (run · a))
    (hseen : ∀ a ∈ l, visible a = true → Respected I v (run · a)) {s t : σ} (hs : I s) (ht : I t)
    (hst : v s = v t) : v (l.foldl run s) = v ((l.filter visible).foldl run t) := by
  induction l generalizing s t with
  | nil => exact hst
  | cons a l ih =>
      have hrest := @ih (fun b hb => hI b (List.mem_cons_of_mem a hb))
        (fun b hb => hhidden b (List.mem_cons_of_mem a hb))
        (fun b hb => hseen b (List.mem_cons_of_mem a hb))
      have hnext := hI a List.mem_cons_self s hs
      cases hvis : visible a with
      | false =>
          rw [List.foldl_cons, List.filter_cons_of_neg (Bool.eq_false_iff.mp hvis)]
          exact hrest hnext ht ((hhidden a List.mem_cons_self hvis s hs).trans hst)
      | true =>
          rw [List.foldl_cons, List.filter_cons_of_pos hvis, List.foldl_cons]
          exact hrest hnext (hI a List.mem_cons_self t ht)
            (hseen a List.mem_cons_self hvis s t hs ht hst)

end View
