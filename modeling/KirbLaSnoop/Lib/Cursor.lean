import Mathlib

/-!
# Reading a list by offsets

`Ahead d p rest` says that an offset into a list is in range and what follows
it. A parser that keeps an offset is followed through the facts about what is
ahead of it, and one that scans through where the scan ends.
-/

variable {α : Type*} {d bs rest rest' : List α} {a : α} {p : ℕ}

def Ahead (d : List α) (p : ℕ) (rest : List α) : Prop := p ≤ d.length ∧ d.drop p = rest

namespace Ahead

theorem start (d : List α) : Ahead d 0 d := ⟨Nat.zero_le _, rfl⟩

theorem of_append (bs rest : List α) : Ahead (bs ++ rest) bs.length rest :=
  ⟨by rw [List.length_append]; omega, List.drop_left⟩

theorem length (h : Ahead d p rest) : d.length = p + rest.length := by
  have hlen := congrArg List.length h.2
  have hle := h.1
  rw [List.length_drop] at hlen
  omega

theorem append (h : Ahead d p (bs ++ rest)) : Ahead d (p + bs.length) rest := by
  have hlen := h.length
  rw [List.length_append] at hlen
  refine ⟨by omega, ?_⟩
  rw [← List.drop_drop, h.2, List.drop_left]

theorem cons (h : Ahead d p (a :: rest)) : Ahead d (p + 1) rest := by
  have happ : Ahead d p ([a] ++ rest) := h
  exact happ.append

theorem getElem? (h : Ahead d p rest) (i : ℕ) : d[p + i]? = rest[i]? := by
  rw [← h.2, List.getElem?_drop]

theorem head (h : Ahead d p (a :: rest)) : d[p]? = some a := h.getElem? 0

theorem take (h : Ahead d p (bs ++ rest)) : (d.take (p + bs.length)).drop p = bs := by
  rw [List.drop_take, h.2, Nat.add_sub_cancel_left, List.take_left]

theorem unique (h : Ahead d p rest) (h' : Ahead d p rest') : rest = rest' := h.2.symm.trans h'.2

theorem of_getElem? (h : d[p]? = some a) : ∃ rest, Ahead d p (a :: rest) := by
  obtain ⟨hp, rfl⟩ := List.getElem?_eq_some_iff.mp h
  exact ⟨d.drop (p + 1), hp.le, List.drop_eq_getElem_cons hp⟩

/-- What lies between two offsets. -/
theorem split {k : ℕ} (h : Ahead d p rest) (h' : Ahead d (p + k) rest') :
    ∃ bs, bs.length = k ∧ rest = bs ++ rest' := by
  have hlen := h.length
  have hlen' := h'.length
  refine ⟨rest.take k, ?_, ?_⟩
  · rw [List.length_take]
    omega
  · rw [← h'.2, ← List.drop_drop, h.2, List.take_append_drop]

end Ahead

/-- What is taken while a condition holds, and of that no more than `n`. -/
theorem mem_take_takeWhile_iff {q : α → Bool} {l : List α} {n : ℕ} :
    a ∈ (l.takeWhile q).take n ↔
      ∃ before after, l = before ++ a :: after ∧ before.length < n ∧ (∀ b ∈ before, q b) ∧ q a := by
  induction l generalizing n with
  | nil =>
      refine iff_of_false (by simp) ?_
      rintro ⟨before, after, hl, -⟩
      simp at hl
  | cons b l ih =>
      cases n with
      | zero => simp
      | succ n =>
          cases hb : q b with
          | false =>
              rw [List.takeWhile_cons_of_neg (by simp [hb]), List.take_nil]
              refine iff_of_false List.not_mem_nil ?_
              rintro ⟨before, after, hl, -, hall, ha⟩
              cases before with
              | nil =>
                  obtain ⟨rfl, -⟩ := List.cons.inj hl
                  cases hb.symm.trans ha
              | cons b' before =>
                  obtain ⟨rfl, -⟩ := List.cons.inj hl
                  cases hb.symm.trans (hall b List.mem_cons_self)
          | true =>
              rw [List.takeWhile_cons_of_pos hb, List.take_succ_cons, List.mem_cons, ih]
              constructor
              · rintro (rfl | ⟨before, after, rfl, hlt, hall, ha⟩)
                · exact ⟨[], l, rfl, Nat.succ_pos n, List.forall_mem_nil _, hb⟩
                · exact ⟨b :: before, after, rfl, Nat.succ_lt_succ hlt,
                    List.forall_mem_cons.mpr ⟨hb, hall⟩, ha⟩
              · rintro ⟨before, after, hl, hlt, hall, ha⟩
                cases before with
                | nil =>
                    obtain ⟨rfl, -⟩ := List.cons.inj hl
                    exact .inl rfl
                | cons b' before =>
                    obtain ⟨rfl, rfl⟩ := List.cons.inj hl
                    exact .inr ⟨before, after, rfl, Nat.lt_of_succ_lt_succ hlt,
                      (List.forall_mem_cons.mp hall).2, ha⟩
