import Mathlib

/-!
# Keeping both ends of a sequence

The abstract purpose of a head-plus-tail capture: of a sequence, keep the
first `head` entries and the last `keep` of the rest. A cap of zero on the
head means that everything is head.
-/

namespace KirbLaSnoop.Capture

variable {α : Type*}

/-! ## The last entries of a list -/

theorem length_rtake (l : List α) (n : ℕ) : (l.rtake n).length = min n l.length := by
  unfold List.rtake
  rw [List.length_drop]
  omega

theorem rtake_of_length_le {l : List α} {n : ℕ} (h : l.length ≤ n) : l.rtake n = l := by
  unfold List.rtake
  rw [Nat.sub_eq_zero_of_le h, List.drop_zero]

theorem rtake_min_length (l : List α) (n : ℕ) : l.rtake (min n l.length) = l.rtake n := by
  rcases Nat.le_total n l.length with h | h
  · rw [Nat.min_eq_left h]
  · rw [Nat.min_eq_right h, rtake_of_length_le h, rtake_of_length_le le_rfl]

theorem rtake_append_of_le {l r : List α} {n : ℕ} (h : n ≤ r.length) :
    (l ++ r).rtake n = r.rtake n := by
  unfold List.rtake
  have hlen : (l ++ r).length - n = l.length + (r.length - n) := by
    rw [List.length_append]
    omega
  rw [hlen, List.drop_length_add_append]

theorem rtake_append_of_ge {l r : List α} {n : ℕ} (h : r.length ≤ n) :
    (l ++ r).rtake n = l.rtake (n - r.length) ++ r := by
  unfold List.rtake
  have hlen : (l ++ r).length - n = l.length - (n - r.length) := by
    rw [List.length_append]
    omega
  rw [hlen, List.drop_append_of_le_length (Nat.sub_le _ _)]

/-- Evicting the surplus of a ring of size `n` before a chunk goes in. -/
theorem drop_rtake_append {l r : List α} {n : ℕ} (h : r.length ≤ n) :
    (l.rtake n).drop ((l.rtake n).length + r.length - n) ++ r = (l ++ r).rtake n := by
  rw [rtake_append_of_ge h, length_rtake]
  congr 1
  unfold List.rtake
  rw [List.drop_drop]
  congr 1
  omega

/-! ## Head and tail -/

/-- The front of a sequence, all of it when the cap is zero. -/
def headPart (head : ℕ) (l : List α) : List α := if head = 0 then l else l.take head

/-- What comes after the front. -/
def pastHead (head : ℕ) (l : List α) : List α := if head = 0 then [] else l.drop head

/-- The last `keep` entries of what comes after the front. -/
def tailPart (head keep : ℕ) (l : List α) : List α := (pastHead head l).rtake keep

/-- The tail part counted from the end of the whole sequence. -/
theorem tailPart_eq_rtake {head : ℕ} (h : head ≠ 0) (keep : ℕ) (l : List α) :
    tailPart head keep l = l.rtake (min keep (l.length - head)) := by
  have hle : min keep (l.drop head).length ≤ (l.drop head).length := Nat.min_le_right _ _
  calc
    tailPart head keep l = (l.drop head).rtake (min keep (l.drop head).length) := by
      rw [rtake_min_length, tailPart, pastHead, if_neg h]
    _ = (l.take head ++ l.drop head).rtake (min keep (l.drop head).length) :=
      (rtake_append_of_le hle).symm
    _ = l.rtake (min keep (l.length - head)) := by
      rw [List.take_append_drop, List.length_drop]

def lost (head keep : ℕ) (l : List α) : ℕ := (pastHead head l).length - keep

@[simp] theorem headPart_zero (l : List α) : headPart 0 l = l := rfl

@[simp] theorem pastHead_zero (l : List α) : pastHead 0 l = [] := rfl

theorem headPart_of_pos {head : ℕ} (h : head ≠ 0) (l : List α) : headPart head l = l.take head :=
  if_neg h

theorem pastHead_of_pos {head : ℕ} (h : head ≠ 0) (l : List α) : pastHead head l = l.drop head :=
  if_neg h

@[simp] theorem headPart_nil (head : ℕ) : headPart head ([] : List α) = [] := by
  simp [headPart]

@[simp] theorem pastHead_nil (head : ℕ) : pastHead head ([] : List α) = [] := by
  simp [pastHead]

@[simp] theorem tailPart_nil (head keep : ℕ) : tailPart head keep ([] : List α) = [] := by
  simp [tailPart]

@[simp] theorem lost_nil (head keep : ℕ) : lost head keep ([] : List α) = 0 := by
  simp [lost]

/-- The room left in the head. -/
theorem sub_length_headPart {head : ℕ} (h : head ≠ 0) (l : List α) :
    head - (headPart head l).length = head - l.length := by
  rw [headPart_of_pos h, List.length_take]
  omega

theorem headPart_append_pastHead (head : ℕ) (l : List α) :
    headPart head l ++ pastHead head l = l := by
  by_cases h : head = 0
  · subst h
    simp
  · rw [headPart_of_pos h, pastHead_of_pos h, List.take_append_drop]

theorem headPart_prefix (head : ℕ) (l : List α) : headPart head l <+: l :=
  ⟨pastHead head l, headPart_append_pastHead head l⟩

theorem headPart_mono (head : ℕ) {l r : List α} (h : l <+: r) :
    headPart head l <+: headPart head r := by
  by_cases hhead : head = 0
  · subst hhead
    exact h
  · rw [headPart_of_pos hhead, headPart_of_pos hhead]
    exact h.take head

theorem length_headPart_add_pastHead (head : ℕ) (l : List α) :
    (headPart head l).length + (pastHead head l).length = l.length := by
  rw [← List.length_append, headPart_append_pastHead]

/-- The two parts and the lost entries account for the whole sequence. -/
theorem length_headPart_add_tailPart_add_lost (head keep : ℕ) (l : List α) :
    (headPart head l).length + (tailPart head keep l).length + lost head keep l = l.length := by
  have h := length_headPart_add_pastHead head l
  simp only [tailPart, length_rtake, lost]
  omega

theorem length_pastHead (head : ℕ) (l : List α) :
    (pastHead head l).length = if head = 0 then 0 else l.length - head := by
  by_cases h : head = 0
  · simp [h]
  · simp [pastHead_of_pos h, h]

theorem headPart_append {head : ℕ} (h : head ≠ 0) (l r : List α) :
    headPart head (l ++ r) = headPart head l ++ r.take (head - l.length) := by
  rw [headPart_of_pos h, headPart_of_pos h, List.take_append]

theorem pastHead_append {head : ℕ} (h : head ≠ 0) (l r : List α) :
    pastHead head (l ++ r) = pastHead head l ++ r.drop (head - l.length) := by
  rw [pastHead_of_pos h, pastHead_of_pos h, List.drop_append]

theorem lost_eq_zero_iff (head keep : ℕ) (l : List α) :
    lost head keep l = 0 ↔ head = 0 ∨ l.length ≤ head + keep := by
  rw [lost, length_pastHead]
  split <;> omega

theorem lost_le_append (head keep : ℕ) (l r : List α) :
    lost head keep l ≤ lost head keep (l ++ r) := by
  rw [lost, lost, length_pastHead, length_pastHead, List.length_append]
  split <;> omega

theorem tailPart_eq_nil_iff (head keep : ℕ) (l : List α) :
    tailPart head keep l = [] ↔ head = 0 ∨ keep = 0 ∨ l.length ≤ head := by
  rw [← List.length_eq_zero_iff, tailPart, length_rtake, length_pastHead]
  split <;> omega

theorem tailPart_append_ne_nil {head keep : ℕ} {l : List α} (h : tailPart head keep l ≠ [])
    (r : List α) : tailPart head keep (l ++ r) ≠ [] := by
  rw [ne_eq, tailPart_eq_nil_iff] at h ⊢
  rw [List.length_append]
  omega

theorem headPart_ne_nil (head : ℕ) {l : List α} (h : l ≠ []) : headPart head l ≠ [] := by
  by_cases hhead : head = 0
  · rwa [hhead, headPart_zero]
  · rw [headPart_of_pos hhead, ne_eq, List.take_eq_nil_iff]
    exact not_or.mpr ⟨hhead, h⟩

end KirbLaSnoop.Capture
