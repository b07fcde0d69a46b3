import Mathlib

/-!
# Lists in pieces of one size

A list cut into pieces of `n` entries, the last one of what is left, and a row
of cells of one width, of which each is found at its column.
-/

namespace Chunks

variable {α β : Type*}

/-- The pieces of `n` entries, in order. -/
def chunks (n : ℕ) (l : List α) : List (List α) :=
  (List.range ((l.length + n - 1) / n)).map fun k => (l.drop (n * k)).take n

@[simp] theorem length_chunks (n : ℕ) (l : List α) :
    (chunks n l).length = (l.length + n - 1) / n := by
  simp [chunks]

theorem getElem_chunks {n k : ℕ} {l : List α} (hk : k < (chunks n l).length) :
    (chunks n l)[k] = (l.drop (n * k)).take n := by
  simp [chunks]

theorem flatten_range (n m : ℕ) (l : List α) :
    ((List.range m).map fun k => (l.drop (n * k)).take n).flatten = l.take (n * m) := by
  induction m with
  | zero => simp
  | succ m ih =>
      rw [List.range_succ, List.map_append, List.flatten_append, ih, Nat.mul_succ, List.take_add]
      simp

/-- The pieces are the whole list. -/
theorem flatten_chunks {n : ℕ} (hn : 0 < n) (l : List α) : (chunks n l).flatten = l := by
  rw [chunks, flatten_range]
  apply List.take_of_length_le
  have hround := Nat.div_add_mod (l.length + n - 1) n
  have hrest := Nat.mod_lt (l.length + n - 1) hn
  omega

/-! ## Cells of one width -/

theorem length_cells {w : ℕ} {f : ℕ → List β} (hf : ∀ i, (f i).length = w) (m : ℕ) :
    ((List.range m).flatMap f).length = w * m := by
  induction m with
  | zero => simp
  | succ m ih =>
      rw [List.range_succ, List.flatMap_append, List.length_append, ih, Nat.mul_succ]
      simp [hf]

/-- The cell of index `i` is at column `w * i`. -/
theorem take_drop_cells {w : ℕ} {f : ℕ → List β} (hf : ∀ i, (f i).length = w) {i m : ℕ}
    (hi : i < m) (rest : List β) :
    ((((List.range m).flatMap f) ++ rest).drop (w * i)).take w = f i := by
  obtain ⟨r, rfl⟩ : ∃ r, m = i + (r + 1) := ⟨m - i - 1, by omega⟩
  rw [List.range_add, List.flatMap_append, List.append_assoc,
    List.drop_left' (length_cells hf i), List.range_succ_eq_map, List.map_cons, List.flatMap_cons,
    List.append_assoc, List.take_left' (hf _), Nat.add_zero]

/-- Reading the entries off one after the other gives the list. -/
theorem filterMap_getElem? (l : List α) {m : ℕ} (h : l.length ≤ m) :
    (List.range m).filterMap (fun i => l[i]?) = l := by
  induction l generalizing m with
  | nil => simp
  | cons a l ih =>
      obtain ⟨m, rfl⟩ : ∃ n, m = n + 1 := ⟨m - 1, by rw [List.length_cons] at h; omega⟩
      have htail := ih (m := m) (Nat.le_of_succ_le_succ h)
      rw [List.range_succ_eq_map, List.filterMap_cons_some (b := a) (by simp), List.filterMap_map]
      exact congrArg (a :: ·) htail

end Chunks
