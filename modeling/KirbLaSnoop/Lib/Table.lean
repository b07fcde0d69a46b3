import Mathlib

/-!
# Finite tables

Finite maps with a constant value type, on top of `Finmap`. A table has no
iteration order; an operation that visits the entries takes the order as an
argument.
-/

namespace KirbLaSnoop

abbrev Table (K V : Type*) := Finmap (fun _ : K => V)

namespace Table

variable {K V : Type*}

def size (t : Table K V) : ℕ := Multiset.card t.entries

/-- The sum of a measure of the values. -/
def weight (f : V → ℕ) (t : Table K V) : ℕ := (t.entries.map fun e => f e.2).sum

/-- Keep the entries that satisfy the predicate. -/
def retain (p : K → V → Bool) (t : Table K V) : Table K V :=
  ⟨t.entries.filter fun e => p e.1 e.2, by
    have hkeys : t.entries.keys.Nodup := Multiset.nodup_keys.mpr t.nodupKeys
    exact Multiset.nodup_keys.mp
      (Multiset.nodup_of_le (Multiset.map_le_map (Multiset.filter_le _ _)) hkeys)⟩

@[simp] theorem weight_empty (f : V → ℕ) : weight f (∅ : Table K V) = 0 := rfl

theorem size_eq_card_keys (t : Table K V) : t.size = t.keys.card :=
  (Multiset.card_map Sigma.fst t.entries).symm

theorem size_retain_le (p : K → V → Bool) (t : Table K V) : (t.retain p).size ≤ t.size :=
  Multiset.card_le_card (Multiset.filter_le _ _)

variable [DecidableEq K]

def get (t : Table K V) (k : K) : Option V := Finmap.lookup k t

def set (t : Table K V) (k : K) (v : V) : Table K V := Finmap.insert (β := fun _ => V) k v t

def remove (t : Table K V) (k : K) : Table K V := Finmap.erase k t

theorem ext_get {s t : Table K V} (h : ∀ k, s.get k = t.get k) : s = t := Finmap.ext_lookup h

@[simp] theorem get_empty (k : K) : (∅ : Table K V).get k = none := Finmap.lookup_empty k

@[simp] theorem get_set (t : Table K V) (k : K) (v : V) : (t.set k v).get k = some v :=
  Finmap.lookup_insert t

@[simp] theorem get_set_ne (t : Table K V) {j k : K} (v : V) (h : j ≠ k) :
    (t.set k v).get j = t.get j :=
  Finmap.lookup_insert_of_ne t h

theorem get_set_eq (t : Table K V) (j k : K) (v : V) :
    (t.set k v).get j = if j = k then some v else t.get j := by
  by_cases h : j = k
  · subst h
    simp
  · simp [h]

@[simp] theorem get_remove (t : Table K V) (k : K) : (t.remove k).get k = none :=
  Finmap.lookup_erase k t

@[simp] theorem get_remove_ne (t : Table K V) {j k : K} (h : j ≠ k) :
    (t.remove k).get j = t.get j :=
  Finmap.lookup_erase_ne h

theorem mem_iff_get {t : Table K V} {k : K} : k ∈ t ↔ ∃ v, t.get k = some v := Finmap.mem_iff

theorem get_eq_none {t : Table K V} {k : K} : t.get k = none ↔ k ∉ t := Finmap.lookup_eq_none

/-- An entry of a table is what the table returns for its key. -/
theorem mem_entries_iff {t : Table K V} {k : K} {v : V} :
    ⟨k, v⟩ ∈ t.entries ↔ t.get k = some v :=
  (Finmap.lookup_eq_some_iff (s := t)).symm

theorem get_retain (p : K → V → Bool) (t : Table K V) (k : K) :
    (t.retain p).get k = (t.get k).filter (p k) := by
  apply Option.ext
  intro v
  rw [← mem_entries_iff, Option.filter_eq_some_iff, ← mem_entries_iff]
  exact Multiset.mem_filter

theorem remove_of_get_eq_none {t : Table K V} {k : K} (h : t.get k = none) : t.remove k = t := by
  apply ext_get
  intro j
  by_cases hj : j = k
  · subst hj
    simp [h]
  · simp [hj]

theorem set_remove (t : Table K V) (k : K) (v : V) : (t.remove k).set k v = t.set k v := by
  apply ext_get
  intro j
  by_cases h : j = k
  · subst h
    simp
  · simp [h]

@[simp] theorem set_set (t : Table K V) (k : K) (v w : V) : (t.set k v).set k w = t.set k w :=
  Finmap.insert_insert t

theorem set_of_get_eq_some {t : Table K V} {k : K} {v : V} (h : t.get k = some v) :
    t.set k v = t := by
  apply ext_get
  intro j
  by_cases hj : j = k
  · subst hj
    simp [h]
  · simp [hj]

theorem entries_set_of_get_eq_none {t : Table K V} {k : K} (v : V) (h : t.get k = none) :
    (t.set k v).entries = ⟨k, v⟩ ::ₘ t.entries :=
  Finmap.entries_insert_of_notMem (get_eq_none.mp h)

theorem entries_set (t : Table K V) (k : K) (v : V) :
    (t.set k v).entries = ⟨k, v⟩ ::ₘ (t.remove k).entries := by
  rw [← set_remove, entries_set_of_get_eq_none v (get_remove t k)]

theorem size_set_of_get_eq_none {t : Table K V} {k : K} (v : V) (h : t.get k = none) :
    (t.set k v).size = t.size + 1 := by
  rw [size, entries_set_of_get_eq_none v h, Multiset.card_cons, size]

theorem size_set_of_get_eq_some {t : Table K V} {k : K} {v : V} (w : V) (h : t.get k = some v) :
    (t.set k w).size = t.size := by
  have hold : t.size = (t.remove k).size + 1 := by
    conv_lhs => rw [← set_of_get_eq_some h, ← set_remove]
    exact size_set_of_get_eq_none v (get_remove t k)
  rw [hold, ← set_remove]
  exact size_set_of_get_eq_none w (get_remove t k)

theorem weight_set (f : V → ℕ) (t : Table K V) (k : K) (v : V) :
    weight f (t.set k v) = f v + weight f (t.remove k) := by
  rw [weight, entries_set, Multiset.map_cons, Multiset.sum_cons, weight]

theorem weight_eq_add_remove (f : V → ℕ) {t : Table K V} {k : K} {v : V} (h : t.get k = some v) :
    weight f t = f v + weight f (t.remove k) := by
  conv_lhs => rw [← set_of_get_eq_some h]
  exact weight_set f t k v

/-- The weight after an entry is set, whether or not there was one. -/
theorem weight_set_add (f : V → ℕ) (t : Table K V) (k : K) (v : V) :
    weight f (t.set k v) + (t.get k).elim 0 f = weight f t + f v := by
  cases h : t.get k with
  | none =>
      rw [weight_set, remove_of_get_eq_none h, Option.elim_none, Nat.add_zero, Nat.add_comm]
  | some old =>
      rw [weight_set, weight_eq_add_remove f h, Option.elim_some]
      omega

end Table

end KirbLaSnoop
