import Mathlib

/-!
# Checked arithmetic

The integers of a machine's types, and operations on them that give a result
only if it is one of the type: where a computation gives a result, nothing in
it has overflowed, underflowed or been truncated.
-/

namespace Checked

/-- The integers of a type. -/
structure Width where
  lo : ℤ
  hi : ℤ

def i64 : Width := ⟨-2 ^ 63, 2 ^ 63 - 1⟩

def u64 : Width := ⟨0, 2 ^ 64 - 1⟩

def u32 : Width := ⟨0, 2 ^ 32 - 1⟩

namespace Width

variable (w : Width)

def cast (n : ℤ) : Option ℤ := if w.lo ≤ n ∧ n ≤ w.hi then some n else none

def add (m n : ℤ) : Option ℤ := w.cast (m + n)

def sub (m n : ℤ) : Option ℤ := w.cast (m - n)

def mul (m n : ℤ) : Option ℤ := w.cast (m * n)

/-- Division that rounds toward zero. -/
def div (m n : ℤ) : Option ℤ := if n = 0 then none else w.cast (m.tdiv n)

def rem (m n : ℤ) : Option ℤ := if n = 0 then none else w.cast (m.tmod n)

/-- Division with a remainder that is not negative. -/
def divEuclid (m n : ℤ) : Option ℤ := if n = 0 then none else w.cast (m / n)

def remEuclid (m n : ℤ) : Option ℤ := if n = 0 then none else w.cast (m % n)

end Width

/-- The bounds of the types, as `omega` reads them. -/
theorem bounds : i64.lo = -2 ^ 63 ∧ i64.hi = 2 ^ 63 - 1 ∧ u64.lo = 0 ∧ u64.hi = 2 ^ 64 - 1 ∧
    u32.lo = 0 ∧ u32.hi = 2 ^ 32 - 1 := ⟨rfl, rfl, rfl, rfl, rfl, rfl⟩

/-! ## Going on with the result of an operation -/

section Bind

variable {α : Type} {w : Width} {m n : ℤ} {f : ℤ → Option α}

theorem some_bind : (some m >>= f) = f m := rfl

theorem cast_bind (hlo : w.lo ≤ m) (hhi : m ≤ w.hi) : (w.cast m >>= f) = f m := by
  rw [Width.cast, if_pos ⟨hlo, hhi⟩, some_bind]

theorem add_bind (hlo : w.lo ≤ m + n) (hhi : m + n ≤ w.hi) : (w.add m n >>= f) = f (m + n) :=
  cast_bind hlo hhi

theorem sub_bind (hlo : w.lo ≤ m - n) (hhi : m - n ≤ w.hi) : (w.sub m n >>= f) = f (m - n) :=
  cast_bind hlo hhi

theorem mul_bind (hlo : w.lo ≤ m * n) (hhi : m * n ≤ w.hi) : (w.mul m n >>= f) = f (m * n) :=
  cast_bind hlo hhi

theorem divEuclid_bind (hn : n ≠ 0) (hlo : w.lo ≤ m / n) (hhi : m / n ≤ w.hi) :
    (w.divEuclid m n >>= f) = f (m / n) := by
  rw [Width.divEuclid, if_neg hn, cast_bind hlo hhi]

theorem remEuclid_bind (hn : n ≠ 0) (hlo : w.lo ≤ m % n) (hhi : m % n ≤ w.hi) :
    (w.remEuclid m n >>= f) = f (m % n) := by
  rw [Width.remEuclid, if_neg hn, cast_bind hlo hhi]

/-- For a dividend that is not negative the two divisions are the same. -/
theorem div_bind (hn : n ≠ 0) (hm : 0 ≤ m) (hlo : w.lo ≤ m / n) (hhi : m / n ≤ w.hi) :
    (w.div m n >>= f) = f (m / n) := by
  rw [Width.div, if_neg hn, Int.tdiv_eq_ediv_of_nonneg hm, cast_bind hlo hhi]

theorem rem_bind (hn : n ≠ 0) (hm : 0 ≤ m) (hlo : w.lo ≤ m % n) (hhi : m % n ≤ w.hi) :
    (w.rem m n >>= f) = f (m % n) := by
  rw [Width.rem, if_neg hn, Int.tmod_eq_emod_of_nonneg hm, cast_bind hlo hhi]

end Bind

end Checked
