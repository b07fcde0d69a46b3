import Mathlib
import KirbLaSnoop.Lib.Text

/-!
# Trimmed texts and decimal numerals

Whitespace around a text, and digits with their value. A numeral is as many
zeros as one likes and then the digits of its value.
-/

namespace Text

variable {cs ds pre post : List Char}

/-! ## Trimming -/

def Blank (cs : List Char) : Prop := ∀ c ∈ cs, isWhitespace c = true

theorem blank_nil : Blank [] := by simp [Blank]

theorem Blank.append (h : Blank cs) (h' : Blank ds) : Blank (cs ++ ds) := by
  intro c hc
  exact (List.mem_append.mp hc).elim (h c) (h' c)

/-- Neither the first nor the last character is whitespace. -/
structure Tight (cs : List Char) : Prop where
  head : ∀ c ∈ cs.head?, isWhitespace c = false
  last : ∀ c ∈ cs.getLast?, isWhitespace c = false

theorem trimStart_append (hpre : Blank pre) (h : ∀ c ∈ cs.head?, isWhitespace c = false) :
    trimStart (pre ++ cs) = cs := by
  rw [trimStart, List.dropWhile_append_of_pos hpre]
  cases cs with
  | nil => rfl
  | cons c cs =>
      have hc : ¬isWhitespace c = true := by simp [h c rfl]
      exact List.dropWhile_cons_of_neg hc

theorem trim_eq_nil_iff : trim cs = [] ↔ Blank cs := by
  have hstart : ∀ ds, trimStart ds = [] ↔ Blank ds := fun ds => List.dropWhile_eq_nil_iff
  rw [trim, List.reverse_eq_nil_iff, hstart]
  constructor
  · intro h c hc
    rw [← List.takeWhile_append_dropWhile (p := isWhitespace) (l := cs)] at hc
    rcases List.mem_append.mp hc with hfront | hrest
    · exact List.mem_takeWhile_imp hfront
    · exact h c (List.mem_reverse.mpr hrest)
  · intro h c hc
    exact h c ((List.dropWhile_suffix _).mem (List.mem_reverse.mp hc))

/-- Whitespace around a tight text goes, and nothing else. -/
theorem trim_around (hpre : Blank pre) (hpost : Blank post) (h : Tight cs) :
    trim (pre ++ cs ++ post) = cs := by
  by_cases hcs : cs = []
  · subst hcs
    rw [trim_eq_nil_iff, List.append_nil]
    exact hpre.append hpost
  · have hhead : ∀ c ∈ (cs ++ post).head?, isWhitespace c = false := by
      rw [List.head?_append_of_ne_nil _ hcs]
      exact h.head
    have hlast : ∀ c ∈ cs.reverse.head?, isWhitespace c = false := by
      rw [List.head?_reverse]
      exact h.last
    have hpost' : Blank post.reverse := fun c hc => hpost c (List.mem_reverse.mp hc)
    rw [trim, List.append_assoc, trimStart_append hpre hhead, List.reverse_append,
      trimStart_append hpost' hlast, List.reverse_reverse]

/-- A text is what trimming leaves, with whitespace around it. -/
theorem exists_around (cs : List Char) :
    ∃ pre post, Blank pre ∧ Blank post ∧ cs = pre ++ trim cs ++ post := by
  obtain ⟨rest, hrest⟩ : ∃ rest, rest = trimStart cs := ⟨_, rfl⟩
  have hfront : cs = cs.takeWhile isWhitespace ++ rest := by
    rw [hrest, trimStart, List.takeWhile_append_dropWhile]
  have hback : rest = trim cs ++ (rest.reverse.takeWhile isWhitespace).reverse := by
    rw [trim, ← hrest, ← List.reverse_append, trimStart, List.takeWhile_append_dropWhile,
      List.reverse_reverse]
  refine ⟨cs.takeWhile isWhitespace, (rest.reverse.takeWhile isWhitespace).reverse, ?_, ?_, ?_⟩
  · exact fun c hc => List.mem_takeWhile_imp hc
  · exact fun c hc => List.mem_takeWhile_imp (List.mem_reverse.mp hc)
  · rw [List.append_assoc, ← hback]
    exact hfront

end Text

/-! ## Digits -/

namespace Numeral

/-- `n` in decimal behind `zeros` zeros. -/
def digits (zeros n : ℕ) : List Char := List.replicate zeros '0' ++ Nat.toDigits 10 n

def value (cs : List Char) : ℕ := Nat.ofDigitChars 10 cs 0

@[simp] theorem value_digits (zeros n : ℕ) : value (digits zeros n) = n := by
  simp [value, digits, Nat.ofDigitChars_append]

theorem digits_ne_nil (zeros n : ℕ) : digits zeros n ≠ [] :=
  List.append_ne_nil_of_right_ne_nil _ Nat.toDigits_ne_nil

theorem isDigit_of_mem {zeros n : ℕ} {c : Char} (h : c ∈ digits zeros n) : c.isDigit = true := by
  rcases List.mem_append.mp h with hzero | hdigit
  · rw [List.eq_of_mem_replicate hzero]
    decide
  · exact Nat.isDigit_of_mem_toDigits (by decide) (by decide) hdigit

theorem exists_digitChar {c : Char} (h : c.isDigit = true) : ∃ d < 10, c = Nat.digitChar d := by
  rw [Char.isDigit_iff_toNat] at h
  change 48 ≤ c.toNat ∧ c.toNat ≤ 57 at h
  have hall : ∀ d < 10, Nat.digitChar d = Char.ofNat (48 + d) := by decide
  refine ⟨c.toNat - 48, by omega, ?_⟩
  have hnat : 48 + (c.toNat - 48) = c.toNat := by omega
  rw [hall _ (by omega), hnat, Char.ofNat_toNat]

theorem digits_append_digit (zeros n : ℕ) {d : ℕ} (hd : d < 10) :
    ∃ zeros', digits zeros n ++ [Nat.digitChar d] = digits zeros' (10 * n + d) := by
  rw [digits, List.append_assoc, ← Nat.toDigits_of_lt_base hd]
  rcases Nat.eq_zero_or_pos n with rfl | hn
  · refine ⟨zeros + 1, ?_⟩
    rw [Nat.toDigits_zero, digits, List.replicate_succ', List.append_assoc, Nat.mul_zero,
      Nat.zero_add]
  · exact ⟨zeros, by rw [Nat.toDigits_append_toDigits (by decide) hn hd, digits]⟩

/-- Whatever digits there are, they are those of a number behind some zeros. -/
theorem exists_eq_digits {cs : List Char} (hne : cs ≠ []) (h : ∀ c ∈ cs, c.isDigit = true) :
    ∃ zeros n, cs = digits zeros n := by
  induction cs using List.reverseRecOn with
  | nil => exact absurd rfl hne
  | append_singleton cs c ih =>
      obtain ⟨d, hd, rfl⟩ := exists_digitChar (h c (by simp))
      by_cases hcs : cs = []
      · refine ⟨0, d, ?_⟩
        rw [hcs, digits, Nat.toDigits_of_lt_base hd, List.replicate_zero]
      · obtain ⟨zeros, n, rfl⟩ := ih hcs fun c hc => h c (List.mem_append_left _ hc)
        obtain ⟨zeros', heq⟩ := digits_append_digit zeros n hd
        exact ⟨zeros', _, heq⟩

end Numeral
