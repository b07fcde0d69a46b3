import Mathlib

/-!
# A budget that is spent optimistically

A charge of `n` adds `n` to a shared counter first, compares what it read
with the cap afterwards, and takes the `n` back when it was too much. Between
its steps other charges may come, so the counter can stand above the cap, and
it counts bytes that nobody will be granted. The books that balance at every
moment keep apart what was granted, what is about to be granted and what is
about to be taken back.
-/

namespace KirbLaSnoop

namespace Budget

structure Counter where
  used : ℕ
  stopped : Bool
  deriving DecidableEq

/-- How far a charge has got: the flag was found clear, the counter was read
as `used` after the addition, the amount is to be taken back, the flag is to
be raised. -/
inductive Phase where
  | adding
  | comparing (used : ℕ)
  | givingBack
  | stopping
  deriving DecidableEq

/-- What an atomic step of a charge leads to. -/
inductive Outcome where
  | next (phase : Phase)
  | answer (granted : Bool)
  deriving DecidableEq

def start (c : Counter) : Outcome :=
  if c.stopped then .answer false else .next .adding

/-- The later atomic steps of a charge of `n`. -/
def advance (cap n : ℕ) (c : Counter) : Phase → Counter × Outcome
  | .adding => ({ c with used := c.used + n }, .next (.comparing (c.used + n)))
  | .comparing used => (c, if used > cap then .next .givingBack else .answer true)
  | .givingBack => ({ c with used := c.used - n }, .next .stopping)
  | .stopping => ({ c with stopped := true }, .answer false)

/-- Only the step that answers can raise the flag. -/
theorem advance_next_stopped {cap n : ℕ} {c c' : Counter} {p p' : Phase}
    (h : advance cap n c p = (c', .next p')) : c'.stopped = c.stopped := by
  cases p with
  | stopping => cases (Prod.mk.inj h).2
  | _ =>
      obtain rfl := (Prod.mk.inj h).1
      rfl

theorem advance_refused {cap n : ℕ} {c c' : Counter} {p : Phase}
    (h : advance cap n c p = (c', .answer false)) : c'.stopped = true := by
  cases p with
  | stopping =>
      obtain rfl := (Prod.mk.inj h).1
      rfl
  | comparing used =>
      have hout := (Prod.mk.inj h).2
      split at hout
      · cases hout
      · cases hout
  | adding => cases (Prod.mk.inj h).2
  | givingBack => cases (Prod.mk.inj h).2

theorem advance_keeps_stopped (cap n : ℕ) {c : Counter} (hc : c.stopped = true) (p : Phase) :
    (advance cap n c p).1.stopped = true := by
  cases p <;> first | exact hc | rfl

/-- The part of the counter that belongs to one charge in progress. -/
def Phase.outstanding (n : ℕ) : Phase → ℕ
  | .comparing _ => n
  | .givingBack => n
  | _ => 0

/-- What one charge in progress is going to be granted. -/
def Phase.due (cap n : ℕ) : Phase → ℕ
  | .comparing used => if used > cap then 0 else n
  | _ => 0

theorem Phase.due_le_outstanding (cap n : ℕ) (p : Phase) : p.due cap n ≤ p.outstanding n := by
  cases p with
  | comparing used =>
      simp only [due, outstanding]
      split
      · exact Nat.zero_le n
      · exact le_refl n
  | _ => exact Nat.zero_le _

variable {ι : Type*} [Fintype ι] [DecidableEq ι]

theorem sum_update_add (f : ι → ℕ) (i : ι) (x : ℕ) :
    (∑ j, Function.update f i x j) + f i = (∑ j, f j) + x := by
  rw [← Finset.add_sum_erase Finset.univ (Function.update f i x) (Finset.mem_univ i),
    ← Finset.add_sum_erase Finset.univ f (Finset.mem_univ i), Function.update_self]
  have hrest : ∑ j ∈ Finset.univ.erase i, Function.update f i x j =
      ∑ j ∈ Finset.univ.erase i, f j := by
    apply Finset.sum_congr rfl
    intro j hj
    rw [Function.update_of_ne (Finset.ne_of_mem_erase hj)]
  rw [hrest]
  omega

/-- The charges in progress, by who makes them: amount and phase. -/
abbrev Pool (ι : Type*) := ι → Option (ℕ × Phase)

namespace Pool

def outstanding (p : Pool ι) (i : ι) : ℕ := (p i).elim 0 fun q => q.2.outstanding q.1

def due (cap : ℕ) (p : Pool ι) (i : ι) : ℕ := (p i).elim 0 fun q => q.2.due cap q.1

omit [Fintype ι] in
theorem outstanding_update (p : Pool ι) (i : ι) (x : Option (ℕ × Phase)) :
    outstanding (Function.update p i x) =
      Function.update p.outstanding i (x.elim 0 fun q => q.2.outstanding q.1) := by
  funext j
  by_cases hj : j = i
  · subst hj
    simp [outstanding]
  · simp [outstanding, hj]

omit [Fintype ι] in
theorem due_update (cap : ℕ) (p : Pool ι) (i : ι) (x : Option (ℕ × Phase)) :
    due cap (Function.update p i x) =
      Function.update (p.due cap) i (x.elim 0 fun q => q.2.due cap q.1) := by
  funext j
  by_cases hj : j = i
  · subst hj
    simp [due]
  · simp [due, hj]

end Pool

/-- The books: `granted` is what was answered `true` so far. -/
structure Balanced (cap : ℕ) (c : Counter) (p : Pool ι) (granted : ℕ) : Prop where
  used : c.used = granted + ∑ i, p.outstanding i
  capped : granted + ∑ i, p.due cap i ≤ cap

omit [DecidableEq ι] in
theorem balanced_zero (cap : ℕ) : Balanced cap ⟨0, false⟩ (fun _ : ι => none) 0 :=
  ⟨by simp [Pool.outstanding], by simp [Pool.due]⟩

namespace Balanced

variable {cap granted n : ℕ} {c c' : Counter} {p : Pool ι} {i : ι} {phase phase' : Phase}

/-- Replacing what one party has in progress, in terms of the old and the new
share of it. -/
theorem update (h : Balanced cap c p granted) (x : Option (ℕ × Phase)) {granted' : ℕ}
    (hused : c'.used + granted + p.outstanding i =
      c.used + granted' + x.elim 0 fun q => q.2.outstanding q.1)
    (hcapped : granted + ∑ j, p.due cap j ≤ cap →
      granted' + (∑ j, p.due cap j) + (x.elim 0 fun q => q.2.due cap q.1) ≤ cap + p.due cap i) :
    Balanced cap c' (Function.update p i x) granted' := by
  have hout := sum_update_add p.outstanding i (x.elim 0 fun q => q.2.outstanding q.1)
  have hdue := sum_update_add (p.due cap) i (x.elim 0 fun q => q.2.due cap q.1)
  have hbooks := h.used
  have hcap := hcapped h.capped
  constructor
  · rw [Pool.outstanding_update]
    omega
  · rw [Pool.due_update]
    omega

/-- A charge that finds the flag clear has not touched the counter yet. -/
theorem start (h : Balanced cap c p granted) (hi : p i = none) :
    Balanced cap c (Function.update p i (some (n, .adding))) granted := by
  apply h.update
  · simp [Pool.outstanding, hi, Phase.outstanding]
  · intro hcap
    simpa [Pool.due, hi, Phase.due] using hcap

/-- The addition: what is read is at most the cap only if there was room for
the amount beside all that is granted or due. -/
theorem advance_next (h : Balanced cap c p granted) (hi : p i = some (n, phase))
    (hstep : advance cap n c phase = (c', .next phase')) :
    Balanced cap c' (Function.update p i (some (n, phase'))) granted := by
  have hdue : ∑ j, p.due cap j ≤ ∑ j, p.outstanding j := by
    apply Finset.sum_le_sum
    intro j _
    cases hj : p j with
    | none => simp [Pool.due, Pool.outstanding, hj]
    | some q => simpa [Pool.due, Pool.outstanding, hj] using q.2.due_le_outstanding cap q.1
  have hown : p.outstanding i ≤ ∑ j, p.outstanding j :=
    Finset.single_le_sum (fun j _ => Nat.zero_le _) (Finset.mem_univ i)
  have hused := h.used
  cases phase with
  | adding =>
      obtain ⟨rfl, hnext⟩ := Prod.mk.inj hstep
      obtain rfl := Outcome.next.inj hnext
      apply h.update
      · simp only [Pool.outstanding, hi, Option.elim_some, Phase.outstanding]
        omega
      · intro hcap
        simp only [Pool.due, hi, Option.elim_some, Phase.due] at hdue ⊢
        split
        · exact hcap
        · have hroom : c.used + n ≤ cap := by omega
          simp only [Pool.due] at hcap
          omega
  | comparing used =>
      obtain ⟨rfl, hnext⟩ := Prod.mk.inj hstep
      split at hnext
      · next hover =>
          obtain rfl := Outcome.next.inj hnext
          apply h.update
          · simp [Pool.outstanding, hi, Phase.outstanding]
          · intro hcap
            simpa [Pool.due, hi, Phase.due, hover] using hcap
      · cases hnext
  | givingBack =>
      obtain ⟨rfl, hnext⟩ := Prod.mk.inj hstep
      obtain rfl := Outcome.next.inj hnext
      apply h.update
      · have hshare : p.outstanding i = n := by simp [Pool.outstanding, hi, Phase.outstanding]
        simp only [Option.elim_some, Phase.outstanding]
        omega
      · intro hcap
        simpa [Pool.due, hi, Phase.due] using hcap
  | stopping => cases (Prod.mk.inj hstep).2

/-- An answer closes the charge; a granted amount moves to the granted side. -/
theorem advance_answer (h : Balanced cap c p granted) (hi : p i = some (n, phase)) {b : Bool}
    (hstep : advance cap n c phase = (c', .answer b)) :
    Balanced cap c' (Function.update p i none) (granted + if b then n else 0) := by
  cases phase with
  | comparing used =>
      obtain ⟨rfl, hans⟩ := Prod.mk.inj hstep
      split at hans
      · cases hans
      · next hroom =>
          obtain rfl := Outcome.answer.inj hans
          apply h.update
          · simp only [Pool.outstanding, hi, Option.elim_some, Option.elim_none,
              Phase.outstanding, if_true]
            omega
          · intro hcap
            simp only [Pool.due, hi, Option.elim_some, Option.elim_none, Phase.due, hroom,
              if_true, if_false] at hcap ⊢
            omega
  | stopping =>
      obtain ⟨rfl, hans⟩ := Prod.mk.inj hstep
      obtain rfl := Outcome.answer.inj hans
      apply h.update
      · simp [Pool.outstanding, hi, Phase.outstanding]
      · intro hcap
        simpa [Pool.due, hi, Phase.due] using hcap
  | adding => cases (Prod.mk.inj hstep).2
  | givingBack => cases (Prod.mk.inj hstep).2

omit [DecidableEq ι] in
/-- With no charge in progress the counter is what was granted. -/
theorem used_eq (h : Balanced cap c p granted) (hp : ∀ i, p i = none) : c.used = granted := by
  have hzero : ∑ i, p.outstanding i = 0 := by
    apply Finset.sum_eq_zero
    intro i _
    simp [Pool.outstanding, hp i]
  rw [h.used, hzero, Nat.add_zero]

end Balanced

/-! ## A charge that nobody interrupts -/

def charge (cap n : ℕ) (c : Counter) : Bool × Counter :=
  if c.stopped then (false, c)
  else if c.used + n > cap then (false, { c with stopped := true })
  else (true, { c with used := c.used + n })

def settle (cap n : ℕ) : ℕ → Counter → Outcome → Option (Bool × Counter)
  | _, c, .answer b => some (b, c)
  | 0, _, .next _ => none
  | fuel + 1, c, .next phase =>
      let (c, out) := advance cap n c phase
      settle cap n fuel c out

theorem settle_start (cap n : ℕ) (c : Counter) :
    settle cap n 4 c (start c) = some (charge cap n c) := by
  cases hstop : c.stopped with
  | true => simp [start, settle, charge, hstop]
  | false =>
      by_cases hover : c.used + n > cap
      · simp [start, settle, charge, advance, hstop, hover]
      · simp [start, settle, charge, advance, hstop, hover]

end Budget

end KirbLaSnoop
