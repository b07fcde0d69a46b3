import Mathlib
import KirbLaSnoop.Lib.InTurn
import KirbLaSnoop.Stream.Failure
import KirbLaSnoop.Stream.Size

/-!
# The head cap on narrow targets

The room that is left in the head is narrowed to a `usize` before it is
compared with the length of a write. Where that takes something off the room,
bytes that belong in the head are sent past it.
-/

namespace KirbLaSnoop

namespace Stream

variable {P : Type*} [DecidableEq P]

/-- The limits that `main` makes of `--ring`, `--stream-head` and `--stream-tail`. -/
def limitsOfArgs (w : ℕ) (ring : Option UInt64) (streamHead streamTail : UInt64) : Limits :=
  ⟨ring.getD streamHead, (ring.getD streamTail).toNat % 2 ^ w⟩

def writesOn (w : ℕ) (s : Stream P) (io : Io) (d : Disk P) : List (List UInt8) → Stream P × Disk P
  | [] => (s, d)
  | data :: rest =>
      let (_, s, d) := s.writeOn w io d data
      s.writesOn w io d rest

/-- A new capture and the writes to it, where `usize` has `w` bits. -/
def captureOn (w : ℕ) (headPath tailPath : P) (limits : Limits) (d : Disk P)
    (chunks : List (List UInt8)) : Option (Stream P × Disk P) :=
  (create .ok headPath tailPath limits d).map fun (s, d) => s.writesOn w .ok d chunks

theorem writesOn_concat (w : ℕ) (s : Stream P) (io : Io) (d : Disk P)
    (chunks : List (List UInt8)) (data : List UInt8) :
    s.writesOn w io d (chunks ++ [data]) =
      ((s.writesOn w io d chunks).1.writeOn w io (s.writesOn w io d chunks).2 data).2 := by
  induction chunks generalizing s d with
  | nil => rfl
  | cons first rest ih => exact ih _ _

/-- On 64 bits these are the writes of `capture`. -/
theorem writesOn_eq_writes (s : Stream P) (io : Io) (d : Disk P) (chunks : List (List UInt8)) :
    s.writesOn 64 io d chunks = (s.writes io d chunks).2 := by
  induction chunks generalizing s d with
  | nil => rfl
  | cons data rest ih => exact ih _ _

/-- What the head cap promises once the bytes `D` have gone through. -/
def KeepsHead (headPath : P) (head : ℕ) (D : List UInt8) (c : Stream P × Disk P) : Prop :=
  c.2.contents headPath = D.take (min head D.length) ∧
    (D.length ≤ head → c.1.tail = [] ∧ c.1.dropped = 0)

def Honoured (w : ℕ) (headPath tailPath : P) (limits : Limits) (d : Disk P)
    (chunks : List (List UInt8)) : Prop :=
  ∃ c, captureOn w headPath tailPath limits d chunks = some c ∧
    KeepsHead headPath limits.head.toNat chunks.flatten c

/-- Narrowing the room that `written` bytes leave makes no difference to a
write of `len` bytes. -/
def Fits (w head written len : ℕ) : Prop :=
  head - written < 2 ^ w ∨ len ≤ (head - written) % 2 ^ w

theorem fits_iff (w head written len : ℕ) :
    Fits w head written len ↔
      min ((head - written) % 2 ^ w) len = min (head - written) len := by
  have hpos : 0 < 2 ^ w := Nat.two_pow_pos w
  have hmod := Nat.mod_lt (head - written) hpos
  unfold Fits
  rcases Nat.lt_or_ge (head - written) (2 ^ w) with hlt | hge
  · rw [Nat.mod_eq_of_lt hlt]
    exact iff_of_true (.inl hlt) rfl
  · omega

/-! ## One write -/

theorem writeOn_eq_write (w : ℕ) (s : Stream P) (io : Io) (d : Disk P) (data : List UInt8)
    (h : Fits w s.limits.head.toNat s.headWritten data.length) :
    s.writeOn w io d data = s.write io d data := by
  have hlt : s.limits.head.toNat - s.headWritten < 2 ^ 64 :=
    Nat.lt_of_le_of_lt (Nat.sub_le _ _) s.limits.head.toNat_lt
  simp only [write, writeOn, (fits_iff _ _ _ _).mp h, Nat.mod_eq_of_lt hlt]

section Run

variable {headPath tailPath : P} {limits : Limits} (hH : limits.head.toNat ≠ 0)

include hH

theorem writeOn_after {w : ℕ} {D data : List UInt8}
    (h : Fits w limits.head.toNat D.length data.length) (d : Disk P) :
    ((after headPath tailPath limits D).writeOn w .ok
        (d.set headPath (Capture.headPart limits.head.toNat D)) data).2 =
      (after headPath tailPath limits (D ++ data),
        d.set headPath (Capture.headPart limits.head.toNat (D ++ data))) := by
  have hfits : Fits w limits.head.toNat (after headPath tailPath limits D).headWritten
      data.length := by
    unfold Fits at h ⊢
    rwa [after, Capture.sub_length_headPart hH]
  have hwrite := write_after headPath tailPath limits d [] D data
  rw [List.nil_append, List.nil_append] at hwrite
  rw [writeOn_eq_write w _ .ok _ data hfits, hwrite]

theorem keepsHead_after (D : List UInt8) (d : Disk P) :
    KeepsHead headPath limits.head.toNat D (after headPath tailPath limits D,
      d.set headPath (Capture.headPart limits.head.toNat D)) := by
  constructor
  · rw [Disk.contents_set, Capture.headPart_of_pos hH, ← List.take_eq_take_min]
  · intro hle
    exact ⟨(Capture.tailPart_eq_nil_iff _ _ _).mpr (.inr (.inr hle)),
      (Capture.lost_eq_zero_iff _ _ _).mpr (.inr (Nat.le_add_right_of_le hle))⟩

/-- After a write for which the narrowing counts the head file is too short. -/
theorem not_keepsHead_of_not_fits {w : ℕ} {D data : List UInt8}
    (h : ¬Fits w limits.head.toNat D.length data.length) (d : Disk P) :
    ¬KeepsHead headPath limits.head.toNat (D ++ data)
      ((after headPath tailPath limits D).writeOn w .ok
        (d.set headPath (Capture.headPart limits.head.toNat D)) data).2 := by
  rintro ⟨hfile, -⟩
  have hpos : 0 < 2 ^ w := Nat.two_pow_pos w
  have hmod := Nat.mod_lt (limits.head.toNat - D.length) hpos
  unfold Fits at h
  have hunl : (after headPath tailPath limits D).limits.unlimited ≠ true :=
    mt (unlimited_iff limits).mp hH
  have hroom : (after headPath tailPath limits D).limits.head.toNat -
      (after headPath tailPath limits D).headWritten = limits.head.toNat - D.length :=
    Capture.sub_length_headPart hH D
  have hlen := congrArg List.length hfile
  rw [disk_writeOn, if_neg hunl, hroom, if_pos (by omega), contents_writeHead _ rfl, if_pos rfl,
    Disk.contents_set, Capture.headPart_of_pos hH] at hlen
  simp only [Io.ok, Landed.of, List.length_append, List.length_take] at hlen
  omega

/-! ## A run -/

/-- While the narrowing counts for no write, the run goes as on 64 bits. -/
theorem writesOn_after {w : ℕ} {chunks : List (List UInt8)} (h : EachStep
      (fun done data => Fits w limits.head.toNat done.flatten.length data.length) chunks)
    (d : Disk P) :
    (after headPath tailPath limits []).writesOn w .ok
        (d.set headPath (Capture.headPart limits.head.toNat [])) chunks =
      (after headPath tailPath limits chunks.flatten,
        d.set headPath (Capture.headPart limits.head.toNat chunks.flatten)) := by
  induction chunks using List.reverseRecOn with
  | nil => rfl
  | append_singleton chunks data ih =>
      obtain ⟨hfront, hlast⟩ := EachStep.concat_iff.mp h
      rw [writesOn_concat, ih hfront, writeOn_after hH hlast, List.flatten_concat]

end Run

theorem captureOn_eq (w : ℕ) (headPath tailPath : P) (limits : Limits) {d : Disk P}
    (hfresh : d.get headPath = none) (chunks : List (List UInt8)) :
    captureOn w headPath tailPath limits d chunks =
      some ((after headPath tailPath limits []).writesOn w .ok
        (d.set headPath (Capture.headPart limits.head.toNat [])) chunks) := by
  have hold : d.contents headPath = [] := by simp [Disk.contents, hfresh]
  rw [captureOn, create_eq_after, hold, List.nil_append, Option.map_some]

/-- The cap is kept at every moment of a run if and only if the narrowing
counts for none of its writes. -/
theorem honoured_iff (w : ℕ) (headPath tailPath : P) {limits : Limits}
    (hH : limits.head.toNat ≠ 0) {d : Disk P} (hfresh : d.get headPath = none)
    (chunks : List (List UInt8)) :
    (∀ pre, pre <+: chunks → Honoured w headPath tailPath limits d pre) ↔
      EachStep (fun done data => Fits w limits.head.toNat done.flatten.length data.length)
        chunks := by
  have hone : ∀ pre, Honoured w headPath tailPath limits d pre ↔
      KeepsHead headPath limits.head.toNat pre.flatten
        ((after headPath tailPath limits []).writesOn w .ok
          (d.set headPath (Capture.headPart limits.head.toNat [])) pre) := by
    intro pre
    rw [Honoured, captureOn_eq w headPath tailPath limits hfresh]
    simp
  simp only [hone]
  refine EachStep.forall_prefix_iff (keepsHead_after hH [] d) ?_ chunks
  intro done data hdone
  rw [writesOn_concat, writesOn_after hH hdone, List.flatten_concat]
  by_cases hfits : Fits w limits.head.toNat done.flatten.length data.length
  · rw [writeOn_after hH hfits]
    exact iff_of_true (keepsHead_after hH _ d) hfits
  · exact iff_of_false (not_keepsHead_of_not_fits hH hfits d) hfits

/-- A cap of `2 ^ w` bytes or more is broken by a run of writes of one byte. -/
theorem not_fits_replicate {w head : ℕ} (h : 2 ^ w ≤ head) :
    ¬Fits w head (List.replicate (head % 2 ^ w) [(0 : UInt8)]).flatten.length 1 := by
  have hpos : 0 < 2 ^ w := Nat.two_pow_pos w
  have hlen : (List.replicate (head % 2 ^ w) [(0 : UInt8)]).flatten.length = head % 2 ^ w := by
    simp
  have hroom : head - head % 2 ^ w = 2 ^ w * (head / 2 ^ w) := by
    have hdiv := Nat.div_add_mod head (2 ^ w)
    omega
  have hzero : (head - head % 2 ^ w) % 2 ^ w = 0 := by
    rw [hroom, Nat.mul_mod_right]
  have hmod := Nat.mod_lt head hpos
  have hge : 2 ^ w ≤ head - head % 2 ^ w := by
    rw [hroom]
    exact Nat.le_mul_of_pos_right _ (Nat.div_pos h hpos)
  rw [hlen, Fits, hzero]
  omega

/-- The head cap is honoured throughout a run if and only if narrowing the
room makes no difference to any of its writes, and in all runs if and only if
the cap itself is a `usize`. -/
theorem head_honoured_iff (w : ℕ) (headPath tailPath : P) (limits : Limits)
    (hH : limits.head.toNat ≠ 0) (d : Disk P) (hfresh : d.get headPath = none) :
    (∀ chunks, (∀ pre, pre <+: chunks → Honoured w headPath tailPath limits d pre) ↔
      ∀ pre data post, chunks = pre ++ data :: post →
        Fits w limits.head.toNat pre.flatten.length data.length) ∧
    ((∀ chunks, Honoured w headPath tailPath limits d chunks) ↔ limits.head.toNat < 2 ^ w) := by
  refine ⟨honoured_iff w headPath tailPath hH hfresh, ?_, ?_⟩
  · intro hall
    by_contra hbig
    refine not_fits_replicate (Nat.not_lt.mp hbig)
      ((honoured_iff w headPath tailPath hH hfresh _).mp (fun pre _ => hall pre) _ [0] [] rfl)
  · intro hlt chunks
    refine (honoured_iff w headPath tailPath hH hfresh chunks).mpr ?_ chunks List.prefix_rfl
    intro pre data post _
    exact .inl (Nat.lt_of_le_of_lt (Nat.sub_le _ _) hlt)

theorem head_honoured_iff_small :
    Honoured 32 0 1 ⟨4, 2⟩ (∅ : Disk ℕ) [[1, 2, 3], [4, 5]] := by
  have hpos : (⟨4, 2⟩ : Limits).head.toNat ≠ 0 := by decide
  have hlt : (⟨4, 2⟩ : Limits).head.toNat < 2 ^ 32 := by decide
  exact (head_honoured_iff 32 0 1 ⟨4, 2⟩ hpos ∅ rfl).2.mpr hlt [[1, 2, 3], [4, 5]]

/-- With a head of 4G the first byte of a capture is lost on 32 bits. -/
theorem not_head_honoured :
    ¬∀ (debug : String → String) (size : String) (head : UInt64), parseSize debug size = .ok head →
      head.toNat ≠ 0 → ∀ (tail : UInt64) (chunks : List (List UInt8)),
        Honoured 32 0 1 (limitsOfArgs 32 none head tail) (∅ : Disk ℕ) chunks := by
  intro hall
  obtain ⟨c, hc, hfile, -⟩ :=
    hall id "4G" 4294967296 (by decide +kernel) (by decide +kernel) 0 [[7]]
  have hlost : captureOn 32 0 1 (limitsOfArgs 32 none 4294967296 0) (∅ : Disk ℕ) [[7]] =
      some (⟨some 0, 1, 0, [], ⟨4294967296, 0⟩, 1, 1, true⟩, Table.set ∅ 0 []) := by
    decide +kernel
  obtain rfl := Option.some.inj (hlost.symm.trans hc)
  revert hfile
  decide +kernel

end Stream

end KirbLaSnoop
