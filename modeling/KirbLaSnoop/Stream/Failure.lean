import Mathlib
import KirbLaSnoop.Stream

/-!
# Captures whose I/O fails

`Stream` throws away the outcome of every I/O call. Its state is therefore the
same whatever fails, and only the files differ: each write adds to the head
file as much of its share as lands there.
-/

namespace KirbLaSnoop

namespace Capture

variable {α : Type*}

/-- What the next entries `r` of a sequence add to its head part. -/
def headShare (head : ℕ) (l r : List α) : List α :=
  if head = 0 then r else r.take (head - l.length)

theorem headPart_append_headShare (head : ℕ) (l r : List α) :
    headPart head (l ++ r) = headPart head l ++ headShare head l r := by
  by_cases h : head = 0
  · subst h
    simp [headShare]
  · rw [headPart_append h, headShare, if_neg h]

end Capture

namespace Disk

variable {P : Type*} [DecidableEq P]

@[simp] theorem contents_set (d : Disk P) (p : P) (bs : List UInt8) :
    contents (d.set p bs) p = bs := by
  simp [contents]

theorem contents_set_ne (d : Disk P) {p q : P} (bs : List UInt8) (h : q ≠ p) :
    contents (d.set p bs) q = d.contents q := by
  simp [contents, Table.get_set_ne _ _ h]

end Disk

@[simp] theorem Landed.of_nil (l : Landed) : l.of [] = [] := by
  cases l <;> simp [Landed.of]

theorem Landed.of_eq_self_iff (l : Landed) (bs : List UInt8) :
    l.of bs = bs ↔ (l.of bs).length = bs.length :=
  ⟨congrArg List.length, (l.of_sublist bs).eq_of_length⟩

namespace Stream

variable {P : Type*} [DecidableEq P]

/-- The state and the answer of a write depend neither on the files nor on
what fails. -/
theorem writeOn_state (w : ℕ) (s : Stream P) (io io' : Io) (d d' : Disk P) (data : List UInt8) :
    (s.writeOn w io d data).1 = (s.writeOn w io' d' data).1 ∧
      (s.writeOn w io d data).2.1 = (s.writeOn w io' d' data).2.1 := by
  simp only [writeOn]
  split
  · exact ⟨rfl, rfl⟩
  · generalize (if s.limits.head.toNat - s.headWritten > 0 then
      min ((s.limits.head.toNat - s.headWritten) % 2 ^ w) data.length else 0) = n
    split
    · exact ⟨rfl, rfl⟩
    · exact ⟨rfl, rfl⟩

/-- The file takes part in a write only while there is room in the head. -/
theorem disk_writeOn (w : ℕ) (s : Stream P) (io : Io) (d : Disk P) (data : List UInt8) :
    (s.writeOn w io d data).2.2 =
      if s.limits.unlimited then s.writeHead io d data
      else if s.limits.head.toNat - s.headWritten > 0 then
        s.writeHead io d
          (data.take (min ((s.limits.head.toNat - s.headWritten) % 2 ^ w) data.length))
      else d := by
  simp only [writeOn]
  split
  · rfl
  · by_cases hroom : s.limits.head.toNat - s.headWritten > 0
    · simp only [hroom, if_true]
      split <;> rfl
    · simp only [hroom, if_false]
      split <;> rfl

theorem contents_writeHead (s : Stream P) {headPath : P} (hhead : s.head = some headPath) (io : Io)
    (d : Disk P) (bs : List UInt8) (p : P) :
    (s.writeHead io d bs).contents p =
      if p = headPath then d.contents p ++ io.headWrite.of bs else d.contents p := by
  simp only [writeHead, hhead, Disk.append]
  split
  · next hp => rw [hp, Disk.contents_set]
  · next hp => rw [Disk.contents_set_ne _ _ hp]

theorem write_any_state (headPath tailPath : P) (limits : Limits) (D data : List UInt8) (io : Io)
    (d : Disk P) :
    ((after headPath tailPath limits D).write io d data).2.1 =
      after headPath tailPath limits (D ++ data) := by
  have hok := write_after headPath tailPath limits ∅ [] D data
  rw [write, (writeOn_state 64 _ io .ok d _ data).2]
  exact congrArg (fun r => r.2.1) hok

theorem write_any_first (headPath tailPath : P) (limits : Limits) (D data : List UInt8) (io : Io)
    (d : Disk P) :
    ((after headPath tailPath limits D).write io d data).1 =
      decide (limits.head.toNat ≠ 0 ∧ D.length ≤ limits.head.toNat ∧
        limits.head.toNat < (D ++ data).length) := by
  have hok := write_after headPath tailPath limits ∅ [] D data
  rw [write, (writeOn_state 64 _ io .ok d _ data).1]
  exact congrArg (fun r => r.1) hok

/-- As much of a write's share of the head as lands is appended to the head
file, and no other file changes. -/
theorem contents_write_any (headPath tailPath : P) (limits : Limits) (D data : List UInt8)
    (io : Io) (d : Disk P) (p : P) :
    (((after headPath tailPath limits D).write io d data).2.2).contents p =
      if p = headPath then
        d.contents p ++ io.headWrite.of (Capture.headShare limits.head.toNat D data)
      else d.contents p := by
  rw [write, disk_writeOn]
  by_cases hH : limits.head.toNat = 0
  · have hunl : (after headPath tailPath limits D).limits.unlimited = true :=
      (unlimited_iff limits).mpr hH
    rw [if_pos hunl, contents_writeHead _ rfl, Capture.headShare, if_pos hH]
  · have hunl : (after headPath tailPath limits D).limits.unlimited ≠ true :=
      mt (unlimited_iff limits).mp hH
    have hroom : (after headPath tailPath limits D).limits.head.toNat -
        (after headPath tailPath limits D).headWritten = limits.head.toNat - D.length :=
      Capture.sub_length_headPart hH D
    have hlt : limits.head.toNat - D.length < 2 ^ 64 :=
      Nat.lt_of_le_of_lt (Nat.sub_le _ _) limits.head.toNat_lt
    have htake : data.take (min (limits.head.toNat - D.length) data.length) =
        data.take (limits.head.toNat - D.length) := List.take_eq_take_min.symm
    simp only [if_neg hunl, hroom, Nat.mod_eq_of_lt hlt, htake]
    split
    · rw [contents_writeHead _ rfl, Capture.headShare, if_neg hH]
    · next hfull =>
        have hzero : limits.head.toNat - D.length = 0 := by omega
        rw [Capture.headShare, if_neg hH, hzero, List.take_zero, Landed.of_nil, List.append_nil,
          ite_self]

/-! ## Whole captures -/

/-- Successive writes, each with the outcomes of its own I/O. -/
def writesEach (s : Stream P) (d : Disk P) : List (Io × List UInt8) → Stream P × Disk P
  | [] => (s, d)
  | (io, data) :: rest =>
      let (_, s, d) := s.write io d data
      s.writesEach d rest

/-- What lands in the head file of the writes that follow the history `D`. -/
def headLanded (head : ℕ) : List UInt8 → List (Io × List UInt8) → List UInt8
  | _, [] => []
  | D, (io, data) :: rest =>
      io.headWrite.of (Capture.headShare head D data) ++ headLanded head (D ++ data) rest

def HeadLands (head : ℕ) : List UInt8 → List (Io × List UInt8) → Prop
  | _, [] => True
  | D, (io, data) :: rest =>
      io.headWrite.of (Capture.headShare head D data) = Capture.headShare head D data ∧
        HeadLands head (D ++ data) rest

def handed (chunks : List (Io × List UInt8)) : List UInt8 := chunks.flatMap Prod.snd

theorem writesEach_state (headPath tailPath : P) (limits : Limits) (D : List UInt8) (d : Disk P)
    (chunks : List (Io × List UInt8)) :
    ((after headPath tailPath limits D).writesEach d chunks).1 =
      after headPath tailPath limits (D ++ handed chunks) := by
  induction chunks generalizing D d with
  | nil => simp [writesEach, handed]
  | cons c rest ih =>
      obtain ⟨io, data⟩ := c
      have hstate := write_any_state headPath tailPath limits D data io d
      simp only [writesEach, hstate, ih, handed, List.flatMap_cons, List.append_assoc]

theorem contents_writesEach (headPath tailPath : P) (limits : Limits) (D : List UInt8) (d : Disk P)
    (chunks : List (Io × List UInt8)) (p : P) :
    (((after headPath tailPath limits D).writesEach d chunks).2).contents p =
      if p = headPath then d.contents p ++ headLanded limits.head.toNat D chunks
      else d.contents p := by
  induction chunks generalizing D d with
  | nil => simp [writesEach, headLanded]
  | cons c rest ih =>
      obtain ⟨io, data⟩ := c
      have hstate := write_any_state headPath tailPath limits D data io d
      simp only [writesEach, hstate, ih, contents_write_any, headLanded]
      split
      · rw [List.append_assoc]
      · rfl

theorem length_headLanded_le (head : ℕ) (D : List UInt8) (chunks : List (Io × List UInt8)) :
    (headLanded head D chunks).length + (Capture.headPart head D).length ≤
      (Capture.headPart head (D ++ handed chunks)).length := by
  induction chunks generalizing D with
  | nil => simp [headLanded, handed]
  | cons c rest ih =>
      obtain ⟨io, data⟩ := c
      have hrest := ih (D ++ data)
      have hlanded := io.headWrite.length_of_le (Capture.headShare head D data)
      rw [Capture.headPart_append_headShare, List.length_append] at hrest
      simp only [headLanded, handed, List.flatMap_cons, List.length_append, List.append_assoc]
        at hrest ⊢
      omega

/-- The ring goes into the tail file as far as it lands, if there is a ring
and the file could be created. -/
theorem finish_of_created {s : Stream P} {io : Io} (htail : s.tail ≠ [])
    (hcreate : io.tailCreate = true) (d : Disk P) :
    (s.finish io d).1.tailPath = some s.tailPath ∧
      ∀ p, ((s.finish io d).2).contents p =
        if p = s.tailPath then io.tailWrite.of s.tail else d.contents p := by
  have hwritten : (!s.tail.isEmpty && io.tailCreate) = true := by simp [htail, hcreate]
  simp only [finish, hwritten, if_true, Disk.append, Disk.create, Disk.contents_set,
    List.nil_append, true_and]
  intro p
  split
  · next hp => rw [hp, Disk.contents_set]
  · next hp => rw [Disk.contents_set_ne _ _ hp, Disk.contents_set_ne _ _ hp]

theorem finish_of_not_created {s : Stream P} {io : Io}
    (h : ¬ (s.tail ≠ [] ∧ io.tailCreate = true)) (d : Disk P) :
    (s.finish io d).1.tailPath = none ∧ (s.finish io d).2 = d := by
  have hwritten : (!s.tail.isEmpty && io.tailCreate) = false := by
    simpa [← Bool.not_eq_true] using h
  simp only [finish, hwritten, Bool.false_eq_true, if_false, and_self]

/-- The head file is as long as the stream's counter says exactly when
nothing of the head was lost on the way. -/
theorem length_headLanded_eq_iff (head : ℕ) (D : List UInt8) (chunks : List (Io × List UInt8)) :
    (headLanded head D chunks).length + (Capture.headPart head D).length =
        (Capture.headPart head (D ++ handed chunks)).length ↔ HeadLands head D chunks := by
  induction chunks generalizing D with
  | nil => simp [headLanded, handed, HeadLands]
  | cons c rest ih =>
      obtain ⟨io, data⟩ := c
      have hle := length_headLanded_le head (D ++ data) rest
      have hlanded := io.headWrite.length_of_le (Capture.headShare head D data)
      have hshare := Capture.headPart_append_headShare head D data
      rw [HeadLands, ← ih, Landed.of_eq_self_iff]
      rw [hshare, List.length_append] at hle ⊢
      simp only [headLanded, handed, List.flatMap_cons, List.length_append, List.append_assoc]
        at hle ⊢
      omega

/-- A stream from its creation on the empty disk, where the head file opens, to
its last write. -/
def session (headPath tailPath : P) (limits : Limits) (chunks : List (Io × List UInt8)) :
    Option (Stream P × Disk P) :=
  (create .ok headPath tailPath limits ∅).map fun (s, d) => s.writesEach d chunks

theorem session_eq_some {headPath tailPath : P} (hne : headPath ≠ tailPath) (limits : Limits)
    (chunks : List (Io × List UInt8)) :
    ∃ d, session headPath tailPath limits chunks =
        some (after headPath tailPath limits (handed chunks), d) ∧
      d.contents headPath = headLanded limits.head.toNat [] chunks ∧ d.contents tailPath = [] := by
  have hstate := writesEach_state headPath tailPath limits []
    ((∅ : Disk P).set headPath []) chunks
  have hcontents := contents_writesEach headPath tailPath limits []
    ((∅ : Disk P).set headPath []) chunks
  refine ⟨((after headPath tailPath limits []).writesEach ((∅ : Disk P).set headPath [])
    chunks).2, ?_, ?_, ?_⟩
  · simp only [session, create_eq_after, Option.map_some, Disk.contents, Table.get_empty,
      Option.getD_none, Capture.headPart_nil, List.append_nil]
    exact congrArg some (Prod.ext hstate rfl)
  · rw [hcontents, if_pos rfl, Disk.contents_set, List.nil_append]
  · rw [hcontents, if_neg hne.symm, Disk.contents_set_ne _ _ hne.symm]
    rfl

/-- All that `finish` counts is on disk: no share of the head was cut short,
and the ring, unless it is empty, finds its file and lands whole. -/
def Lands (limits : Limits) (chunks : List (Io × List UInt8)) (io : Io) : Prop :=
  HeadLands limits.head.toNat [] chunks ∧
    (Capture.tailPart limits.head.toNat limits.tail (handed chunks) = [] ∨
      io.tailCreate = true ∧
        io.tailWrite.of (Capture.tailPart limits.head.toNat limits.tail (handed chunks)) =
          Capture.tailPart limits.head.toNat limits.tail (handed chunks))

end Stream

end KirbLaSnoop
