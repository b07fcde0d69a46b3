import Mathlib
import KirbLaSnoop.Lib.Capture
import KirbLaSnoop.Lib.Table

/-!
# Head-plus-tail capture files

`Stream` keeps the first `head` bytes of one direction of a connection in one
file and the last `tail` bytes in another. The files live on a `Disk`, and
every I/O call takes its outcome from the environment, because the code
throws all of those results away.
-/

namespace KirbLaSnoop

/-- The contents of the files, by path. -/
abbrev Disk (P : Type*) := Table P (List UInt8)

namespace Disk

variable {P : Type*} [DecidableEq P]

def contents (d : Disk P) (p : P) : List UInt8 := (d.get p).getD []

/-- Open for appending, creating the file when it is not there. -/
def openAppend (d : Disk P) (p : P) : Disk P := d.set p (d.contents p)

/-- Create the file, cutting an existing one down to nothing. -/
def create (d : Disk P) (p : P) : Disk P := d.set p []

def append (d : Disk P) (p : P) (bs : List UInt8) : Disk P := d.set p (d.contents p ++ bs)

def bytes (d : Disk P) : ℕ := Table.weight List.length d

end Disk

/-- How much of a buffer handed to `write_all` reaches the file, up to the last
flush. The ring is handed over as two slices, the first of `split` bytes, and
either can stop short of its end. -/
inductive Landed where
  | all
  | upTo (n : ℕ)
  | slices (split m n : ℕ)
  deriving DecidableEq

def Landed.of : Landed → List UInt8 → List UInt8
  | .all, bs => bs
  | .upTo n, bs => bs.take n
  | .slices split m n, bs => (bs.take split).take m ++ (bs.drop split).take n

/-- Whatever fails, nothing lands that was not handed over, and nothing twice. -/
theorem Landed.of_sublist (l : Landed) (bs : List UInt8) : (l.of bs).Sublist bs := by
  cases l with
  | all => exact List.Sublist.refl bs
  | upTo n => exact List.take_sublist n bs
  | slices split m n =>
      have hsplit := List.Sublist.append (List.take_sublist m (bs.take split))
        (List.take_sublist n (bs.drop split))
      rwa [List.take_append_drop] at hsplit

theorem Landed.length_of_le (l : Landed) (bs : List UInt8) : (l.of bs).length ≤ bs.length :=
  (l.of_sublist bs).length_le

/-- The outcomes of the I/O calls one operation may make. -/
structure Io where
  headOpen : Bool
  headWrite : Landed
  tailCreate : Bool
  tailWrite : Landed
  deriving DecidableEq

def Io.ok : Io := ⟨true, .all, true, .all⟩

/-- `head` bytes are kept at the front, 0 meaning unlimited, and `tail` bytes
at the end, 0 meaning no tail file. -/
structure Limits where
  head : UInt64
  tail : ℕ
  deriving DecidableEq

def Limits.unlimited (l : Limits) : Bool := l.head == 0

structure Stream (P : Type*) where
  head : Option P
  tailPath : P
  headWritten : ℕ
  tail : List UInt8
  limits : Limits
  total : ℕ
  dropped : ℕ
  truncating : Bool
  deriving DecidableEq

/-- What landed on disk for one direction of one connection. -/
structure Summary (P : Type*) where
  total : ℕ
  head : ℕ
  tail : ℕ
  dropped : ℕ
  tailPath : Option P
  deriving DecidableEq

namespace Stream

variable {P : Type*} [DecidableEq P]

/-- `None` is the failed open. -/
def create (io : Io) (headPath tailPath : P) (limits : Limits) (d : Disk P) :
    Option (Stream P × Disk P) :=
  if io.headOpen then
    some ({ head := some headPath, tailPath, headWritten := 0, tail := [], limits,
            total := 0, dropped := 0, truncating := false }, d.openAppend headPath)
  else none

/-- `write_all` on the head file, its result ignored. -/
def writeHead (s : Stream P) (io : Io) (d : Disk P) (bs : List UInt8) : Disk P :=
  match s.head with
  | some p => d.append p (io.headWrite.of bs)
  | none => d

/-- The part of `write` that comes after the head: `rest` is not empty. -/
def writeTail (s : Stream P) (rest : List UInt8) : Bool × Stream P :=
  let first := !s.truncating
  let s := { s with truncating := true }
  let cap := s.limits.tail
  if cap = 0 then
    (first, { s with dropped := s.dropped + rest.length })
  else if rest.length ≥ cap then
    -- this write alone overruns the ring
    (first, { s with
      dropped := s.dropped + (s.tail.length + (rest.length - cap))
      tail := rest.drop (rest.length - cap) })
  else
    let overflow := s.tail.length + rest.length - cap
    (first, { s with
      dropped := s.dropped + overflow
      tail := s.tail.drop overflow ++ rest })

/-- `write` on a target whose `usize` has `w` bits: the room left in the head
is a `u64` that is narrowed before it is compared with the slice length. -/
def writeOn (w : ℕ) (s : Stream P) (io : Io) (d : Disk P) (data : List UInt8) :
    Bool × Stream P × Disk P :=
  let s := { s with total := s.total + data.length }
  if s.limits.unlimited then
    (false, { s with headWritten := s.headWritten + data.length }, s.writeHead io d data)
  else
    let room := s.limits.head.toNat - s.headWritten
    let n := if room > 0 then min (room % 2 ^ w) data.length else 0
    let d := if room > 0 then s.writeHead io d (data.take n) else d
    let s := { s with headWritten := s.headWritten + n }
    let rest := data.drop n
    if rest = [] then (false, s, d)
    else
      let (first, s) := s.writeTail rest
      (first, s, d)

/-- `write` where `usize` has 64 bits. -/
def write (s : Stream P) (io : Io) (d : Disk P) (data : List UInt8) : Bool × Stream P × Disk P :=
  s.writeOn 64 io d data

def finish (s : Stream P) (io : Io) (d : Disk P) : Summary P × Disk P :=
  let written := !s.tail.isEmpty && io.tailCreate
  ({ total := s.total
     head := s.headWritten
     tail := s.tail.length
     dropped := s.dropped
     tailPath := if written then some s.tailPath else none },
   if written then (d.create s.tailPath).append s.tailPath (io.tailWrite.of s.tail) else d)

def writes (s : Stream P) (io : Io) (d : Disk P) : List (List UInt8) → List Bool × Stream P × Disk P
  | [] => ([], s, d)
  | data :: rest =>
      let (first, s, d) := s.write io d data
      let (firsts, s, d) := s.writes io d rest
      (first :: firsts, s, d)

/-! ## The state as a function of the history -/

/-- The state of a stream through which exactly the bytes `D` have gone. -/
def after (headPath tailPath : P) (limits : Limits) (D : List UInt8) : Stream P where
  head := some headPath
  tailPath := tailPath
  headWritten := (Capture.headPart limits.head.toNat D).length
  tail := Capture.tailPart limits.head.toNat limits.tail D
  limits := limits
  total := D.length
  dropped := Capture.lost limits.head.toNat limits.tail D
  truncating := decide (limits.head.toNat ≠ 0 ∧ limits.head.toNat < D.length)

theorem unlimited_iff (l : Limits) : l.unlimited = true ↔ l.head.toNat = 0 := by
  simp [Limits.unlimited, ← UInt64.toNat_inj]

omit [DecidableEq P] in
/-- The three branches of the ring agree with keeping the last `tail` bytes of
everything that went past the head. -/
theorem writeTail_ring (s : Stream P) (l rest : List UInt8)
    (htail : s.tail = l.rtake s.limits.tail) (hdropped : s.dropped = l.length - s.limits.tail) :
    s.writeTail rest = (!s.truncating,
      { s with
        truncating := true
        tail := (l ++ rest).rtake s.limits.tail
        dropped := (l ++ rest).length - s.limits.tail }) := by
  have hlen : s.tail.length = min s.limits.tail l.length := by
    rw [htail, Capture.length_rtake]
  by_cases hcap : s.limits.tail = 0
  · have hnil : s.tail = [] := by simpa [hcap] using htail
    simp [writeTail, hcap, hnil, hdropped]
  · by_cases hover : rest.length ≥ s.limits.tail
    · have hring : (l ++ rest).rtake s.limits.tail = rest.drop (rest.length - s.limits.tail) :=
        Capture.rtake_append_of_le hover
      have hdrop : s.dropped + (s.tail.length + (rest.length - s.limits.tail)) =
          (l ++ rest).length - s.limits.tail := by
        rw [List.length_append]
        omega
      simp only [writeTail, if_neg hcap, if_pos hover, hring, hdrop]
    · have hring : s.tail.drop (s.tail.length + rest.length - s.limits.tail) ++ rest =
          (l ++ rest).rtake s.limits.tail := by
        rw [htail]
        exact Capture.drop_rtake_append (by omega)
      have hdrop : s.dropped + (s.tail.length + rest.length - s.limits.tail) =
          (l ++ rest).length - s.limits.tail := by
        rw [List.length_append]
        omega
      simp only [writeTail, if_neg hcap, if_neg hover, hring, hdrop]

omit [DecidableEq P] in
theorem total_writeTail (s : Stream P) (rest : List UInt8) :
    (s.writeTail rest).2.total = s.total := by
  unfold writeTail
  dsimp only
  split_ifs
  · rfl
  · rfl
  · rfl

/-- Every byte handed to a stream counts, whether or not it is kept. -/
theorem total_write (s : Stream P) (io : Io) (d : Disk P) (data : List UInt8) :
    (s.write io d data).2.1.total = s.total + data.length := by
  simp only [write, writeOn]
  split
  · rfl
  · generalize (if s.limits.head.toNat - s.headWritten > 0 then
      min ((s.limits.head.toNat - s.headWritten) % 2 ^ 64) data.length else 0) = n
    split
    · rfl
    · exact total_writeTail _ _

/-- Under a head cap, a write appends what fits in the room that is left and
hands the rest to the ring. On 64 bits the narrowing of the room is harmless. -/
theorem write_limited (s : Stream P) (d : Disk P) (data : List UInt8)
    (hH : s.limits.head.toNat ≠ 0) :
    s.write .ok d data =
      let room := s.limits.head.toNat - s.headWritten
      let d := if room > 0 then s.writeHead .ok d (data.take room) else d
      let t := { s with
        total := s.total + data.length
        headWritten := s.headWritten + min room data.length }
      if data.drop room = [] then (false, t, d)
      else ((t.writeTail (data.drop room)).1, (t.writeTail (data.drop room)).2, d) := by
  have hunl : s.limits.unlimited = false := by
    rw [← Bool.not_eq_true, unlimited_iff]
    exact hH
  have hlt : s.limits.head.toNat < 2 ^ 64 := s.limits.head.toNat_lt
  have hmod : (s.limits.head.toNat - s.headWritten) % 2 ^ 64 =
      s.limits.head.toNat - s.headWritten := Nat.mod_eq_of_lt (by omega)
  by_cases hroom : s.limits.head.toNat - s.headWritten > 0
  · have htake : data.take (min (s.limits.head.toNat - s.headWritten) data.length) =
        data.take (s.limits.head.toNat - s.headWritten) := List.take_eq_take_min.symm
    have hdrop : data.drop (min (s.limits.head.toNat - s.headWritten) data.length) =
        data.drop (s.limits.head.toNat - s.headWritten) := by
      rcases Nat.le_total (s.limits.head.toNat - s.headWritten) data.length with h | h
      · rw [Nat.min_eq_left h]
      · rw [Nat.min_eq_right h, List.drop_length, List.drop_of_length_le h]
    simp only [write, writeOn, hunl, Bool.false_eq_true, if_false, hmod, hroom, if_true, htake,
      hdrop, writeHead]
  · have hzero : s.limits.head.toNat - s.headWritten = 0 := by omega
    simp [write, writeOn, hunl, hzero]

/-- One write moves the stream from the history `D` to `D ++ data`, and the
head file with it. The answer is the first passing of the cap. -/
theorem write_after (headPath tailPath : P) (limits : Limits) (d : Disk P)
    (old D data : List UInt8) :
    (after headPath tailPath limits D).write .ok
        (d.set headPath (old ++ Capture.headPart limits.head.toNat D)) data =
      (decide (limits.head.toNat ≠ 0 ∧ D.length ≤ limits.head.toNat ∧
          limits.head.toNat < (D ++ data).length),
        after headPath tailPath limits (D ++ data),
        d.set headPath (old ++ Capture.headPart limits.head.toNat (D ++ data))) := by
  by_cases hH : limits.head.toNat = 0
  · have hunl : limits.unlimited = true := (unlimited_iff limits).mpr hH
    simp [write, writeOn, after, hunl, hH, writeHead, Io.ok, Landed.of, Disk.append,
      Disk.contents, Capture.tailPart, Capture.lost]
  · rw [write_limited _ _ _ hH]
    have hroom := Capture.sub_length_headPart hH D
    have hhead := Capture.headPart_append hH D data
    have hpast := Capture.pastHead_append hH D data
    have hwritten : (Capture.headPart limits.head.toNat D).length +
        min (limits.head.toNat - D.length) data.length =
          (Capture.headPart limits.head.toNat (D ++ data)).length := by
      rw [hhead, List.length_append, List.length_take]
    have hdisk : (if limits.head.toNat - D.length > 0 then
        (after headPath tailPath limits D).writeHead .ok
          (d.set headPath (old ++ Capture.headPart limits.head.toNat D))
          (data.take (limits.head.toNat - D.length))
        else d.set headPath (old ++ Capture.headPart limits.head.toNat D)) =
          d.set headPath (old ++ Capture.headPart limits.head.toNat (D ++ data)) := by
      split
      · simp [writeHead, after, Io.ok, Landed.of, Disk.append, Disk.contents, hhead]
      · have hzero : limits.head.toNat - D.length = 0 := by omega
        simp [hhead, hzero]
    simp only [after] at hdisk ⊢
    simp only [hroom, hwritten, hdisk]
    by_cases hrest : data.drop (limits.head.toNat - D.length) = []
    · rw [if_pos hrest]
      have hle : data.length ≤ limits.head.toNat - D.length := List.drop_eq_nil_iff.mp hrest
      have hsame : Capture.pastHead limits.head.toNat (D ++ data) =
          Capture.pastHead limits.head.toNat D := by
        rw [hpast, hrest, List.append_nil]
      have hpassed : decide (limits.head.toNat ≠ 0 ∧ D.length ≤ limits.head.toNat ∧
          limits.head.toNat < (D ++ data).length) = false := by
        rw [decide_eq_false_iff_not, List.length_append]
        omega
      have htrunc : limits.head.toNat < D.length ↔ limits.head.toNat < (D ++ data).length := by
        rw [List.length_append]
        omega
      simp only [Capture.tailPart, Capture.lost, hsame, hpassed, htrunc, ← List.length_append]
    · rw [if_neg hrest]
      have hgt : limits.head.toNat - D.length < data.length := by
        rw [List.drop_eq_nil_iff] at hrest
        omega
      have hpassed : limits.head.toNat < (D ++ data).length := by
        rw [List.length_append]
        omega
      have hfirst : (!decide (limits.head.toNat ≠ 0 ∧ limits.head.toNat < D.length)) =
          decide (limits.head.toNat ≠ 0 ∧ D.length ≤ limits.head.toNat ∧
            limits.head.toNat < (D ++ data).length) := by
        rw [← decide_not, decide_eq_decide]
        omega
      rw [writeTail_ring _ (Capture.pastHead limits.head.toNat D) _ rfl rfl, ← hpast]
      have htrunc :
          decide (limits.head.toNat ≠ 0 ∧ limits.head.toNat < (D ++ data).length) = true :=
        decide_eq_true ⟨hH, hpassed⟩
      simp only [Capture.tailPart, Capture.lost, hfirst, htrunc, ← List.length_append]

/-- Which of the writes that follow the history `D` first passes the cap. -/
def passes (head : ℕ) : List UInt8 → List (List UInt8) → List Bool
  | _, [] => []
  | D, data :: rest =>
      decide (head ≠ 0 ∧ D.length ≤ head ∧ head < (D ++ data).length) ::
        passes head (D ++ data) rest

theorem passes_eq_map (head : ℕ) (D : List UInt8) (chunks : List (List UInt8)) :
    passes head D chunks = (List.range chunks.length).map fun i =>
      decide (head ≠ 0 ∧ (D ++ (chunks.take i).flatten).length ≤ head ∧
        head < (D ++ (chunks.take (i + 1)).flatten).length) := by
  induction chunks generalizing D with
  | nil => rfl
  | cons data rest ih =>
      rw [passes, ih, List.length_cons, List.range_succ_eq_map, List.map_cons, List.map_map]
      congr 1
      · simp
      · apply List.map_congr_left
        intro i _
        rw [Function.comp_apply, decide_eq_decide]
        simp only [Nat.succ_eq_add_one, List.take_succ_cons, List.flatten_cons, List.append_assoc]

theorem writes_after (headPath tailPath : P) (limits : Limits) (d : Disk P)
    (old D : List UInt8) (chunks : List (List UInt8)) :
    (after headPath tailPath limits D).writes .ok
        (d.set headPath (old ++ Capture.headPart limits.head.toNat D)) chunks =
      (passes limits.head.toNat D chunks,
        after headPath tailPath limits (D ++ chunks.flatten),
        d.set headPath (old ++ Capture.headPart limits.head.toNat (D ++ chunks.flatten))) := by
  induction chunks generalizing D with
  | nil => simp [writes, passes]
  | cons data rest ih =>
      simp only [writes, write_after, ih, passes, List.flatten_cons, List.append_assoc]

theorem create_eq_after (headPath tailPath : P) (limits : Limits) (d : Disk P) :
    create .ok headPath tailPath limits d = some (after headPath tailPath limits [],
      d.set headPath (d.contents headPath ++ Capture.headPart limits.head.toNat [])) := by
  simp [create, Io.ok, after, Disk.openAppend]

theorem finish_after (headPath tailPath : P) (limits : Limits) (d : Disk P) (D : List UInt8) :
    (after headPath tailPath limits D).finish .ok d =
      ({ total := D.length
         head := (Capture.headPart limits.head.toNat D).length
         tail := (Capture.tailPart limits.head.toNat limits.tail D).length
         dropped := Capture.lost limits.head.toNat limits.tail D
         tailPath :=
          if Capture.tailPart limits.head.toNat limits.tail D = [] then none else some tailPath },
       if Capture.tailPart limits.head.toNat limits.tail D = [] then d
       else d.set tailPath (Capture.tailPart limits.head.toNat limits.tail D)) := by
  by_cases htail : Capture.tailPart limits.head.toNat limits.tail D = []
  · simp [finish, after, htail]
  · have hempty : (Capture.tailPart limits.head.toNat limits.tail D).isEmpty = false := by
      simpa using htail
    simp [finish, after, htail, hempty, Io.ok, Landed.of, Disk.create, Disk.append, Disk.contents]

/-- A capture from its creation to its end, on the disk `d`. -/
structure Captured (P : Type*) where
  firsts : List Bool
  summary : Summary P
  disk : Disk P
  deriving DecidableEq

def capture (headPath tailPath : P) (limits : Limits) (d : Disk P) (chunks : List (List UInt8)) :
    Option (Captured P) :=
  (create .ok headPath tailPath limits d).map fun (s, d) =>
    let (firsts, s, d) := s.writes .ok d chunks
    let (summary, d) := s.finish .ok d
    ⟨firsts, summary, d⟩

/-- The capture in closed form: it depends on the chunks only through what
they add up to, the answers of `write` apart. -/
theorem capture_eq (headPath tailPath : P) (limits : Limits) (d : Disk P)
    (chunks : List (List UInt8)) :
    capture headPath tailPath limits d chunks =
      some (
        let (summary, disk) := (after headPath tailPath limits chunks.flatten).finish .ok
          (d.set headPath
            (d.contents headPath ++ Capture.headPart limits.head.toNat chunks.flatten))
        ⟨passes limits.head.toNat [] chunks, summary, disk⟩) := by
  simp only [capture, create_eq_after, Option.map_some, writes_after, List.nil_append]

/-- A capture on fresh files keeps exactly the two ends of what was written,
for every way of cutting it into writes. -/
theorem capture_keeps_both_ends (headPath tailPath : P) (hne : headPath ≠ tailPath)
    (limits : Limits) (d : Disk P) (hhead : d.get headPath = none) (htail : d.get tailPath = none)
    (chunks : List (List UInt8)) :
    ∃ r, capture headPath tailPath limits d chunks = some r ∧
      (limits.head.toNat = 0 →
        r.disk.get headPath = some chunks.flatten ∧ r.disk.get tailPath = none ∧
          r.summary.tail = 0 ∧ r.summary.dropped = 0) ∧
      (limits.head.toNat ≠ 0 →
        r.disk.get headPath =
            some (chunks.flatten.take (min limits.head.toNat chunks.flatten.length)) ∧
          r.disk.contents tailPath = chunks.flatten.rtake
            (min limits.tail (chunks.flatten.length - (r.disk.contents headPath).length))) ∧
      r.summary.total = chunks.flatten.length ∧
      r.summary.head = (r.disk.contents headPath).length ∧
      r.summary.tail = (r.disk.contents tailPath).length ∧
      r.summary.dropped = r.summary.total - r.summary.head - r.summary.tail ∧
      r.firsts = (List.range chunks.length).map (fun i =>
        decide (limits.head.toNat ≠ 0 ∧ (chunks.take i).flatten.length ≤ limits.head.toNat ∧
          limits.head.toNat < (chunks.take (i + 1)).flatten.length)) ∧
      ∀ chunks' : List (List UInt8), chunks'.flatten = chunks.flatten →
        ∃ r', capture headPath tailPath limits d chunks' = some r' ∧
          r'.disk = r.disk ∧ r'.summary = r.summary := by
  have hold : d.contents headPath = [] := by simp [Disk.contents, hhead]
  have hsum := Capture.length_headPart_add_tailPart_add_lost limits.head.toNat limits.tail
    chunks.flatten
  refine ⟨_, capture_eq headPath tailPath limits d chunks, ?_⟩
  rw [hold, List.nil_append, finish_after]
  generalize hh : Capture.headPart limits.head.toNat chunks.flatten = front at *
  generalize ht : Capture.tailPart limits.head.toNat limits.tail chunks.flatten = back at *
  have hback : Disk.contents (if back = [] then d.set headPath front
      else (d.set headPath front).set tailPath back) tailPath = back := by
    split
    · next hnil => simp [Disk.contents, Table.get_set_ne, hne.symm, htail, hnil]
    · simp [Disk.contents]
  have hfront : Table.get (if back = [] then d.set headPath front
      else (d.set headPath front).set tailPath back) headPath = some front := by
    split
    · simp
    · simp [Table.get_set_ne, hne]
  have hfront' : Disk.contents (if back = [] then d.set headPath front
      else (d.set headPath front).set tailPath back) headPath = front := by
    simp [Disk.contents, hfront]
  refine ⟨?_, ?_, rfl, ?_, ?_, ?_, ?_, ?_⟩
  · intro hH
    have hwhole : front = chunks.flatten := by rw [← hh, hH, Capture.headPart_zero]
    have hnil : back = [] := by
      rw [← ht, hH, Capture.tailPart, Capture.pastHead_zero, List.rtake_nil]
    have hlost : Capture.lost limits.head.toNat limits.tail chunks.flatten = 0 :=
      (Capture.lost_eq_zero_iff _ _ _).mpr (Or.inl hH)
    refine ⟨by rw [hfront, hwhole], ?_, by simp [hnil], hlost⟩
    simp [hnil, Table.get_set_ne, hne.symm, htail]
  · intro hH
    have htake : front = chunks.flatten.take (min limits.head.toNat chunks.flatten.length) := by
      rw [← hh, Capture.headPart_of_pos hH, ← List.take_take, List.take_length]
    have hlen :
        chunks.flatten.length - front.length = chunks.flatten.length - limits.head.toNat := by
      rw [← hh, Capture.headPart_of_pos hH, List.length_take]
      omega
    refine ⟨by rw [hfront, htake], ?_⟩
    rw [hback, hfront', hlen, ← ht, Capture.tailPart_eq_rtake hH]
  · exact congrArg List.length hfront'.symm
  · exact congrArg List.length hback.symm
  · change Capture.lost limits.head.toNat limits.tail chunks.flatten =
      chunks.flatten.length - front.length - back.length
    omega
  · simp only [passes_eq_map, List.nil_append]
  · intro chunks' heq
    exact ⟨_, capture_eq headPath tailPath limits d chunks', by
      rw [hold, List.nil_append, finish_after, heq, hh, ht], by
      rw [hold, List.nil_append, finish_after, heq, hh, ht]⟩

/-- Three writes past a head of two and through a ring of two. -/
theorem capture_keeps_both_ends_ring :
    ∃ r, capture 0 1 ⟨2, 2⟩ (∅ : Disk ℕ) [[1], [2, 3, 4], [5]] = some r ∧
      r.disk.contents 1 = [[1], [2, 3, 4], [5]].flatten.rtake
        (min 2 ([[1], [2, 3, 4], [5]].flatten.length - (r.disk.contents 0).length)) ∧
      r.disk.contents 1 = [4, 5] ∧ r.summary.dropped = 1 ∧ r.firsts = [false, true, false] := by
  obtain ⟨r, hr, _, hcapped, _⟩ := capture_keeps_both_ends 0 1 Nat.zero_ne_one ⟨2, 2⟩
    (∅ : Disk ℕ) rfl rfl [[1], [2, 3, 4], [5]]
  have hcomputed : capture 0 1 ⟨2, 2⟩ (∅ : Disk ℕ) [[1], [2, 3, 4], [5]] = some
      ⟨[false, true, false], ⟨5, 2, 2, 1, some 1⟩, Table.set (Table.set ∅ 0 [1, 2]) 1 [4, 5]⟩ := by
    decide +kernel
  refine ⟨r, hr, (hcapped (by decide)).2, ?_⟩
  obtain rfl := Option.some.inj (hcomputed.symm.trans hr)
  exact ⟨by decide +kernel, rfl, rfl⟩

end Stream

end KirbLaSnoop
