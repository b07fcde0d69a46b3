import Mathlib

/-!
# Buffered writers that append to one file

Whatever reaches an append-only file goes to its end. A file with several
buffered writers therefore holds what was written in the order in which it was
written only as long as no writer gets ahead of an older one that still holds
some of it.
-/

namespace KirbLaSnoop

variable {H α : Type*}

/-- A writer and who holds it. -/
structure BufWriter (H α : Type*) where
  holder : H
  buffer : List α

/-- The file, and its writers from the oldest to the newest. -/
structure AppendFile (H α : Type*) where
  onDisk : List α
  writers : List (BufWriter H α)

inductive AppendOp (H α : Type*) where
  | create (h : H)
  | write (h : H) (bs : List α)
  | close (h : H)
  | pass (f : H → H)

namespace BufWriter

/-- `write_all` through a buffer of capacity `cap`: what goes to the file, and
what is buffered afterwards. -/
def writeAll (cap : ℕ) (buf bs : List α) : List α × List α :=
  if bs.length < cap - buf.length then ([], buf ++ bs)
  else
    let (out, buf) := if bs.length > cap - buf.length then (buf, []) else ([], buf)
    if bs.length ≥ cap then (out ++ bs, buf) else (out, buf ++ bs)

/-- Nothing is lost and nothing changes places. -/
theorem writeAll_append (cap : ℕ) (buf bs : List α) :
    (writeAll cap buf bs).1 ++ (writeAll cap buf bs).2 = buf ++ bs := by
  unfold writeAll
  by_cases hroom : bs.length < cap - buf.length
  · simp [hroom]
  · by_cases hspill : bs.length > cap - buf.length
    · by_cases hbig : bs.length ≥ cap
      · simp [hroom, hspill, hbig]
      · simp [hroom, hspill, hbig]
    · by_cases hbig : bs.length ≥ cap
      · -- the buffer is empty, or there is nothing to write
        have hempty : buf = [] ∨ bs = [] := by
          rw [← List.length_eq_zero_iff, ← List.length_eq_zero_iff]
          omega
        simp only [hroom, hspill, hbig, if_true, if_false, List.nil_append]
        rcases hempty with rfl | rfl
        · exact List.append_nil bs
        · exact (List.append_nil buf).symm
      · simp [hroom, hspill, hbig]

theorem length_writeAll_le (cap : ℕ) {buf : List α} (hbuf : buf.length ≤ cap) (bs : List α) :
    (writeAll cap buf bs).2.length ≤ cap := by
  unfold writeAll
  by_cases hroom : bs.length < cap - buf.length
  · rw [if_pos hroom, List.length_append]
    omega
  · by_cases hspill : bs.length > cap - buf.length
    · by_cases hbig : bs.length ≥ cap
      · simp [hroom, hspill, hbig]
      · simp only [hroom, hspill, hbig, if_true, if_false, List.nil_append]
        omega
    · by_cases hbig : bs.length ≥ cap
      · simpa only [hroom, hspill, hbig, if_true, if_false] using hbuf
      · simp only [hroom, hspill, hbig, if_false, List.length_append]
        omega

/-- The bytes do not fit in with those that are buffered, or fill a buffer. -/
def Overflows (cap : ℕ) (buf bs : List α) : Prop :=
  buf ≠ [] ∧ bs.length > cap - buf.length ∨ bs ≠ [] ∧ bs.length ≥ cap

theorem writeAll_fst_ne_nil_iff (cap : ℕ) (buf bs : List α) :
    (writeAll cap buf bs).1 ≠ [] ↔ Overflows cap buf bs := by
  unfold writeAll Overflows
  by_cases hroom : bs.length < cap - buf.length
  · simp only [hroom, if_true, ne_eq, not_true_eq_false, false_iff]
    omega
  · by_cases hspill : bs.length > cap - buf.length
    · by_cases hbig : bs.length ≥ cap
      · have hbs : bs ≠ [] := List.ne_nil_of_length_pos (by omega)
        simp [hroom, hspill, hbig, hbs]
      · simp [hroom, hspill, hbig]
    · by_cases hbig : bs.length ≥ cap
      · simp [hroom, hspill, hbig]
      · simp [hroom, hspill, hbig]

/-- Give the holder's first writer over to `f`, which says what goes to the
file and what becomes of the buffer; `none` is the end of the writer. -/
def through [DecidableEq H] (h : H) (f : List α → List α × Option (List α)) :
    List (BufWriter H α) → List α × List (BufWriter H α)
  | [] => ([], [])
  | w :: ws =>
      if w.holder = h then
        ((f w.buffer).1, (f w.buffer).2.toList.map (BufWriter.mk h) ++ ws)
      else ((through h f ws).1, w :: (through h f ws).2)

/-- All that the writers still hold. -/
def held (ws : List (BufWriter H α)) : List α := ws.flatMap buffer

@[simp] theorem held_nil : held ([] : List (BufWriter H α)) = [] := rfl

@[simp] theorem held_cons (w : BufWriter H α) (ws : List (BufWriter H α)) :
    held (w :: ws) = w.buffer ++ held ws := rfl

@[simp] theorem held_append (ws vs : List (BufWriter H α)) :
    held (ws ++ vs) = held ws ++ held vs := List.flatMap_append

theorem held_map_holder (f : H → H) (ws : List (BufWriter H α)) :
    held (ws.map fun w => { w with holder := f w.holder }) = held ws := by
  induction ws with
  | nil => rfl
  | cons w ws ih => rw [List.map_cons, held_cons, held_cons, ih]

variable [DecidableEq H] {h : H}

/-- The writers that are older than the holder's first one hold nothing. -/
def Front (h : H) (ws : List (BufWriter H α)) : Prop :=
  ∀ w ∈ ws.takeWhile fun w => w.holder ≠ h, w.buffer = []

instance [DecidableEq α] (h : H) (ws : List (BufWriter H α)) : Decidable (Front h ws) :=
  inferInstanceAs (Decidable (∀ _ ∈ _, _))

theorem front_cons_of_ne {w : BufWriter H α} {ws : List (BufWriter H α)} (hw : w.holder ≠ h) :
    Front h (w :: ws) ↔ w.buffer = [] ∧ Front h ws := by
  simp [Front, hw]

theorem exists_of_through_end {ws : List (BufWriter H α)}
    (hout : (through h (fun buf => (buf, none)) ws).1 ≠ []) :
    ∃ w ∈ ws, w.holder = h ∧ w.buffer ≠ [] := by
  induction ws with
  | nil => exact absurd rfl hout
  | cons w ws ih =>
      by_cases hw : w.holder = h
      · simp only [through, hw, if_true] at hout
        exact ⟨w, List.mem_cons_self, hw, hout⟩
      · simp only [through, if_neg hw] at hout
        obtain ⟨v, hv, hv'⟩ := ih hout
        exact ⟨v, List.mem_cons_of_mem w hv, hv'⟩

/-- A writer that is ended in front leaves in order what was held. -/
theorem through_end (ws : List (BufWriter H α))
    (hfront : ∀ w ∈ ws, w.holder = h → w.buffer ≠ [] → Front h ws) :
    (through h (fun buf => (buf, none)) ws).1 ++
      held (through h (fun buf => (buf, none)) ws).2 = held ws := by
  induction ws with
  | nil => rfl
  | cons w ws ih =>
      by_cases hw : w.holder = h
      · simp [through, hw]
      · simp only [through, if_neg hw, held_cons]
        have hrest := ih fun v hv hholder hbuf =>
          ((front_cons_of_ne hw).mp (hfront v (List.mem_cons_of_mem w hv) hholder hbuf)).2
        by_cases hout : (through h (fun buf => (buf, none)) ws).1 = []
        · rw [hout, List.nil_append] at hrest ⊢
          rw [hrest]
        · obtain ⟨v, hv, hholder, hbuf⟩ := exists_of_through_end hout
          obtain ⟨hempty, -⟩ :=
            (front_cons_of_ne hw).mp (hfront v (List.mem_cons_of_mem w hv) hholder hbuf)
          rw [hempty, List.nil_append, List.nil_append]
          exact hrest

theorem through_last (f : List α → List α × Option (List α)) {ws : List (BufWriter H α)}
    (hws : ∀ w ∈ ws, w.holder ≠ h) (buf : List α) :
    through h f (ws ++ [⟨h, buf⟩]) =
      ((f buf).1, ws ++ (f buf).2.toList.map (BufWriter.mk h)) := by
  induction ws with
  | nil => simp [through]
  | cons w ws ih =>
      obtain ⟨hw, hws⟩ := List.forall_mem_cons.mp hws
      rw [List.cons_append, through, if_neg hw, ih hws, List.cons_append]

theorem front_last {ws : List (BufWriter H α)} (hws : ∀ w ∈ ws, w.holder ≠ h) (buf : List α) :
    Front h (ws ++ [⟨h, buf⟩]) ↔ held ws = [] := by
  have htake : (ws ++ [(⟨h, buf⟩ : BufWriter H α)]).takeWhile (fun w => decide (w.holder ≠ h)) =
      ws := by
    rw [List.takeWhile_append_of_pos fun w hw => decide_eq_true (hws w hw)]
    simp
  rw [Front, htake, held, List.flatMap_eq_nil_iff]

theorem through_concat_of_ne (f : List α → List α × Option (List α)) (ws : List (BufWriter H α))
    {w : BufWriter H α} (hw : w.holder ≠ h) :
    through h f (ws ++ [w]) = ((through h f ws).1, (through h f ws).2 ++ [w]) := by
  induction ws with
  | nil => simp [through, hw]
  | cons v ws ih =>
      by_cases hv : v.holder = h
      · simp [through, hv]
      · simp [through, hv, ih]

theorem mem_of_mem_through_end (ws : List (BufWriter H α)) {w : BufWriter H α}
    (hw : w ∈ (through h (fun buf => (buf, none)) ws).2) : w ∈ ws := by
  induction ws with
  | nil => cases hw
  | cons v ws ih =>
      by_cases hv : v.holder = h
      · simp only [through, hv, if_true, Option.toList_none, List.map_nil,
          List.nil_append] at hw
        exact List.mem_cons_of_mem v hw
      · simp only [through, if_neg hv] at hw
        rcases List.mem_cons.mp hw with rfl | hw
        · exact List.mem_cons_self
        · exact List.mem_cons_of_mem v (ih hw)

end BufWriter

namespace AppendFile

open BufWriter

/-- What is in the file or on its way there, oldest writer first. -/
def content (s : AppendFile H α) : List α := s.onDisk ++ held s.writers

theorem onDisk_prefix_content (s : AppendFile H α) : s.onDisk <+: s.content :=
  List.prefix_append _ _

variable [DecidableEq H]

/-- What the operation puts on disk, and the writers it leaves. -/
def effect (cap : ℕ) (s : AppendFile H α) : AppendOp H α → List α × List (BufWriter H α)
  | .create h => ([], s.writers ++ [⟨h, []⟩])
  | .write h bs =>
      through h (fun buf => ((writeAll cap buf bs).1, some (writeAll cap buf bs).2)) s.writers
  | .close h => through h (fun buf => (buf, none)) s.writers
  | .pass f => ([], s.writers.map fun w => { w with holder := f w.holder })

def step (cap : ℕ) (s : AppendFile H α) (op : AppendOp H α) : AppendFile H α :=
  ⟨s.onDisk ++ (s.effect cap op).1, (s.effect cap op).2⟩

/-- Nothing gets ahead of what an older writer still holds: a writer of which
something goes to the file is the first that holds anything. -/
def InOrder (cap : ℕ) (s : AppendFile H α) (op : AppendOp H α) : Prop :=
  match op with
  | .write h bs => ∀ w ∈ s.writers, w.holder = h → Overflows cap w.buffer bs → Front h s.writers
  | .close h => ∀ w ∈ s.writers, w.holder = h → w.buffer ≠ [] → Front h s.writers
  | _ => True

/-- The operations one after the other. -/
def steps (cap : ℕ) (s : AppendFile H α) (ops : List (AppendOp H α)) : AppendFile H α :=
  ops.foldl (step cap) s

/-- Every operation is in order when its turn comes. -/
def AllInOrder (cap : ℕ) : AppendFile H α → List (AppendOp H α) → Prop
  | _, [] => True
  | s, op :: ops => s.InOrder cap op ∧ AllInOrder cap (s.step cap op) ops

theorem content_create (cap : ℕ) (s : AppendFile H α) (h : H) :
    (s.step cap (.create h)).content = s.content := by
  simp [content, step, effect]

theorem content_pass (cap : ℕ) (s : AppendFile H α) (f : H → H) :
    (s.step cap (.pass f)).content = s.content := by
  simp [content, step, effect, held_map_holder]

theorem content_close {cap : ℕ} {s : AppendFile H α} {h : H} (horder : s.InOrder cap (.close h)) :
    (s.step cap (.close h)).content = s.content := by
  rw [content, content, step, effect, List.append_assoc]
  exact congrArg (s.onDisk ++ ·) (through_end s.writers horder)

/-- What holds of every writer goes on to hold if the operation sees to it. -/
theorem forall_writers_step {cap : ℕ} {s : AppendFile H α} {P : BufWriter H α → Prop}
    (hs : ∀ w ∈ s.writers, P w) {op : AppendOp H α} (hcreate : ∀ h, op = .create h → P ⟨h, []⟩)
    (hwrite : ∀ h bs, op = .write h bs → ∀ buf, P ⟨h, buf⟩ → P ⟨h, (writeAll cap buf bs).2⟩)
    (hpass : ∀ f, op = .pass f → ∀ w, P w → P { w with holder := f w.holder }) :
    ∀ w ∈ (s.step cap op).writers, P w := by
  cases op with
  | create h =>
      intro w hw
      rcases List.mem_append.mp hw with hw | hw
      · exact hs w hw
      · rw [List.mem_singleton.mp hw]
        exact hcreate h rfl
  | write h bs =>
      have hall : ∀ ws : List (BufWriter H α), (∀ w ∈ ws, P w) → ∀ w ∈ (through h (fun buf =>
          ((writeAll cap buf bs).1, some (writeAll cap buf bs).2)) ws).2, P w := by
        intro ws
        induction ws with
        | nil => exact fun _ w hw => absurd hw List.not_mem_nil
        | cons v ws ih =>
            intro hws
            obtain ⟨hv, hws⟩ := List.forall_mem_cons.mp hws
            by_cases hholder : v.holder = h
            · subst hholder
              simp only [through, if_true, Option.toList_some, List.map_cons, List.map_nil,
                List.cons_append, List.nil_append]
              exact List.forall_mem_cons.mpr ⟨hwrite v.holder bs rfl v.buffer hv, hws⟩
            · simp only [through, if_neg hholder]
              exact List.forall_mem_cons.mpr ⟨hv, ih hws⟩
      exact hall s.writers hs
  | close h => exact fun w hw => hs w (mem_of_mem_through_end s.writers hw)
  | pass f =>
      intro w hw
      obtain ⟨v, hv, rfl⟩ := List.mem_map.mp hw
      exact hpass f rfl v (hs v hv)

/-- A single writer gets ahead of nobody. -/
theorem inOrder_of_length_le_one {s : AppendFile H α} (hs : s.writers.length ≤ 1) (cap : ℕ)
    (op : AppendOp H α) : s.InOrder cap op := by
  have hfront : ∀ w ∈ s.writers, Front w.holder s.writers := by
    intro w hw
    match hws : s.writers, hs with
    | [], _ => simp [Front]
    | [v], _ =>
        rw [hws, List.mem_singleton] at hw
        simp [Front, hw]
  cases op with
  | write h bs => exact fun w hw hholder _ => hholder ▸ hfront w hw
  | close h => exact fun w hw hholder _ => hholder ▸ hfront w hw
  | create h => trivial
  | pass f => trivial

/-! ## Who holds the newest writer -/

/-- The newest writer is held by `h`, and no other is. -/
def Newest (h : H) (s : AppendFile H α) : Prop :=
  ∃ older buf, s.writers = older ++ [⟨h, buf⟩] ∧ ∀ w ∈ older, w.holder ≠ h

/-- None of the writers is held by `h`. -/
def Absent (h : H) (s : AppendFile H α) : Prop := ∀ w ∈ s.writers, w.holder ≠ h

variable {cap : ℕ} {s : AppendFile H α} {h : H}

theorem Absent.create (hs : s.Absent h) : (s.step cap (.create h)).Newest h :=
  ⟨s.writers, [], rfl, hs⟩

theorem Newest.write (hs : s.Newest h) (bs : List α) : (s.step cap (.write h bs)).Newest h := by
  obtain ⟨older, buf, hwriters, holder⟩ := hs
  refine ⟨older, (writeAll cap buf bs).2, ?_, holder⟩
  simp only [step, effect, hwriters, through_last _ holder, Option.toList_some, List.map_cons,
    List.map_nil]

/-- What the newest writer is handed comes last. -/
theorem Newest.content_write (hs : s.Newest h) {bs : List α}
    (horder : s.InOrder cap (.write h bs)) :
    (s.step cap (.write h bs)).content = s.content ++ bs := by
  obtain ⟨older, buf, hwriters, holder⟩ := hs
  have hall := writeAll_append cap buf bs
  have hlast : (⟨h, buf⟩ : BufWriter H α) ∈ s.writers :=
    hwriters ▸ List.mem_append_right _ List.mem_cons_self
  have hfront := horder ⟨h, buf⟩ hlast rfl
  rw [hwriters, front_last holder] at hfront
  simp only [content, step, effect, hwriters, through_last _ holder, held_append, held_cons,
    held_nil, List.append_nil, Option.toList_some, List.map_cons, List.map_nil]
  by_cases hout : (writeAll cap buf bs).1 = []
  · rw [hout, List.nil_append] at hall
    rw [hout, hall]
    simp only [List.append_nil, List.append_assoc]
  · have hheld := hfront ((writeAll_fst_ne_nil_iff cap buf bs).mp hout)
    simp only [hheld, List.nil_append, List.append_assoc, hall]

theorem Newest.close (hs : s.Newest h) : (s.step cap (.close h)).Absent h := by
  obtain ⟨older, buf, hwriters, holder⟩ := hs
  simpa only [Absent, step, effect, hwriters, through_last _ holder, Option.toList_none,
    List.map_nil, List.append_nil] using holder

/-- The end of another holder's writer. -/
theorem Newest.close_ne (hs : s.Newest h) {h' : H} (hne : h' ≠ h) :
    (s.step cap (.close h')).Newest h := by
  obtain ⟨older, buf, hwriters, holder⟩ := hs
  refine ⟨(through h' (fun buf => (buf, none)) older).2, buf, ?_, ?_⟩
  · simp only [step, effect, hwriters, through_concat_of_ne _ older (w := ⟨h, buf⟩) hne.symm]
  · intro w hw
    exact holder w (mem_of_mem_through_end older hw)

theorem Absent.close (hs : s.Absent h) (h' : H) : (s.step cap (.close h')).Absent h := by
  intro w hw
  exact hs w (mem_of_mem_through_end s.writers hw)

theorem absent_pass (s : AppendFile H α) {f : H → H} (hf : ∀ h', f h' ≠ h) :
    (s.step cap (.pass f)).Absent h := by
  intro w hw
  obtain ⟨v, -, rfl⟩ := List.mem_map.mp hw
  exact hf v.holder

end AppendFile

end KirbLaSnoop
