import Mathlib
import KirbLaSnoop.Lib.View
import KirbLaSnoop.Stream.Failure
import KirbLaSnoop.Log.Names

/-!
# What the logger holds for one connection

The share of a connection is its streams, its files and its lines of the event
log. Without a run cap, calls that name another connection leave it as it is,
and what its own calls make of it depends on it alone.
-/

namespace KirbLaSnoop

def FileName.conn (p : FileName) : ℕ := p.stem.conn

def Event.isAbout (c : ℕ) (ev : Event) : Bool := ev.conn = some c

structure Share where
  streams : Dir → Option (Stream FileName)
  files : FileName → Option (List UInt8)
  lines : List Event

/-! ## The files of one connection -/

/-- Two disks have the same files of the connection. -/
def Disk.Agree (c : ℕ) (d d' : Disk FileName) : Prop := ∀ p, p.conn = c → d.get p = d'.get p

namespace Disk.Agree

variable {c : ℕ} {d d' : Disk FileName} {p : FileName}

theorem refl (c : ℕ) (d : Disk FileName) : Agree c d d := fun _ _ => rfl

theorem set (h : Agree c d d') (p : FileName) (bs : List UInt8) :
    Agree c (d.set p bs) (d'.set p bs) := by
  intro q hq
  rw [Table.get_set_eq, Table.get_set_eq, h q hq]

theorem set_of_ne (hp : p.conn ≠ c) (d : Disk FileName) (bs : List UInt8) :
    Agree c (d.set p bs) d := by
  intro q hq
  apply Table.get_set_ne
  rintro rfl
  exact hp hq

theorem contents (h : Agree c d d') (hp : p.conn = c) : d.contents p = d'.contents p := by
  rw [Disk.contents, Disk.contents, h p hp]

theorem append (h : Agree c d d') (hp : p.conn = c) (bs : List UInt8) :
    Agree c (d.append p bs) (d'.append p bs) := by
  rw [Disk.append, Disk.append, h.contents hp]
  exact h.set p _

end Disk.Agree

namespace Stream

variable {c : ℕ} {st : Stream FileName} {d d' : Disk FileName}

/-- All files of the stream are of the connection. -/
def Of (c : ℕ) (st : Stream FileName) : Prop := ∀ p ∈ st.files, p.conn = c

theorem Of.head (h : st.Of c) {p : FileName} (hp : st.head = some p) : p.conn = c :=
  h p (by simp [files, hp])

theorem Of.tailPath (h : st.Of c) : st.tailPath.conn = c := h _ (by simp [files])

theorem agree_writeHead (h : st.Of c) (hd : d.Agree c d') (io : Io) (bs : List UInt8) :
    (st.writeHead io d bs).Agree c (st.writeHead io d' bs) := by
  unfold writeHead
  split
  · next p hp => exact hd.append (h.head hp) _
  · exact hd

theorem agree_write (h : st.Of c) (hd : d.Agree c d') (io : Io) (bs : List UInt8) :
    (st.write io d bs).2.2.Agree c (st.write io d' bs).2.2 := by
  rw [write, write, disk_writeOn, disk_writeOn]
  split_ifs
  · exact agree_writeHead h hd io _
  · exact agree_writeHead h hd io _
  · exact hd

theorem agree_write_of_ne {b : ℕ} (h : st.Of b) (hne : b ≠ c) (io : Io) (d : Disk FileName)
    (bs : List UInt8) : (st.write io d bs).2.2.Agree c d := by
  have hhead : ∀ bs, (st.writeHead io d bs).Agree c d := by
    intro bs
    unfold writeHead
    split
    · next p hp => exact .set_of_ne (h.head hp ▸ hne) d _
    · exact .refl c d
  rw [write, disk_writeOn]
  split_ifs
  · exact hhead _
  · exact hhead _
  · exact .refl c d

theorem agree_finish (h : st.Of c) (hd : d.Agree c d') (io : Io) :
    (st.finish io d).2.Agree c (st.finish io d').2 := by
  simp only [finish]
  split_ifs
  · exact (hd.set st.tailPath []).append h.tailPath _
  · exact hd

theorem agree_finish_of_ne {b : ℕ} (h : st.Of b) (hne : b ≠ c) (io : Io) (d : Disk FileName) :
    (st.finish io d).2.Agree c d := by
  have htail : st.tailPath.conn ≠ c := h.tailPath ▸ hne
  simp only [finish]
  split_ifs
  · intro p hp
    rw [Disk.append, Disk.Agree.set_of_ne htail _ _ p hp]
    exact Disk.Agree.set_of_ne htail _ _ p hp
  · exact .refl c d

end Stream

namespace Logger

variable (dp : Deps) (o : Options)

def share (c : ℕ) (s : Logger) : Share where
  streams dir := s.raw.get (c, dir)
  files p := if p.conn = c then s.disk.get p else none
  lines := s.jsonl.filter (Event.isAbout c)

theorem share_eq_iff {c : ℕ} {s t : Logger} :
    s.share c = t.share c ↔ (∀ dir, s.raw.get (c, dir) = t.raw.get (c, dir)) ∧
      s.disk.Agree c t.disk ∧
        s.jsonl.filter (Event.isAbout c) = t.jsonl.filter (Event.isAbout c) := by
  simp only [share, Share.mk.injEq, funext_iff]
  constructor
  · rintro ⟨hstreams, hfiles, hlines⟩
    refine ⟨hstreams, ?_, hlines⟩
    intro p hp
    have hfile := hfiles p
    rwa [if_pos hp, if_pos hp] at hfile
  · rintro ⟨hstreams, hfiles, hlines⟩
    refine ⟨hstreams, ?_, hlines⟩
    intro p
    split
    · next hp => exact hfiles p hp
    · rfl

theorem share_congr {c : ℕ} {s t : Logger} (hraw : s.raw = t.raw) (hdisk : s.disk = t.disk)
    (hjsonl : s.jsonl = t.jsonl) : s.share c = t.share c := by
  simp only [share, hraw, hdisk, hjsonl]

variable {o}

theorem Named.congr {s t : Logger} (h : Named s) (hraw : t.raw = s.raw) : Named t := by
  intro k st hst
  exact h k st (hraw ▸ hst)

theorem Named.remove {s : Logger} (h : Named s) (k : Key) (disk : Disk FileName) :
    Named { s with raw := s.raw.remove k, disk := disk } := by
  intro j st hst
  by_cases hj : j = k
  · subst hj
    cases (Table.get_remove _ _).symm.trans hst
  · exact h j st ((Table.get_remove_ne _ hj).symm.trans hst)

theorem Named.of {s : Logger} (h : Named s) {k : Key} {st : Stream FileName}
    (hst : s.raw.get k = some st) : st.Of k.1 := by
  obtain ⟨proto, peer, hfiles⟩ := h k st hst
  intro p hp
  rw [hfiles] at hp
  simp only [rawFiles, List.mem_cons, List.not_mem_nil, or_false] at hp
  rcases hp with rfl | rfl <;> rfl

theorem Named.finishAll {s : Logger} (h : Named s) (e : Env) (ks : List Key) :
    Named (s.finishAll e ks).2 := by
  intro k st hst
  rw [get_raw_finishAll] at hst
  split_ifs at hst
  exact h k st hst

/-! ## What a write does to a share -/

variable (o) {c : ℕ} {s t : Logger}

theorem share_rawLocked_of_ne (hs : Named s) {conn : ℕ} (hne : conn ≠ c) (io : Io) (proto : Proto)
    (peer : String) (dir : Dir) (data : List UInt8) :
    (s.rawLocked o io conn proto peer dir data).share c = s.share c := by
  have hopen : ∀ st disk console, Stream.Of conn st → disk.Agree c s.disk →
      share c { s with
        raw := s.raw.set (conn, dir) (st.write io disk data).2.1
        disk := (st.write io disk data).2.2
        console := console } = s.share c := by
    intro st disk console hst hdisk
    rw [share_eq_iff]
    refine ⟨?_, ?_, rfl⟩
    · intro d
      exact Table.get_set_ne _ _ fun h => hne (congrArg Prod.fst h).symm
    · intro p hp
      rw [st.agree_write_of_ne hst hne io disk data p hp]
      exact hdisk p hp
  unfold rawLocked
  dsimp only
  cases hget : s.raw.get (conn, dir) with
  | some st => exact hopen st s.disk _ (hs.of hget) (.refl c s.disk)
  | none =>
      cases hcreate : Stream.create io (.head (Stem.of conn proto peer dir))
          (.tail (Stem.of conn proto peer dir)) o.streamLimits s.disk with
      | none => rfl
      | some opened =>
          obtain ⟨st, disk⟩ := opened
          refine hopen st disk _ ?_ ?_
          · intro p hp
            rw [Stream.files_of_create hcreate] at hp
            simp only [List.mem_cons, List.not_mem_nil, or_false] at hp
            rcases hp with rfl | rfl <;> rfl
          · simp only [Stream.create, Option.ite_none_right_eq_some, Option.some.injEq,
              Prod.mk.injEq] at hcreate
            rw [← hcreate.2.2]
            exact Disk.Agree.set_of_ne (p := .head (Stem.of conn proto peer dir)) hne s.disk _

theorem share_rawLocked_congr (hs : Named s) (hst : s.share c = t.share c) (io : Io)
    (proto : Proto) (peer : String) (dir : Dir) (data : List UInt8) :
    (s.rawLocked o io c proto peer dir data).share c =
      (t.rawLocked o io c proto peer dir data).share c := by
  obtain ⟨hstreams, hfiles, hlines⟩ := share_eq_iff.mp hst
  have hopen : ∀ st disk disk' console console', Stream.Of c st → disk.Agree c disk' →
      share c { s with
        raw := s.raw.set (c, dir) (st.write io disk data).2.1
        disk := (st.write io disk data).2.2
        console := console } =
      share c { t with
        raw := t.raw.set (c, dir) (st.write io disk' data).2.1
        disk := (st.write io disk' data).2.2
        console := console' } := by
    intro st disk disk' console console' hst hdisk
    rw [share_eq_iff]
    refine ⟨?_, Stream.agree_write hst hdisk io data, hlines⟩
    intro d
    have hstate : (st.write io disk data).2.1 = (st.write io disk' data).2.1 :=
      (st.writeOn_state 64 io io disk disk' data).2
    dsimp only
    rw [Table.get_set_eq, Table.get_set_eq, hstate, hstreams d]
  unfold rawLocked
  dsimp only
  cases hget : s.raw.get (c, dir) with
  | some st =>
      rw [← hstreams dir, hget]
      exact hopen st s.disk t.disk _ _ (hs.of hget) hfiles
  | none =>
      rw [← hstreams dir, hget]
      cases hio : io.headOpen with
      | false =>
          simp only [Stream.create, hio, Bool.false_eq_true, if_false]
          exact hst
      | true =>
          simp only [Stream.create, hio, if_true]
          refine hopen _ _ _ _ _ ?_ ?_
          · intro p hp
            simp only [Stream.files, Option.toList_some, List.cons_append, List.nil_append,
              List.mem_cons, List.not_mem_nil, or_false] at hp
            rcases hp with rfl | rfl <;> rfl
          · rw [Disk.openAppend, Disk.openAppend, hfiles.contents rfl]
            exact hfiles.set _ _

end Logger

/-- The connection that a write is about. -/
def Write.conn : Write → Option ℕ
  | .event _ ev => ev.conn
  | .raw _ conn _ _ _ _ => some conn

namespace Write

open Logger

variable (dp : Deps) (o : Options) {c : ℕ} {s t : Logger}

theorem run_uncapped (hcap : o.maxRunBytes = 0) (w : Write) (s : Logger) :
    w.run dp o s = if w.live o then w.perform o (w.say s) else w.say s := by
  simp [run, charge_uncapped o hcap]

theorem share_say (w : Write) (c : ℕ) (s : Logger) : (w.say s).share c = s.share c :=
  share_congr (w.raw_say s) (w.disk_say s) (w.jsonl_say s)

theorem named_say (w : Write) (hs : Named s) : Named (w.say s) := hs.congr (w.raw_say s)

theorem named_perform (w : Write) (hs : Named s) : Named (w.perform o s) := by
  cases w with
  | event said ev => exact hs
  | raw io conn proto peer dir data => exact hs.rawLocked o io conn proto peer dir data

theorem share_perform_of_ne (hs : Named s) {w : Write} (hw : w.conn ≠ some c) :
    (w.perform o s).share c = s.share c := by
  cases w with
  | event said ev =>
      have hev : ¬Event.isAbout c ev = true := by simpa [Event.isAbout, Write.conn] using hw
      rw [share_eq_iff]
      refine ⟨fun _ => rfl, .refl c _, ?_⟩
      rw [perform, emitLocked, List.filter_append, List.filter_cons_of_neg hev, List.filter_nil,
        List.append_nil]
  | raw io conn proto peer dir data =>
      exact share_rawLocked_of_ne o hs (fun h => hw (congrArg some h)) io proto peer dir data

theorem share_perform_congr (hs : Named s) (hst : s.share c = t.share c) {w : Write}
    (hw : w.conn = some c) : (w.perform o s).share c = (w.perform o t).share c := by
  cases w with
  | event said ev =>
      obtain ⟨hstreams, hfiles, hlines⟩ := share_eq_iff.mp hst
      rw [share_eq_iff]
      refine ⟨hstreams, hfiles, ?_⟩
      rw [perform, perform, emitLocked, emitLocked, List.filter_append, List.filter_append, hlines]
  | raw io conn proto peer dir data =>
      obtain rfl : conn = c := Option.some.inj hw
      exact share_rawLocked_congr o hs hst io proto peer dir data

variable (hcap : o.maxRunBytes = 0)

include hcap

theorem named_run (w : Write) (hs : Named s) : Named (w.run dp o s) := by
  rw [run_uncapped dp o hcap]
  split
  · exact w.named_perform o (w.named_say hs)
  · exact w.named_say hs

theorem hidden_run {w : Write} (hw : w.conn ≠ some c) :
    View.Hidden Named (share c) (w.run dp o) := by
  intro s hs
  rw [run_uncapped dp o hcap]
  split
  · rw [share_perform_of_ne o (w.named_say hs) hw, share_say]
  · exact w.share_say c s

theorem respected_run {w : Write} (hw : w.conn = some c) :
    View.Respected Named (share c) (w.run dp o) := by
  intro s t hs ht hst
  have hsaid : (w.say s).share c = (w.say t).share c := by rw [share_say, share_say, hst]
  rw [run_uncapped dp o hcap, run_uncapped dp o hcap]
  split
  · exact share_perform_congr o (w.named_say hs) hsaid hw
  · exact hsaid

end Write

/-! ## What a call does to a share -/

namespace Logger

variable {c : ℕ} {s t : Logger}

theorem share_finishAll_of_ne (hs : Named s) (e : Env) {ks : List Key} (hks : ∀ k ∈ ks, k.1 ≠ c) :
    (s.finishAll e ks).2.share c = s.share c := by
  induction ks generalizing s with
  | nil => rfl
  | cons k ks ih =>
      have hrest := fun j hj => hks j (List.mem_cons_of_mem k hj)
      have hk := hks k List.mem_cons_self
      cases hget : s.raw.get k with
      | none =>
          rw [finishAll_cons_none hget]
          exact ih hs hrest
      | some st =>
          rw [finishAll_cons_some hget]
          refine (ih (hs.remove k _) hrest).trans ?_
          rw [share_eq_iff]
          refine ⟨?_, st.agree_finish_of_ne (hs.of hget) hk _ _, rfl⟩
          intro dir
          exact Table.get_remove_ne _ fun h => hk (congrArg Prod.fst h).symm

/-- The streams of a connection are finished from its share. -/
theorem finishAll_congr (hs : Named s) (ht : Named t) (hst : s.share c = t.share c) (e : Env)
    {ks : List Key} (hks : ∀ k ∈ ks, k.1 = c) :
    (s.finishAll e ks).1 = (t.finishAll e ks).1 ∧
      (s.finishAll e ks).2.share c = (t.finishAll e ks).2.share c := by
  induction ks generalizing s t with
  | nil => exact ⟨rfl, hst⟩
  | cons k ks ih =>
      have hrest := fun j hj => hks j (List.mem_cons_of_mem k hj)
      obtain ⟨conn, dir⟩ := k
      obtain rfl : conn = c := hks _ List.mem_cons_self
      obtain ⟨hstreams, hfiles, hlines⟩ := share_eq_iff.mp hst
      cases hget : s.raw.get (conn, dir) with
      | none =>
          rw [finishAll_cons_none hget, finishAll_cons_none ((hstreams dir).symm.trans hget)]
          exact ih hs ht hst hrest
      | some st =>
          have hof := hs.of hget
          have hremoved : ∀ d, (s.raw.remove (conn, dir)).get (conn, d) =
              (t.raw.remove (conn, dir)).get (conn, d) := by
            intro d
            by_cases hd : (conn, d) = (conn, dir)
            · rw [hd, Table.get_remove, Table.get_remove]
            · rw [Table.get_remove_ne _ hd, Table.get_remove_ne _ hd, hstreams d]
          have hold : s.disk.contents st.tailPath = t.disk.contents st.tailPath :=
            hfiles.contents hof.tailPath
          have hfinish := Stream.agree_finish hof hfiles (e.io (conn, dir))
          have hclosed : share conn { s with
                raw := s.raw.remove (conn, dir), disk := (st.finish (e.io (conn, dir)) s.disk).2 } =
              share conn { t with
                raw := t.raw.remove (conn, dir), disk := (st.finish (e.io (conn, dir)) t.disk).2 } :=
            share_eq_iff.mpr ⟨hremoved, hfinish, hlines⟩
          obtain ⟨hfirst, hsecond⟩ := ih (hs.remove (conn, dir) _) (ht.remove (conn, dir) _)
            hclosed hrest
          rw [finishAll_cons_some hget, finishAll_cons_some ((hstreams dir).symm.trans hget)]
          refine ⟨congrArg₂ List.cons ?_ hfirst, hsecond⟩
          simp only [finishStream, Stream.finish, Finished.mk.injEq, true_and]
          split
          · rw [Option.map_some, Option.map_some, hold]
          · rfl

end Logger

/-- The connection that a call names. -/
def Call.conn : Call → Option ℕ
  | .openConn _ _ conn _ _ _ => some conn
  | .data _ _ conn _ _ _ _ => some conn
  | .close _ _ conn _ _ => some conn
  | .error _ _ conn _ => conn
  | _ => none

def Call.isFlush : Call → Bool
  | .flush _ => true
  | _ => false

theorem Call.not_flush {c : ℕ} {call : Call} (hc : call.conn = some c) : call.isFlush = false := by
  cases call with
  | flush order => cases hc
  | _ => rfl

namespace Call

open Logger

variable (dp : Deps) (o : Options) {b : ℕ} {s t : Logger}

theorem conn_of_mem_finishes {c : Call} (hflush : c.isFlush = false) {k : Key}
    (hk : k ∈ c.finishes o) : c.conn = some k.1 := by
  cases c with
  | close proto name conn peer why =>
      simp only [finishes, List.mem_ite_nil_right, List.mem_cons, List.not_mem_nil,
        or_false] at hk
      rcases hk.2 with rfl | rfl <;> rfl
  | flush order => cases hflush
  | _ => cases hk

/-- All writes of a call are about the connection it names. -/
theorem conn_of_mem_writes {e : Env} {c : Call} {s : Logger} {w : Write}
    (hw : w ∈ c.writes dp o e s) : w.conn = c.conn := by
  cases c with
  | data proto name conn peer dir bs rule =>
      simp only [writes, List.mem_cons, List.not_mem_nil, or_false] at hw
      rcases hw with rfl | rfl <;> rfl
  | close proto name conn peer why =>
      rcases List.mem_append.mp hw with hw | hw
      · obtain ⟨f, hf, rfl⟩ := List.mem_map.mp hw
        exact (conn_of_mem_finishes o rfl (mem_finishAll (List.mem_filter.mp hf).1).1).symm
      · rw [List.mem_singleton.mp hw]
        rfl
  | flush order => cases hw
  | _ =>
      rw [List.mem_singleton.mp hw]
      rfl

theorem settle_of_not_flush {e : Env} {c : Call} (hflush : c.isFlush = false) (s : Logger) :
    c.settle o e s = (s.finishAll e (c.finishes o)).2 := by
  cases c with
  | flush order => cases hflush
  | _ => rfl

theorem share_settle_of_ne (hs : Named s) (e : Env) {c : Call} (hflush : c.isFlush = false)
    (hne : c.conn ≠ some b) : (c.settle o e s).share b = s.share b := by
  rw [settle_of_not_flush o hflush]
  apply share_finishAll_of_ne hs
  intro k hk hkb
  exact hne (hkb ▸ conn_of_mem_finishes o hflush hk)

theorem share_settle_congr (hs : Named s) (ht : Named t) (hst : s.share b = t.share b) (e : Env)
    {c : Call} (hflush : c.isFlush = false) (hc : c.conn = some b) :
    (c.settle o e s).share b = (c.settle o e t).share b := by
  rw [settle_of_not_flush o hflush, settle_of_not_flush o hflush]
  refine (finishAll_congr hs ht hst e ?_).2
  intro k hk
  exact Option.some.inj ((conn_of_mem_finishes o hflush hk).symm.trans hc)

theorem writes_congr (hs : Named s) (ht : Named t) (hst : s.share b = t.share b) (e : Env)
    {c : Call} (hc : c.conn = some b) : c.writes dp o e s = c.writes dp o e t := by
  cases c with
  | close proto name conn peer why =>
      have hkeys : ∀ k ∈ (Call.close proto name conn peer why).finishes o, k.1 = b := fun k hk =>
        Option.some.inj ((conn_of_mem_finishes o rfl hk).symm.trans hc)
      have hfinished := (finishAll_congr hs ht hst e hkeys).1
      rw [writes, writes, hfinished]
  | _ => rfl

theorem named_settle (hs : Named s) (e : Env) {c : Call} (hflush : c.isFlush = false) :
    Named (c.settle o e s) := by
  rw [settle_of_not_flush o hflush]
  exact hs.finishAll e _

variable (hcap : o.maxRunBytes = 0)

include hcap

theorem named_exec (e : Env) {c : Call} (hflush : c.isFlush = false) (hs : Named s) :
    Named (s.exec dp o e c) := by
  rw [exec_eq]
  exact View.foldl_keeps (fun w _ s => w.named_run dp o hcap) (named_settle o hs e hflush)

theorem respected_exec (e : Env) {c : Call} (hflush : c.isFlush = false) (hc : c.conn = some b) :
    View.Respected Named (share b) (Logger.exec dp o e c) := by
  intro s t hs ht hst
  have hwrites := View.foldl_filter (fun s w => Write.run dp o w s) (v := share b)
    (l := c.writes dp o e s) (fun _ => true) (fun w _ s => w.named_run dp o hcap)
    (fun w _ htrue => absurd htrue.symm Bool.false_ne_true)
    (fun w hw _ => w.respected_run dp o hcap ((conn_of_mem_writes dp o hw).trans hc))
    (named_settle o hs e hflush) (named_settle o ht e hflush)
    (share_settle_congr o hs ht hst e hflush hc)
  rw [List.filter_true, writes_congr dp o hs ht hst e hc] at hwrites
  rw [exec_eq, exec_eq, writes_congr dp o hs ht hst e hc]
  exact hwrites

end Call

namespace Logger

/-- Calls that are made one after the other. -/
def execAll (dp : Deps) (o : Options) (calls : List (Env × Call)) (s : Logger) : Logger :=
  calls.foldl (fun s a => s.exec dp o a.1 a.2) s

theorem named_new : Named new := by
  intro k st hst
  cases (Table.get_empty k).symm.trans hst

end Logger

end KirbLaSnoop
