import Mathlib
import KirbLaSnoop.Lib.Numeral
import KirbLaSnoop.Log.RunDir

/-!
# The names of the raw files

The peer is squashed in a name, but the connection stands before its first
dash and the direction behind its first dot, and that is enough to tell the
streams of a run apart.
-/

namespace KirbLaSnoop

/-- The normal components of a path, and its `..`. -/
def components (path : String) : Path :=
  ((path.toList.splitOn '/').filter fun part => part != [] && part != ['.']).map String.ofList

/-- `Path::join`: an absolute path takes the place of the directory. -/
def joinPath (dir : Path) (path : String) : Path :=
  if path.toList.head? = some '/' then components path else dir ++ components path

/-- The files of `raw_write` for one stream, the head before the tail. -/
def rawFiles (conn : ℕ) (proto : Proto) (peer : String) (dir : Dir) : List FileName :=
  [.head (Stem.of conn proto peer dir), .tail (Stem.of conn proto peer dir)]

def rawNames (conn : ℕ) (proto : Proto) (peer : String) (dir : Dir) : List String :=
  (rawFiles conn proto peer dir).map FileName.render

/-! ## The parts of a name -/

def FileName.stem : FileName → Stem
  | .head s => s
  | .tail s => s

def FileName.ending : FileName → List Char
  | .head _ => ['.', 'b', 'i', 'n']
  | .tail _ => ['.', 't', 'a', 'i', 'l', '.', 'b', 'i', 'n']

/-- What `safePeer` makes of a peer. -/
def Stem.Safe (s : Stem) : Prop := ∀ c ∈ s.safe.toList, c.isAlphanum = true ∨ c = '_'

theorem Stem.safe_of (conn : ℕ) (proto : Proto) (peer : String) (dir : Dir) :
    (Stem.of conn proto peer dir).Safe := by
  intro c hc
  change c ∈ (safePeer peer).toList at hc
  rw [safePeer, String.toList_map] at hc
  obtain ⟨d, -, rfl⟩ := List.mem_map.mp hc
  split
  · next hd => exact .inl hd
  · exact .inr rfl

theorem toList_pad4 (n : ℕ) :
    (pad4 n).toList = Numeral.digits (4 - (Nat.toDigits 10 n).length) n := Ts.toList_pad 4 n

theorem FileName.toList_render (f : FileName) :
    f.render.toList = (pad4 f.stem.conn).toList ++ '-' :: (f.stem.proto.tag.toList ++
      '-' :: (f.stem.safe.toList ++ '.' :: (f.stem.dir.tag.toList ++ f.ending))) := by
  cases f <;>
    simp [FileName.render, Stem.render, FileName.stem, FileName.ending]

theorem dash_not_mem_pad4 (n : ℕ) : '-' ∉ (pad4 n).toList := by
  intro hmem
  rw [toList_pad4] at hmem
  exact absurd (Numeral.isDigit_of_mem hmem) (by decide)

theorem dash_not_mem_tag (proto : Proto) : '-' ∉ proto.tag.toList := by
  cases proto <;> decide

theorem dot_not_mem_safe {s : Stem} (h : s.Safe) : '.' ∉ s.safe.toList := by
  intro hmem
  have hdot : '.'.isAlphanum = true ∨ '.' = '_' := h '.' hmem
  revert hdot
  decide

theorem Proto.tag_inj {p q : Proto} (h : p.tag = q.tag) : p = q := by
  revert h
  cases p <;> cases q <;> decide

theorem Dir.tag_inj {d e : Dir} (h : d.tag = e.tag) : d = e := by
  revert h
  cases d <;> cases e <;> decide

/-- The direction and the ending are read off together: neither is a prefix
of another. -/
theorem FileName.ending_inj {f g : FileName}
    (h : f.stem.dir.tag.toList ++ f.ending = g.stem.dir.tag.toList ++ g.ending) :
    f.stem.dir = g.stem.dir ∧ f.ending = g.ending := by
  cases f with
  | head s =>
      cases g with
      | head t =>
          refine ⟨?_, rfl⟩
          exact Dir.tag_inj (String.toList_inj.mp (List.append_cancel_right h))
      | tail t =>
          revert h
          cases hs : s.dir <;> cases ht : t.dir <;> simp [stem, hs, ht, Dir.tag, ending]
  | tail s =>
      cases g with
      | head t =>
          revert h
          cases hs : s.dir <;> cases ht : t.dir <;> simp [stem, hs, ht, Dir.tag, ending]
      | tail t =>
          refine ⟨?_, rfl⟩
          exact Dir.tag_inj (String.toList_inj.mp (List.append_cancel_right h))

theorem append_cons_inj {sep : Char} {as bs xs ys : List Char} (ha : sep ∉ as) (hb : sep ∉ bs)
    (h : as ++ sep :: xs = bs ++ sep :: ys) : as = bs ∧ xs = ys := by
  have hsplit := Text.splitOnce_eq_some_iff.mpr ⟨h, hb⟩
  rw [Text.splitOnce_eq_some_iff.mpr ⟨rfl, ha⟩] at hsplit
  exact Prod.mk.inj (Option.some.inj hsplit)

/-- A file is known by its name. -/
theorem FileName.render_inj {f g : FileName} (hf : f.stem.Safe) (hg : g.stem.Safe)
    (h : f.render = g.render) : f = g := by
  have hchars := congrArg String.toList h
  rw [f.toList_render, g.toList_render] at hchars
  obtain ⟨hconn, hchars⟩ := append_cons_inj (dash_not_mem_pad4 f.stem.conn)
    (dash_not_mem_pad4 g.stem.conn) hchars
  obtain ⟨hproto, hchars⟩ := append_cons_inj (dash_not_mem_tag f.stem.proto)
    (dash_not_mem_tag g.stem.proto) hchars
  obtain ⟨hsafe, hchars⟩ := append_cons_inj (dot_not_mem_safe hf) (dot_not_mem_safe hg) hchars
  obtain ⟨hdir, hkind⟩ := FileName.ending_inj hchars
  have hstem : f.stem = g.stem := by
    rcases hf : f.stem with ⟨conn, proto, safe, dir⟩
    rcases hg : g.stem with ⟨conn', proto', safe', dir'⟩
    simp only [hf, hg] at hconn hproto hsafe hdir
    have hpad : Ts.pad 4 conn = Ts.pad 4 conn' := String.toList_inj.mp hconn
    rw [Ts.pad_inj hpad, Proto.tag_inj (String.toList_inj.mp hproto), String.toList_inj.mp hsafe,
      hdir]
  cases f with
  | head s =>
      cases g with
      | head t => exact congrArg FileName.head hstem
      | tail t => exact absurd hkind (by simp [ending])
  | tail s =>
      cases g with
      | head t => exact absurd hkind (by simp [ending])
      | tail t => exact congrArg FileName.tail hstem

/-! ## The characters of a name -/

/-- ASCII letters and digits, dashes, underscores and dots. -/
def Plain (c : Char) : Prop := c.isAlphanum = true ∨ c = '-' ∨ c = '_' ∨ c = '.'

instance : DecidablePred Plain := fun c =>
  inferInstanceAs (Decidable (c.isAlphanum = true ∨ c = '-' ∨ c = '_' ∨ c = '.'))

theorem FileName.plain_of_mem {f : FileName} (hf : f.stem.Safe) {c : Char}
    (hc : c ∈ f.render.toList) : Plain c := by
  have htag : f.stem.proto.tag.toList.all Char.isAlphanum = true := by
    cases f.stem.proto <;> decide
  have hdirTag : f.stem.dir.tag.toList.all Char.isAlphanum = true := by
    cases f.stem.dir <;> decide
  have hdots : f.ending.all (fun c => decide (Plain c)) = true := by
    cases f <;> rfl
  rw [f.toList_render] at hc
  simp only [List.mem_append, List.mem_cons] at hc
  rcases hc with hconn | rfl | hproto | rfl | hsafe | rfl | hdir | hending
  · rw [toList_pad4] at hconn
    exact .inl (by simp [Char.isAlphanum, Numeral.isDigit_of_mem hconn])
  · decide
  · exact .inl (List.all_eq_true.mp htag c hproto)
  · decide
  · exact (hf c hsafe).imp_right fun h => .inr (.inl h)
  · decide
  · exact .inl (List.all_eq_true.mp hdirTag c hdir)
  · exact of_decide_eq_true (List.all_eq_true.mp hdots c hending)

/-- A name without a slash is one component of the path it is joined to. -/
theorem joinPath_of_plain (dir : Path) {name : String} (hslash : '/' ∉ name.toList)
    (hempty : name.toList ≠ []) (hdot : name.toList ≠ ['.']) :
    joinPath dir name = dir ++ [name] := by
  have hhead : name.toList.head? ≠ some '/' := fun h => hslash (List.mem_of_mem_head? h)
  rw [joinPath, if_neg hhead, components, List.splitOn_eq_singleton hslash]
  simp [hempty, hdot]

theorem nodup_rawNames {conn conn' : ℕ} {dir dir' : Dir} (hne : (conn, dir) ≠ (conn', dir'))
    (proto proto' : Proto) (peer peer' : String) :
    (rawNames conn proto peer dir ++ rawNames conn' proto' peer' dir').Nodup := by
  have hstem : Stem.of conn proto peer dir ≠ Stem.of conn' proto' peer' dir' :=
    fun h => hne (congrArg Stem.key h)
  rw [rawNames, rawNames, ← List.map_append]
  refine List.Nodup.map_on ?_ (by simp [rawFiles, hstem])
  intro f hf g hg heq
  have hsafe : ∀ f ∈ rawFiles conn proto peer dir ++ rawFiles conn' proto' peer' dir',
      f.stem.Safe := by
    intro f hf
    simp only [rawFiles, List.cons_append, List.nil_append, List.mem_cons, List.not_mem_nil,
      or_false] at hf
    rcases hf with rfl | rfl | rfl | rfl <;> exact Stem.safe_of _ _ _ _
  exact FileName.render_inj (hsafe f hf) (hsafe g hg) heq

theorem inside_of_mem_rawNames (runDir : Path) {conn : ℕ} {proto : Proto} {peer : String}
    {dir : Dir} {name : String} (h : name ∈ rawNames conn proto peer dir) :
    (∀ c ∈ name.toList, Plain c) ∧ (∀ sep ∈ ['/', '\\'], sep ∉ name.toList) ∧ name ≠ ".." ∧
      joinPath runDir name = runDir ++ [name] := by
  obtain ⟨f, hf, rfl⟩ := List.mem_map.mp h
  have hsafe : f.stem.Safe := by
    rcases List.mem_pair.mp hf with rfl | rfl <;> exact Stem.safe_of conn proto peer dir
  have hplain : ∀ c ∈ f.render.toList, Plain c := fun c hc => f.plain_of_mem hsafe hc
  have hsep : ∀ sep ∈ ['/', '\\'], sep ∉ f.render.toList := by
    intro sep hmem hin
    have hbad := hplain sep hin
    rcases List.mem_pair.mp hmem with rfl | rfl
    · exact absurd hbad (by decide)
    · exact absurd hbad (by decide)
  have hdash : '-' ∈ f.render.toList := by
    rw [f.toList_render]
    simp
  refine ⟨hplain, hsep, ?_, joinPath_of_plain runDir (hsep '/' (by simp)) ?_ ?_⟩
  · intro hdots
    rw [hdots] at hdash
    revert hdash
    decide
  · exact List.ne_nil_of_mem hdash
  · intro hdot
    rw [hdot] at hdash
    revert hdash
    decide

/-! ## The files of a run -/

namespace Stream

variable {P : Type*} [DecidableEq P]

/-- The head file while it is open, and the tail file. -/
def files (s : Stream P) : List P := s.head.toList ++ [s.tailPath]

theorem files_writeOn (w : ℕ) (s : Stream P) (io : Io) (d : Disk P) (data : List UInt8) :
    (s.writeOn w io d data).2.1.files = s.files := by
  have htail : ∀ (s : Stream P) rest, (s.writeTail rest).2.files = s.files := by
    intro s rest
    unfold writeTail
    dsimp only
    split_ifs <;> rfl
  unfold writeOn
  dsimp only
  split_ifs
  · rfl
  · rfl
  · exact htail _ _
  · rfl
  · exact htail _ _

theorem files_of_create {io : Io} {headPath tailPath : P} {limits : Limits} {d d' : Disk P}
    {s : Stream P} (h : create io headPath tailPath limits d = some (s, d')) :
    s.files = [headPath, tailPath] := by
  unfold create at h
  split_ifs at h
  obtain ⟨rfl, -⟩ := Prod.mk.inj (Option.some.inj h)
  rfl

end Stream

namespace Logger

variable (dp : Deps) (o : Options)

/-- Every open stream has the files of its own connection and direction. -/
def Named (s : Logger) : Prop :=
  ∀ k st, s.raw.get k = some st → ∃ proto peer, st.files = rawFiles k.1 proto peer k.2

theorem Named.rawLocked {s : Logger} (h : Named s) (io : Io) (conn : ℕ) (proto : Proto)
    (peer : String) (dir : Dir) (data : List UInt8) :
    Named (s.rawLocked o io conn proto peer dir data) := by
  have hset : ∀ st : Stream FileName, ∀ disk console,
      (∃ proto peer, st.files = rawFiles conn proto peer dir) →
        Named { s with raw := s.raw.set (conn, dir) st, disk := disk, console := console } := by
    intro st disk console hfiles k st' hst'
    by_cases hk : k = (conn, dir)
    · subst hk
      obtain rfl := Option.some.inj ((Table.get_set _ _ _).symm.trans hst')
      exact hfiles
    · exact h k st' ((Table.get_set_ne _ _ hk).symm.trans hst')
  unfold Logger.rawLocked
  dsimp only
  cases hget : s.raw.get (conn, dir) with
  | some st =>
      refine hset _ _ _ ?_
      obtain ⟨proto', peer', hfiles⟩ := h _ st hget
      exact ⟨proto', peer', (Stream.files_writeOn 64 _ _ _ _).trans hfiles⟩
  | none =>
      cases hcreate : Stream.create io (.head (Stem.of conn proto peer dir))
          (.tail (Stem.of conn proto peer dir)) o.streamLimits s.disk with
      | none => exact h
      | some opened =>
          refine hset _ _ _ ⟨proto, peer, ?_⟩
          exact (Stream.files_writeOn 64 _ _ _ _).trans (Stream.files_of_create hcreate)

theorem named_of_reachable {s : Logger} (hs : Reachable dp o s) : Named s := by
  obtain ⟨acts, tr, hrun⟩ := hs
  refine (calls dp o).run_invariant Named ?_ ?_ hrun
  · intro k st hst
    cases (Table.get_empty k).symm.trans hst
  · rintro u ⟨e, c⟩ v out hu hstep
    obtain ⟨-, rfl, -⟩ := (calls_step_eq_some dp o).mp hstep
    by_cases hdata : ∃ proto name conn peer dir bs rule, c = .data proto name conn peer dir bs rule
    · obtain ⟨proto, name, conn, peer, dir, bs, rule, rfl⟩ := hdata
      have hraw := (exec_files_of_data dp o e proto name conn peer dir bs rule u).1
      have hwrite : Named (u.rawWrite o (e.io (conn, dir)) conn proto peer dir bs) := by
        have hcharged : Named (u.charge o bs.length).2 := by
          unfold Named
          rwa [charge_raw]
        unfold rawWrite
        dsimp only
        split_ifs
        · exact hu
        · exact hcharged.rawLocked o _ _ _ _ _ _
        · exact hcharged
      intro k st hst
      exact hwrite k st (hraw ▸ hst)
    · have hraw := (exec_files_of_not_data dp o e c u fun proto name conn peer dir bs rule hc =>
        hdata ⟨proto, name, conn, peer, dir, bs, rule, hc⟩).1
      intro k st hst
      rw [hraw, get_raw_finishAll] at hst
      split_ifs at hst
      exact hu k st hst

/-- The names of two streams are four, all of them inside the directory of the
run, and the streams of a run have such names. -/
theorem raw_names_apart (runDir : Path) :
    (∀ conn conn' dir dir', (conn, dir) ≠ (conn', dir') → ∀ proto proto' peer peer',
      (rawNames conn proto peer dir ++ rawNames conn' proto' peer' dir').Nodup) ∧
    (∀ conn proto peer dir, ∀ name ∈ rawNames conn proto peer dir,
      (∀ c ∈ name.toList, Plain c) ∧ (∀ sep ∈ ['/', '\\'], sep ∉ name.toList) ∧ name ≠ ".." ∧
        joinPath runDir name = runDir ++ [name]) ∧
    ∀ s s', Reachable dp o s → Reachable dp o s' → ∀ k k' st st', s.raw.get k = some st →
      s'.raw.get k' = some st' → k ≠ k' →
        (st.files.map FileName.render ++ st'.files.map FileName.render).Nodup := by
  refine ⟨?_, ?_, ?_⟩
  · intro conn conn' dir dir' hne proto proto' peer peer'
    exact nodup_rawNames hne proto proto' peer peer'
  · intro conn proto peer dir name hname
    exact inside_of_mem_rawNames runDir hname
  · intro s s' hs hs' k k' st st' hst hst' hne
    obtain ⟨proto, peer, hfiles⟩ := named_of_reachable dp o hs k st hst
    obtain ⟨proto', peer', hfiles'⟩ := named_of_reachable dp o hs' k' st' hst'
    rw [hfiles, hfiles']
    exact nodup_rawNames hne proto proto' peer peer'

end Logger

end KirbLaSnoop
