import Mathlib
import KirbLaSnoop.Hexdump.Render
import KirbLaSnoop.Lib.Numeral
import KirbLaSnoop.Log.Calls
import KirbLaSnoop.Ts

/-!
# What the console shows

Every call prints at most one piece of text, a line and perhaps a dump below
it, and so does every notice. However the pieces of different connections are
mixed, the dumps can be read back: each row belongs to the line above it.
-/

namespace KirbLaSnoop

inductive ConsoleMode where
  | hex
  | ascii
  | summary
  | none
  deriving DecidableEq

structure Console where
  mode : ConsoleMode
  maxBytes : ℕ

def Dir.arrow : Dir → String
  | .rx => "-->"
  | .tx => "<--"

/-- `trim_end_matches('\n')`. -/
def trimEndNewlines (s : String) : String :=
  String.ofList (s.toList.reverse.dropWhile (· == '\n')).reverse

namespace Call

variable (con : Console) (classify : List UInt8 → Option String)

/-- The line that a call prints, behind the clock. Warnings and errors go
elsewhere. -/
def title : Call → Option String
  | .listening proto name localAddr profile =>
      some ("listen  " ++ proto.tag ++ "/" ++ localAddr ++ "  listener=" ++ name ++ " profile=" ++
        profile)
  | .openConn proto _ conn localAddr peer orig =>
      if con.mode = .none then none
      else
        match orig with
        | some o =>
            some ("open    #" ++ toString conn ++ " " ++ proto.tag ++ " " ++ peer ++ " WANTED " ++ o)
        | none =>
            some ("open    #" ++ toString conn ++ " " ++ proto.tag ++ " " ++ peer ++ " -> " ++
              localAddr)
  | .data proto _ conn peer dir bs rule =>
      if con.mode = .none then none
      else
        let tags := (rule.map fun r => " [" ++ r ++ "]").getD "" ++
          ((classify bs).map fun h => "  " ++ h).getD ""
        some (dir.arrow ++ " #" ++ toString conn ++ " " ++ proto.tag ++ " " ++ peer ++ " " ++
          toString bs.length ++ " bytes" ++ tags)
  | .close proto _ conn peer why =>
      if con.mode = .none then none
      else
        some ("close   #" ++ toString conn ++ " " ++ proto.tag ++ " " ++ peer ++ " (" ++ why ++ ")")
  | .warn _ _ _ => none
  | .error _ _ _ _ => none
  | .flush _ => none

/-- What is below the line, for a message. -/
def body : Call → String
  | .data _ _ _ _ _ bs _ =>
      match con.mode with
      | .summary => ""
      | .none => ""
      | .ascii => "\n  " ++ Hexdump.asciiLine bs con.maxBytes
      | .hex => "\n" ++ trimEndNewlines (Hexdump.render bs con.maxBytes "  ")
  | _ => ""

end Call

/-- The line of a notice, behind the clock. A stream that is finished by the
last flush is reported in fewer words. The other notices go elsewhere. -/
def Notice.title (limits : Limits) (atFlush : Bool) : Notice → Option String
  | .streamCap conn dir =>
      let policy :=
        if limits.tail = 0 then "keeping the first " ++ human limits.head.toNat
        else "keeping the first " ++ human limits.head.toNat ++ " and last " ++ human limits.tail
      some ("TRUNC   #" ++ toString conn ++ " " ++ dir.tag ++ " exceeded the stream cap, " ++ policy)
  | .truncated conn dir sum =>
      let kept := dir.tag ++ " truncated: " ++ human (sum.head + sum.tail) ++ " of " ++
        human sum.total ++ " kept"
      let dropped := human sum.dropped ++ " dropped"
      if atFlush then some ("TRUNC   #" ++ toString conn ++ " " ++ kept ++ ", " ++ dropped)
      else
        let whereTail := (sum.tailPath.map fun p => ", tail in " ++ p.render).getD ""
        some ("TRUNC   #" ++ toString conn ++ " " ++ kept ++ " (" ++ human sum.head ++ " head + " ++
          human sum.tail ++ " tail), " ++ dropped ++ whereTail)
  | .runCap => none
  | .cannotOpen _ => none

/-- What is printed in one piece, and when. -/
inductive Piece where
  | call (now : ℕ) (c : Call)
  | notice (now : ℕ) (n : Notice) (atFlush : Bool)

namespace Piece

variable (con : Console) (classify : List UInt8 → Option String) (limits : Limits)

def now : Piece → ℕ
  | .call now _ => now
  | .notice now _ _ => now

def title : Piece → Option String
  | .call _ c => c.title con classify
  | .notice _ n atFlush => n.title limits atFlush

def body : Piece → String
  | .call _ c => c.body con
  | .notice _ _ _ => ""

/-- What reaches the console, with the newline of `println!`. -/
def text (p : Piece) : List Char :=
  match p.title con classify limits with
  | none => []
  | some title => ("[" ++ Ts.clock p.now ++ "] " ++ title ++ p.body con ++ "\n").toList

/-- The message that the piece shows, under its connection. -/
def message : Piece → Option (Key × List UInt8)
  | .call _ (.data _ _ conn _ dir bs _) => some ((conn, dir), bs)
  | _ => none

/-- The line of the piece is one line. -/
def OneLine (p : Piece) : Prop :=
  ∀ title, p.title con classify limits = some title → '\n' ∉ title.toList

end Piece

/-- Everything that was printed, in order. -/
def transcript (con : Console) (classify : List UInt8 → Option String) (limits : Limits)
    (pieces : List Piece) : List Char :=
  pieces.flatMap (Piece.text con classify limits)

/-! ## Reading it back -/

namespace Console

/-- The connection and the direction that the line of a message names. -/
def titleKey : List Char → Option Key
  | '-' :: '-' :: '>' :: ' ' :: '#' :: rest =>
      some (Numeral.value (rest.takeWhile Char.isDigit), .rx)
  | '<' :: '-' :: '-' :: ' ' :: '#' :: rest =>
      some (Numeral.value (rest.takeWhile Char.isDigit), .tx)
  | _ => none

def headerKey (line : List Char) : Option Key :=
  (Text.splitOnce ']' line).bind fun parts => titleKey (parts.2.drop 1)

/-- Going up from the last line: the bytes of the rows that are not yet given
to a message, and the messages further down. -/
def readLine (line : List Char) (below : List UInt8 × List (Key × List UInt8)) :
    List UInt8 × List (Key × List UInt8) :=
  if line.head? = some '[' then
    ([], ((headerKey line).map fun k => (k, below.1)).toList ++ below.2)
  else (Hexdump.decodeRow 2 line ++ below.1, below.2)

/-- The messages of a console in hex. -/
def readBack (text : List Char) : List (Key × List UInt8) :=
  ((text.splitOn '\n').foldr readLine ([], [])).2

theorem titleKey_of_head {c : Char} {cs : List Char} (hrx : c ≠ '-') (htx : c ≠ '<') :
    titleKey (c :: cs) = none := by
  unfold titleKey
  split
  · next heq => exact absurd (List.cons.inj heq).1 hrx
  · next heq => exact absurd (List.cons.inj heq).1 htx
  · rfl

/-- The number of a connection is read up to the blank behind it. -/
theorem titleKey_data (dir : Dir) (conn : ℕ) (cs : List Char) :
    titleKey (dir.arrow.toList ++ ' ' :: '#' :: (Nat.toDigits 10 conn ++ ' ' :: cs)) =
      some (conn, dir) := by
  have hdigits : ((Nat.toDigits 10 conn ++ ' ' :: cs).takeWhile Char.isDigit) =
      Nat.toDigits 10 conn := by
    rw [List.takeWhile_append_of_pos]
    · simp
    · intro c hc
      have hmem : c ∈ Numeral.digits 0 conn := hc
      exact Numeral.isDigit_of_mem hmem
  have hvalue : Numeral.value (Nat.toDigits 10 conn) = conn := Numeral.value_digits 0 conn
  cases dir with
  | rx =>
      change some (Numeral.value ((Nat.toDigits 10 conn ++ ' ' :: cs).takeWhile _), Dir.rx) = _
      rw [hdigits, hvalue]
  | tx =>
      change some (Numeral.value ((Nat.toDigits 10 conn ++ ' ' :: cs).takeWhile _), Dir.tx) = _
      rw [hdigits, hvalue]

theorem clock_plain (now : ℕ) : ∀ c ∈ (Ts.clock now).toList, c ≠ ']' ∧ c ≠ '\n' := by
  have hpad (width n : ℕ) : ∀ c ∈ (Ts.pad width n).toList, c ≠ ']' ∧ c ≠ '\n' := by
    intro c hc
    rw [Ts.toList_pad] at hc
    have hdigit := Numeral.isDigit_of_mem (n := n) hc
    constructor
    · rintro rfl
      exact absurd hdigit (by decide)
    · rintro rfl
      exact absurd hdigit (by decide)
  unfold Ts.clock
  simp only [String.toList_append, List.forall_mem_append]
  refine ⟨⟨⟨⟨⟨⟨hpad 2 _, ?_⟩, hpad 2 _⟩, ?_⟩, hpad 2 _⟩, ?_⟩, hpad 3 _⟩ <;> simp

/-- The line of a piece, behind the clock. -/
def stamped (now : ℕ) (title : List Char) : List Char :=
  '[' :: ((Ts.clock now).toList ++ ']' :: ' ' :: title)

theorem toList_stamped (now : ℕ) (title below : String) :
    ("[" ++ Ts.clock now ++ "] " ++ title ++ below).toList =
      stamped now title.toList ++ below.toList := by
  simp [stamped]

theorem headerKey_stamped (now : ℕ) (title : List Char) :
    headerKey (stamped now title) = titleKey title := by
  have hsplit : Text.splitOnce ']' (stamped now title) =
      some ('[' :: (Ts.clock now).toList, ' ' :: title) := by
    refine Text.splitOnce_eq_some_iff.mpr ⟨rfl, ?_⟩
    rw [List.mem_cons, not_or]
    exact ⟨by decide, fun h => (clock_plain now _ h).1 rfl⟩
  rw [headerKey, hsplit]
  rfl

theorem newline_not_mem_stamped {title : List Char} (h : '\n' ∉ title) (now : ℕ) :
    '\n' ∉ stamped now title := by
  simp only [stamped, List.mem_cons, List.mem_append, not_or]
  exact ⟨by decide, fun h => (clock_plain now _ h).2 rfl, by decide, by decide, h⟩

end Console

/-- The line of a message names its connection, and no other line names one. -/
theorem titleKey_title (con : Console) (classify : List UInt8 → Option String) (limits : Limits)
    (p : Piece) {title : String} (h : p.title con classify limits = some title) :
    Console.titleKey title.toList = p.message.map Prod.fst := by
  have hword {s t : String} {c : Char} {cs : List Char} (hs : s.toList = c :: cs)
      (hrx : c ≠ '-') (htx : c ≠ '<') : Console.titleKey (s ++ t).toList = none := by
    rw [String.toList_append, hs]
    exact Console.titleKey_of_head hrx htx
  cases p with
  | call now c =>
      cases c with
      | listening proto name localAddr profile =>
          obtain rfl := Option.some.inj h
          simp only [String.append_assoc]
          exact hword rfl (by decide) (by decide)
      | openConn proto name conn localAddr peer orig =>
          obtain ⟨-, h⟩ := Option.ite_none_left_eq_some.mp h
          cases orig with
          | some o =>
              obtain rfl := Option.some.inj h
              simp only [String.append_assoc]
              exact hword rfl (by decide) (by decide)
          | none =>
              obtain rfl := Option.some.inj h
              simp only [String.append_assoc]
              exact hword rfl (by decide) (by decide)
      | data proto name conn peer dir bs rule =>
          obtain ⟨-, h⟩ := Option.ite_none_left_eq_some.mp h
          obtain rfl := Option.some.inj h
          have hconn : (toString conn).toList = Nat.toDigits 10 conn := Nat.toList_repr
          simp only [String.append_assoc, String.toList_append, hconn]
          exact Console.titleKey_data dir conn _
      | close proto name conn peer why =>
          obtain ⟨-, h⟩ := Option.ite_none_left_eq_some.mp h
          obtain rfl := Option.some.inj h
          simp only [String.append_assoc]
          exact hword rfl (by decide) (by decide)
      | warn proto name msg => cases h
      | error proto name conn msg => cases h
      | flush order => cases h
  | notice now n atFlush =>
      cases n with
      | streamCap conn dir =>
          obtain rfl := Option.some.inj h
          simp only [String.append_assoc]
          exact hword rfl (by decide) (by decide)
      | truncated conn dir sum =>
          unfold Piece.title Notice.title at h
          dsimp only at h
          split at h
          · obtain rfl := Option.some.inj h
            simp only [String.append_assoc]
            exact hword rfl (by decide) (by decide)
          · obtain rfl := Option.some.inj h
            simp only [String.append_assoc]
            exact hword rfl (by decide) (by decide)
      | runCap => cases h
      | cannotOpen stem => cases h

/-! ## The lines of a piece -/

/-- A console in hex that shows messages whole. -/
def Console.full : Console := ⟨.hex, 0⟩

theorem trimEndNewlines_append {cs : List Char} (h : ∀ c ∈ cs.getLast?, c ≠ '\n') :
    (trimEndNewlines (String.ofList (cs ++ ['\n']))).toList = cs := by
  unfold trimEndNewlines
  rw [String.toList_ofList, String.toList_ofList, List.reverse_append, List.reverse_singleton,
    List.singleton_append, List.dropWhile_cons_of_pos (by decide)]
  rcases List.eq_nil_or_concat cs with rfl | ⟨front, c, rfl⟩
  · rfl
  · have hc : c ≠ '\n' := h c (by simp)
    rw [List.concat_eq_append, List.reverse_append, List.reverse_singleton, List.singleton_append,
      List.dropWhile_cons_of_neg (by simpa using hc)]
    simp

/-- The rows of a dump, or an empty line if there is nothing to show. -/
def dumpLines (bs : List UInt8) : List (List Char) :=
  if bs = [] then [[]] else Hexdump.rows "  " bs

theorem rows_getLast (bs : List UInt8) (hne : bs ≠ []) :
    ∃ front last, Hexdump.rows "  " bs = front ++ [last ++ ['|']] := by
  rcases List.eq_nil_or_concat (Hexdump.rows "  " bs) with hnil | ⟨front, line, hrows⟩
  · have hlength := Hexdump.length_rows "  " bs
    rw [hnil, List.length_nil] at hlength
    have hpos := List.length_pos_of_ne_nil hne
    omega
  · rw [List.concat_eq_append] at hrows
    have hmem : line ∈ Hexdump.rows "  " bs := hrows ▸ List.mem_append_right _ List.mem_cons_self
    obtain ⟨c, -, rfl⟩ := List.mem_map.mp hmem
    exact ⟨front, _, hrows⟩

theorem body_dump (proto : Proto) (name : String) (conn : ℕ) (peer : String) (dir : Dir)
    (bs : List UInt8) (rule : Option String) :
    ((Call.data proto name conn peer dir bs rule).body Console.full).toList ++ ['\n'] =
      '\n' :: (dumpLines bs).flatMap (· ++ ['\n']) := by
  change ("\n" ++ trimEndNewlines (Hexdump.render bs 0 "  ")).toList ++ ['\n'] = _
  rw [String.toList_append]
  change '\n' :: ((trimEndNewlines (Hexdump.render bs 0 "  ")).toList ++ ['\n']) = _
  unfold dumpLines
  split
  · next hnil =>
      subst hnil
      rfl
  · next hne =>
      have hrender := Hexdump.render_eq bs 0 "  "
      have hlimit : Hexdump.limit bs 0 = bs.length := if_pos rfl
      rw [hlimit, if_neg (Nat.lt_irrefl _), List.append_nil, List.take_length] at hrender
      obtain ⟨front, last, hrows⟩ := rows_getLast bs hne
      have hflat : (Hexdump.rows "  " bs).flatMap (· ++ ['\n']) =
          front.flatMap (· ++ ['\n']) ++ last ++ ['|'] ++ ['\n'] := by
        rw [hrows]
        simp
      rw [hflat] at hrender ⊢
      rw [← String.ofList_toList (s := Hexdump.render bs 0 "  "), hrender, trimEndNewlines_append]
      simp

namespace Piece

variable (classify : List UInt8 → Option String) (limits : Limits)

/-- What is below the line of the piece. -/
def dump (p : Piece) : List (List Char) := (p.message.map fun m => dumpLines m.2).getD []

def lines (p : Piece) : List (List Char) :=
  match p.title Console.full classify limits with
  | none => []
  | some title => Console.stamped p.now title.toList :: p.dump

theorem body_eq (p : Piece) :
    (p.body Console.full).toList ++ ['\n'] = '\n' :: p.dump.flatMap (· ++ ['\n']) := by
  cases p with
  | call now c =>
      cases c with
      | data proto name conn peer dir bs rule => exact body_dump proto name conn peer dir bs rule
      | _ => rfl
  | notice now n atFlush => rfl

theorem text_eq (p : Piece) :
    p.text Console.full classify limits = (p.lines classify limits).flatMap (· ++ ['\n']) := by
  unfold text lines
  cases p.title Console.full classify limits with
  | none => rfl
  | some title =>
      have hassoc : "[" ++ Ts.clock p.now ++ "] " ++ title ++ p.body Console.full ++ "\n" =
          "[" ++ Ts.clock p.now ++ "] " ++ title ++ (p.body Console.full ++ "\n") :=
        String.append_assoc
      have hnewline : "\n".toList = ['\n'] := rfl
      dsimp only
      rw [hassoc, Console.toList_stamped, String.toList_append, hnewline, body_eq,
        List.flatMap_cons, List.append_assoc]
      rfl

variable {classify limits} {p : Piece}

theorem newline_not_mem_dumpLines (bs : List UInt8) : ∀ line ∈ dumpLines bs, '\n' ∉ line := by
  unfold dumpLines
  split
  · simp
  · exact Hexdump.newline_not_mem_rows (by decide) bs

theorem newline_not_mem_lines (h : p.OneLine Console.full classify limits) :
    ∀ line ∈ p.lines classify limits, '\n' ∉ line := by
  unfold lines
  cases htitle : p.title Console.full classify limits with
  | none => exact List.forall_mem_nil _
  | some title =>
      refine List.forall_mem_cons.mpr ⟨Console.newline_not_mem_stamped (h title htitle) p.now, ?_⟩
      unfold dump
      cases p.message with
      | none => exact List.forall_mem_nil _
      | some m => exact newline_not_mem_dumpLines m.2

/-- The dump of a message is read up to the line above it. -/
theorem foldr_dumpLines {bs : List UInt8} (h : bs.length < 2 ^ 32) (ms : List (Key × List UInt8)) :
    (dumpLines bs).foldr Console.readLine ([], ms) = (bs, ms) := by
  have hrows (lines : List (List Char)) (hlines : ∀ line ∈ lines, line.head? ≠ some '[') :
      lines.foldr Console.readLine ([], ms) = (lines.flatMap (Hexdump.decodeRow 2), ms) := by
    induction lines with
    | nil => rfl
    | cons line lines ih =>
        rw [List.forall_mem_cons] at hlines
        rw [List.foldr_cons, ih hlines.2, Console.readLine, if_neg hlines.1]
        rfl
  unfold dumpLines
  split
  · next hnil =>
      subst hnil
      rfl
  · have hdecoded : (Hexdump.rows "  " bs).flatMap (Hexdump.decodeRow 2) = bs :=
      @Hexdump.flatMap_decodeRow_rows "  " bs h
    rw [hrows, hdecoded]
    intro line hline
    obtain ⟨c, -, rfl⟩ := List.mem_map.mp hline
    change some ' ' ≠ some '['
    decide

variable (classify limits) in
theorem title_of_message {m : Key × List UInt8} (h : p.message = some m) :
    ∃ title, p.title Console.full classify limits = some title := by
  cases p with
  | call now c =>
      cases c with
      | data proto name conn peer dir bs rule => exact ⟨_, rfl⟩
      | _ => cases h
  | notice now n atFlush => cases h

/-- A piece is read back as its message. -/
theorem foldr_lines (h : ∀ m, p.message = some m → m.2.length < 2 ^ 32)
    (ms : List (Key × List UInt8)) :
    (p.lines classify limits).foldr Console.readLine ([], ms) = ([], p.message.toList ++ ms) := by
  unfold lines
  cases htitle : p.title Console.full classify limits with
  | none =>
      cases hm : p.message with
      | none => rfl
      | some m =>
          obtain ⟨title, hsome⟩ := title_of_message classify limits hm
          cases htitle.symm.trans hsome
  | some title =>
      have hkey : Console.headerKey (Console.stamped p.now title.toList) =
          p.message.map Prod.fst := by
        rw [Console.headerKey_stamped, titleKey_title Console.full classify limits p htitle]
      have hhead : (Console.stamped p.now title.toList).head? = some '[' := rfl
      unfold dump
      cases hm : p.message with
      | none =>
          rw [hm] at hkey
          simp [Console.readLine, hhead, hkey]
      | some m =>
          rw [hm] at hkey
          have hdump := foldr_dumpLines (h m hm) ms
          simp [Console.readLine, hhead, hkey, hdump]

end Piece

/-- Whatever pieces are printed in whatever order, reading the console gives
the messages in that order. -/
theorem readBack_transcript {classify : List UInt8 → Option String} {limits : Limits}
    {pieces : List Piece} (hline : ∀ p ∈ pieces, p.OneLine Console.full classify limits)
    (hsize : ∀ p ∈ pieces, ∀ m, p.message = some m → m.2.length < 2 ^ 32) :
    Console.readBack (transcript Console.full classify limits pieces) =
      pieces.filterMap Piece.message := by
  have htext : transcript Console.full classify limits pieces =
      (pieces.flatMap (Piece.lines classify limits)).flatMap (· ++ ['\n']) ++ [] := by
    rw [transcript, List.append_nil, List.flatMap_assoc, funext (Piece.text_eq classify limits)]
  have hlines : ∀ line ∈ pieces.flatMap (Piece.lines classify limits), '\n' ∉ line := by
    intro line hmem
    obtain ⟨p, hp, hmem⟩ := List.mem_flatMap.mp hmem
    exact Piece.newline_not_mem_lines (hline p hp) line hmem
  have hfold : (pieces.flatMap (Piece.lines classify limits)).foldr Console.readLine ([], []) =
      ([], pieces.filterMap Piece.message) := by
    clear htext hlines hline
    induction pieces with
    | nil => rfl
    | cons p pieces ih =>
        rw [List.forall_mem_cons] at hsize
        rw [List.flatMap_cons, List.foldr_append, ih hsize.2, Piece.foldr_lines hsize.1,
          List.filterMap_cons]
        cases p.message <;> rfl
  rw [Console.readBack, htext, Text.splitOn_lines hlines, List.foldr_append]
  change ((pieces.flatMap (Piece.lines classify limits)).foldr Console.readLine ([], [])).2 = _
  rw [hfold]

end KirbLaSnoop
