import Mathlib
import KirbLaSnoop.Stream

/-!
# The logger and its calls

Three sinks: the event log, the raw files and the console, of which only the
lines that report a loss are kept. A call runs here from start to end; the
steps that other tasks can come between are in `Log.Interleaving`.
-/

namespace KirbLaSnoop

inductive Proto where
  | tcp
  | udp
  deriving DecidableEq

def Proto.tag : Proto → String
  | .tcp => "tcp"
  | .udp => "udp"

inductive Dir where
  | rx
  | tx
  deriving DecidableEq

def Dir.tag : Dir → String
  | .rx => "rx"
  | .tx => "tx"

/-- One direction of one connection, the key of the stream table. -/
abbrev Key := ℕ × Dir

/-- The parts of a raw file's name; `safe` is the peer with everything but
ASCII letters and digits squashed to underscores. -/
structure Stem where
  conn : ℕ
  proto : Proto
  safe : String
  dir : Dir
  deriving DecidableEq

inductive FileName where
  | head (stem : Stem)
  | tail (stem : Stem)
  deriving DecidableEq

/-- `format!("{n:04}")`. -/
def pad4 (n : ℕ) : String :=
  let digits := toString n
  String.ofList (List.replicate (4 - digits.length) '0') ++ digits

def Stem.render (s : Stem) : String :=
  pad4 s.conn ++ "-" ++ s.proto.tag ++ "-" ++ s.safe ++ "." ++ s.dir.tag

def FileName.render : FileName → String
  | .head s => s.render ++ ".bin"
  | .tail s => s.render ++ ".tail.bin"

def safePeer (peer : String) : String :=
  peer.map fun c => if c.isAlphanum then c else '_'

def Stem.of (conn : ℕ) (proto : Proto) (peer : String) (dir : Dir) : Stem :=
  ⟨conn, proto, safePeer peer, dir⟩

def Stem.key (s : Stem) : Key := (s.conn, s.dir)

inductive EventKind where
  | listen
  | opened
  | data
  | close
  | truncated
  | warning
  | error
  deriving DecidableEq

structure Event where
  ts : String
  tsMs : ℕ
  event : EventKind
  proto : Proto
  listener : Option String := none
  conn : Option ℕ := none
  localAddr : Option String := none
  peer : Option String := none
  origDst : Option String := none
  dir : Option Dir := none
  hint : Option String := none
  len : Option ℕ := none
  rule : Option String := none
  note : Option String := none
  data : Option String := none
  dataTruncated : Option Bool := none
  deriving DecidableEq

/-- What the logger calls and does not contain: the JSON and base64 encoders,
the classifier and the clock's rendering. -/
structure Deps where
  toJson : Event → String
  encode : List UInt8 → String
  classify : List UInt8 → Option String
  iso8601 : ℕ → String

structure Options where
  jsonl : Bool
  raw : Bool
  jsonlMaxData : ℕ
  streamLimits : Limits
  maxRunBytes : ℕ

/-- Raw dumps without an event log. -/
def Options.rawOnly (limits : Limits) (cap : ℕ) : Options := ⟨false, true, 0, limits, cap⟩

def Deps.bare : Deps := ⟨fun _ => "", fun _ => "", fun _ => none, fun _ => ""⟩

/-- The console lines about bytes that are not on disk. -/
inductive Notice where
  | runCap
  | streamCap (conn : ℕ) (dir : Dir)
  | truncated (conn : ℕ) (dir : Dir) (summary : Summary FileName)
  | cannotOpen (stem : Stem)
  deriving DecidableEq

/-- `jsonl` holds the lines of the event log as events, oldest first. -/
structure Logger where
  jsonl : List Event
  raw : Table Key (Stream FileName)
  disk : Disk FileName
  nextConn : ℕ
  diskUsed : ℕ
  diskStopped : Bool
  console : List Notice

/-- The answers of the outside world during one call. -/
structure Env where
  io : Key → Io
  now : ℕ
  truncatedAt : Dir → ℕ

def Env.Good (e : Env) : Prop := ∀ k, e.io k = Io.ok

def Env.quiet : Env := ⟨fun _ => .ok, 0, fun _ => 0⟩

theorem Env.quiet_good : Env.quiet.Good := fun _ => rfl

def human (n : ℕ) : String :=
  let scaled (scale : ℕ) (suffix : String) :=
    let whole := n / scale
    let frac := n % scale * 10 / scale
    if frac = 0 then s!"{whole}{suffix}" else s!"{whole}.{frac}{suffix}"
  if n ≥ 2 ^ 30 then scaled (2 ^ 30) "G"
  else if n ≥ 2 ^ 20 then scaled (2 ^ 20) "M"
  else if n ≥ 2 ^ 10 then scaled (2 ^ 10) "K"
  else s!"{n}B"

/-- A finished stream: its summary, and the length of the tail file that was
already there when the new one was created. -/
structure Finished where
  key : Key
  summary : Summary FileName
  replaced : ℕ
  deriving DecidableEq

namespace Logger

def new : Logger := ⟨[], ∅, ∅, 1, 0, false, []⟩

variable (dp : Deps) (o : Options)

/-- The bytes of an event's line, newline included. -/
def lineBytes (ev : Event) : ℕ := (dp.toJson ev).utf8ByteSize + 1

def charge (n : ℕ) (s : Logger) : Bool × Logger :=
  if o.maxRunBytes = 0 then (true, s)
  else if s.diskStopped then (false, s)
  else
    let s := { s with diskUsed := s.diskUsed + n }
    if s.diskUsed > o.maxRunBytes then
      (false, { s with
        diskUsed := s.diskUsed - n
        diskStopped := true
        console := s.console ++ [.runCap] })
    else (true, s)

def nextConnId (s : Logger) : ℕ × Logger :=
  (s.nextConn, { s with nextConn := s.nextConn + 1 })

/-- The source ignores a `writeln!` or a flush of the event log that fails;
here they succeed. -/
def emitLocked (ev : Event) (s : Logger) : Logger :=
  { s with jsonl := s.jsonl ++ [ev] }

def emit (ev : Event) (s : Logger) : Logger :=
  if !o.jsonl then s
  else
    let (granted, s) := s.charge o (lineBytes dp ev)
    if granted then s.emitLocked ev else s

def rawLocked (io : Io) (conn : ℕ) (proto : Proto) (peer : String) (dir : Dir)
    (data : List UInt8) (s : Logger) : Logger :=
  let stem := Stem.of conn proto peer dir
  let slot := match s.raw.get (conn, dir) with
    | some st => some (st, s.disk)
    | none => Stream.create io (.head stem) (.tail stem) o.streamLimits s.disk
  match slot with
  | none => { s with console := s.console ++ [.cannotOpen stem] }
  | some (st, disk) =>
      let (first, st, disk) := st.write io disk data
      { s with
        raw := s.raw.set (conn, dir) st
        disk := disk
        console := if first then s.console ++ [.streamCap conn dir] else s.console }

def rawWrite (io : Io) (conn : ℕ) (proto : Proto) (peer : String) (dir : Dir)
    (data : List UInt8) (s : Logger) : Logger :=
  if !o.raw || data.isEmpty then s
  else
    let (granted, s) := s.charge o data.length
    if granted then s.rawLocked o io conn proto peer dir data else s

def finishStream (io : Io) (k : Key) (st : Stream FileName) (s : Logger) : Finished × Logger :=
  let (summary, disk) := st.finish io s.disk
  let replaced := (summary.tailPath.map fun p => (s.disk.contents p).length).getD 0
  (⟨k, summary, replaced⟩, { s with disk := disk })

/-- Take the streams of the given keys out of the table and finish them. -/
def finishAll (e : Env) : List Key → Logger → List Finished × Logger
  | [], s => ([], s)
  | k :: ks, s =>
      match s.raw.get k with
      | none => s.finishAll e ks
      | some st =>
          let (f, s) := { s with raw := s.raw.remove k }.finishStream (e.io k) k st
          let (fs, s) := s.finishAll e ks
          (f :: fs, s)

/-- The event of `close_raw` for a stream that lost bytes. -/
def truncatedEvent (e : Env) (proto : Proto) (name peer : String) (f : Finished) : Event :=
  let sum := f.summary
  let whereTail := (sum.tailPath.map fun p => ", tail in " ++ p.render).getD ""
  { ts := dp.iso8601 (e.truncatedAt f.key.2)
    tsMs := e.truncatedAt f.key.2
    event := .truncated
    proto
    listener := some name
    conn := some f.key.1
    peer := some peer
    dir := some f.key.2
    len := some sum.total
    note := some (f.key.2.tag ++ " truncated: " ++ human (sum.head + sum.tail) ++ " of " ++
      human sum.total ++ " kept (" ++ human sum.head ++ " head + " ++ human sum.tail ++
      " tail), " ++ human sum.dropped ++ " dropped" ++ whereTail) }

def announce (f : Finished) (s : Logger) : Logger :=
  { s with console := s.console ++ [.truncated f.key.1 f.key.2 f.summary] }

def closeRaw (e : Env) (conn : ℕ) (proto : Proto) (name peer : String) (s : Logger) : Logger :=
  if !o.raw then s
  else
    let (finished, s) := s.finishAll e [(conn, .rx), (conn, .tx)]
    finished.foldl (fun s f =>
      if f.summary.dropped = 0 then s
      else (s.announce f).emit dp o (truncatedEvent dp e proto name peer f)) s

end Logger

end KirbLaSnoop
