import KirbLaSnoop.Lib.Transition
import KirbLaSnoop.Lib.Table
import KirbLaSnoop.Lib.Capture
import KirbLaSnoop.Lib.Budget
import KirbLaSnoop.Lib.Appenders
import KirbLaSnoop.Lib.Lifecycle
import KirbLaSnoop.Lib.Text
import KirbLaSnoop.Lib.Numeral
import KirbLaSnoop.Lib.Lossy
import KirbLaSnoop.Lib.Cursor
import KirbLaSnoop.Lib.InTurn
import KirbLaSnoop.Lib.Chunks
import KirbLaSnoop.Lib.Labels
import KirbLaSnoop.Lib.Checked
import KirbLaSnoop.Lib.Gregorian
import KirbLaSnoop.Lib.Layout
import KirbLaSnoop.Lib.View
import KirbLaSnoop.Lib.Base64
import KirbLaSnoop.Ts
import KirbLaSnoop.Ts.Calendar
import KirbLaSnoop.Ts.Order
import KirbLaSnoop.Stream
import KirbLaSnoop.Stream.Failure
import KirbLaSnoop.Stream.Size
import KirbLaSnoop.Stream.Narrow
import KirbLaSnoop.Log.State
import KirbLaSnoop.Log.Calls
import KirbLaSnoop.Log.Frame
import KirbLaSnoop.Log.Files
import KirbLaSnoop.Log.Failure
import KirbLaSnoop.Log.Creation
import KirbLaSnoop.Log.RunDir
import KirbLaSnoop.Log.Names
import KirbLaSnoop.Log.Footprint
import KirbLaSnoop.Log.Interleaving
import KirbLaSnoop.Log.RunCap
import KirbLaSnoop.Log.Index
import KirbLaSnoop.Log.Truncation
import KirbLaSnoop.Log.Announce
import KirbLaSnoop.Log.Accounting
import KirbLaSnoop.Log.DiskBudget
import KirbLaSnoop.Log.Captured
import KirbLaSnoop.Log.Share
import KirbLaSnoop.Log.Isolation
import KirbLaSnoop.Log.Buffered
import KirbLaSnoop.Log.RawPrefix
import KirbLaSnoop.Log.Sequential
import KirbLaSnoop.Log.OnDisk
import KirbLaSnoop.Log.Cut
import KirbLaSnoop.Log.Stats
import KirbLaSnoop.Log.Replay
import KirbLaSnoop.Dns
import KirbLaSnoop.Origdst
import KirbLaSnoop.Config
import KirbLaSnoop.Dns.Question
import KirbLaSnoop.Dns.Message
import KirbLaSnoop.Dns.Framing
import KirbLaSnoop.Profile
import KirbLaSnoop.Profile.Load
import KirbLaSnoop.Profile.NoPanic
import KirbLaSnoop.Hexdump
import KirbLaSnoop.Profile.Hex
import KirbLaSnoop.Profile.Escape
import KirbLaSnoop.Profile.Matching
import KirbLaSnoop.Profile.Weaken
import KirbLaSnoop.Profile.DeadHex
import KirbLaSnoop.Hexdump.AsciiLine
import KirbLaSnoop.Hexdump.Render
import KirbLaSnoop.Classify
import KirbLaSnoop.Classify.Hello
import KirbLaSnoop.Classify.Version
import KirbLaSnoop.Classify.Printable
import KirbLaSnoop.Classify.Query
import KirbLaSnoop.Classify.Http
import KirbLaSnoop.Classify.Newlines
import KirbLaSnoop.Classify.HelloLayout
import KirbLaSnoop.Classify.HeadLayout
import KirbLaSnoop.Classify.Hostile
import KirbLaSnoop.Listener.Effect
import KirbLaSnoop.Listener.Udp
import KirbLaSnoop.Listener.PeerTable
import KirbLaSnoop.Listener.Tcp
import KirbLaSnoop.Listener.Reflection
import KirbLaSnoop.Listener.Amplification
import KirbLaSnoop.Listener.Process
import KirbLaSnoop.Listener.Uses
import KirbLaSnoop.Listener.Idle
import KirbLaSnoop.Listener.Answers
import KirbLaSnoop.Listener.Splice
import KirbLaSnoop.Listener.TcpUses
import KirbLaSnoop.Listener.ConnIds
import KirbLaSnoop.Listener.ConnLifecycle
import KirbLaSnoop.Listener.Queue
import KirbLaSnoop.Listener.Wire
import KirbLaSnoop.Listener.Calls
import KirbLaSnoop.Listener.ToDisk
import KirbLaSnoop.Listener.Replies
import KirbLaSnoop.Listener.Counted
import KirbLaSnoop.Listener.Summary
import KirbLaSnoop.Listener.ToIndex
import KirbLaSnoop.Profile.Meaning
import KirbLaSnoop.Profile.Whole
import KirbLaSnoop.Log.Console
import KirbLaSnoop.Listener.Spoken
import KirbLaSnoop.Listener.ToConsole
import KirbLaSnoop.Startup
import KirbLaSnoop.Listener.FromCli
import KirbLaSnoop.Lib.Response
import KirbLaSnoop.Listener.Panics
import KirbLaSnoop.Listener.Prompt
import KirbLaSnoop.Program
