import TsonicNode.Timers.Retention
import TsonicNode.Timers.Arming
import TsonicNode.Internal.QueueMachine
import TsonicNode.Stream.Decoder
import TsonicNode.Stream.WritableClose
import TsonicNode.Stream.WritableOrder
import TsonicNode.Stream.WritableDrain
import TsonicNode.Stream.WritableCallbacks
import TsonicNode.Worker.Link
import TsonicNode.Net.WriteQueue
import TsonicNode.Worker.PortsAlive
import TsonicNode.Http.Messages
import TsonicNode.Http.Framing
import TsonicNode.Http.Client
import TsonicNode.Http.Parsing
import TsonicNode.Lib.Form
import TsonicNode.Url.Bridge
import TsonicNode.Lib.Segments
import TsonicNode.Path.Win32
import TsonicNode.Path.Normalize
import TsonicNode.Path.Posix
import TsonicNode.Worker.EndOfStream
import TsonicNode.Worker.LocalChannel
import TsonicNode.Path.Glob.Matching
import TsonicNode.Path.Glob.Components
import TsonicNode.Path.Glob.Expansion
import TsonicNode.Lib.Weights
import TsonicNode.Lib.Words
import TsonicNode.Lib.Pieces
import TsonicNode.Lib.Paths
import TsonicNode.Assertions.Deep
import TsonicNode.Assertions.Structural
import TsonicNode.Compression.Output
import TsonicNode.Compression.Codec
import TsonicNode.Filesystem.Copy
import TsonicNode.Filesystem.Modes
import TsonicNode.Lib.Lines
import TsonicNode.Path.Glob.Dollars
import TsonicNode.Tls.Lifecycle
import TsonicNode.Tls.Native
import TsonicNode.Path.Resolve
import TsonicNode.Path.Relative
import TsonicNode.Tls.Output
import TsonicNode.Buffer.Isolation
import TsonicNode.Net.Endpoint
import TsonicNode.Events.Emission
import TsonicNode.Http.Connections
import TsonicNode.Http.Requests
import TsonicNode.Net.Server
import TsonicNode.Net.Active
import TsonicNode.Url.Files
import TsonicNode.Url.Legacy
import TsonicNode.Buffer.Search
import TsonicNode.Buffer.Ranges
import TsonicNode.Buffer.Numeric
import TsonicNode.Buffer.Encoder
import TsonicNode.Buffer.Binary
import TsonicNode.Buffer.Write
import TsonicNode.Timers.Order
import TsonicNode.Stream.Queues
import TsonicNode.Stream.TextCuts
import TsonicNode.Stream.ReadBuffer
import TsonicNode.Path.Format
import TsonicNode.Path.FormatWin32
import TsonicNode.Lib.Totals
import TsonicNode.Stream.NativeRead
import TsonicNode.Stream.NativeReadLedger
import TsonicNode.Stream.NativeReadBudget
import TsonicNode.Readline.Lines
import TsonicNode.Lib.Insertion
import TsonicNode.Events.Keys
import TsonicNode.Crypto.RandomInt
import TsonicNode.Lib.Emissions
import TsonicNode.Internal.TypedListeners
import TsonicNode.Stream.Readable
import TsonicNode.Stream.ReadMoves
import TsonicNode.Stream.ReadRun
import TsonicNode.Stream.ReadFile
import TsonicNode.Stream.ReadRange
import TsonicNode.Readline.Interface
import TsonicNode.Readline.Closing
import TsonicNode.Readline.Dispatch
import TsonicNode.Readline.Chunks
import TsonicNode.Lib.Ledger
import TsonicNode.Filesystem.Watch
import TsonicNode.Filesystem.Watching
import TsonicNode.Filesystem.Delivery
import TsonicNode.Filesystem.Sources
import TsonicNode.Lib.Chase
import TsonicNode.Dns.Records
import TsonicNode.Dns.Aliases
import TsonicNode.Dns.Lookups
import TsonicNode.Dns.Requests
