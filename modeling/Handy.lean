import Handy.Lib.OrderedMap
import Handy.Lib.OrderedMultimap
import Handy.Lib.LabelledRun
import Handy.Lib.Faulting
import Handy.Lib.Segments
import Handy.Lib.Mutex
import Handy.Lib.WorkQueue
import Handy.Lib.Backlog
import Handy.Lib.Heap
import Handy.Lib.Calendar
import Handy.Lib.DirTree
import Handy.Lib.Wakeup
import Handy.Lib.RoundRobin
import Handy.Threads
import Handy.Timers
import Handy.Timers.Linked
import Handy.Timers.Nearest
import Handy.Timers.Runs
import Handy.Timers.Cancel
import Handy.Timers.Batch
import Handy.Timers.Pending
import Handy.Buffer
import Handy.Buffer.Sequence
import Handy.Buffer.Room
import Handy.Codec
import Handy.Codec.Stream
import Handy.Codec.Length
import Handy.Codec.Lines
import Handy.Proto
import Handy.Proto.Serving
import Handy.Proto.Bounds
import Handy.Poller
import Handy.Poller.Loop
import Handy.Poller.Registry
import Handy.Poller.Lifetimes
import Handy.EventBase
import Handy.EventBase.Wakeup
import Handy.EventBase.Idles
import Handy.Hsha
import Handy.Server
import Handy.Conn
import Handy.Conn.Footprint
import Handy.Conn.Callbacks
import Handy.Conn.Send
import Handy.Conn.Settled
import Handy.Conn.Steady
import Handy.Conn.Runs
import Handy.Conn.PollerCalls
import Handy.Conn.OutputQueue
import Handy.Conn.Recorded
import Handy.Conn.Ledger
import Handy.Conn.Finalise
import Handy.Conn.SendFaults
import Handy.Conn.Manners
import Handy.Conn.Messages
import Handy.Conn.Delivery
import Handy.Conn.Chunks
import Handy.Conn.Room
import Handy.Conn.Attempt
import Handy.Conn.Isolation
import Handy.Conn.Redial
import Handy.Conn.Dereference
import Handy.Conn.Idle
import Handy.Conn.Registrations
import Handy.Conn.Dangling
import Handy.Http.Text
import Handy.Http
import Handy.Http.Lines
import Handy.Http.Errors
import Handy.Http.Incremental
import Handy.Http.Lookup
import Handy.Http.Once
import Handy.Http.Lengths
import Handy.Http.Wire
import Handy.Http.RoundTrip
import Handy.Http.Fields
import Handy.Http.Connection
import Handy.Http.Query
import Handy.Http.Whole
import Handy.Http.Pipelining
import Handy.Http.KeepAlive
import Handy.Http.Interleaving
import Handy.Http.Status
import Handy.Conf
import Handy.Conf.Chunks
import Handy.Conf.Lines
import Handy.Conf.Values
import Handy.Conf.Writes
import Handy.Conf.RoundTrip
import Handy.FileSystem
import Handy.File
import Handy.Status
import Handy.Xy.Scheduler
import Handy.Xy.Sleep
import Handy.Xy.Pool
import Handy.Bosma.Cron
import Handy.Bosma.CronNext
import Handy.Bosma.CronRuns
import Handy.Logging
import Handy.Logging.Rotation
import Handy.Ctpl
import Handy.Ctpl.Rest
import Handy.Ctpl.Stop
import Handy.Bosma.Scheduler
import Handy.Conn.Progress
import Handy.Conn.Link
