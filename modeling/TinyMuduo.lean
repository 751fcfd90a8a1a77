import TinyMuduo.Base.AppendFile
import TinyMuduo.Base.Aslogging
import TinyMuduo.Base.Blockqueue
import TinyMuduo.Base.CString
import TinyMuduo.Base.Convert
import TinyMuduo.Base.Drain
import TinyMuduo.Base.FiledLogging
import TinyMuduo.Base.FormatTime
import TinyMuduo.Base.LogFile
import TinyMuduo.Base.LogStream
import TinyMuduo.Base.Logging
import TinyMuduo.Base.Notification
import TinyMuduo.Base.Rotation
import TinyMuduo.Buffer.Basic
import TinyMuduo.Buffer.Deque
import TinyMuduo.Buffer.Invariant
import TinyMuduo.Buffer.Unread
import TinyMuduo.Connection.BufferedConnection
import TinyMuduo.Connection.Capture
import TinyMuduo.Connection.Close
import TinyMuduo.Connection.ConnectionMap
import TinyMuduo.Connection.Discipline
import TinyMuduo.Connection.EchoServer
import TinyMuduo.Connection.Functors
import TinyMuduo.Connection.Lifecycle
import TinyMuduo.Connection.Notify
import TinyMuduo.Connection.Ownership
import TinyMuduo.Connection.ServerConnection
import TinyMuduo.Connection.ServerPool
import TinyMuduo.Connection.Shutdown
import TinyMuduo.Connection.TcpConnection
import TinyMuduo.Connection.Terminal
import TinyMuduo.Http.BufferedServer
import TinyMuduo.Http.Cuts
import TinyMuduo.Http.Decode
import TinyMuduo.Http.Exchange
import TinyMuduo.Http.HttpAnalyse
import TinyMuduo.Http.HttpRequest
import TinyMuduo.Http.HttpResponse
import TinyMuduo.Http.HttpServer
import TinyMuduo.Http.Incremental
import TinyMuduo.Http.RequestHead
import TinyMuduo.Http.Respond
import TinyMuduo.Http.RoundTrip
import TinyMuduo.Http.Scan
import TinyMuduo.Library.Decimal
import TinyMuduo.Library.IntegerType
import TinyMuduo.Library.Lifetime
import TinyMuduo.Library.LinkedSegment
import TinyMuduo.Library.Log
import TinyMuduo.Library.OrderedSet
import TinyMuduo.Library.Potential
import TinyMuduo.Library.Reading
import TinyMuduo.Library.Regroup
import TinyMuduo.Library.RoundEven
import TinyMuduo.Library.RoundRobin
import TinyMuduo.Library.SizeT
import TinyMuduo.Library.StagedQueue
import TinyMuduo.Library.Transition
import TinyMuduo.Loop.EventLoopThread
import TinyMuduo.Loop.Eventloop
import TinyMuduo.Loop.Join
import TinyMuduo.Loop.LastBatch
import TinyMuduo.Loop.Wakeup
import TinyMuduo.Poller.Channel
import TinyMuduo.Poller.Disable
import TinyMuduo.Poller.EPollPoller
import TinyMuduo.Timer.Arm
import TinyMuduo.Timer.Cancel
import TinyMuduo.Timer.Due
import TinyMuduo.Timer.Effect
import TinyMuduo.Timer.GetExpired
import TinyMuduo.Timer.Invariant
import TinyMuduo.Timer.Posted
import TinyMuduo.Timer.Repeat
import TinyMuduo.Timer.Returned
import TinyMuduo.Timer.SharedTimers
import TinyMuduo.Timer.Sound
import TinyMuduo.Timer.Timer
import TinyMuduo.Timer.TimerLoop
import TinyMuduo.Timer.TimerQueue
