import ConcurrentServers.Library.Machine
import ConcurrentServers.Library.Refinement
import ConcurrentServers.Library.Transducer
import ConcurrentServers.Library.Buffer
import ConcurrentServers.Library.Descriptors
import ConcurrentServers.Library.Ownership
import ConcurrentServers.Library.Ring
import ConcurrentServers.Library.Tally
import ConcurrentServers.Library.Generator
import ConcurrentServers.Library.Handoff
import ConcurrentServers.Library.WriteQueue
import ConcurrentServers.Library.Clients
import ConcurrentServers.Library.Text
import ConcurrentServers.Library.Http
import ConcurrentServers.Frame
import ConcurrentServers.Posix
import ConcurrentServers.PeerState.Core
import ConcurrentServers.PeerState.Consume
import ConcurrentServers.PeerState.Bounds
import ConcurrentServers.PeerState.Stream
import ConcurrentServers.PeerState.Verdict
import ConcurrentServers.PeerState.Noninterference
import ConcurrentServers.Protocol.ServeConnection
import ConcurrentServers.Protocol.Stream
import ConcurrentServers.Protocol.Requests
import ConcurrentServers.Echo
import ConcurrentServers.Protocol.Service
import ConcurrentServers.Protocol.Custody
import ConcurrentServers.Sequential
import ConcurrentServers.Threaded.Model
import ConcurrentServers.Threaded.Safety
import ConcurrentServers.Threaded.Service
import ConcurrentServers.EventLoop
import ConcurrentServers.EventLoop.Traffic
import ConcurrentServers.Epoll.Model
import ConcurrentServers.Epoll.Contract
import ConcurrentServers.Epoll.Stream
import ConcurrentServers.Select.Model
import ConcurrentServers.Select.Masters
import ConcurrentServers.Select.Sweep
import ConcurrentServers.Select.Contract
import ConcurrentServers.Select.Stream
import ConcurrentServers.Isolation
import ConcurrentServers.Uring.Model
import ConcurrentServers.Uring.Items
import ConcurrentServers.Uring.Invariant
import ConcurrentServers.Uring.Loop
import ConcurrentServers.Uring.Contract
import ConcurrentServers.Uring.Echo
import ConcurrentServers.Uring.Isolation
import ConcurrentServers.ThreadPool.Model
import ConcurrentServers.ThreadPool.Moves
import ConcurrentServers.ThreadPool.Fifo
import ConcurrentServers.ThreadPool.Wakeup
import ConcurrentServers.ThreadPool.Gauges
import ConcurrentServers.ThreadPool.Serving
import ConcurrentServers.ThreadPool.Shutdown
import ConcurrentServers.ThreadPool.Progress
import ConcurrentServers.ThreadPool.Counters
import ConcurrentServers.ThreadPool.Registry
import ConcurrentServers.Uv.Model
import ConcurrentServers.Uv.Consume
import ConcurrentServers.Uv.Contract
import ConcurrentServers.Isprime.Model
import ConcurrentServers.Isprime.Replies
import ConcurrentServers.Isprime.Primality
import ConcurrentServers.Isprime.Requests
import ConcurrentServers.Metrics.Registry
import ConcurrentServers.Metrics.Render
import ConcurrentServers.Metrics.Length
import ConcurrentServers.Metrics.Truncation
import ConcurrentServers.Metrics.Exposition
import ConcurrentServers.Metrics.Threads
import ConcurrentServers.Metrics.Histogram
import ConcurrentServers.Metrics.Scrape
import ConcurrentServers.MetricsServer.Serve
import ConcurrentServers.MetricsServer.Response
import ConcurrentServers.MetricsServer.Routing
import ConcurrentServers.MetricsServer.Control
import ConcurrentServers.MetricsServer.Lifecycle
import ConcurrentServers.Python.ThreadPool
import ConcurrentServers.Python.Coroutine
import ConcurrentServers.Loadgen.Connection
import ConcurrentServers.Loadgen.Main
import ConcurrentServers.Loadgen.Moves
import ConcurrentServers.Loadgen.Accounting
import ConcurrentServers.Loadgen.Barrier
import ConcurrentServers.Loadgen.Join
import ConcurrentServers.Loadgen.Totals
import ConcurrentServers.Exchange.Model
import ConcurrentServers.Exchange.Streams
import ConcurrentServers.Exchange.Safety
import ConcurrentServers.Exchange.Progress
import ConcurrentServers.Exchange.Deadlock
import ConcurrentServers.Exchange.Counts
import ConcurrentServers.Benchmark.Model
import ConcurrentServers.Benchmark.Sessions
import ConcurrentServers.Benchmark.Work
import ConcurrentServers.Benchmark.Progress
import ConcurrentServers.Benchmark.Places
import ConcurrentServers.Benchmark.Metrics
