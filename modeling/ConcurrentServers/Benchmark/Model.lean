import ConcurrentServers.Exchange.Progress
import ConcurrentServers.ThreadPool.Serving
import ConcurrentServers.ThreadPool.Progress

/-!
# The load generator against the thread pool

All threads of both programs run next to each other. The kernel completes a
connection when the backlog of the listening socket has room for it, and `accept`
takes the connections from the backlog in their order. Behind `accept` a connection
is two wires, as in `Exchange`. Threads are created and addresses found, nobody
asks the server to stop, and no timeout expires. Calls can be interrupted, threads
can be woken for no reason, and `accept` can fail in all ways that the server
survives.
-/

namespace ConcurrentServers.Benchmark

open Systems
open Loadgen (Args Conn)
open Protocol (Connection recvbufSize)
open ThreadPool (Config Serving)
open Exchange (Rooms clientPuts clientGets serverPuts serverGets)

/-- The connections that the backlog has room for, and the bytes on each wire. -/
structure Network extends Rooms where
  backlog : ℕ

/-- The number of a client is the identity of its connection at the server. -/
structure Bench (args : Args) (cfg : Config) where
  loadgen : Loadgen.State args
  server : Serving cfg
  up : Fin args.connections → List UInt8
  down : Fin args.connections → List UInt8
  backlog : List (Fin args.connections)
  number : Fin args.connections → Option ℕ

inductive Label (args : Args) (cfg : Config) where
  | create
  | main
  | client (i : Fin args.connections) (a : Loadgen.Answer)
  | accept (fd : ℕ)
  | pool (l : ThreadPool.Label cfg.numWorkers)
  | enter (w : Fin cfg.numWorkers) (state : Protocol.ProcessingState)
      (recvbuf : List.Vector UInt8 recvbufSize)
  | answer (w : Fin cfg.numWorkers) (i : Fin args.connections) (a : Protocol.Answer)

/-- A call of `connect_to`. -/
def connects : Loadgen.Answer → Bool
  | .connect _ => true
  | _ => false

/-- The errors of `accept` that the server survives. -/
def transient (e : Errno) : Bool :=
  e = .eintr || e = .econnaborted || e = .emfile || e = .enfile || e = .enobufs || e = .enomem

/-- The steps of the pool that the network does not take part in. -/
def permits {n : ℕ} : ThreadPool.Label n → Bool
  | .stopSignal | .acceptReturns (.ok _) => false
  | .acceptReturns (.error e) => transient e
  | _ => true

variable {args : Args} {cfg : Config}

namespace Bench

/-- What a client and the call for it exchange. -/
def session (b : Bench args cfg) (i : Fin args.connections) : Exchange.Session :=
  ⟨b.loadgen.conns i, (b.number i).bind b.server.calls, b.up i, b.down i⟩

def clientPermits (net : Network) (b : Bench args cfg) (i : Fin args.connections)
    (a : Loadgen.Answer) : Bool :=
  (b.session i).clientPermits net.toRooms a &&
    (!connects a || decide (b.backlog.length < net.backlog))

def afterClient (b : Bench args cfg) (i : Fin args.connections) (a : Loadgen.Answer)
    (s : Loadgen.State args) : Bench args cfg :=
  { b with
    loadgen := s
    up := Function.update b.up i (b.up i ++ clientPuts (b.loadgen.conns i) a)
    down := Function.update b.down i ((b.down i).drop (clientGets a).length)
    backlog := if connects a then b.backlog ++ [i] else b.backlog }

def afterAccept (b : Bench args cfg) (i : Fin args.connections)
    (rest : List (Fin args.connections)) (s : Serving cfg) : Bench args cfg :=
  { b with
    server := s
    backlog := rest
    number := Function.update b.number i (some b.server.pool.descriptors.fresh) }

/-- A worker is in the call for a client. -/
def serves (b : Bench args cfg) (w : Fin cfg.numWorkers) (i : Fin args.connections) : Bool :=
  match b.server.pool.workers w with
  | .serving fd =>
      (b.number i).isSome && decide (b.server.pool.descriptors.owner fd = b.number i)
  | _ => false

def afterAnswer (b : Bench args cfg) (w : Fin cfg.numWorkers) (i : Fin args.connections)
    (a : Protocol.Answer) (s : Serving cfg) : Bench args cfg :=
  { b with
    server := s
    up := Function.update b.up i ((b.up i).drop (serverGets a).length)
    down := Function.update b.down i
      (b.down i ++ (b.server.stack w).elim [] fun v => serverPuts v a) }

def step (net : Network) (b : Bench args cfg) : Label args cfg → Option (Process (Bench args cfg))
  | .create => (b.loadgen.step (.create true)).map fun s => .running { b with loadgen := s }
  | .main => (b.loadgen.step .main).map fun s => .running { b with loadgen := s }
  | .client i a =>
      if b.clientPermits net i a then
        (b.loadgen.step (.thread i a)).map fun s => .running (b.afterClient i a s)
      else none
  | .accept fd =>
      match b.backlog with
      | [] => none
      | i :: rest =>
          (b.server.step (.pool (.acceptReturns (.ok fd)))).map
            (Process.map (b.afterAccept i rest))
  | .pool l =>
      if permits l then
        (b.server.step (.pool l)).map (Process.map fun s => { b with server := s })
      else none
  | .enter w state recvbuf =>
      (b.server.step (.enter w state recvbuf)).map (Process.map fun s => { b with server := s })
  | .answer w i a =>
      if b.serves w i && (b.session i).serverPermits net.toRooms a then
        (b.server.step (.answer w a)).map (Process.map (b.afterAnswer w i a))
      else none

def start (args : Args) (cfg : Config) (memory : ℕ → ℕ) : Bench args cfg where
  loadgen := .start args
  server := ⟨.start cfg memory, fun _ => none, fun _ => none⟩
  up _ := []
  down _ := []
  backlog := []
  number _ := none

end Bench

def bench (args : Args) (cfg : Config) (net : Network) :
    Machine (Process (Bench args cfg)) (Label args cfg) :=
  Process.machine (fun b => ∃ memory, b = .start args cfg memory) (Bench.step net)

/-- A call that was interrupted, an `accept` that failed, or a thread that was woken for
no reason. -/
def Label.disturbed : Label args cfg → Bool
  | .client _ a => (Exchange.Label.client a).interrupted
  | .answer _ _ a => (Exchange.Label.server a).interrupted
  | .pool (.acceptReturns _) | .pool .wakeAcceptor | .pool (.wakeWorker _) => true
  | _ => false

/-! ## What one step can do -/

inductive Moves (net : Network) (b : Bench args cfg) : Label args cfg → Bench args cfg → Prop where
  | create {s : Loadgen.State args} (hs : b.loadgen.step (.create true) = some s) :
      Moves net b .create { b with loadgen := s }
  | main {s : Loadgen.State args} (hs : b.loadgen.step .main = some s) :
      Moves net b .main { b with loadgen := s }
  | client {i : Fin args.connections} {a : Loadgen.Answer} {s : Loadgen.State args}
      (hpermits : (b.session i).clientPermits net.toRooms a = true)
      (hroom : connects a = true → b.backlog.length < net.backlog)
      (hs : b.loadgen.step (.thread i a) = some s) :
      Moves net b (.client i a) (b.afterClient i a s)
  | accept {fd : ℕ} {i : Fin args.connections} {rest : List (Fin args.connections)}
      {s : Serving cfg} (hbacklog : b.backlog = i :: rest)
      (hs : b.server.step (.pool (.acceptReturns (.ok fd))) = some (.running s)) :
      Moves net b (.accept fd) (b.afterAccept i rest s)
  | pool {l : ThreadPool.Label cfg.numWorkers} {s : Serving cfg} (hl : permits l = true)
      (hs : b.server.step (.pool l) = some (.running s)) :
      Moves net b (.pool l) { b with server := s }
  | enter {w : Fin cfg.numWorkers} {state : Protocol.ProcessingState}
      {recvbuf : List.Vector UInt8 recvbufSize} {s : Serving cfg}
      (hs : b.server.step (.enter w state recvbuf) = some (.running s)) :
      Moves net b (.enter w state recvbuf) { b with server := s }
  | answer {w : Fin cfg.numWorkers} {i : Fin args.connections} {a : Protocol.Answer}
      {s : Serving cfg} (hserves : b.serves w i = true)
      (hpermits : (b.session i).serverPermits net.toRooms a = true)
      (hs : b.server.step (.answer w a) = some (.running s)) :
      Moves net b (.answer w i a) (b.afterAnswer w i a s)

theorem map_eq_running {σ τ : Type*} {r : Option (Process σ)} {f : σ → τ} {t : τ}
    (h : r.map (Process.map f) = some (.running t)) : ∃ s, r = some (.running s) ∧ f s = t := by
  obtain ⟨p, hp, h⟩ := Option.map_eq_some_iff.mp h
  cases p with
  | running s =>
      cases h
      exact ⟨s, hp, rfl⟩
  | exited => cases h

theorem moves_of_step {net : Network} {b b' : Bench args cfg} {l : Label args cfg}
    (h : b.step net l = some (.running b')) : Moves net b l b' := by
  cases l with
  | create =>
      obtain ⟨s, hs, h⟩ := Option.map_eq_some_iff.mp h
      cases h
      exact .create hs
  | main =>
      obtain ⟨s, hs, h⟩ := Option.map_eq_some_iff.mp h
      cases h
      exact .main hs
  | client i a =>
      obtain ⟨hguard, h⟩ := Option.ite_none_right_eq_some.mp h
      obtain ⟨s, hs, h⟩ := Option.map_eq_some_iff.mp h
      obtain ⟨hpermits, hroom⟩ := Bool.and_eq_true_iff.mp hguard
      cases h
      refine .client hpermits (fun ha => ?_) hs
      simpa [ha] using hroom
  | accept fd =>
      simp only [Bench.step] at h
      split at h
      · cases h
      · next i rest hbacklog =>
          obtain ⟨s, hs, rfl⟩ := map_eq_running h
          exact .accept hbacklog hs
  | pool l =>
      obtain ⟨hl, h⟩ := Option.ite_none_right_eq_some.mp h
      obtain ⟨s, hs, rfl⟩ := map_eq_running h
      exact .pool hl hs
  | enter w state recvbuf =>
      obtain ⟨s, hs, rfl⟩ := map_eq_running h
      exact .enter hs
  | answer w i a =>
      obtain ⟨hguard, h⟩ := Option.ite_none_right_eq_some.mp h
      obtain ⟨hserves, hpermits⟩ := Bool.and_eq_true_iff.mp hguard
      obtain ⟨s, hs, rfl⟩ := map_eq_running h
      exact .answer hserves hpermits hs

end ConcurrentServers.Benchmark
