import ConcurrentServers.Loadgen.Connection
import ConcurrentServers.Library.Tally

/-!
# `main` of `loadgen.c`

The threads of the connections and the main thread, which starts them, waits with
them at the barrier, joins them and sums up their contexts. The barrier is
initialised for all connections and the main thread, and it lets its callers go
only when that many of them are waiting. Failed allocations are left out.
-/

namespace ConcurrentServers.Loadgen

open Systems

/-! ## The command line -/

structure Args extends Job where
  connections : ℕ
  connections_pos : 1 ≤ connections
  connections_lt : connections < 2 ^ 31
  messages_pos : 1 ≤ messages
  messages_lt : messages < 2 ^ 31

theorem one_le_toNatClampNeg {n : Int32} (h : ¬n < 1) : 1 ≤ n.toNatClampNeg := by
  rw [Int32.lt_iff_toInt_lt] at h
  change ¬n.toInt < 1 at h
  rw [← Int32.toNat_toInt]
  omega

theorem toNatClampNeg_le {n : Int32} (h : ¬512 < n) : n.toNatClampNeg ≤ maxPayload := by
  rw [Int32.lt_iff_toInt_lt] at h
  change ¬512 < n.toInt at h
  rw [← Int32.toNat_toInt, maxPayload]
  omega

/-- The check of the arguments, which are the results of `atoi`. The payload is
optional. -/
def parseArgs (connections messages : Int32) (payload : Option Int32) : Option Args :=
  if h : connections < 1 ∨ messages < 1 ∨ payload.getD 32 < 1 ∨ 512 < payload.getD 32 then none
  else
    some {
      connections := connections.toNatClampNeg
      messages := messages.toNatClampNeg
      payloadBytes := (payload.getD 32).toNatClampNeg
      connections_pos := one_le_toNatClampNeg fun hlt => h (Or.inl hlt)
      connections_lt := connections.toNatClampNeg_lt
      messages_pos := one_le_toNatClampNeg fun hlt => h (Or.inr (Or.inl hlt))
      messages_lt := messages.toNatClampNeg_lt
      payload_pos := one_le_toNatClampNeg fun hlt => h (Or.inr (Or.inr (Or.inl hlt)))
      payload_le := toNatClampNeg_le fun hlt => h (Or.inr (Or.inr (Or.inr hlt))) }

/-! ## Summing up -/

structure Totals where
  total : Int32
  errors : Int32
  mismatches : Int32

def Totals.add (t : Totals) (c : Conn) : Totals where
  total := t.total + Int32.ofNat c.completed
  errors := t.errors + Int32.ofNat c.errors
  mismatches := t.mismatches + Int32.ofNat c.mismatches

def totals (ctxs : List Conn) : Totals := ctxs.foldl Totals.add ⟨0, 0, 0⟩

/-- The size of the array `all`. -/
def allSize (t : Totals) : ℕ := if t.total > 0 then t.total.toNatClampNeg else 1

/-- The loop that copies the latencies of one connection to `all` from `k` on. A write
behind the end of the array is `none`. -/
def copyConn (size : ℕ) : ℕ → ℕ → Option ℕ
  | k, 0 => some k
  | k, j + 1 => if k < size then copyConn size (k + 1) j else none

def copyAll (size : ℕ) (ctxs : List Conn) : Option ℕ :=
  ctxs.foldlM (fun k c => copyConn size k c.completed) 0

/-- How the process ends. Behind a write outside of `all` its behaviour is not defined. -/
inductive Outcome where
  | exited (status : ℕ)
  | undefined
  deriving DecidableEq, Repr

def finish (ctxs : List Conn) : Outcome :=
  let t := totals ctxs
  match copyAll (allSize t) ctxs with
  | none => .undefined
  | some _ => .exited (if t.errors > 0 ∨ t.mismatches > 0 then 1 else 0)

/-! ## The main thread -/

/-- In `recovering` the main thread is at the head of the loop that waits once for each
thread that was not started, and in `recoveryWait` it is inside that wait. -/
inductive Main where
  | creating (i : ℕ)
  | recovering (i spawned : ℕ)
  | recoveryWait (i spawned : ℕ)
  | starting (spawned : ℕ)
  | waiting (spawned : ℕ)
  | joining (i spawned : ℕ)
  | ended (o : Outcome)

def Main.waits : Main → Bool
  | .recoveryWait _ _ | .waiting _ => true
  | _ => false

/-- `pthread_barrier_wait` returns. -/
def Main.release : Main → Main
  | .recoveryWait i spawned => .recovering (i + 1) spawned
  | .waiting spawned => .joining 0 spawned
  | m => m

def Control.waits : Control → Bool
  | .waiting _ => true
  | _ => false

def Control.returns : Control → Bool
  | .returned => true
  | _ => false

structure State (args : Args) where
  main : Main
  conns : Fin args.connections → Conn

variable {args : Args}

/-- The number of callers that wait at `start_barrier`. -/
def State.waiting (s : State args) : ℕ :=
  headcount (fun c : Conn => c.control.waits = true) s.conns + if s.main.waits then 1 else 0

def State.release (s : State args) : State args where
  main := s.main.release
  conns i := (args.step (s.conns i) .release).getD (s.conns i)

/-- Behind an arrival at the barrier. -/
def State.settle (s : State args) : State args :=
  if s.waiting = args.connections + 1 then s.release else s

/-- A step of one thread. It is started and released by others. -/
def State.threadStep (s : State args) (i : Fin args.connections) (a : Answer) :
    Option (State args) :=
  let next := (args.step (s.conns i) a).map fun c =>
    { s with conns := Function.update s.conns i c }
  match a with
  | .start | .release => none
  | .arrive => next.map State.settle
  | _ => next

/-- `pthread_create` returns. -/
def State.create (s : State args) (ok : Bool) : Option (State args) :=
  match s.main with
  | .creating i =>
      if h : i < args.connections then
        if ok then
          (args.step (s.conns ⟨i, h⟩) .start).map fun c =>
            { main := .creating (i + 1), conns := Function.update s.conns ⟨i, h⟩ c }
        else some { s with main := .recovering i i }
      else none
  | _ => none

/-- The contexts that are summed up. -/
def State.ctxs (s : State args) (spawned : ℕ) : List Conn :=
  ((List.finRange args.connections).take spawned).map s.conns

def State.mainStep (s : State args) : Option (State args) :=
  match s.main with
  | .creating i => if i < args.connections then none else some { s with main := .starting i }
  | .recovering i spawned =>
      if i < args.connections then some { s with main := .recoveryWait i spawned }.settle
      else some { s with main := .starting spawned }
  | .starting spawned => some { s with main := .waiting spawned }.settle
  | .joining i spawned =>
      if h : i < spawned ∧ i < args.connections then
        if (s.conns ⟨i, h.2⟩).control.returns then
          some { s with main := .joining (i + 1) spawned }
        else none
      else some { s with main := .ended (finish (s.ctxs spawned)) }
  | .recoveryWait _ _ | .waiting _ | .ended _ => none

inductive Label (args : Args) where
  | create (ok : Bool)
  | main
  | thread (i : Fin args.connections) (a : Answer)

def State.step (s : State args) : Label args → Option (State args)
  | .create ok => s.create ok
  | .main => s.mainStep
  | .thread i a => s.threadStep i a

def State.start (args : Args) : State args := ⟨.creating 0, fun _ => .blank⟩

def loadgen (args : Args) : Machine (State args) (Label args) where
  init s := s = .start args
  step := State.step

end ConcurrentServers.Loadgen
