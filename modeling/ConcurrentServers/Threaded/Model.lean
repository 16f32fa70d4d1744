import ConcurrentServers.Protocol.Custody

/-!
# `threaded_server.c`

`main` accepts connections and starts a detached thread for each. The descriptor
goes to the thread in a block from `malloc`, which the thread frees. Both work on
one heap and one table of descriptors, so the order of their steps is part of a
run. Nothing bounds the number of threads, and `pthread_create` can fail at any
time. An access to memory that is not allocated is counted by the heap.
-/

namespace ConcurrentServers.Threaded

open Systems Protocol

/-- The points of the loop of `main`: `newsockfd`, `config` and `the_thread`. -/
inductive MainPc where
  | accept
  | malloc (fd : ℕ)
  | store (fd config : ℕ)
  | create (fd config : ℕ)
  | freeConfig (fd config : ℕ)
  | drop (fd : ℕ)
  | detach (thread : ℕ)

/-- The points of `server_thread`, with the variables of `serve_connection`. -/
inductive ThreadPc where
  | load (config : ℕ)
  | free (config fd : ℕ)
  | serve (fd : ℕ)
  | serving (fd : ℕ) (v : Connection)
  | done

/-- Threads are numbered in the order of their creation. The calls and the connections
that were dropped are not in the source. -/
structure Server where
  main : MainPc
  threads : ℕ → Option ThreadPc
  spawned : ℕ
  detached : List ℕ
  heap : Heap ℕ
  descriptors : Descriptors
  calls : ℕ → Option Connection
  refused : List ℕ

def Server.setThread (s : Server) (t : ℕ) (pc : ThreadPc) : Server :=
  { s with threads := Function.update s.threads t (some pc) }

def Server.start : Server where
  main := .accept
  threads _ := none
  spawned := 0
  detached := []
  heap := .empty
  descriptors := .empty
  calls _ := none
  refused := []

/-! ## `main` -/

/-- The kernel does not return a descriptor that is open. -/
def acceptReturns (r : SysResult ℕ) (s : Server) : Option (Process Server) :=
  match r with
  | .error e => some (if e = .eintr ∨ e = .econnaborted then .running s else .exited)
  | .ok fd =>
      if s.descriptors.owner fd = none then
        some (.running { s with main := .malloc fd, descriptors := s.descriptors.accept fd })
      else none

/-- `xmalloc` dies if there is no memory. The block holds whatever was there before. -/
def mallocReturns (r : Option (ℕ × ℕ)) (fd : ℕ) (s : Server) : Option (Process Server) :=
  match r with
  | none => some .exited
  | some (p, content) =>
      if s.heap.blocks p = none then
        some (.running { s with main := .store fd p, heap := s.heap.alloc p content })
      else none

/-- The new thread may be done before `main` detaches it. -/
def createReturns (created : Bool) (fd p : ℕ) (s : Server) : Server :=
  if created then
    { s with main := .detach s.spawned, spawned := s.spawned + 1 }.setThread s.spawned (.load p)
  else { s with main := .freeConfig fd p }

/-- The steps of `main` that depend on nothing but the state. -/
def mainStep (s : Server) : Option Server :=
  match s.main with
  | .store fd p => some { s with main := .create fd p, heap := s.heap.store p fd }
  | .freeConfig fd p => some { s with main := .drop fd, heap := s.heap.free p }
  | .drop fd =>
      some { s with
        main := .accept
        descriptors := s.descriptors.close fd
        refused := s.refused ++ (s.descriptors.owner fd).toList }
  | .detach t => some { s with main := .accept, detached := s.detached ++ [t] }
  | .accept | .malloc _ | .create _ _ => none

/-! ## `server_thread` -/

/-- The call of thread `t` on `fd` is at `v`. -/
def Server.setCall (s : Server) (t fd : ℕ) (v : Connection) : Server :=
  { s with calls := recordCall s.descriptors s.calls fd v }.setThread t (.serving fd v)

/-- The steps of a thread that depend on nothing but the state. -/
def threadStep (s : Server) (t : ℕ) : Option Server :=
  match s.threads t with
  | some (.load p) =>
      match s.heap.blocks p with
      | some fd => some (s.setThread t (.free p fd))
      | none => some ({ s with heap := s.heap.fault }.setThread t .done)
  | some (.free p fd) => some ({ s with heap := s.heap.free p }.setThread t (.serve fd))
  | some (.serving fd v) =>
      v.result.map fun _ =>
        { s with descriptors := s.descriptors.close fd }.setThread t .done
  | some (.serve _) | some .done | none => none

inductive Label where
  | accept (r : SysResult ℕ)
  | malloc (r : Option (ℕ × ℕ))
  | create (created : Bool)
  | main
  | thread (t : ℕ)
  | enter (t : ℕ) (state : Protocol.ProcessingState) (recvbuf : List.Vector UInt8 recvbufSize)
  | answer (t : ℕ) (a : Answer)

def Server.step (s : Server) : Label → Option (Process Server)
  | .accept r =>
      match s.main with
      | .accept => acceptReturns r s
      | _ => none
  | .malloc r =>
      match s.main with
      | .malloc fd => mallocReturns r fd s
      | _ => none
  | .create created =>
      match s.main with
      | .create fd p => some (.running (createReturns created fd p s))
      | _ => none
  | .main => (mainStep s).map .running
  | .thread t => (threadStep s t).map .running
  | .enter t state recvbuf =>
      match s.threads t with
      | some (.serve fd) => some (.running (s.setCall t fd (.entry state recvbuf)))
      | _ => none
  | .answer t a =>
      match s.threads t with
      | some (.serving fd v) => (v.step a).map fun v' => .running (s.setCall t fd v')
      | _ => none

def threaded : Machine (Process Server) Label :=
  Process.machine (· = Server.start) Server.step

/-! ## What one step can do -/

inductive Moves (s : Server) : Server → Prop where
  | interrupted : Moves s s
  | accept {fd : ℕ} (hpc : s.main = .accept) (hnone : s.descriptors.owner fd = none) :
      Moves s { s with main := .malloc fd, descriptors := s.descriptors.accept fd }
  | malloc {fd p : ℕ} (content : ℕ) (hpc : s.main = .malloc fd) (hnone : s.heap.blocks p = none) :
      Moves s { s with main := .store fd p, heap := s.heap.alloc p content }
  | store {fd p : ℕ} (hpc : s.main = .store fd p) :
      Moves s { s with main := .create fd p, heap := s.heap.store p fd }
  | created {fd p : ℕ} (hpc : s.main = .create fd p) :
      Moves s ({ s with main := .detach s.spawned, spawned := s.spawned + 1 }.setThread
        s.spawned (.load p))
  | notCreated {fd p : ℕ} (hpc : s.main = .create fd p) :
      Moves s { s with main := .freeConfig fd p }
  | freeConfig {fd p : ℕ} (hpc : s.main = .freeConfig fd p) :
      Moves s { s with main := .drop fd, heap := s.heap.free p }
  | drop {fd : ℕ} (hpc : s.main = .drop fd) :
      Moves s { s with
        main := .accept
        descriptors := s.descriptors.close fd
        refused := s.refused ++ (s.descriptors.owner fd).toList }
  | detach {t : ℕ} (hpc : s.main = .detach t) :
      Moves s { s with main := .accept, detached := s.detached ++ [t] }
  | load {t p fd : ℕ} (hpc : s.threads t = some (.load p)) (hp : s.heap.blocks p = some fd) :
      Moves s (s.setThread t (.free p fd))
  | loadFault {t p : ℕ} (hpc : s.threads t = some (.load p)) (hp : s.heap.blocks p = none) :
      Moves s ({ s with heap := s.heap.fault }.setThread t .done)
  | free {t p fd : ℕ} (hpc : s.threads t = some (.free p fd)) :
      Moves s ({ s with heap := s.heap.free p }.setThread t (.serve fd))
  | enter {t fd : ℕ} (state : Protocol.ProcessingState) (recvbuf : List.Vector UInt8 recvbufSize)
      (hpc : s.threads t = some (.serve fd)) : Moves s (s.setCall t fd (.entry state recvbuf))
  | answer {t fd : ℕ} {v v' : Connection} {a : Answer}
      (hpc : s.threads t = some (.serving fd v)) (hv : v.step a = some v') :
      Moves s (s.setCall t fd v')
  | close {t fd : ℕ} {v : Connection} {r : ServeResult}
      (hpc : s.threads t = some (.serving fd v)) (hr : v.result = some r) :
      Moves s ({ s with descriptors := s.descriptors.close fd }.setThread t .done)

variable {s s' : Server}

theorem moves_of_acceptReturns {r : SysResult ℕ} (hpc : s.main = .accept)
    (hs : acceptReturns r s = some (.running s')) : Moves s s' := by
  unfold acceptReturns at hs
  cases r with
  | error e =>
      have hs := Option.some.inj hs
      split at hs
      · cases hs
        exact .interrupted
      · cases hs
  | ok fd =>
      obtain ⟨hnone, hs⟩ := Option.ite_none_right_eq_some.mp hs
      cases hs
      exact .accept hpc hnone

theorem moves_of_mallocReturns {r : Option (ℕ × ℕ)} {fd : ℕ} (hpc : s.main = .malloc fd)
    (hs : mallocReturns r fd s = some (.running s')) : Moves s s' := by
  unfold mallocReturns at hs
  split at hs
  · cases hs
  · obtain ⟨hnone, hs⟩ := Option.ite_none_right_eq_some.mp hs
    cases hs
    exact .malloc _ hpc hnone

theorem moves_of_mainStep (hs : mainStep s = some s') : Moves s s' := by
  unfold mainStep at hs
  split at hs
  case h_1 fd p hpc =>
    cases hs
    exact .store hpc
  case h_2 fd p hpc =>
    cases hs
    exact .freeConfig hpc
  case h_3 fd hpc =>
    cases hs
    exact .drop hpc
  case h_4 t hpc =>
    cases hs
    exact .detach hpc
  all_goals cases hs

theorem moves_of_threadStep {t : ℕ} (hs : threadStep s t = some s') : Moves s s' := by
  unfold threadStep at hs
  split at hs
  case h_1 p hpc =>
    split at hs
    · next hp =>
        cases hs
        exact .load hpc hp
    · next hp =>
        cases hs
        exact .loadFault hpc hp
  case h_2 p fd hpc =>
    cases hs
    exact .free hpc
  case h_3 fd v hpc =>
    obtain ⟨r, hr, hs⟩ := Option.map_eq_some_iff.mp hs
    cases hs
    exact .close hpc hr
  all_goals cases hs

theorem moves_of_step {l : Label} (hs : s.step l = some (.running s')) : Moves s s' := by
  cases l with
  | accept r =>
      simp only [Server.step] at hs
      split at hs
      · next hpc => exact moves_of_acceptReturns hpc hs
      · cases hs
  | malloc r =>
      simp only [Server.step] at hs
      split at hs
      · next hpc => exact moves_of_mallocReturns hpc hs
      · cases hs
  | create created =>
      simp only [Server.step] at hs
      split at hs
      · next hpc =>
          cases created
          · cases hs
            exact .notCreated hpc
          · cases hs
            exact .created hpc
      · cases hs
  | main =>
      obtain ⟨_, hs, heq⟩ := Option.map_eq_some_iff.mp hs
      cases heq
      exact moves_of_mainStep hs
  | thread t =>
      obtain ⟨_, hs, heq⟩ := Option.map_eq_some_iff.mp hs
      cases heq
      exact moves_of_threadStep hs
  | enter t state recvbuf =>
      simp only [Server.step] at hs
      split at hs
      · next hpc =>
          cases hs
          exact .enter state recvbuf hpc
      · cases hs
  | answer t a =>
      simp only [Server.step] at hs
      split at hs
      · next hpc =>
          obtain ⟨v', hv, hs⟩ := Option.map_eq_some_iff.mp hs
          cases hs
          exact .answer hpc hv
      · cases hs

end ConcurrentServers.Threaded
