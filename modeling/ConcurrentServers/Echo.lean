import ConcurrentServers.Frame
import ConcurrentServers.Library.Descriptors
import ConcurrentServers.Library.Refinement

/-!
# The service that the echo servers provide

What a server of the framing protocol is for, whatever way it multiplexes its
connections. It accepts connections and closes them. On an open connection it
takes input only when the reply to all earlier input has been sent, and it sends
nothing but the next bytes of the reply. It may end at any time. The servers are
shown to refine this machine.
-/

namespace ConcurrentServers

open Systems

/-- The bytes delivered and the bytes accepted for sending, by connection. -/
structure Traffic where
  delivered : ℕ → List UInt8
  sent : ℕ → List UInt8

namespace Traffic

def empty : Traffic := ⟨fun _ => [], fun _ => []⟩

def deliver (t : Traffic) (conn : Option ℕ) (data : List UInt8) : Traffic :=
  match conn with
  | some c => { t with delivered := Function.update t.delivered c (t.delivered c ++ data) }
  | none => t

def send (t : Traffic) (conn : Option ℕ) (data : List UInt8) : Traffic :=
  match conn with
  | some c => { t with sent := Function.update t.sent c (t.sent c ++ data) }
  | none => t

end Traffic

structure Echo where
  descriptors : Descriptors
  traffic : Traffic

namespace Echo

inductive Label where
  | accept (fd : ℕ)
  | deliver (fd : ℕ) (data : List UInt8)
  | send (fd : ℕ) (data : List UInt8)
  | close (fd : ℕ)
  | exit

/-- The whole reply to what was delivered on a connection has been sent. -/
def Answered (s : Echo) (c : ℕ) : Prop :=
  s.traffic.sent c = Frame.reply (s.traffic.delivered c)

instance (s : Echo) (c : ℕ) : Decidable (s.Answered c) :=
  inferInstanceAs (Decidable (_ = _))

def step (s : Echo) : Label → Option (Process Echo)
  | .accept fd =>
      if s.descriptors.owner fd = none then
        some (.running { s with descriptors := s.descriptors.accept fd })
      else none
  | .deliver fd data =>
      (s.descriptors.owner fd).bind fun c =>
        if s.Answered c then some (.running { s with traffic := s.traffic.deliver (some c) data })
        else none
  | .send fd data =>
      (s.descriptors.owner fd).bind fun c =>
        if s.traffic.sent c ++ data <+: Frame.reply (s.traffic.delivered c) then
          some (.running { s with traffic := s.traffic.send (some c) data })
        else none
  | .close fd =>
      (s.descriptors.owner fd).map fun _ =>
        .running { s with descriptors := s.descriptors.close fd }
  | .exit => some .exited

end Echo

def echo : Machine (Process Echo) Echo.Label :=
  Process.machine (· = ⟨.empty, .empty⟩) Echo.step

namespace Echo

variable {s s' : Echo} {fd c : ℕ}

/-! ## Steps on an open connection -/

theorem run_accept (hnone : s.descriptors.owner fd = none) :
    echo.run (.running s) [.accept fd] =
      some (.running { s with descriptors := s.descriptors.accept fd }) :=
  Machine.run_singleton (M := echo) (if_pos hnone)

theorem run_close (howner : s.descriptors.owner fd = some c) :
    echo.run (.running s) [.close fd] =
      some (.running { s with descriptors := s.descriptors.close fd }) := by
  apply Machine.run_singleton (M := echo)
  change (s.descriptors.owner fd).map _ = _
  rw [howner]
  rfl

/-- To close a number that is not open changes nothing. -/
theorem exists_run_close (s : Echo) (fd : ℕ) :
    ∃ bs, echo.run (.running s) bs =
      some (.running { s with descriptors := s.descriptors.close fd }) := by
  cases hfd : s.descriptors.owner fd with
  | none => exact ⟨[], by rw [Descriptors.close_of_none hfd]; rfl⟩
  | some c => exact ⟨[.close fd], run_close hfd⟩

theorem run_deliver (howner : s.descriptors.owner fd = some c) (hanswered : s.Answered c)
    (data : List UInt8) : echo.run (.running s) [.deliver fd data] =
      some (.running { s with traffic := s.traffic.deliver (some c) data }) := by
  apply Machine.run_singleton (M := echo)
  change (s.descriptors.owner fd).bind _ = _
  rw [howner]
  exact if_pos hanswered

theorem run_send (howner : s.descriptors.owner fd = some c) {data : List UInt8}
    (hdue : s.traffic.sent c ++ data <+: Frame.reply (s.traffic.delivered c)) :
    echo.run (.running s) [.send fd data] =
      some (.running { s with traffic := s.traffic.send (some c) data }) := by
  apply Machine.run_singleton (M := echo)
  change (s.descriptors.owner fd).bind _ = _
  rw [howner]
  exact if_pos hdue

end Echo

end ConcurrentServers
