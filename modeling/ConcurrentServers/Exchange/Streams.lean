import ConcurrentServers.Exchange.Model

/-!
# Requests, replies and the control points of the client

All requests of a connection are the same, so the control point of `conn_main`
determines the bytes that it has sent and received so far.
-/

namespace ConcurrentServers.Exchange

open Systems
open Loadgen (Conn Job Control request expected)

/-! ## Requests and their replies -/

/-- The bytes of the first `m` requests. -/
def requests (job : Job) (m : ℕ) : List UInt8 :=
  (List.replicate m (request job.payloadBytes)).flatten

theorem requests_succ (job : Job) (m : ℕ) :
    requests job (m + 1) = requests job m ++ request job.payloadBytes := by
  unfold requests
  rw [List.replicate_succ', List.flatten_append, List.flatten_singleton]

theorem length_request (n : ℕ) : (request n).length = n + 2 := by simp [request]

theorem length_expected (n : ℕ) : (expected n).length = n := by simp [expected]

/-- The replies to the beginning of a request, and where the parser stands behind it. -/
theorem output_take_request (n j : ℕ) :
    Frame.machine.output .outside ((request n).take j) = (expected n).take (j - 1) := by
  cases j with
  | zero => simp
  | succ j =>
      have hbody : Frame.closer ∉ ((List.range n).map Loadgen.payloadByte).take j := by
        intro hmem
        obtain ⟨i, -, hi⟩ := List.mem_map.mp (List.mem_of_mem_take hmem)
        exact Loadgen.closer_ne_payloadByte i hi.symm
      have hsplit : ((List.range n).map Loadgen.payloadByte ++ ['$'.toUInt8]).take j =
          ((List.range n).map Loadgen.payloadByte).take j ++ ['$'.toUInt8].take (j - n) := by
        rw [List.take_append, List.length_map, List.length_range]
      have hend : Frame.machine.output .inside (['$'.toUInt8].take (j - n)) = [] := by
        cases j - n with
        | zero => rfl
        | succ i =>
            rw [List.take_succ_cons, List.take_nil]
            rfl
      have hopen : Frame.machine.next .outside '^'.toUInt8 = .inside := rfl
      have hemit : Frame.machine.emit .outside '^'.toUInt8 = [] := rfl
      obtain ⟨houtput, hstate⟩ := Frame.output_inside hbody
      rw [request, List.cons_append, List.take_succ_cons, hsplit, Transducer.output_cons, hopen,
        hemit, Transducer.output_append, houtput, hstate, hend, List.append_nil, List.nil_append,
        List.map_take, List.map_map]
      rfl

theorem state_request (n : ℕ) : Frame.machine.state .outside (request n) = .outside := by
  have hbody : Frame.closer ∉ (List.range n).map Loadgen.payloadByte := by
    intro hmem
    obtain ⟨i, -, hi⟩ := List.mem_map.mp hmem
    exact Loadgen.closer_ne_payloadByte i hi.symm
  have hopen : Frame.machine.next .outside '^'.toUInt8 = .inside := rfl
  rw [request, List.cons_append, Transducer.state_cons, hopen, Transducer.state_append,
    (Frame.output_inside hbody).2]
  rfl

theorem state_requests (job : Job) (m : ℕ) :
    Frame.machine.state .outside (requests job m) = .outside := by
  induction m with
  | zero => rfl
  | succ m ih => rw [requests_succ, Transducer.state_append, ih, state_request]

theorem reply_requests_take (job : Job) (m j : ℕ) :
    Frame.reply (requests job m ++ (request job.payloadBytes).take j) =
      Frame.reply (requests job m) ++ (expected job.payloadBytes).take (j - 1) := by
  rw [Frame.reply_append, state_requests, output_take_request]

theorem reply_requests_succ (job : Job) (m : ℕ) :
    Frame.reply (requests job (m + 1)) =
      Frame.reply (requests job m) ++ expected job.payloadBytes := by
  have hall : (request job.payloadBytes).take (job.payloadBytes + 2) = request job.payloadBytes :=
    List.take_of_length_le (length_request _).le
  have htake : (expected job.payloadBytes).take (job.payloadBytes + 2 - 1) =
      expected job.payloadBytes :=
    List.take_of_length_le (by rw [length_expected]; omega)
  have hreply := reply_requests_take job m (job.payloadBytes + 2)
  rwa [hall, htake, ← requests_succ] at hreply

/-! ## The streams of the client -/

/-- What the client has sent when it is at a control point. -/
def sentStream (job : Job) : Control → List UInt8
  | .sending m k => requests job m ++ (request job.payloadBytes).take k.sent
  | .receiving m _ => requests job (m + 1)
  | .returned => requests job job.messages
  | _ => []

/-- What it has received. -/
def gotStream (job : Job) : Control → List UInt8
  | .recvAck k => k.got
  | .sending m _ => Frame.reply (requests job m)
  | .receiving m k => Frame.reply (requests job m) ++ k.got
  | .returned => Frame.reply (requests job job.messages)
  | _ => []

theorem streams_head (job : Job) {m : ℕ} (hm : m ≤ job.messages) :
    sentStream job (job.head m) = requests job m ∧
      gotStream job (job.head m) = Frame.reply (requests job m) := by
  unfold Job.head
  split
  · exact ⟨List.append_nil _, rfl⟩
  · have heq : job.messages = m := by omega
    refine ⟨?_, ?_⟩
    · exact congrArg (requests job) heq
    · exact congrArg (fun m => Frame.reply (requests job m)) heq

/-- The calls of the client are for what they should be for. -/
def Regular (job : Job) : Control → Prop
  | .unborn | .connecting | .returned => True
  | .arriving fd | .waiting fd | .passed fd => fd.isSome
  | .recvAck k => k.len = 1 ∧ k.got = []
  | .sending m k => m < job.messages ∧ k.buf = request job.payloadBytes ∧
      k.sent < k.buf.length
  | .receiving m k => m < job.messages ∧ k.len = job.payloadBytes ∧
      k.got.length < job.payloadBytes

theorem regular_head (job : Job) (m : ℕ) : Regular job (job.head m) := by
  by_cases hlt : m < job.messages
  · have hpos : 0 < (request job.payloadBytes).length := by
      rw [length_request]
      exact Nat.succ_pos _
    rw [Job.head, if_pos hlt]
    exact ⟨hlt, rfl, hpos⟩
  · rw [Job.head, if_neg hlt]
    trivial

/-- The client has called `connect_to`, or is about to. -/
def Connected (c : Conn) : Prop :=
  c.control = .unborn ∨ c.control = .connecting ∨ c.connected = true

theorem connected_of_true {c : Conn} (h : c.connected = true) : Connected c := Or.inr (Or.inr h)

end ConcurrentServers.Exchange
