import ConcurrentServers.Protocol.Stream
import ConcurrentServers.Protocol.Requests

/-!
# `serve_connection` of `threadpool_server.py`

The results of the calls of `recv` are a list, which ends where the function is
left waiting. The `n`-th call of `send` gets the result `sends n`. Integers do
not wrap, and `bytes` raises when it is given one that is no byte.
-/

namespace ConcurrentServers.Python

open Systems

/-! ## The function -/

inductive Exception where
  | valueError
  | ioError (e : Errno)
  deriving DecidableEq, Repr

/-- `bytes([n])`. -/
def bytes (n : ℕ) : Except Exception UInt8 :=
  if n < 256 then .ok (UInt8.ofNat n) else .error .valueError

/-- The state of the loops, with the number of bytes that they have taken and the bytes
that were sent. -/
structure Serving where
  state : Protocol.ProcessingState
  taken : ℕ
  sent : List UInt8

/-- An exception that leaves the function, and where it was raised. -/
structure Raised where
  exception : Exception
  serving : Serving

def Serving.send (sends : ℕ → SysResult Unit) (s : Serving) (b : UInt8) : Except Raised Serving :=
  match sends s.sent.length with
  | .ok _ => .ok { s with sent := s.sent ++ [b] }
  | .error e => .error ⟨.ioError e, s⟩

/-- The body of the loop over a buffer. -/
def Serving.byte (sends : ℕ → SysResult Unit) (s : Serving) (b : UInt8) : Except Raised Serving :=
  let s := { s with taken := s.taken + 1 }
  match s.state with
  | .waitForMsg => .ok (if b = '^'.toUInt8 then { s with state := .inMsg } else s)
  | .inMsg =>
      if b = '$'.toUInt8 then .ok { s with state := .waitForMsg }
      else
        match bytes (b.toNat + 1) with
        | .ok x => s.send sends x
        | .error e => .error ⟨e, s⟩

/-- How the function stands when the results of `recv` are used up. -/
inductive Left where
  | waiting (s : Serving)
  | closed (s : Serving)

def Serving.loop (sends : ℕ → SysResult Unit) (s : Serving) :
    List (SysResult (List UInt8)) → Except Raised Left
  | [] => .ok (.waiting s)
  | .error _ :: _ => .ok (.closed s)
  | .ok [] :: _ => .ok (.closed s)
  | .ok buf :: recvs => do
      let s ← buf.foldlM (Serving.byte sends) s
      s.loop sends recvs

def serveConnection (sends : ℕ → SysResult Unit) (recvs : List (SysResult (List UInt8))) :
    Except Raised Left := do
  let s ← Serving.send sends ⟨.waitForMsg, 0, []⟩ '*'.toUInt8
  s.loop sends recvs

/-! ## What the loops do -/

/-- Every call of `send` succeeds. -/
def obliging : ℕ → SysResult Unit := fun _ => .ok ()

/-- Somewhere in `data`, read in mode `m`, there is a byte to echo that has no
successor. -/
def Overflows (m : Frame.Mode) : List UInt8 → Prop
  | [] => False
  | b :: data => m = .inside ∧ b = 255 ∨ Overflows (Frame.machine.next m b) data

theorem bytes_succ {b : UInt8} (hb : b ≠ 255) : bytes (b.toNat + 1) = .ok (b + 1) := by
  have hlt : b.toNat + 1 < 256 := by
    have hle := b.toNat_lt
    have hne : b.toNat ≠ 255 := fun h => hb (UInt8.toNat_inj.mp h)
    omega
  rw [bytes, if_pos hlt]
  congr 1

theorem bytes_last : bytes ((255 : UInt8).toNat + 1) = .error .valueError := rfl

/-- `t` is `s` after it has taken `data`. -/
structure Serving.Reads (s : Serving) (data : List UInt8) (t : Serving) : Prop where
  mode : t.state.mode = Frame.machine.state s.state.mode data
  taken : t.taken = s.taken + data.length
  sent : t.sent = s.sent ++ Frame.machine.output s.state.mode data

theorem Serving.Reads.append {s t u : Serving} {xs ys : List UInt8} (h : s.Reads xs t)
    (h' : t.Reads ys u) : s.Reads (xs ++ ys) u where
  mode := by rw [h'.mode, h.mode, Transducer.state_append]
  taken := by rw [h'.taken, h.taken, List.length_append, Nat.add_assoc]
  sent := by rw [h'.sent, h.sent, h.mode, Transducer.output_append, List.append_assoc]

theorem Serving.byte_of_waitForMsg {s : Serving} (hs : s.state = .waitForMsg) (b : UInt8) :
    ∃ t, s.byte obliging b = .ok t ∧ s.Reads [b] t := by
  by_cases hb : b = '^'.toUInt8
  · refine ⟨{ s with state := .inMsg, taken := s.taken + 1 }, by simp [Serving.byte, hs, hb], ?_⟩
    constructor <;> simp [hs, hb, Protocol.ProcessingState.mode, Frame.machine, Frame.opener]
  · refine ⟨{ s with taken := s.taken + 1 }, by simp [Serving.byte, hs, hb], ?_⟩
    constructor <;> simp [hs, hb, Protocol.ProcessingState.mode, Frame.machine, Frame.opener]

theorem Serving.byte_of_inMsg {s : Serving} (hs : s.state = .inMsg) {b : UInt8} (hb : b ≠ 255) :
    ∃ t, s.byte obliging b = .ok t ∧ s.Reads [b] t := by
  by_cases hend : b = '$'.toUInt8
  · refine ⟨{ s with state := .waitForMsg, taken := s.taken + 1 },
      by simp [Serving.byte, hs, hend], ?_⟩
    constructor <;> simp [hs, hend, Protocol.ProcessingState.mode, Frame.machine, Frame.closer]
  · refine ⟨{ s with taken := s.taken + 1, sent := s.sent ++ [b + 1] }, ?_, ?_⟩
    · simp [Serving.byte, hs, hend, bytes_succ hb, Serving.send, obliging]
    · constructor <;> simp [hs, hend, Protocol.ProcessingState.mode, Frame.machine, Frame.closer]

/-- One round raises exactly at a byte that is to be echoed and has no successor. -/
theorem Serving.byte_cases (s : Serving) (b : UInt8) :
    ((s.state.mode = .inside ∧ b = 255) ∧ ∃ r, s.byte obliging b = .error r) ∨
      ¬(s.state.mode = .inside ∧ b = 255) ∧ ∃ t, s.byte obliging b = .ok t ∧ s.Reads [b] t := by
  cases hs : s.state with
  | waitForMsg => exact Or.inr ⟨by simp [Protocol.ProcessingState.mode], s.byte_of_waitForMsg hs b⟩
  | inMsg =>
      by_cases hb : b = 255
      · refine Or.inl ⟨⟨rfl, hb⟩, ⟨⟨.valueError, { s with taken := s.taken + 1 }⟩, ?_⟩⟩
        have hne : ¬(255 : UInt8) = '$'.toUInt8 := by decide
        simp only [Serving.byte, hs, hb, if_neg hne, bytes_last]
      · exact Or.inr ⟨fun h => hb h.2, s.byte_of_inMsg hs hb⟩

theorem overflows_append (m : Frame.Mode) (xs ys : List UInt8) :
    Overflows m (xs ++ ys) ↔ Overflows m xs ∨ Overflows (Frame.machine.state m xs) ys := by
  induction xs generalizing m with
  | nil => simp [Overflows]
  | cons b xs ih => simp [Overflows, ih, or_assoc]

theorem Serving.foldlM_cases (s : Serving) (data : List UInt8) :
    (Overflows s.state.mode data ∧ ∃ r, data.foldlM (Serving.byte obliging) s = .error r) ∨
      ¬Overflows s.state.mode data ∧
        ∃ t, data.foldlM (Serving.byte obliging) s = .ok t ∧ s.Reads data t := by
  induction data generalizing s with
  | nil => exact Or.inr ⟨id, s, rfl, rfl, rfl, by simp⟩
  | cons b data ih =>
      rw [List.foldlM_cons]
      rcases s.byte_cases b with ⟨hover, r, hr⟩ | ⟨hnot, t, ht, hreads⟩
      · exact Or.inl ⟨Or.inl hover, r, by rw [hr]; rfl⟩
      · rw [ht]
        have hmode : t.state.mode = Frame.machine.next s.state.mode b := hreads.mode
        rcases ih t with ⟨hover, r, hr⟩ | ⟨hnot', u, hu, hreads'⟩
        · exact Or.inl ⟨Or.inr (hmode ▸ hover), r, hr⟩
        · refine Or.inr ⟨?_, u, hu, hreads.append hreads'⟩
          rintro (hover | hover)
          · exact hnot hover
          · exact hnot' (hmode ▸ hover)

/-- The buffers of a segmentation, and the end of the stream behind them. -/
def segments (bufs : List (List UInt8)) : List (SysResult (List UInt8)) :=
  bufs.map .ok ++ [.ok []]

theorem Serving.loop_cases (s : Serving) {bufs : List (List UInt8)}
    (hbufs : ∀ buf ∈ bufs, buf ≠ []) :
    (Overflows s.state.mode bufs.flatten ∧ ∃ r, s.loop obliging (segments bufs) = .error r) ∨
      ¬Overflows s.state.mode bufs.flatten ∧
        ∃ t, s.loop obliging (segments bufs) = .ok (.closed t) ∧ s.Reads bufs.flatten t := by
  induction bufs generalizing s with
  | nil => exact Or.inr ⟨id, s, rfl, rfl, rfl, by simp⟩
  | cons buf bufs ih =>
      obtain ⟨b, data, rfl⟩ := List.exists_cons_of_ne_nil (hbufs buf List.mem_cons_self)
      have hloop : s.loop obliging (segments ((b :: data) :: bufs)) =
          (b :: data).foldlM (Serving.byte obliging) s >>= fun t =>
            t.loop obliging (segments bufs) := rfl
      rw [hloop, List.flatten_cons, overflows_append]
      rcases s.foldlM_cases (b :: data) with ⟨hover, r, hr⟩ | ⟨hnot, t, ht, hreads⟩
      · exact Or.inl ⟨Or.inl hover, r, by rw [hr]; rfl⟩
      · rw [ht, ← hreads.mode]
        rcases ih t (fun buf hbuf => hbufs buf (List.mem_cons_of_mem _ hbuf)) with
          ⟨hover, r, hr⟩ | ⟨hnot', u, hu, hreads'⟩
        · exact Or.inl ⟨Or.inr hover, r, hr⟩
        · exact Or.inr ⟨not_or.mpr ⟨hnot, hnot'⟩, u, hu, hreads.append hreads'⟩

/-! ## Comparison with `serve_connection` of `protocol.c` -/

theorem overflows_iff_take (m : Frame.Mode) (data : List UInt8) :
    Overflows m data ↔
      ∃ i, Frame.machine.state m (data.take i) = .inside ∧ data[i]? = some 255 := by
  induction data generalizing m with
  | nil => simp [Overflows]
  | cons b data ih =>
      rw [Overflows, ih]
      constructor
      · rintro (⟨hm, hb⟩ | ⟨i, hstate, hi⟩)
        · exact ⟨0, hm, by simp [hb]⟩
        · exact ⟨i + 1, hstate, hi⟩
      · rintro ⟨i, hstate, hi⟩
        cases i with
        | zero => exact Or.inl ⟨hstate, by simpa using hi⟩
        | succ i => exact Or.inr ⟨i, hstate, hi⟩

theorem overflows_iff (s : List UInt8) :
    Overflows .outside s ↔ ∃ i, Frame.Echoed s i ∧ s[i]? = some 255 := by
  rw [overflows_iff_take]
  refine exists_congr fun i => ?_
  constructor
  · rintro ⟨hstate, hi⟩
    have hlt := (List.getElem?_eq_some_iff.mp hi).1
    have hopen := (Frame.state_eq_inside_iff _).mp hstate
    have hlength : (s.take i).length = i := by simp [hlt.le]
    rw [hlength, ← Frame.openBefore_append hlength.ge, List.take_append_drop] at hopen
    exact ⟨⟨by rw [hi]; decide, hopen⟩, hi⟩
  · rintro ⟨⟨-, hopen⟩, hi⟩
    have hlt := (List.getElem?_eq_some_iff.mp hi).1
    have hlength : (s.take i).length = i := by simp [hlt.le]
    refine ⟨(Frame.state_eq_inside_iff _).mpr ?_, hi⟩
    rwa [hlength, ← Frame.openBefore_append hlength.ge, List.take_append_drop]

/-- The function reads the stream to its end, closes the connection and has sent
`reply`. -/
def Serves (bufs : List (List UInt8)) (reply : List UInt8) : Prop :=
  ∃ t, serveConnection obliging (segments bufs) = .ok (.closed t) ∧ t.sent = reply

theorem serves_iff {bufs : List (List UInt8)} (hbufs : ∀ buf ∈ bufs, buf ≠ []) :
    Serves bufs (Frame.reply bufs.flatten) ↔ ¬Overflows .outside bufs.flatten := by
  have hserve : serveConnection obliging (segments bufs) =
      Serving.loop obliging ⟨.waitForMsg, 0, ['*'.toUInt8]⟩ (segments bufs) := rfl
  unfold Serves
  rw [hserve]
  rcases Serving.loop_cases ⟨.waitForMsg, 0, ['*'.toUInt8]⟩ hbufs with
    ⟨hover, r, hr⟩ | ⟨hnot, t, ht, hreads⟩
  · refine iff_of_false ?_ (not_not.mpr hover)
    rintro ⟨t, ht, -⟩
    cases ht.symm.trans hr
  · refine iff_of_true ⟨t, ht, ?_⟩ hnot
    rw [hreads.sent, Frame.reply, ← Frame.output_eq_transform]
    rfl

/-- The same stream in any two segmentations. The function in C serves it to its end,
and this one does the same exactly if no byte that is to be echoed is `255`. -/
theorem serves_like_protocol_iff {bufs blocks : List (List UInt8)}
    (state : Protocol.ProcessingState) (recvbuf : List.Vector UInt8 Protocol.recvbufSize)
    (hbufs : ∀ buf ∈ bufs, buf ≠ [])
    (hblocks : ∀ block ∈ blocks, block ≠ [] ∧ block.length ≤ Protocol.recvbufSize)
    (hstream : bufs.flatten = blocks.flatten) :
    (∃ c, Protocol.Delivers (.entry state recvbuf) blocks c ∧ c.control = .returned .serveOk) ∧
    ∀ c, Protocol.Delivers (.entry state recvbuf) blocks c → c.control = .returned .serveOk →
      (Serves bufs c.accepted ↔
        ∀ i, Frame.Echoed bufs.flatten i → bufs.flatten[i]? ≠ some 255) := by
  refine ⟨Protocol.exists_delivers_serveOk state recvbuf hblocks, ?_⟩
  rintro c ⟨as, hrun, rfl⟩ hc
  have hreachable : Protocol.serveConnection.Reachable c :=
    Machine.reachable_of_run as ⟨state, recvbuf, rfl⟩ hrun
  have hreceived : c.received = bufs.flatten := by
    rw [hstream, (Protocol.counts_run hrun).received]
    rfl
  have haccepted : c.accepted = Frame.reply bufs.flatten := by
    rw [(Protocol.reachable_follows hreachable).accepted_eq (Or.inr hc), hreceived]
  rw [haccepted, serves_iff hbufs, overflows_iff]
  simp only [not_exists, not_and, ne_eq]

theorem serves_like_protocol_iff_cutFrame :
    (∃ c, Protocol.Delivers (.entry .waitForMsg (List.Vector.replicate _ 0)) [[94], [97, 36]] c ∧
      c.control = .returned .serveOk) ∧
    ∀ c, Protocol.Delivers (.entry .waitForMsg (List.Vector.replicate _ 0)) [[94], [97, 36]] c →
      c.control = .returned .serveOk →
      (Serves [[94, 97, 36]] c.accepted ↔
        ∀ i, Frame.Echoed [94, 97, 36] i → [94, 97, 36][i]? ≠ some (255 : UInt8)) :=
  serves_like_protocol_iff .waitForMsg _ (by simp) (by simp [Protocol.recvbufSize]) rfl

/-- A frame with the byte `255`: this function raises where the other one replies with
the byte `0`. -/
theorem last_byte_raises :
    serveConnection obliging (segments [[94, 255, 36]]) =
      .error ⟨.valueError, ⟨.inMsg, 2, ['*'.toUInt8]⟩⟩ ∧
    ∃ c, Protocol.serveConnection.run (.entry .waitForMsg (List.Vector.replicate _ 0))
        [.send (.ok 1), .recv (.ok [94, 255, 36]), .tick, .tick, .tick, .tick, .send (.ok 1),
          .recv (.ok [])] = some c ∧
      c.control = .returned .serveOk ∧ c.accepted = ['*'.toUInt8, 0] :=
  ⟨rfl, _, rfl, rfl, rfl⟩

end ConcurrentServers.Python
