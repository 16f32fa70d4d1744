import ConcurrentServers.Uring.Model
import Mathlib.Data.Multiset.Filter

/-!
# The outstanding submissions as a multiset

The rings are lists, but an invariant over all orders of completion must not
depend on where an entry is. `items` collects every submission whose completion
has not been handled, with its result if the completion is posted. Submitting
does not change it, queueing adds an entry, and handling removes one.
-/

namespace ConcurrentServers.Uring

open Systems

/-- A submission, with the result if its completion has been posted. -/
abbrev Item := Sqe × Option (SysResult ℕ)

def Sqe.item (e : Sqe) : Item := (e, none)

def Cqe.item (c : Cqe) : Item := (c.sqe, some c.res)

def Server.items (s : Server) : Multiset Item :=
  (s.sq.map Sqe.item : Multiset Item) + (s.inflight.map Sqe.item : Multiset Item) +
    (s.cq.map Cqe.item : Multiset Item)

/-- A transfer on `fd`, or the acceptance of `fd` that the server has not seen. -/
def Concerns (fd : ℕ) (p : Item) : Prop :=
  p.1.op ≠ .opAccept ∧ p.1.fd = fd ∨ p.1.op = .opAccept ∧ p.2 = some (.ok fd)

instance (fd : ℕ) : DecidablePred (Concerns fd) :=
  fun p => inferInstanceAs (Decidable (p.1.op ≠ .opAccept ∧ p.1.fd = fd ∨ _))

def Server.ops (s : Server) (fd : ℕ) : Multiset Item := s.items.filter (Concerns fd)

def Server.accepts (s : Server) : Multiset Item := s.items.filter fun p => p.1.op = .opAccept

/-! ## How the operations change the items -/

@[simp] theorem items_submit (s : Server) (k : ℕ) : (s.submit k).items = s.items := by
  have hsq : s.sq.map Sqe.item = (s.sq.take k).map Sqe.item ++ (s.sq.drop k).map Sqe.item := by
    rw [← List.map_append, List.take_append_drop]
  simp only [Server.items, Server.submit]
  rw [hsq, List.map_append, ← Multiset.coe_add, ← Multiset.coe_add]
  abel

theorem items_push (s : Server) (e : Sqe) : (s.push e).items = e.item ::ₘ s.items := by
  simp only [Server.items, Server.push, List.map_append, ← Multiset.coe_add, List.map_cons,
    List.map_nil, Multiset.coe_singleton]
  rw [← Multiset.singleton_add]
  abel

theorem items_pop {s : Server} {c : Cqe} {cq : List Cqe} (h : s.cq = c :: cq) :
    s.items = c.item ::ₘ ({ s with cq := cq } : Server).items := by
  simp only [Server.items, h, List.map_cons, ← Multiset.cons_coe, Multiset.add_cons]

/-- Taking an entry out of the ones in flight. -/
theorem items_take {s : Server} {i : ℕ} {e : Sqe} (h : s.inflight[i]? = some e) :
    s.items = e.item ::ₘ ({ s with inflight := s.inflight.eraseIdx i } : Server).items := by
  obtain ⟨hi, rfl⟩ := List.getElem?_eq_some_iff.mp h
  have hperm := (List.getElem_cons_eraseIdx_perm hi).map Sqe.item
  have hcoe := Multiset.coe_eq_coe.mpr hperm
  simp only [Server.items, ← hcoe, List.map_cons, ← Multiset.cons_coe, Multiset.add_cons,
    Multiset.cons_add]

theorem items_post (s : Server) (c : Cqe) :
    ({ s with cq := s.cq ++ [c] } : Server).items = c.item ::ₘ s.items := by
  simp only [Server.items, List.map_append, ← Multiset.coe_add, List.map_cons, List.map_nil,
    Multiset.coe_singleton]
  rw [← Multiset.singleton_add]
  abel

theorem map_fst_items (s : Server) : s.items.map Prod.fst = ↑s.outstanding := by
  have hsqe : Prod.fst ∘ Sqe.item = id := rfl
  have hcqe : Prod.fst ∘ Cqe.item = Cqe.sqe := rfl
  simp [Server.items, Server.outstanding, hsqe, hcqe]

/-! ## Reading off the operations of one descriptor -/

theorem ops_cons_of_concerns {s s' : Server} {p : Item} {fd : ℕ}
    (h : s'.items = p ::ₘ s.items) (hp : Concerns fd p) : s'.ops fd = p ::ₘ s.ops fd := by
  rw [Server.ops, h, Multiset.filter_cons_of_pos _ hp]
  rfl

theorem ops_cons_of_not {s s' : Server} {p : Item} {fd : ℕ}
    (h : s'.items = p ::ₘ s.items) (hp : ¬Concerns fd p) : s'.ops fd = s.ops fd := by
  rw [Server.ops, h, Multiset.filter_cons_of_neg _ hp]
  rfl

theorem ops_congr {s s' : Server} (h : s'.items = s.items) (fd : ℕ) : s'.ops fd = s.ops fd := by
  rw [Server.ops, h]
  rfl

theorem accepts_cons_of_eq {s s' : Server} {p : Item} (h : s'.items = p ::ₘ s.items)
    (hp : p.1.op = .opAccept) : s'.accepts = p ::ₘ s.accepts := by
  simp only [Server.accepts, h]
  exact Multiset.filter_cons_of_pos (p := fun p : Item => p.1.op = .opAccept) _ hp

theorem accepts_cons_of_ne {s s' : Server} {p : Item} (h : s'.items = p ::ₘ s.items)
    (hp : p.1.op ≠ .opAccept) : s'.accepts = s.accepts := by
  simp only [Server.accepts, h]
  exact Multiset.filter_cons_of_neg (p := fun p : Item => p.1.op = .opAccept) _ hp

theorem concerns_transfer {fd : ℕ} {e : Sqe} (he : e.op ≠ .opAccept)
    (res : Option (SysResult ℕ)) : Concerns fd (e, res) ↔ e.fd = fd := by
  simp [Concerns, he]

theorem concerns_accept {fd : ℕ} {e : Sqe} (he : e.op = .opAccept)
    (res : Option (SysResult ℕ)) : Concerns fd (e, res) ↔ res = some (.ok fd) := by
  simp [Concerns, he]

/-- An accept concerns no descriptor but the one that it returned. -/
theorem not_concerns_accept {fd : ℕ} {e : Sqe} (he : e.op = .opAccept)
    {res : Option (SysResult ℕ)} (hres : res ≠ some (.ok fd)) : ¬Concerns fd (e, res) :=
  fun hc => hres ((concerns_accept he res).mp hc)

theorem not_concerns_item {e : Sqe} (he : e.op = .opAccept) (fd : ℕ) : ¬Concerns fd e.item :=
  not_concerns_accept he (by simp)

/-- Without its only operation a descriptor has none. -/
theorem ops_eq_zero_of_singleton {s s' : Server} {p : Item} {fd : ℕ}
    (h : s'.items = p ::ₘ s.items) (hp : Concerns fd p) (hops : s'.ops fd = {p}) :
    s.ops fd = 0 := by
  rw [ops_cons_of_concerns h hp, ← Multiset.cons_zero] at hops
  exact (Multiset.cons_inj_right _).mp hops

end ConcurrentServers.Uring
