import BasisFlow.Proofs.Topological

namespace BasisFlow

/-- A request to change a circuit. Nothing is asked of its arguments but that a fragment was put
together as fragments are. -/
inductive Request where
  | append (op : Operation)
  | remove (id : NodeId)
  | substitute (id : NodeId) (f : Fragment) (built : f.Built) (wires : List Wire)

namespace Circuit

/-- The circuit after a request. One that is refused changes nothing. -/
def after (c : Circuit) : Request → Circuit
  | .append op =>
    match c.append op with
    | .ok (_, d) => d
    | .error _ => c
  | .remove id =>
    match c.remove id with
    | .ok (_, d) => d
    | .error _ => c
  | .substitute id f _ wires =>
    match c.substitute id f wires with
    | .ok (_, d) => d
    | .error _ => c

/-- The circuits that requests make of bare wires. -/
def Reachable (width : Nat) (c : Circuit) : Prop :=
  ∃ requests : List Request, requests.foldl after (empty width) = c

theorem Linked.after {c : Circuit} {L : List NodeId} (h : c.Linked L) (r : Request) :
    (∃ M, (c.after r).Linked M) ∧ (c.after r).width = c.width := by
  cases r with
  | append op =>
    cases ha : c.append op with
    | error e => simpa [Circuit.after, ha] using ⟨L, h⟩
    | ok r =>
      obtain ⟨hl, _, _, hw⟩ := h.append ha
      simpa [Circuit.after, ha] using ⟨⟨_, hl⟩, hw⟩
  | remove id =>
    cases hr : c.remove id with
    | error e => simpa [Circuit.after, hr] using ⟨L, h⟩
    | ok r =>
      obtain ⟨n, d⟩ := r
      have hid : id ∈ L := (h.mem_iff id).mpr (by simp [(remove_eq_ok hr).1])
      obtain ⟨A, B, rfl⟩ := List.append_of_mem hid
      simpa [Circuit.after, hr] using ⟨⟨_, h.remove hr⟩, width_remove hr⟩
  | substitute id f built ws =>
    cases hs : c.substitute id f ws with
    | error e => simpa [Circuit.after, hs] using ⟨L, h⟩
    | ok r =>
      obtain ⟨ids, d⟩ := r
      obtain ⟨n, _, hr, _⟩ := substitute_eq_ok hs
      have hid : id ∈ L := (h.mem_iff id).mpr (by simp [(remove_eq_ok hr).1])
      obtain ⟨A, B, rfl⟩ := List.append_of_mem hid
      obtain ⟨hl, _, _, _, hw⟩ := h.substitute built.fits hs
      simpa [Circuit.after, hs] using ⟨⟨_, hl⟩, hw⟩

theorem Linked.foldl_after {c : Circuit} {L : List NodeId} (h : c.Linked L)
    (requests : List Request) :
    (∃ M, (requests.foldl Circuit.after c).Linked M) ∧
      (requests.foldl Circuit.after c).width = c.width := by
  induction requests generalizing c L with
  | nil => exact ⟨⟨L, h⟩, rfl⟩
  | cons r requests ih =>
    obtain ⟨⟨M, hM⟩, hw⟩ := h.after r
    obtain ⟨hl, hw'⟩ := ih hM
    exact ⟨hl, hw'.trans hw⟩

theorem Reachable.linked {width : Nat} {c : Circuit} (h : c.Reachable width) :
    ∃ L, c.Linked L := by
  obtain ⟨requests, rfl⟩ := h
  exact ((empty_linked width).foldl_after requests).1

theorem Reachable.width_eq {width : Nat} {c : Circuit} (h : c.Reachable width) :
    c.width = width := by
  obtain ⟨requests, rfl⟩ := h
  rw [((empty_linked width).foldl_after requests).2]
  simp [empty, Circuit.width]

/-- The links of a reachable circuit follow every topological order. -/
theorem Reachable.linked_of {width : Nat} {c : Circuit} (h : c.Reachable width)
    {L : List NodeId} (hL : c.IsTopological L) : c.Linked L := by
  obtain ⟨M, hM⟩ := h.linked
  exact hM.of_isTopological hL

theorem Reachable.order_isTopological {width : Nat} {c : Circuit} (h : c.Reachable width) :
    c.IsTopological c.order := by
  obtain ⟨L, hL⟩ := h.linked
  exact hL.order_isTopological

end Circuit

end BasisFlow
