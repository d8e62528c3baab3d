import BasisFlow.Proofs.Agreement

namespace BasisFlow

namespace Circuit

/-- The circuit that operations, added one after the other, make of bare wires. -/
def rebuild (width : Nat) (ops : List Operation) : Except CircuitError Circuit :=
  ops.foldlM (fun c op => do return (← c.append op).2) (empty width)

/-- The operands of every gate can be counted. -/
def Counted (c : Circuit) : Prop :=
  ∀ id op, c.op? id = some op → op.gate.countedArity = .ok op.gate.arity

variable {c d : Circuit} {L M : List NodeId}

theorem empty_counted (width : Nat) : (empty width).Counted := by
  intro id op hop
  simp [empty, op?, node?] at hop

/-- What a request brings in was checked before. -/
theorem Linked.counted_after (h : c.Linked L) (hc : c.Counted) (r : Request) :
    (c.after r).Counted := by
  cases r with
  | append op =>
    cases ha : c.append op with
    | error e => simpa [Circuit.after, ha] using hc
    | ok r =>
      obtain ⟨id, d⟩ := r
      obtain ⟨_, hops, _⟩ := h.append ha
      simp only [Circuit.after, ha]
      intro x o ho
      rw [hops] at ho
      split at ho
      next =>
        cases ho
        exact Operation.counted_of_check (append_eq_ok ha).1
      next => exact hc x o ho
  | remove id =>
    cases hr : c.remove id with
    | error e => simpa [Circuit.after, hr] using hc
    | ok r =>
      simp only [Circuit.after, hr]
      intro x o ho
      rw [op?_remove hr] at ho
      split at ho
      next => cases ho
      next => exact hc x o ho
  | substitute id f built ws =>
    cases hs : c.substitute id f ws with
    | error e => simpa [Circuit.after, hs] using hc
    | ok r =>
      obtain ⟨ids, d⟩ := r
      obtain ⟨n, _, hr, _⟩ := substitute_eq_ok hs
      have hid : id ∈ L := (h.mem_iff id).mpr (by simp [(remove_eq_ok hr).1])
      obtain ⟨A, B, rfl⟩ := List.append_of_mem hid
      obtain ⟨hl, hnew, hold, _⟩ := h.substitute built.fits hs
      simp only [Circuit.after, hs]
      intro x o ho
      have hx : x ∈ A ++ (ids ++ B) := (hl.mem_iff_op x).mpr (by simp [ho])
      by_cases hin : x ∈ ids
      · -- a new node has the gate of an operation of the fragment
        have hmem : d.op? x ∈ f.ops.map fun op => some (op.onto ws) :=
          hnew ▸ List.mem_map_of_mem hin
        obtain ⟨o', ho', he⟩ := List.mem_map.mp hmem
        rw [ho] at he
        cases he
        exact (Operation.counted_of_check (built.check o' ho') :)
      · rw [hold x (by simp [hin] at hx ⊢; exact hx)] at ho
        exact hc x o ho

theorem Reachable.counted {width : Nat} (h : c.Reachable width) : c.Counted := by
  obtain ⟨requests, rfl⟩ := h
  have hfold : ∀ (b : Circuit) (K : List NodeId), b.Linked K → b.Counted →
      (requests.foldl after b).Counted := by
    induction requests with
    | nil => exact fun b K _ hb => hb
    | cons r requests ih =>
      intro b K hK hb
      obtain ⟨⟨K', hK'⟩, _⟩ := hK.after r
      exact ih _ K' hK' (hK.counted_after hb r)
  exact hfold _ _ (empty_linked width) (empty_counted width)

theorem Linked.opsAlong_of_append {op : Operation} {id : NodeId} (h : c.Linked L)
    (ha : c.append op = .ok (id, d)) : d.opsAlong (L ++ [id]) = c.opsAlong L ++ [op] := by
  obtain ⟨_, hops, hid, _⟩ := h.append ha
  have hold : d.opsAlong L = c.opsAlong L := by
    apply List.filterMap_congr
    intro x hx
    have hne : x ≠ id := hid ▸ Nat.ne_of_lt (h.lt_size hx)
    rw [hops, if_neg hne]
  have hnew : d.opsAlong [id] = [op] := by
    simp [opsAlong, hops]
  rw [opsAlong_append, hold, hnew]

theorem Linked.foldlM_append (h : c.Linked L) {ops : List Operation}
    (hops : ∀ op ∈ ops, op.check c.width = .ok ()) :
    ∃ d new, ops.foldlM (fun c op => do return (← c.append op).2) c = .ok d ∧
      d.Linked (L ++ new) ∧ d.opsAlong (L ++ new) = c.opsAlong L ++ ops ∧ d.width = c.width := by
  induction ops generalizing c L with
  | nil => exact ⟨c, [], rfl, by simpa using h, by simp, rfl⟩
  | cons op ops ih =>
    obtain ⟨id, d, ha⟩ : ∃ id d, c.append op = .ok (id, d) := by
      rw [Circuit.append, hops op (by simp)]
      exact ⟨_, _, rfl⟩
    obtain ⟨hd, _, _, hwidth⟩ := h.append ha
    obtain ⟨e, new, he, hl, hall, hwidth'⟩ := ih hd fun o ho => hwidth ▸ hops o (by simp [ho])
    refine ⟨e, id :: new, ?_, by simpa using hl, ?_, hwidth'.trans hwidth⟩
    · rw [List.foldlM_cons, ha]
      exact he
    · rw [h.opsAlong_of_append ha] at hall
      simpa using hall

theorem Linked.rebuild_eq_ok (h : c.Linked L) (hc : c.Counted) :
    ∃ d new, rebuild c.width (c.opsAlong L) = .ok d ∧ d.Linked new ∧
      d.opsAlong new = c.opsAlong L ∧ d.width = c.width := by
  have hwidth : (empty c.width).width = c.width := by simp [empty, width]
  have hcheck : ∀ op ∈ c.opsAlong L, op.check (empty c.width).width = .ok () := by
    rw [hwidth]
    exact forall_mem_opsAlong (fun id op hid => (h.op_fits hid).check_of_counted (hc id op hid)) L
  obtain ⟨d, new, hd, hnew, hops, hd'⟩ := (empty_linked c.width).foldlM_append hcheck
  exact ⟨d, new, hd, hnew, hops, hd'.trans hwidth⟩

/-- Adding the gates of a circuit in any topological order to bare wires gives an equal circuit with
as many nodes, the same depth and as many gates of every name, nodes without a wire included. -/
theorem Reachable.rebuild_agrees {width : Nat} (h : c.Reachable width) :
    c.IsTopological c.order ∧ ∀ L, c.IsTopological L → ∃ d, rebuild c.width (c.opsAlong L) = .ok d ∧
      d.agrees c ∧ d.size = c.size ∧ d.depth = c.depth ∧
      ∀ name, d.counts.lookup name = c.counts.lookup name := by
  refine ⟨h.order_isTopological, ?_⟩
  intro L hL
  have hl := h.linked_of hL
  obtain ⟨d, new, hd, hnew, hops, hwidth⟩ := hl.rebuild_eq_ok h.counted
  have hc := h.linked_of h.order_isTopological
  have hd' := hnew.of_isTopological hnew.order_isTopological
  -- the depths are read off other orders than those that the nodes were added in
  have hrearranged : Rearranged Operation.wires d.ops c.ops := by
    have hsame := hd'.rearranged hnew
    rw [hops] at hsame
    exact hsame.trans (hl.rearranged hc)
  refine ⟨d, hd, ?_, ?_, ?_, ?_⟩
  · rw [hnew.agrees_iff hl hwidth, hops]
    exact fun w => rfl
  · rw [hnew.size_eq_length, hl.size_eq_length, hops]
  · rw [hd'.depth_eq, hc.depth_eq, hrearranged.highest_eq]
  · intro name
    rw [hnew.counts_eq, hl.counts_eq, hops]

theorem spliced_rebuild_agrees :
    let c := [Request.append ⟨.base .h, [2]⟩, .append ⟨.base .swap, [0, 1]⟩,
      .append ⟨.cx, [2, 1]⟩, .append ⟨.base (.blackBox "idle" 0), []⟩,
      .substitute 1 ⟨2, [⟨.cx, [1, 0]⟩, ⟨.base .t, [0]⟩]⟩ (Fragment.built_iff.mpr (by decide)) [1, 0],
      .remove 0, .append ⟨.base .x, [2]⟩].foldl after (empty 3)
    c.Reachable 3 ∧ c.order = [3, 4, 5, 2, 6] ∧ c.IsTopological [4, 5, 2, 6, 3] ∧
      ∃ d, rebuild 3 (c.opsAlong [4, 5, 2, 6, 3]) = .ok d ∧ d.agrees c ∧ d.size = 5 ∧
        d.depth = 4 ∧ d.counts.lookup "cx" = some 2 := by
  intro c
  have hc : c.Reachable 3 := ⟨_, rfl⟩
  have hL : c.IsTopological [4, 5, 2, 6, 3] := by decide +kernel
  obtain ⟨d, hd, hagrees, hsize, hdepth, hcounts⟩ := hc.rebuild_agrees.2 _ hL
  have hwidth : c.width = 3 := hc.width_eq
  rw [hwidth] at hd
  exact ⟨hc, by decide +kernel, hL, d, hd, hagrees, hsize, hdepth.trans (by decide +kernel),
    (hcounts "cx").trans (by decide +kernel)⟩

end Circuit

end BasisFlow
