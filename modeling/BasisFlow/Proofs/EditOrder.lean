import BasisFlow.Proofs.Requests

namespace BasisFlow

/-- The operation `o` is `op` with every local wire `k` renamed to the `k`-th of `ws`. -/
def Operation.Renamed (op : Operation) (ws : List Wire) (o : Operation) : Prop :=
  o.gate = op.gate ∧ o.wires.map some = op.wires.map fun k => ws[k]?

theorem Operation.renamed_onto {op : Operation} {ws : List Wire} (h : op.Fits ws.length) :
    op.Renamed ws (op.onto ws) := by
  refine ⟨rfl, ?_⟩
  rw [Operation.onto, List.map_map]
  apply List.map_congr_left
  intro k hk
  exact (h.getElem? hk).symm

namespace Circuit

/-- The nodes `L` are a topological order, and every wire runs through those of them that lie on
it. -/
def RunsAlong (c : Circuit) (L : List NodeId) : Prop :=
  c.IsTopological L ∧ ∀ w, c.lane w = L.filter (c.onWire w)

theorem Linked.runsAlong {c : Circuit} {L : List NodeId} (h : c.Linked L) : c.RunsAlong L :=
  ⟨h.isTopological, h.lane_eq⟩

theorem erase_cut {A B : List NodeId} {id : NodeId} (hn : (A ++ id :: B).Nodup) :
    (A ++ id :: B).erase id = A ++ B := by
  obtain ⟨hid, _⟩ := List.nodup_cons.mp (List.nodup_middle.mp hn)
  rw [List.erase_append_right _ (fun h => hid (List.mem_append_left B h)), List.erase_cons_head]

theorem flatMap_cut {A B : List NodeId} {id : NodeId} (hn : (A ++ id :: B).Nodup)
    (ids : List NodeId) :
    ((A ++ id :: B).flatMap fun x => if x = id then ids else [x]) = A ++ (ids ++ B) := by
  obtain ⟨hid, _⟩ := List.nodup_cons.mp (List.nodup_middle.mp hn)
  have hkeep : ∀ M : List NodeId, id ∉ M →
      (M.flatMap fun x => if x = id then ids else [x]) = M := by
    intro M hM
    induction M with
    | nil => rfl
    | cons y M ih =>
      have hy : y ≠ id := fun e => hM (by simp [e])
      rw [List.flatMap_cons, if_neg hy, ih fun hm => hM (by simp [hm])]
      rfl
  rw [List.flatMap_append, List.flatMap_cons, if_pos rfl,
    hkeep A fun hm => hid (by simp [hm]), hkeep B fun hm => hid (by simp [hm])]

/-- An order that was taken before a change stays one after it: a new node comes last, a node that
is taken out is left out, and the nodes of a fragment stand where the node was that they replace.
All other nodes keep their operations. -/
theorem Reachable.edits_follow_order {width : Nat} {c : Circuit} (h : c.Reachable width)
    {L : List NodeId} (hL : c.IsTopological L) :
    (∀ op id d, c.append op = .ok (id, d) →
      d.RunsAlong (L ++ [id]) ∧ d.op? id = some op ∧ ∀ x ∈ L, d.op? x = c.op? x) ∧
    (∀ id n d, c.remove id = .ok (n, d) →
      d.RunsAlong (L.erase id) ∧ ∀ x ∈ L, x ≠ id → d.op? x = c.op? x) ∧
    (∀ id (f : Fragment) ws ids d, f.Built → c.substitute id f ws = .ok (ids, d) →
      d.RunsAlong (L.flatMap fun x => if x = id then ids else [x]) ∧
      ids.length = f.ops.length ∧
      (∀ (j : Nat) (x : NodeId) (op : Operation), ids[j]? = some x → f.ops[j]? = some op →
        ∃ o, d.op? x = some o ∧ op.Renamed ws o) ∧
      ∀ x ∈ L, x ≠ id → d.op? x = c.op? x) := by
  have hlinked := h.linked_of hL
  refine ⟨?_, ?_, ?_⟩
  · intro op id d ha
    obtain ⟨hl, hop, hid, _⟩ := hlinked.append ha
    refine ⟨hl.runsAlong, by simp [hop], ?_⟩
    intro x hx
    rw [hop, if_neg (hid ▸ Nat.ne_of_lt (hlinked.lt_size hx))]
  · intro id n d hr
    have hid : id ∈ L := (hL.mem_iff id).mpr (by simp [(remove_eq_ok hr).1])
    obtain ⟨A, B, rfl⟩ := List.append_of_mem hid
    rw [erase_cut hL.nodup]
    refine ⟨(hlinked.remove hr).runsAlong, ?_⟩
    intro x _ hx
    rw [op?_remove hr, if_neg hx]
  · intro id f ws ids d hf hs
    obtain ⟨n, _, hr, hwidth, _⟩ := substitute_eq_ok hs
    have hid : id ∈ L := (hL.mem_iff id).mpr (by simp [(remove_eq_ok hr).1])
    obtain ⟨A, B, rfl⟩ := List.append_of_mem hid
    obtain ⟨hl, hops, hold, _, _⟩ := hlinked.substitute hf.fits hs
    have hlen : ids.length = f.ops.length := by simpa using congrArg List.length hops
    rw [flatMap_cut hL.nodup]
    refine ⟨hl.runsAlong, hlen, ?_, ?_⟩
    · intro j x op hx hop
      have hj := congrArg (·[j]?) hops
      simp only [List.getElem?_map, hx, hop, Option.map_some, Option.some.injEq] at hj
      exact ⟨_, hj, Operation.renamed_onto (hwidth ▸ hf.fits op (List.mem_of_getElem? hop))⟩
    · intro x hx hne
      apply hold x
      simp only [List.mem_append, List.mem_cons, hne, false_or] at hx ⊢
      exact hx

theorem crossed_edits_follow_order :
    let c := [Request.append ⟨.cx, [0, 1]⟩, .append ⟨.base .h, [0]⟩].foldl after (empty 2)
    let f : Fragment := ⟨2, [⟨.base .h, [1]⟩, ⟨.cx, [1, 0]⟩]⟩
    c.Reachable 2 ∧ c.IsTopological [0, 1] ∧ f.Built ∧
      ∃ d, c.substitute 0 f [1, 0] = .ok ([2, 3], d) ∧ d.RunsAlong [2, 3, 1] := by
  intro c f
  have hc : c.Reachable 2 := ⟨_, rfl⟩
  have hL : c.IsTopological [0, 1] := by
    have ho : c.order = [0, 1] := by decide
    exact ho ▸ hc.order_isTopological
  have hf : f.Built :=
    .push (.push (.empty 2) (show (Fragment.empty 2).push ⟨.base .h, [1]⟩ = _ from rfl))
      (show (Fragment.mk 2 [⟨.base .h, [1]⟩]).push ⟨.cx, [1, 0]⟩ = .ok f from rfl)
  have hs : ∃ d, c.substitute 0 f [1, 0] = .ok ([2, 3], d) := ⟨_, rfl⟩
  obtain ⟨d, hd⟩ := hs
  exact ⟨hc, hL, hf, d, hd, ((hc.edits_follow_order hL).2.2 0 f [1, 0] [2, 3] d hf hd).1⟩

end Circuit

end BasisFlow
