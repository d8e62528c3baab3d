import BasisFlow.Proofs.Interleaving
import BasisFlow.Proofs.Topological

namespace BasisFlow

/-- The layer of an operation on wires that are filled up to given heights. -/
def Operation.layer (op : Operation) (height : Wire → Nat) : Nat :=
  (op.wires.map height).foldl max 0 + 1

/-- The heights of the wires behind an operation. -/
def Operation.rise (op : Operation) (height : Wire → Nat) (w : Wire) : Nat :=
  if w ∈ op.wires then op.layer height else height w

/-- The highest layer that operations, one after the other, come into. -/
def highest (height : Wire → Nat) : List Operation → Nat
  | [] => 0
  | op :: ops => max (op.layer height) (highest (op.rise height) ops)

theorem Operation.layer_rise_of_disjoint {x y : Operation} (h : x.wires.Disjoint y.wires)
    (height : Wire → Nat) : y.layer (x.rise height) = y.layer height := by
  have hwires : y.wires.map (x.rise height) = y.wires.map height := by
    apply List.map_congr_left
    intro w hw
    rw [rise, if_neg fun hx => h hx hw]
  rw [layer, layer, hwires]

theorem Operation.rise_comm {x y : Operation} (h : x.wires.Disjoint y.wires)
    (height : Wire → Nat) : y.rise (x.rise height) = x.rise (y.rise height) := by
  have hsymm : y.wires.Disjoint x.wires := fun w hy hx => h hx hy
  funext w
  by_cases hx : w ∈ x.wires
  · have hy : w ∉ y.wires := h hx
    simp only [rise, hx, hy, ↓reduceIte]
    exact (layer_rise_of_disjoint hsymm height).symm
  · by_cases hy : w ∈ y.wires
    · simp only [rise, hx, hy, ↓reduceIte]
      exact layer_rise_of_disjoint h height
    · simp only [rise, hx, hy, ↓reduceIte]

theorem highest_exchange {l m : List Operation} (h : Exchange Operation.wires l m)
    (height : Wire → Nat) : highest height l = highest height m := by
  obtain @⟨front, back, x, y, apart⟩ := h
  induction front generalizing height with
  | nil =>
    have hsymm : y.wires.Disjoint x.wires := fun w hy hx => apart hx hy
    simp only [List.nil_append, highest, Operation.layer_rise_of_disjoint apart,
      Operation.layer_rise_of_disjoint hsymm, Operation.rise_comm apart]
    omega
  | cons z front ih => simp only [List.cons_append, highest, ih]

theorem Rearranged.highest_eq {l m : List Operation} (h : Rearranged Operation.wires l m)
    (height : Wire → Nat) : highest height l = highest height m := by
  induction h with
  | refl => rfl
  | tail _ hstep ih => exact ih.trans (highest_exchange hstep height)

namespace Circuit

theorem foldl_max_eq (a : Nat) (l : List Nat) : l.foldl max a = max a (l.foldl max 0) := by
  have h : l.foldl max (max a 0) = max a (l.foldl max 0) := List.foldl_assoc
  rwa [Nat.max_zero] at h

/-- A wire without a forerunner counts as empty. -/
theorem foldl_max_filterMap {legs : List Leg} (f : NodeId → Nat) :
    ((legs.filterMap (·.prev)).map f).foldl max 0 =
      (legs.map fun p => (p.prev.map f).getD 0).foldl max 0 := by
  induction legs with
  | nil => rfl
  | cons p legs ih =>
    cases hp : p.prev with
    | none => simpa [hp] using ih
    | some q => simp [hp, foldl_max_eq (f q), ih]

/-- The layers found so far give the heights of the wires behind the nodes `A`. -/
def HeightsOf (c : Circuit) (A : List NodeId) (layers : List (NodeId × Nat)) (height : Wire → Nat) :
    Prop :=
  ∀ w, height w = ((A.filter (c.onWire w)).getLast?.map fun q => (layers.lookup q).getD 0).getD 0

theorem Linked.addLayer_eq {c : Circuit} {A B : List NodeId} {id : NodeId} {op : Operation}
    {layers : List (NodeId × Nat)} {height : Wire → Nat} (h : c.Linked (A ++ id :: B))
    (hop : c.op? id = some op) (hh : c.HeightsOf A layers height) :
    c.addLayer layers id = (id, op.layer height) :: layers := by
  obtain ⟨n, hn, rfl⟩ := Option.map_eq_some_iff.mp hop
  have hbefore : c.before id = n.legs.filterMap (·.prev) := by
    simp [before, hn, Node.prevs, List.filterMap_map]
  have hlegs : n.op.wires.map height =
      n.legs.map fun p => (p.prev.map fun q => (layers.lookup q).getD 0).getD 0 := by
    simp only [Node.op, Node.wires, List.map_map]
    apply List.map_congr_left
    intro p hp
    rw [(h.between hn hp).1]
    exact hh p.wire
  rw [addLayer, Operation.layer, hlegs, hbefore, foldl_max_filterMap]

theorem HeightsOf.rise {c : Circuit} {A B : List NodeId} {id : NodeId} {op : Operation}
    {layers : List (NodeId × Nat)} {height : Wire → Nat} (h : c.Linked (A ++ id :: B))
    (hop : c.op? id = some op) (hh : c.HeightsOf A layers height) :
    c.HeightsOf (A ++ [id]) ((id, op.layer height) :: layers) (op.rise height) := by
  have hid := (List.nodup_cons.mp (List.nodup_middle.mp h.nodup)).1
  intro w
  by_cases hw : w ∈ op.wires
  · have hon : c.onWire w id := by simp [onWire, hop, hw]
    simp [Operation.rise, hw, hon]
  · have hoff : c.onWire w id = false := by simp [onWire, hop, hw]
    rw [Operation.rise, if_neg hw, hh w, List.filter_append, List.filter_cons, hoff]
    simp only [Bool.false_eq_true, ↓reduceIte, List.filter_nil, List.append_nil]
    cases hlast : (A.filter (c.onWire w)).getLast? with
    | none => rfl
    | some q =>
      -- the node behind which the wire ends is another one than `id`
      have hq : q ≠ id := by
        rintro rfl
        exact hid (List.mem_append_left B (List.mem_of_mem_filter (List.mem_of_getLast? hlast)))
      simp [List.lookup_cons, beq_false_of_ne hq]

theorem Linked.foldl_addLayer {c : Circuit} {A B : List NodeId} {layers : List (NodeId × Nat)}
    {height : Wire → Nat} (h : c.Linked (A ++ B)) (hh : c.HeightsOf A layers height) :
    ((B.foldl c.addLayer layers).map (·.2)).foldl max 0 =
      max ((layers.map (·.2)).foldl max 0) (highest height (B.filterMap c.op?)) := by
  induction B generalizing A layers height with
  | nil => simp [highest]
  | cons id B ih =>
    obtain ⟨op, hop⟩ := Option.isSome_iff_exists.mp ((h.mem_iff_op id).mp (by simp))
    have hnext : c.Linked (A ++ [id] ++ B) := by simpa using h
    rw [List.foldl_cons, h.addLayer_eq hop hh, ih hnext (hh.rise h hop),
      List.filterMap_cons_some hop, highest, List.map_cons, List.foldl_cons,
      foldl_max_eq (max 0 (op.layer height))]
    omega

/-- The depth is the highest layer when operations are put on bare wires one after the other. -/
theorem Linked.depth_eq {c : Circuit} (h : c.Linked c.order) :
    c.depth = highest (fun _ => 0) c.ops := by
  have hstart : c.HeightsOf [] [] fun _ => 0 := fun w => rfl
  have hfold := Linked.foldl_addLayer (A := []) h hstart
  rw [List.map_nil, List.foldl_nil, Nat.zero_max] at hfold
  exact hfold

end Circuit

end BasisFlow
