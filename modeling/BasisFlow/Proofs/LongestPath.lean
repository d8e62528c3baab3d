import BasisFlow.Proofs.Layers
import BasisFlow.Proofs.Neighbours
import Mathlib.Order.Bounds.Defs

namespace BasisFlow

namespace Circuit

/-- Nodes of a circuit, each of which comes directly after the one before it on some wire. -/
structure IsPath (c : Circuit) (l : List NodeId) : Prop where
  live : ∀ id ∈ l, (c.node? id).isSome
  linked : l.IsChain c.Precedes

/-- The layer of a node. -/
def layerOf (c : Circuit) (id : NodeId) : Nat :=
  (c.layers.lookup id).getD 0

theorem foldl_max_spec (l : List Nat) :
    (l.foldl max 0 = 0 ∨ l.foldl max 0 ∈ l) ∧ ∀ k ∈ l, k ≤ l.foldl max 0 := by
  have hmax : (0 :: l).max? = some (l.foldl max 0) := List.max?_cons'
  obtain ⟨hmem, hle⟩ := List.max?_eq_some_iff.mp hmax
  exact ⟨List.mem_cons.mp hmem, fun k hk => hle k (List.mem_cons_of_mem 0 hk)⟩

section Table

variable {c : Circuit} {L : List NodeId} {layers : List (NodeId × Nat)}

/-- Nodes that are put into layers later do not change the layer of an earlier one. -/
theorem lookup_foldl_addLayer {x : NodeId} (hx : x ∉ L) :
    (L.foldl c.addLayer layers).lookup x = layers.lookup x := by
  induction L generalizing layers with
  | nil => rfl
  | cons id L ih =>
    obtain ⟨hne, hL⟩ := not_or.mp (mt List.mem_cons.mpr hx)
    rw [List.foldl_cons, ih hL, addLayer, List.lookup_cons, beq_false_of_ne hne]

theorem map_fst_foldl_addLayer :
    (L.foldl c.addLayer layers).map (·.1) = L.reverse ++ layers.map (·.1) := by
  induction L generalizing layers with
  | nil => rfl
  | cons id L ih => simp [ih, addLayer]

/-- In a table without repetitions every entry is found. -/
theorem lookup_of_mem {id : NodeId} {k : Nat} (hn : (layers.map (·.1)).Nodup)
    (h : (id, k) ∈ layers) : layers.lookup id = some k := by
  obtain ⟨a, b, rfl⟩ := List.append_of_mem h
  rw [List.map_append, List.map_cons, List.nodup_middle, List.nodup_cons] at hn
  refine List.lookup_eq_some_iff.mpr ⟨a, b, rfl, ?_⟩
  intro p hp
  have hne : id ≠ p.1 := by
    intro he
    exact hn.1 (List.mem_append_left _ (List.mem_map.mpr ⟨p, hp, he.symm⟩))
  simpa using hne

end Table

variable {c : Circuit}

theorem IsPath.singleton {id : NodeId} (h : (c.node? id).isSome) : c.IsPath [id] :=
  ⟨by simpa using h, .singleton id⟩

theorem IsPath.cons {a b : NodeId} {l : List NodeId} (ha : (c.node? a).isSome)
    (hp : c.Precedes a b) (h : c.IsPath (b :: l)) : c.IsPath (a :: b :: l) :=
  ⟨List.forall_mem_cons.mpr ⟨ha, h.live⟩, .cons_cons hp h.linked⟩

theorem Linked.mem_of_path {L l : List NodeId} (h : c.Linked L) (hpath : c.IsPath l) {id : NodeId}
    (hid : id ∈ l) : id ∈ L :=
  (h.mem_iff id).mpr (hpath.live id hid)

/-- All nodes directly before a node have their layers when it gets its own. -/
theorem Linked.layerOf_eq (h : c.Linked c.order) {id : NodeId} (hid : id ∈ c.order) :
    c.layerOf id = ((c.before id).map c.layerOf).foldl max 0 + 1 := by
  obtain ⟨A, B, horder⟩ := List.append_of_mem hid
  have hn := h.nodup
  rw [horder] at hn
  obtain ⟨_, hB, hapart⟩ := List.nodup_append'.mp hn
  have hlayers : c.layers = B.foldl c.addLayer (c.addLayer (A.foldl c.addLayer []) id) := by
    rw [layers, horder, List.foldl_append, List.foldl_cons]
  have hbefore : (c.before id).map (fun p => ((A.foldl c.addLayer []).lookup p).getD 0) =
      (c.before id).map c.layerOf := by
    apply List.map_congr_left
    intro p hp
    have hpA : p ∈ A := h.isTopological.after A id B horder p hp
    have hlater : p ∉ id :: B := hapart hpA
    rw [layerOf, layers, horder, List.foldl_append, lookup_foldl_addLayer hlater]
  rw [layerOf, hlayers, lookup_foldl_addLayer (List.nodup_cons.mp hB).1, addLayer,
    List.lookup_cons_self, hbefore]
  rfl

theorem Linked.mem_layers_iff (h : c.Linked c.order) {k : Nat} :
    k ∈ c.layers.map (·.2) ↔ ∃ id ∈ c.order, c.layerOf id = k := by
  have hkeys : c.layers.map (·.1) = c.order.reverse := by
    rw [layers, map_fst_foldl_addLayer, List.map_nil, List.append_nil]
  have hn : (c.layers.map (·.1)).Nodup := by
    rw [hkeys]
    exact List.nodup_reverse.mpr h.nodup
  have hlayer : ∀ p ∈ c.layers, c.layerOf p.1 = p.2 := by
    intro p hp
    rw [layerOf, lookup_of_mem hn hp]
    rfl
  constructor
  · intro hk
    obtain ⟨p, hp, rfl⟩ := List.mem_map.mp hk
    have hid : p.1 ∈ c.layers.map (·.1) := List.mem_map_of_mem hp
    rw [hkeys, List.mem_reverse] at hid
    exact ⟨p.1, hid, hlayer p hp⟩
  · rintro ⟨id, hid, rfl⟩
    rw [← List.mem_reverse, ← hkeys] at hid
    obtain ⟨p, hp, rfl⟩ := List.mem_map.mp hid
    rw [hlayer p hp]
    exact List.mem_map_of_mem hp

theorem Linked.layerOf_le_depth (h : c.Linked c.order) {id : NodeId} (hid : id ∈ c.order) :
    c.layerOf id ≤ c.depth :=
  (foldl_max_spec _).2 _ (h.mem_layers_iff.mpr ⟨id, hid, rfl⟩)

theorem Linked.layerOf_lt (h : c.Linked c.order) {a b : NodeId} (hp : c.Precedes a b) :
    c.layerOf a < c.layerOf b := by
  have hbefore := h.mem_before_iff_precedes.mpr hp
  obtain ⟨n, hn, _⟩ := mem_before_iff.mp hbefore
  rw [h.layerOf_eq ((h.mem_iff b).mpr (by simp [hn]))]
  exact Nat.lt_succ_of_le ((foldl_max_spec _).2 _ (List.mem_map_of_mem hbefore))

/-- Along a path the layers rise, so there is one for every node behind its first. -/
theorem Linked.layerOf_add_length_le (h : c.Linked c.order) {id : NodeId} {l : List NodeId}
    (hpath : c.IsPath (id :: l)) : c.layerOf id + l.length ≤ c.depth := by
  induction l generalizing id with
  | nil => exact h.layerOf_le_depth (h.mem_of_path hpath (by simp))
  | cons b l ih =>
    obtain ⟨hp, hlinked⟩ := List.isChain_cons_cons.mp hpath.linked
    have hrest := ih ⟨fun x hx => hpath.live x (by simp [hx]), hlinked⟩
    have hlt := h.layerOf_lt hp
    rw [List.length_cons]
    omega

theorem Linked.length_le_depth (h : c.Linked c.order) {l : List NodeId} (hpath : c.IsPath l) :
    l.length ≤ c.depth := by
  cases l with
  | nil => exact Nat.zero_le _
  | cons id l =>
    have hle := h.layerOf_add_length_le hpath
    rw [h.layerOf_eq (h.mem_of_path hpath (by simp))] at hle
    rw [List.length_cons]
    omega

/-- A path can be continued backwards as long as its first node is not in the first layer. -/
theorem Linked.exists_path (h : c.Linked c.order) {id : NodeId} {l : List NodeId}
    (hpath : c.IsPath (id :: l)) :
    ∃ m, c.IsPath m ∧ m.length = c.layerOf id + l.length := by
  have hlayer := h.layerOf_eq (h.mem_of_path hpath List.mem_cons_self)
  induction hk : c.layerOf id generalizing id l with
  | zero => omega
  | succ k ih =>
    rcases (foldl_max_spec ((c.before id).map c.layerOf)).1 with hzero | hmem
    · exact ⟨id :: l, hpath, by rw [List.length_cons]; omega⟩
    · obtain ⟨p, hp, hbefore⟩ := List.mem_map.mp hmem
      have hmem := h.mem_of_before hp
      have hlonger : c.IsPath (p :: id :: l) :=
        .cons ((h.mem_iff p).mp hmem) (h.mem_before_iff_precedes.mp hp) hpath
      obtain ⟨m, hm, hlength⟩ := ih hlonger (h.layerOf_eq hmem) (by omega)
      refine ⟨m, hm, ?_⟩
      rw [hlength, List.length_cons]
      omega

theorem Linked.exists_path_of_depth (h : c.Linked c.order) :
    ∃ l, c.IsPath l ∧ l.length = c.depth := by
  rcases (foldl_max_spec (c.layers.map (·.2))).1 with hzero | hmem
  · exact ⟨[], ⟨by simp, .nil⟩, hzero.symm⟩
  · obtain ⟨id, hid, hlayer⟩ := h.mem_layers_iff.mp hmem
    obtain ⟨l, hl, hlength⟩ := h.exists_path (.singleton ((h.mem_iff id).mp hid))
    exact ⟨l, hl, hlength.trans hlayer⟩

/-- The depth is the number of nodes of a longest path, whatever the order in which the nodes were
created. It is zero only where there are no nodes. -/
theorem Reachable.depth_isGreatest_path {width : Nat} (h : c.Reachable width) :
    IsGreatest {k | ∃ l, c.IsPath l ∧ l.length = k} c.depth ∧ (c.depth = 0 ↔ c.ids = []) := by
  have hl := h.linked_of h.order_isTopological
  refine ⟨⟨hl.exists_path_of_depth, ?_⟩, ?_, ?_⟩
  · rintro k ⟨l, hpath, rfl⟩
    exact hl.length_le_depth hpath
  · intro hzero
    apply List.eq_nil_iff_forall_not_mem.mpr
    intro id hid
    have hle := hl.length_le_depth (.singleton (mem_ids.mp hid))
    rw [List.length_singleton] at hle
    omega
  · intro hnone
    obtain ⟨l, hpath, hlength⟩ := hl.exists_path_of_depth
    have hnil : l = [] := by
      apply List.eq_nil_iff_forall_not_mem.mpr
      intro id hid
      have hmem := mem_ids.mpr (hpath.live id hid)
      rw [hnone] at hmem
      cases hmem
    rw [← hlength, hnil, List.length_nil]

/-- The path goes through three nodes that are younger than its last one. -/
theorem spliced_depth_isGreatest_path :
    let c := [Request.append ⟨.cx, [0, 1]⟩, .append ⟨.base .h, [1]⟩, .append ⟨.base .h, [2]⟩,
      .substitute 0 ⟨2, [⟨.base .h, [0]⟩, ⟨.cx, [0, 1]⟩, ⟨.base .x, [1]⟩]⟩
        (Fragment.built_iff.mpr (by decide)) [0, 1]].foldl after (empty 3)
    c.Reachable 3 ∧ c.IsPath [3, 4, 5, 1] ∧ c.depth = 4 ∧ ∀ l, c.IsPath l → l.length ≤ 4 := by
  intro c
  have hc : c.Reachable 3 := ⟨_, rfl⟩
  have hpath : c.IsPath [3, 4, 5, 1] := by
    refine ⟨by decide +kernel, ?_⟩
    exact .cons_cons ⟨0, by decide +kernel⟩ (.cons_cons ⟨1, by decide +kernel⟩
      (.cons_cons ⟨1, by decide +kernel⟩ (.singleton 1)))
  have hdepth : c.depth = 4 := by decide +kernel
  refine ⟨hc, hpath, hdepth, fun l hl => ?_⟩
  rw [← hdepth]
  exact hc.depth_isGreatest_path.1.2 ⟨l, hl, rfl⟩

end Circuit

end BasisFlow
