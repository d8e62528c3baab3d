import BasisFlow.Drawing
import BasisFlow.Proofs.Labels
import BasisFlow.Proofs.Traversal

namespace BasisFlow

namespace Drawing

/-- The vertices that a statement declares. -/
def Statement.declares : Statement → List Nat
  | .group _ vertices => vertices.map (·.id)
  | .vertex v => [v.id]
  | _ => []

def Statement.edge? : Statement → Option (Nat × Nat)
  | .edge tail head => some (tail, head)
  | _ => none

/-- All vertices that statements declare, as often as they do. -/
def declared (statements : List Statement) : List Nat :=
  statements.flatMap Statement.declares

/-- All edges that statements draw, as often as they do. -/
def edges (statements : List Statement) : List (Nat × Nat) :=
  statements.filterMap Statement.edge?

theorem declared_append (s t : List Statement) : declared (s ++ t) = declared s ++ declared t :=
  List.flatMap_append

theorem edges_append (s t : List Statement) : edges (s ++ t) = edges s ++ edges t :=
  List.filterMap_append

theorem declared_path (l : List Nat) : declared (path l) = [] := by
  fun_induction path l with
  | case1 a b rest ih => exact ih
  | case2 => rfl

theorem tails_path (l : List Nat) (z : Nat) : (edges (path (l ++ [z]))).map (·.1) = l := by
  induction l with
  | nil => rfl
  | cons a l ih =>
    cases l with
    | nil => rfl
    | cons b l => exact congrArg (a :: ·) ih

theorem heads_path (a : Nat) (l : List Nat) : (edges (path (a :: l))).map (·.2) = l := by
  induction l generalizing a with
  | nil => rfl
  | cons b l ih => exact congrArg (b :: ·) (ih b)

/-- Along a list of nodes up to the vertex `z`, there is an edge for every node to the one behind
it, and one from the last node to `z`. -/
theorem edges_path_perm {l : List NodeId} {next : NodeId → Option NodeId}
    (h : ∀ a x b, l = a ++ x :: b → next x = b.head?) (v : NodeId → Nat) (z : Nat) :
    (edges (path (l.map v ++ [z]))).Perm
      ((l.getLast?.map fun x => (v x, z)).toList ++
        l.filterMap fun x => (next x).map fun y => (v x, v y)) := by
  induction l with
  | nil => exact .refl _
  | cons x l ih =>
    have hx : next x = l.head? := h [] x l rfl
    have hrest := ih fun a y b hl => h (x :: a) y b (by rw [hl]; rfl)
    cases l with
    | nil => simp [path, edges, Statement.edge?, hx]
    | cons y l =>
      rw [List.filterMap_cons, hx]
      exact (hrest.cons (v x, v y)).trans List.perm_middle.symm

end Drawing

namespace Circuit

open Drawing

variable {c : Circuit} {L : List NodeId}

/-- The edges at the two ends of a wire, which are one edge if the wire is bare. -/
def endEdges (c : Circuit) (w : Wire) : List (Nat × Nat) :=
  match c.first? w, c.last? w with
  | some a, some b => [(w, c.vertexOf a), (c.vertexOf b, c.width + w)]
  | _, _ => [(w, c.width + w)]

/-- One edge for every link forward that a node holds. -/
def linkEdges (c : Circuit) : List (Nat × Nat) :=
  c.ids.flatMap fun a => (c.behind a).map fun b => (c.vertexOf a, c.vertexOf b)

/-- The edge along the link of a node on a wire. -/
def linkEdge? (c : Circuit) (w : Wire) (a : NodeId) : Option (Nat × Nat) :=
  (c.next? a w).map fun b => (c.vertexOf a, c.vertexOf b)

theorem Linked.edges_wirePath (h : c.Linked L) (w : Wire) :
    (edges (c.wirePath w)).Perm (c.endEdges w ++ L.filterMap (c.linkEdge? w)) := by
  have hthreads := h.threads w
  have hoff : L.filterMap (c.linkEdge? w) = (c.lane w).filterMap (c.linkEdge? w) := by
    rw [h.lane_eq, List.filterMap_filter]
    apply List.filterMap_congr
    intro a _
    split
    next => rfl
    next hn =>
      have hleg : (c.strand w).leg a = none := by simpa using leg_isSome_iff.not.mpr hn
      rw [linkEdge?, next?_eq_leg, hleg]
      rfl
  have hfirst : c.first? w = (c.lane w).head? := by rw [h.lane_eq]; exact hthreads.first_eq
  have hlast : c.last? w = (c.lane w).getLast? := by rw [h.lane_eq]; exact hthreads.last_eq
  have hnext : ∀ a x b, c.lane w = a ++ x :: b → c.next? x w = b.head? := by
    intro a x b hl
    rw [h.lane_eq] at hl
    rw [next?_eq_leg, hthreads.leg_eq a x b hl]
    rfl
  have hpath := edges_path_perm hnext c.vertexOf (c.width + w)
  rw [hoff, endEdges, hfirst, hlast, wirePath]
  cases hl : c.lane w with
  | nil => exact .refl _
  | cons x l =>
    rw [hl] at hpath
    obtain ⟨y, hy⟩ : ∃ y, (x :: l).getLast? = some y := ⟨_, List.getLast?_cons⟩
    rw [hy] at hpath ⊢
    exact hpath.cons (w, c.vertexOf x)

/-- Values found over two lists are the same in whichever order the lists are gone through. -/
theorem flatMap_filterMap_perm {α β γ : Type} (f : α → β → Option γ) (l : List α) (m : List β) :
    (l.flatMap fun a => m.filterMap (f a)).Perm (m.flatMap fun b => l.filterMap (f · b)) := by
  induction l with
  | nil => simp
  | cons a l ih =>
    have hcons : (fun b => (a :: l).filterMap (f · b)) =
        fun b => (f a b).toList ++ l.filterMap (f · b) := by
      funext b
      cases hf : f a b <;> simp [hf]
    rw [List.flatMap_cons, hcons, List.filterMap_eq_flatMap_toList]
    exact (ih.append_left _).trans (List.flatMap_append_perm m _ _)

theorem Linked.behind_perm (h : c.Linked L) (a : NodeId) :
    ((List.range c.width).filterMap (c.next? a)).Perm (c.behind a) := by
  rw [List.perm_iff_count]
  intro b
  rw [h.count_behind_eq, List.count, List.countP_filterMap]
  apply List.countP_congr
  intro w _
  cases c.next? a w <;> simp

theorem Linked.filterMap_linkEdge? (h : c.Linked L) (a : NodeId) :
    ((List.range c.width).filterMap (c.linkEdge? · a)).Perm
      ((c.behind a).map fun b => (c.vertexOf a, c.vertexOf b)) := by
  have hmap : (List.range c.width).filterMap (c.linkEdge? · a) =
      ((List.range c.width).filterMap (c.next? a)).map fun b => (c.vertexOf a, c.vertexOf b) :=
    List.map_filterMap.symm
  rw [hmap]
  exact (h.behind_perm a).map _

/-- The lines of all wires are drawn at the ends of the wires and along the links. -/
theorem Linked.edges_lines (h : c.Linked L) :
    (edges ((List.range c.width).flatMap c.wirePath)).Perm
      ((List.range c.width).flatMap c.endEdges ++ c.linkEdges) := by
  have hwires := List.Perm.flatMap_left (List.range c.width) fun w _ => h.edges_wirePath w
  have hsplit := List.flatMap_append_perm (List.range c.width) c.endEdges
    fun w => L.filterMap (c.linkEdge? w)
  -- the links are found wire by wire, and are counted node by node
  have hturned := flatMap_filterMap_perm c.linkEdge? (List.range c.width) L
  have hnodes : (L.flatMap fun a => (List.range c.width).filterMap (c.linkEdge? · a)).Perm
      c.linkEdges := h.perm_ids.flatMap fun a _ => h.filterMap_linkEdge? a
  rw [edges, List.filterMap_flatMap]
  exact (hwires.trans hsplit.symm).trans ((hturned.trans hnodes).append_left _)

theorem Linked.wires_perm (h : c.Linked L) {id : NodeId} {n : Node} (hn : c.node? id = some n) :
    ((List.range c.width).filter fun w => c.onWire w id).Perm n.wires := by
  have hfits := h.fits id n hn
  have hnodup : n.wires.Nodup := hfits.nodup
  rw [List.perm_ext_iff_of_nodup (List.nodup_range.filter _) hnodup]
  intro w
  rw [List.mem_filter, List.mem_range, onWire_iff]
  constructor
  · rintro ⟨_, n', hn', hw⟩
    rw [hn] at hn'
    cases hn'
    exact hw
  · intro hw
    exact ⟨hfits.lt_width w hw, n, hn, hw⟩

theorem count_flatMap_eq {ws : List Wire} {f : Wire → List Nat} {p : Wire → Bool} {v : Nat}
    (h : ∀ w ∈ ws, (f w).count v = if p w then 1 else 0) :
    (ws.flatMap f).count v = (ws.filter p).length := by
  induction ws with
  | nil => rfl
  | cons w ws ih =>
    rw [List.flatMap_cons, List.count_append, h w (by simp), ih fun u hu => h u (by simp [hu]),
      List.filter_cons]
    cases p w <;> simp [Nat.add_comm]

theorem vertexOf_injective (c : Circuit) : Function.Injective c.vertexOf :=
  fun _ _ h => Nat.add_left_cancel h

/-- A node is met once on every wire that it acts on. -/
theorem Linked.count_lane (h : c.Linked L) (w : Wire) (id : NodeId) :
    ((c.lane w).map c.vertexOf).count (c.vertexOf id) = if c.onWire w id then 1 else 0 := by
  rw [List.count_map_of_injective _ _ c.vertexOf_injective, h.lane_eq, (h.threads w).nodup.count]
  simp only [h.mem_filter_iff]

section Ends

variable (h : c.Linked L) {id : NodeId} {n : Node} (hn : c.node? id = some n)

include h hn

/-- If an end of every edge along a wire is a node of the wire, this end is at a node once for each
of its operands. -/
theorem Linked.count_ends {f : Nat × Nat → Nat}
    (hf : ∀ w < c.width, ((edges (c.wirePath w)).map f).count (c.vertexOf id) =
      ((c.lane w).map c.vertexOf).count (c.vertexOf id)) :
    ((edges ((List.range c.width).flatMap c.wirePath)).map f).count (c.vertexOf id) =
      n.wires.length := by
  rw [edges, List.filterMap_flatMap, List.map_flatMap, ← (h.wires_perm hn).length_eq]
  apply count_flatMap_eq
  intro w hw
  exact (hf w (List.mem_range.mp hw)).trans (h.count_lane w id)

theorem Linked.count_tails :
    ((edges ((List.range c.width).flatMap c.wirePath)).map (·.1)).count (c.vertexOf id) =
      n.wires.length := by
  apply h.count_ends hn
  intro w hw
  have htails : (edges (c.wirePath w)).map (·.1) = w :: (c.lane w).map c.vertexOf :=
    tails_path _ _
  have hinput : w ≠ c.vertexOf id := Nat.ne_of_lt (by unfold vertexOf; omega)
  rw [htails, List.count_cons_of_ne hinput]

theorem Linked.count_heads :
    ((edges ((List.range c.width).flatMap c.wirePath)).map (·.2)).count (c.vertexOf id) =
      n.wires.length := by
  apply h.count_ends hn
  intro w hw
  have hheads : (edges (c.wirePath w)).map (·.2) = (c.lane w).map c.vertexOf ++ [c.width + w] :=
    heads_path _ _
  have houtput : c.vertexOf id ∉ [c.width + w] := by
    simp only [List.mem_singleton, vertexOf]
    omega
  rw [hheads, List.count_append, List.count_eq_zero_of_not_mem houtput, Nat.add_zero]

end Ends

theorem mem_nodes {id : NodeId} {n : Node} : (id, n) ∈ c.nodes ↔ c.node? id = some n := by
  simp only [nodes, List.mem_filterMap, Option.map_eq_some_iff, Prod.mk.injEq, mem_ids]
  constructor
  · rintro ⟨_, _, _, hn, rfl, rfl⟩
    exact hn
  · intro hn
    exact ⟨id, by simp [hn], n, hn, rfl, rfl⟩

theorem map_fst_nodes (c : Circuit) : c.nodes.map (·.1) = c.ids := by
  have hfst : c.nodes.map (·.1) = c.ids.filterMap some := by
    rw [nodes, List.map_filterMap]
    apply List.filterMap_congr
    intro id hid
    obtain ⟨n, hn⟩ := Option.isSome_iff_exists.mp (mem_ids.mp hid)
    simp [hn]
  rw [hfst, List.filterMap_some]

theorem mapM_boxOf {l : List (NodeId × Node)} {boxes : List Statement}
    (h : (l.mapM fun x => c.boxOf x.1 x.2) = .ok boxes) :
    declared boxes = l.map (fun x => c.vertexOf x.1) ∧ edges boxes = [] := by
  induction l generalizing boxes with
  | nil =>
    cases h
    exact ⟨rfl, rfl⟩
  | cons x l ih =>
    rw [List.mapM_cons] at h
    obtain ⟨first, hfirst, h⟩ := except_bind_eq_ok.mp h
    obtain ⟨rest, hrest, h⟩ := except_bind_eq_ok.mp h
    obtain ⟨label, _, hfirst⟩ := except_bind_eq_ok.mp hfirst
    cases h
    cases hfirst
    obtain ⟨hdeclared, hedges⟩ := ih hrest
    exact ⟨congrArg (c.vertexOf x.1 :: ·) hdeclared, hedges⟩

theorem drawing_eq_ok {statements : List Statement} (h : c.drawing = .ok statements) :
    declared statements = List.range (2 * c.width) ++ c.ids.map c.vertexOf ∧
      edges statements = edges ((List.range c.width).flatMap c.wirePath) := by
  obtain ⟨boxes, hboxes, h⟩ := except_bind_eq_ok.mp h
  cases h
  obtain ⟨hdeclared, hedges⟩ := mapM_boxOf hboxes
  have hlines : declared ((List.range c.width).flatMap c.wirePath) = [] := by
    rw [declared, List.flatMap_assoc, List.flatMap_eq_nil_iff]
    intro w _
    exact declared_path _
  have hids : c.nodes.map (fun x => c.vertexOf x.1) = c.ids.map c.vertexOf := by
    rw [← map_fst_nodes, List.map_map]
    rfl
  have hends : declared (style ++ [c.inputs, c.outputs]) = List.range (2 * c.width) := by
    rw [Nat.two_mul, List.range_add]
    simp [declared, style, Statement.declares, inputs, outputs, terminal, Function.comp_def]
  constructor
  · rw [declared_append, declared_append, hends, hdeclared, hids, hlines, List.append_nil]
  · rw [edges_append, edges_append, hedges, List.append_nil]
    rfl

/-- Some node would have to show an angle that has no text. -/
def ShowsLongAngle (c : Circuit) : Prop :=
  ∃ id n, c.node? id = some n ∧ ∃ a ∈ n.gate.shownAngles, a.DoubleTooLong

theorem drawing_overflowsIff
    (h : ∀ id n, c.node? id = some n → ∀ a ∈ n.gate.shownAngles, a.Computed) :
    OverflowsIff c.drawing c.ShowsLongAngle := by
  have hboxes : OverflowsIff (c.nodes.mapM fun x => c.boxOf x.1 x.2)
      (∃ x ∈ c.nodes, ∃ a ∈ x.2.gate.shownAngles, a.DoubleTooLong) := by
    apply OverflowsIff.mapM
    rintro ⟨id, n⟩ hx
    exact (Gate.label_overflowsIff (h id n (mem_nodes.mp hx))).map _
  refine (hboxes.map _).congr ?_
  simp only [ShowsLongAngle, Prod.exists, mem_nodes]

theorem mem_declared {v : Nat} :
    v ∈ List.range (2 * c.width) ++ c.ids.map c.vertexOf ↔
      v < 2 * c.width ∨ ∃ id n, c.node? id = some n ∧ v = c.vertexOf id := by
  simp only [List.mem_append, List.mem_range, List.mem_map, mem_ids, Option.isSome_iff_exists]
  constructor
  · rintro (hv | ⟨id, ⟨n, hn⟩, rfl⟩)
    · exact .inl hv
    · exact .inr ⟨id, n, hn, rfl⟩
  · rintro (hv | ⟨id, n, hn, rfl⟩)
    · exact .inl hv
    · exact .inr ⟨id, ⟨n, hn⟩, rfl⟩

theorem nodup_declared (c : Circuit) :
    (List.range (2 * c.width) ++ c.ids.map c.vertexOf).Nodup := by
  refine List.nodup_append'.mpr ⟨List.nodup_range, c.ids_nodup.map c.vertexOf_injective, ?_⟩
  intro v hv hid
  obtain ⟨id, _, rfl⟩ := List.mem_map.mp hid
  have hlt := List.mem_range.mp hv
  unfold vertexOf at hlt
  omega

/-- The drawing of a circuit declares the ends of all wires and the nodes once each. It has an edge
at either end of every wire, and one for every link, so that as many edges come into a node and go
out of it as the node has operands. There is no drawing if a node would have to show an angle that
has no text. -/
theorem Reachable.drawing_faithful {width : Nat} (h : c.Reachable width)
    (hangles : ∀ id n, c.node? id = some n → ∀ a ∈ n.gate.shownAngles, a.Computed) :
    c.width = width ∧ (c.drawing = .error .overflow ↔ c.ShowsLongAngle) ∧
    (¬ c.ShowsLongAngle → ∃ statements, c.drawing = .ok statements ∧
      (declared statements).Nodup ∧
      (∀ v, v ∈ declared statements ↔
        v < 2 * c.width ∨ ∃ id n, c.node? id = some n ∧ v = 2 * c.width + id) ∧
      (edges statements).Perm ((List.range c.width).flatMap c.endEdges ++ c.linkEdges) ∧
      ∀ id n, c.node? id = some n →
        ((edges statements).map (·.1)).count (2 * c.width + id) = n.wires.length ∧
        ((edges statements).map (·.2)).count (2 * c.width + id) = n.wires.length) := by
  obtain ⟨L, hlinked⟩ := h.linked
  have hoverflows := drawing_overflowsIff hangles
  refine ⟨h.width_eq, hoverflows.error_iff, ?_⟩
  intro hshort
  obtain ⟨statements, hdrawing⟩ := hoverflows.exists_ok hshort
  obtain ⟨hdeclared, hedges⟩ := drawing_eq_ok hdrawing
  refine ⟨statements, hdrawing, ?_, ?_, ?_, ?_⟩
  · rw [hdeclared]
    exact c.nodup_declared
  · intro v
    rw [hdeclared]
    exact mem_declared
  · rw [hedges]
    exact hlinked.edges_lines
  · intro id n hn
    rw [hedges]
    exact ⟨hlinked.count_tails hn, hlinked.count_heads hn⟩

/-- Two gates that share both their wires are joined by two edges, a removed node leaves none, and
an angle just above half a turn stops the drawing. -/
theorem parallel_links_drawing_faithful :
    let sixth : Angle := ⟨⟨1, 6⟩⟩
    let long : Angle := ⟨⟨4611686018427387904, 9223372036854775807⟩⟩
    let c := [Request.append ⟨.base .x, [0]⟩, .append ⟨.cx, [0, 1]⟩, .append ⟨.cx, [1, 0]⟩,
      .append ⟨.base (.rx sixth), [1]⟩, .remove 0].foldl after (empty 3)
    let d := [Request.append ⟨.base (.rx long), [0]⟩].foldl after (empty 1)
    c.Reachable 3 ∧ d.Reachable 1 ∧ sixth.Computed ∧ long.Computed ∧
      (∃ statements, c.drawing = .ok statements ∧ (declared statements).Nodup ∧
        (edges statements).Perm
          [(0, 7), (8, 3), (1, 7), (9, 4), (2, 5), (7, 8), (7, 8), (8, 9)] ∧
        ((edges statements).map (·.1)).count 8 = 2) ∧
      d.drawing = .error .overflow := by
  intro sixth long c d
  have hc : c.Reachable 3 := ⟨_, rfl⟩
  have hd : d.Reachable 1 := ⟨_, rfl⟩
  have hsixth : sixth.Computed := ⟨.ofTurns 1 6, by decide⟩
  have hlong : long.Computed := ⟨.ofTurns 4611686018427387904 9223372036854775807, by decide⟩
  have hshown : ∀ x ∈ c.nodes, ∀ a ∈ x.2.gate.shownAngles, a = sixth := by decide
  have hshown' : ∀ x ∈ d.nodes, ∀ a ∈ x.2.gate.shownAngles, a = long := by decide
  refine ⟨hc, hd, hsixth, hlong, ?_, ?_⟩
  · have hfaithful := hc.drawing_faithful fun id n hn a ha =>
      hshown (id, n) (mem_nodes.mpr hn) a ha ▸ hsixth
    have hshort : ¬ c.ShowsLongAngle := by
      rintro ⟨id, n, hn, a, ha, hlong⟩
      rw [hshown (id, n) (mem_nodes.mpr hn) a ha] at hlong
      exact absurd hlong.2 (by decide)
    obtain ⟨statements, hdrawing, hnodup, _, hedges, hcount⟩ := hfaithful.2.2 hshort
    refine ⟨statements, hdrawing, hnodup, ?_, ?_⟩
    · have hexpected : (List.range c.width).flatMap c.endEdges ++ c.linkEdges =
          [(0, 7), (8, 3), (1, 7), (9, 4), (2, 5), (7, 8), (7, 8), (8, 9)] := by decide
      rwa [hexpected] at hedges
    · obtain ⟨n, hn, hlen⟩ : ∃ n, c.node? 2 = some n ∧ n.wires.length = 2 := ⟨_, rfl, rfl⟩
      rw [← hlen]
      exact (hcount 2 n hn).1
  · have hfaithful := hd.drawing_faithful fun id n hn a ha =>
      hshown' (id, n) (mem_nodes.mpr hn) a ha ▸ hlong
    exact hfaithful.2.1.mpr ⟨0, _, rfl, long, by decide, by decide, by decide⟩

end Circuit

end BasisFlow
