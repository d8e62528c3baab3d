import BasisFlow.Proofs.Layers
import BasisFlow.Proofs.Requests

namespace BasisFlow

namespace Circuit

/-- The operations of nodes in a given order. -/
def opsAlong (c : Circuit) (L : List NodeId) : List Operation :=
  L.filterMap c.op?

/-- Every node has an operand. -/
def Wired (c : Circuit) : Prop :=
  ∀ id op, c.op? id = some op → op.wires ≠ []

theorem ops_eq_opsAlong (c : Circuit) : c.ops = c.opsAlong c.order :=
  rfl

theorem mem_opsAlong {c : Circuit} {L : List NodeId} {op : Operation} :
    op ∈ c.opsAlong L ↔ ∃ id ∈ L, c.op? id = some op :=
  List.mem_filterMap

theorem opsAlong_append (c : Circuit) (L M : List NodeId) :
    c.opsAlong (L ++ M) = c.opsAlong L ++ c.opsAlong M :=
  List.filterMap_append

theorem opsAlong_eq_of_map {c : Circuit} {L : List NodeId} {ops : List Operation}
    (h : L.map c.op? = ops.map some) : c.opsAlong L = ops := by
  have hmap : c.opsAlong L = (L.map c.op?).filterMap id := by
    rw [opsAlong, List.filterMap_map, Function.id_comp]
  rw [hmap, h, List.filterMap_map, Function.id_comp, List.filterMap_some]

variable {a b c : Circuit} {L M : List NodeId}

theorem Linked.map_op? (h : c.Linked L) : L.map c.op? = (c.opsAlong L).map some := by
  have hsome : ∀ id ∈ L, (c.op? id).isSome := fun id hid => (h.mem_iff_op id).mp hid
  clear h
  induction L with
  | nil => rfl
  | cons id L ih =>
    obtain ⟨op, hop⟩ := Option.isSome_iff_exists.mp (hsome id (by simp))
    rw [opsAlong, List.filterMap_cons_some hop, List.map_cons, List.map_cons, hop]
    exact congrArg (some op :: ·) (ih fun x hx => hsome x (by simp [hx]))

section Every

variable {P : Operation → Prop}

theorem forall_mem_opsAlong (h : ∀ id op, c.op? id = some op → P op) (L : List NodeId) :
    ∀ op ∈ c.opsAlong L, P op := by
  intro op hop
  obtain ⟨id, _, hid⟩ := mem_opsAlong.mp hop
  exact h id op hid

/-- An order of all nodes leaves out no operation. -/
theorem Linked.forall_op_iff (h : c.Linked L) :
    (∀ id op, c.op? id = some op → P op) ↔ ∀ op ∈ c.opsAlong L, P op := by
  constructor
  · exact fun hall => forall_mem_opsAlong hall L
  · intro hops id op hid
    exact hops op (mem_opsAlong.mpr ⟨id, (h.mem_iff_op id).mpr (by simp [hid]), hid⟩)

end Every

theorem Linked.fits_of_mem_opsAlong (h : c.Linked M) : ∀ op ∈ c.opsAlong L, op.Fits c.width :=
  forall_mem_opsAlong (fun _ _ => h.op_fits) L

theorem Linked.size_eq_length (h : c.Linked L) : c.size = (c.opsAlong L).length := by
  have hlen := congrArg List.length h.map_op?
  rw [List.length_map, List.length_map] at hlen
  rw [h.size_eq, hlen]

theorem Linked.laneOps_eq (h : c.Linked L) (w : Wire) :
    c.laneOps w = (c.opsAlong L).filter fun op => w ∈ op.wires := by
  rw [laneOps, h.lane_eq, opsAlong, List.filterMap_filter, List.filter_filterMap]
  congr 1
  funext id
  change (if c.onWire w id then c.op? id else none) = _
  cases hop : c.op? id with
  | none => simp
  | some op => by_cases hw : w ∈ op.wires <;> simp [onWire, hop, hw, Option.filter]

theorem Linked.filter_eq_nil (h : c.Linked L) {w : Wire} (hw : c.width ≤ w) :
    ((c.opsAlong L).filter fun op => w ∈ op.wires) = [] := by
  apply List.filter_eq_nil_iff.mpr
  intro op hop
  simp only [decide_eq_true_eq]
  exact fun hmem => Nat.not_lt.mpr hw ((h.fits_of_mem_opsAlong op hop).lt_width w hmem)

/-- Circuits agree if their operations, in any order that the links follow, show the same on every
wire. -/
theorem Linked.agrees_iff (ha : a.Linked L) (hb : b.Linked M) (hwidth : a.width = b.width) :
    a.agrees b ↔ ∀ w, ((a.opsAlong L).filter fun op => w ∈ op.wires) =
      (b.opsAlong M).filter fun op => w ∈ op.wires := by
  simp only [agrees, hwidth, beq_self_eq_true, Bool.true_and, List.all_eq_true, List.mem_range,
    beq_iff_eq, ha.laneOps_eq, hb.laneOps_eq]
  constructor
  · intro h w
    by_cases hw : w < b.width
    · exact h w hw
    · have hle : b.width ≤ w := Nat.le_of_not_lt hw
      rw [ha.filter_eq_nil (hwidth ▸ hle), hb.filter_eq_nil hle]
  · exact fun h w _ => h w

theorem agrees_width (h : a.agrees b) : a.width = b.width := by
  simp only [agrees, Bool.and_eq_true, beq_iff_eq] at h
  exact h.1

theorem Linked.perm (hL : c.Linked L) (hM : c.Linked M) : L.Perm M := by
  rw [List.perm_ext_iff_of_nodup hL.nodup hM.nodup]
  intro x
  rw [hL.mem_iff, hM.mem_iff]

/-- The orders of one circuit come out of each other by exchanges, nodes without a wire included. -/
theorem Linked.rearranged (hL : c.Linked L) (hM : c.Linked M) :
    Rearranged Operation.wires (c.opsAlong L) (c.opsAlong M) := by
  apply rearranged_of_filter_eq
  · intro w
    rw [← hL.laneOps_eq, hM.laneOps_eq]
  · exact ((hL.perm hM).filterMap c.op?).filter _

theorem Linked.wired_iff (h : c.Linked L) :
    c.Wired ↔ ∀ op ∈ c.opsAlong L, op.wires ≠ [] :=
  h.forall_op_iff

theorem Reachable.wired {width : Nat} (h : c.Reachable width)
    (hops : ∀ op ∈ c.ops, op.wires ≠ []) : c.Wired :=
  (h.linked_of h.order_isTopological).wired_iff.mpr hops

theorem Wired.filter_eq_self (h : c.Wired) (L : List NodeId) :
    ((c.opsAlong L).filter fun op => op.wires ≠ []) = c.opsAlong L := by
  apply List.filter_eq_self.mpr
  intro op hop
  simpa using forall_mem_opsAlong h L op hop

theorem filter_wired (l : List Operation) (w : Wire) :
    ((l.filter fun op => op.wires ≠ []).filter fun op => w ∈ op.wires) =
      l.filter fun op => w ∈ op.wires := by
  rw [List.filter_filter]
  apply List.filter_congr
  intro op _
  by_cases hw : w ∈ op.wires
  · simp [hw, List.ne_nil_of_mem hw]
  · simp [hw]

/-- Equality of circuits is equality of their operations up to exchanges. -/
theorem Linked.agrees_iff_rearranged (ha : a.Linked L) (hb : b.Linked M)
    (hwidth : a.width = b.width) :
    a.agrees b ↔ Rearranged Operation.wires ((a.opsAlong L).filter fun op => op.wires ≠ [])
      ((b.opsAlong M).filter fun op => op.wires ≠ []) := by
  rw [ha.agrees_iff hb hwidth]
  constructor
  · intro h
    apply rearranged_of_filter_eq
    · intro w
      rw [filter_wired, filter_wired, h w]
    · simp
  · intro h w
    have hw := h.filter_eq w
    rwa [filter_wired, filter_wired] at hw

section Counts

theorem nodes_eq_opsAlong (c : Circuit) : c.nodes.map (fun x => x.2.op) = c.opsAlong c.ids := by
  rw [nodes, List.map_filterMap, opsAlong]
  congr 1
  funext id
  rw [Option.map_map]
  rfl

theorem Linked.nodes_perm (h : c.Linked L) :
    (c.nodes.map fun x => x.2.op).Perm (c.opsAlong L) := by
  have hids : c.ids.Perm L := by
    rw [List.perm_ext_iff_of_nodup c.ids_nodup h.nodup]
    intro x
    rw [mem_ids, h.mem_iff]
  rw [nodes_eq_opsAlong]
  exact hids.filterMap c.op?

theorem lookup_map_self {f : String → Nat} {names : List String} (name : String) :
    (names.map fun n => (n, f n)).lookup name = if name ∈ names then some (f name) else none := by
  induction names with
  | nil => rfl
  | cons n names ih =>
    rw [List.map_cons, List.lookup_cons, ih]
    by_cases hn : name = n
    · simp [hn]
    · simp [hn, beq_false_of_ne hn]

/-- The counts are those of the names of the operations. -/
theorem Linked.counts_eq (h : c.Linked L) (name : String) :
    c.counts.lookup name = if name ∈ (c.opsAlong L).map (·.gate.name) then
      some ((c.opsAlong L).countP (·.gate.name = name)) else none := by
  have hnames : (c.nodes.map fun x => x.2.gate.name) =
      (c.nodes.map fun x => x.2.op).map (·.gate.name) := by
    rw [List.map_map]
    rfl
  have hcount : c.countNamed name =
      (c.nodes.map fun x => x.2.op).countP (·.gate.name = name) := by
    rw [List.countP_map]
    rfl
  have hmem := (h.nodes_perm.map (·.gate.name)).mem_iff (a := name)
  rw [counts, lookup_map_self, hcount, h.nodes_perm.countP_eq]
  simp only [List.mem_eraseDups]
  rw [hnames, if_congr hmem rfl rfl]

end Counts

/-- Two circuits are equal exactly if the operations of one, taken in any topological order, become
those of the other by exchanges of neighbours that share no wire; operations without a wire apart.
If there are none of these, equal circuits have as many nodes, as many gates of every name and the
same depth. -/
theorem Reachable.agrees_iff_exchanged {width : Nat} (ha : a.Reachable width)
    (hb : b.Reachable width) :
    (∀ L M, a.IsTopological L → b.IsTopological M →
      (a.agrees b ↔
        Rearranged Operation.wires ((a.opsAlong L).filter fun op => op.wires ≠ [])
          ((b.opsAlong M).filter fun op => op.wires ≠ []))) ∧
    (a.Wired → b.Wired → a.agrees b →
      a.size = b.size ∧ (∀ name, a.counts.lookup name = b.counts.lookup name) ∧
        a.depth = b.depth) := by
  have hwidth : a.width = b.width := ha.width_eq.trans hb.width_eq.symm
  constructor
  · intro L M hL hM
    exact (ha.linked_of hL).agrees_iff_rearranged (hb.linked_of hM) hwidth
  · intro hwa hwb hab
    have hL := ha.linked_of ha.order_isTopological
    have hM := hb.linked_of hb.order_isTopological
    have hops := (hL.agrees_iff_rearranged hM hwidth).mp hab
    rw [hwa.filter_eq_self, hwb.filter_eq_self] at hops
    refine ⟨?_, ?_, ?_⟩
    · rw [hL.size_eq_length, hM.size_eq_length, hops.perm.length_eq]
    · intro name
      rw [hL.counts_eq, hM.counts_eq, hops.perm.countP_eq]
      exact if_congr (hops.perm.map _).mem_iff rfl rfl
    · rw [hL.depth_eq, hM.depth_eq, ops_eq_opsAlong, ops_eq_opsAlong, hops.highest_eq]

theorem interleaved_agrees_iff_exchanged :
    let a := [Request.append ⟨.base .x, [0]⟩, .append ⟨.cx, [0, 1]⟩, .append ⟨.base .h, [2]⟩,
      .append ⟨.base (.blackBox "idle" 0), []⟩].foldl after (empty 3)
    let b := [Request.append ⟨.base .h, [2]⟩, .append ⟨.base .z, [0]⟩, .append ⟨.base .x, [0]⟩,
      .remove 1, .append ⟨.cx, [0, 1]⟩].foldl after (empty 3)
    a.Reachable 3 ∧ b.Reachable 3 ∧ a.IsTopological [0, 1, 2, 3] ∧ b.IsTopological [0, 2, 3] ∧
      a.agrees b ∧
      Rearranged Operation.wires [⟨.base .x, [0]⟩, ⟨.cx, [0, 1]⟩, ⟨.base .h, [2]⟩]
        [⟨.base .h, [2]⟩, ⟨.base .x, [0]⟩, ⟨.cx, [0, 1]⟩] ∧
      b.Wired ∧ (∃ c, a.remove 3 = .ok c ∧ c.2.Wired ∧ c.2.agrees b ∧ c.2.depth = b.depth) := by
  intro a b
  have ha : a.Reachable 3 := ⟨_, rfl⟩
  have hb : b.Reachable 3 := ⟨_, rfl⟩
  have hL : a.IsTopological [0, 1, 2, 3] := by
    have ho : a.order = [0, 1, 2, 3] := by decide
    exact ho ▸ ha.order_isTopological
  have hM : b.IsTopological [0, 2, 3] := by
    have ho : b.order = [0, 2, 3] := by decide
    exact ho ▸ hb.order_isTopological
  have hab : a.agrees b := by decide
  have hexchanged := ((ha.agrees_iff_exchanged hb).1 _ _ hL hM).mp hab
  let c := a.after (.remove 3)
  have hc : c.Reachable 3 := ⟨[.append ⟨.base .x, [0]⟩, .append ⟨.cx, [0, 1]⟩,
    .append ⟨.base .h, [2]⟩, .append ⟨.base (.blackBox "idle" 0), []⟩, .remove 3], rfl⟩
  have hcw : c.Wired := hc.wired (by decide)
  have hbw : b.Wired := hb.wired (by decide)
  have hcb : c.agrees b := by decide
  exact ⟨ha, hb, hL, hM, hab, hexchanged, hbw,
    ⟨_, c⟩, rfl, hcw, hcb, ((hc.agrees_iff_exchanged hb).2 hcw hbw hcb).2.2⟩

end Circuit

end BasisFlow
