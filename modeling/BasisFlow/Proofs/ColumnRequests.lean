import BasisFlow.Proofs.Columns
import BasisFlow.Proofs.Neighbours

namespace BasisFlow

namespace Circuit

theorem foldlM_eq_some {f : Circuit → Leg → Option Circuit} {g : Circuit → Leg → Circuit}
    (hf : ∀ {c d : Circuit} {p : Leg}, f c p = some d → g c p = d) {legs : List Leg}
    {c d : Circuit} (h : legs.foldlM f c = some d) : legs.foldl g c = d := by
  induction legs generalizing c with
  | nil => exact Option.some.inj h
  | cons p legs ih =>
    rw [List.foldlM_cons] at h
    obtain ⟨e, he, h⟩ := Option.bind_eq_some_iff.mp h
    rw [List.foldl_cons, hf he, ih h]

theorem insert?_eq_some {c d : Circuit} {n : Node} (h : c.insert? n = some d) :
    c.insert n = d := by
  obtain ⟨e, he, h⟩ := Option.bind_eq_some_iff.mp h
  cases h
  rw [insert, foldlM_eq_some hook?_eq_some he]

theorem Distinct.insert {c : Circuit} (hc : c.Distinct) {n : Node} (hn : n.wires.Nodup) :
    (c.insert n).Distinct := by
  intro id op hop
  rw [op?_insert] at hop
  split at hop
  next =>
    cases hop
    exact hn
  next => exact hc id op hop

theorem Distinct.vacate {c : Circuit} (hc : c.Distinct) (id : NodeId) : (c.vacate id).Distinct := by
  intro x op hop
  rw [op?_vacate] at hop
  split at hop
  next => cases hop
  next => exact hc x op hop

section Operands

variable {f : Wire → Option Leg} {ws : List Wire}

theorem mapM_view {α : Type} (f : Wire → Option Leg) (view : Leg → α) (ws : List Wire) :
    (ws.mapM fun w => (f w).map view) = (ws.mapM f).map (List.map view) := by
  induction ws with
  | nil => rfl
  | cons w ws ih =>
    rw [List.mapM_cons, List.mapM_cons, ih]
    cases f w with
    | none => rfl
    | some p => cases ws.mapM f <;> rfl

theorem isSome_of_mapM {legs : List Leg} (h : ws.mapM f = some legs) :
    ∀ w ∈ ws, (f w).isSome := by
  induction ws generalizing legs with
  | nil => simp
  | cons w ws ih =>
    rw [List.mapM_cons] at h
    obtain ⟨p, hp, h⟩ := Option.bind_eq_some_iff.mp h
    obtain ⟨rest, hrest, _⟩ := Option.bind_eq_some_iff.mp h
    exact List.forall_mem_cons.mpr ⟨by rw [hp]; rfl, ih hrest⟩

end Operands

theorem append?_columns {c : Circuit} (hc : c.Distinct) (op : Operation) :
    c.columns.append? op = (c.append? op).map (·.map (Prod.map id columns)) := by
  have hsize : c.columns.slots.size = c.slots.size := Array.size_map
  have hwidth : c.columns.width = c.width := rfl
  rw [ColumnCircuit.append?, append?, hsize, hwidth]
  cases hcheck : op.check c.width with
  | error e => rfl
  | ok u =>
    have hfits := Operation.fits_of_check hcheck
    let n : Node := ⟨op.gate, op.wires.map fun w => ⟨w, c.last? w, none⟩⟩
    have hlasts : (op.wires.mapM fun w => c.columns.lasts[w]?) = some n.prevs := by
      rw [Node.prevs, List.map_map]
      apply mapM_eq_some
      intro w hw
      obtain ⟨r, hr⟩ := rail_of_lt_width (hfits.lt_width w hw)
      simp [columns, last?, hr]
    have hcolumns : ColumnNode.mk op.gate op.wires n.prevs
        (List.replicate op.wires.length none) = n.columns := by
      simp [Node.columns, Node.wires, Node.prevs, Node.nexts, n, Function.comp_def]
    simp only [hlasts, mapM_last hfits, Option.bind_eq_bind, Option.bind_some, hcolumns,
      insert?_columns hc]
    cases c.insert? n <;> rfl

theorem remove?_columns {c : Circuit} (hc : c.Distinct) (id : NodeId) :
    c.columns.remove? id = (c.remove? id).map (·.map (Prod.map Node.columns columns)) := by
  rw [ColumnCircuit.remove?, remove?, node?_columns]
  cases hn : c.node? id with
  | none => rfl
  | some n =>
    have hvacated : (c.vacate id).columns = { c.columns with
        slots := c.columns.slots.setIfInBounds id none, size := c.columns.size - 1 } := by
      simp only [columns, Circuit.vacate, Array.map_setIfInBounds]
      rfl
    have hfold := foldlM_columns unhook?_columns
      (fun h => by rw [← unhook?_eq_some h, frame_unhook]) n (hc.vacate id)
    rw [hvacated] at hfold
    have hsize : c.columns.size = c.size := rfl
    simp only [Option.map_some, hsize] at hfold ⊢
    split
    next => rfl
    next =>
      rw [hfold]
      cases n.legs.foldlM unhook? (c.vacate id) <;> rfl

/-- Two tables give the ends of the gap on every wire. -/
def Ends (gap : List Leg) (tails heads : List (Wire × Option NodeId)) : Prop :=
  ∀ w, tails.lookup w = (gap.find? (·.wire = w)).map (·.prev) ∧
    heads.lookup w = (gap.find? (·.wire = w)).map (·.next)

theorem lookup_legs {α : Type} (view : Leg → α) (legs : List Leg) (w : Wire) :
    (legs.map fun p => (p.wire, view p)).lookup w = (legs.find? (·.wire = w)).map view := by
  induction legs with
  | nil => rfl
  | cons p legs ih =>
    rw [List.map_cons, List.lookup_cons, List.find?_cons, ih]
    by_cases h : p.wire = w
    · simp [h]
    · have hne : (w == p.wire) = false := beq_false_of_ne (Ne.symm h)
      simp [h, hne]

theorem ends_columns (n : Node) :
    Ends n.legs (n.columns.wires.zip n.columns.prevs) (n.columns.wires.zip n.columns.nexts) := by
  intro w
  simp only [Node.columns, Node.wires, Node.prevs, Node.nexts, List.zip_map']
  exact ⟨lookup_legs (·.prev) n.legs w, lookup_legs (·.next) n.legs w⟩

theorem find?_narrow (gap : List Leg) (ws : List Wire) (id : NodeId) (w : Wire) :
    (narrow gap ws id).find? (·.wire = w) = (gap.find? (·.wire = w)).map fun p =>
      if p.wire ∈ ws then { p with prev := some id } else p := by
  rw [narrow, List.find?_map]
  congr 2
  funext p
  simp only [Function.comp_apply]
  split <;> rfl

theorem Ends.narrow {gap : List Leg} {tails heads : List (Wire × Option NodeId)}
    (h : Ends gap tails heads) {ws : List Wire}
    (hws : ∀ w ∈ ws, (gap.find? (·.wire = w)).isSome) (id : NodeId) :
    Ends (narrow gap ws id) (ws.map (·, some id) ++ tails) heads := by
  intro w
  obtain ⟨htail, hhead⟩ := h w
  rw [find?_narrow, List.lookup_append, htail, hhead]
  by_cases hw : w ∈ ws
  · have hnew : (ws.map (·, some id)).lookup w = some (some id) := List.lookup_graph _ hw
    obtain ⟨p, hp⟩ := Option.isSome_iff_exists.mp (hws w hw)
    have hwire : p.wire = w := by simpa using List.find?_some hp
    simp [hnew, hp, hwire, hw]
  · have hnew : (ws.map (·, some id)).lookup w = none := by
      rw [List.lookup_eq_none_iff]
      intro x hx
      obtain ⟨v, hv, rfl⟩ := List.mem_map.mp hx
      exact bne_iff_ne.mpr fun he => hw (he ▸ hv)
    cases hp : gap.find? (·.wire = w) with
    | none => simp [hnew]
    | some p =>
      have hwire : p.wire = w := by simpa using List.find?_some hp
      simp [hnew, hwire, hw]

theorem fill?_columns {c : Circuit} (hc : c.Distinct) {gap : List Leg}
    {tails heads : List (Wire × Option NodeId)} (hends : Ends gap tails heads)
    {ops : List Operation} (hops : ∀ op ∈ ops, op.wires.Nodup) :
    c.columns.fill? tails heads ops = (c.fill? gap ops).map (Prod.map id columns) := by
  -- the gap narrows from its near side, so only the table of the tails changes on the way
  induction ops generalizing c gap tails with
  | nil => rfl
  | cons op ops ih =>
    have hprevs : (op.wires.mapM fun w => tails.lookup w) =
        (op.wires.mapM fun w => gap.find? (·.wire = w)).map (List.map (·.prev)) := by
      rw [← mapM_view]
      exact congrArg (op.wires.mapM ·) (funext fun w => (hends w).1)
    have hnexts : (op.wires.mapM fun w => heads.lookup w) =
        (op.wires.mapM fun w => gap.find? (·.wire = w)).map (List.map (·.next)) := by
      rw [← mapM_view]
      exact congrArg (op.wires.mapM ·) (funext fun w => (hends w).2)
    have hsize : c.columns.slots.size = c.slots.size := Array.size_map
    rw [ColumnCircuit.fill?, fill?, hprevs, hnexts, hsize]
    cases hlegs : op.wires.mapM fun w => gap.find? (·.wire = w) with
    | none => rfl
    | some legs =>
      have hin := isSome_of_mapM hlegs
      have hwires : legs.map (·.wire) = op.wires := by
        rw [mapM_eq_filterMap hin] at hlegs
        cases hlegs
        apply wires_legsIn
        intro w hw
        obtain ⟨p, hp, hwire⟩ := List.find?_isSome.mp (hin w hw)
        exact List.mem_map.mpr ⟨p, hp, by simpa using hwire⟩
      have hcolumns : ColumnNode.mk op.gate op.wires (legs.map (·.prev)) (legs.map (·.next)) =
          (Node.mk op.gate legs).columns := by
        rw [← hwires]
        rfl
      simp only [Option.map_some, Option.bind_eq_bind, Option.bind_some, hcolumns,
        insert?_columns hc]
      cases hins : c.insert? ⟨op.gate, legs⟩ with
      | none => rfl
      | some d =>
        have hd : d.Distinct := by
          rw [← insert?_eq_some hins]
          apply hc.insert
          rw [Node.wires, hwires]
          exact hops op (by simp)
        have hrest := ih hd (hends.narrow hin c.slots.size) fun o ho => hops o (by simp [ho])
        simp only [Option.map_some, Option.bind_some, hrest]
        cases d.fill? (narrow gap op.wires c.slots.size) ops <;> rfl

namespace Linked

variable {c : Circuit} {L : List NodeId} (h : c.Linked L)

include h

theorem append?_columns (op : Operation) :
    c.columns.append? op = some ((c.append op).map (Prod.map id columns)) := by
  rw [Circuit.append?_columns h.distinct, h.append?_eq]
  rfl

theorem remove?_columns (id : NodeId) :
    c.columns.remove? id = some ((c.remove id).map (Prod.map Node.columns columns)) := by
  rw [Circuit.remove?_columns h.distinct, h.remove?_eq]
  rfl

theorem substitute?_columns (id : NodeId) {f : Fragment} (hf : f.Fits) (ws : List Wire) :
    c.columns.substitute? id f ws =
      some ((c.substitute id f ws).map (Prod.map (fun ids => ids) columns)) := by
  unfold ColumnCircuit.substitute? Circuit.substitute
  rw [node?_columns]
  cases hn : c.node? id with
  | none => rfl
  | some n =>
    have hwires : n.columns.wires = n.wires := rfl
    simp only [Option.map_some, hwires]
    by_cases hwidth : f.width = ws.length
    · cases hin : ws.find? (· ∉ n.wires) with
      | some w => simp only [hwidth, ne_eq, not_true, if_false, Except.map]
      | none =>
        cases hrep : firstRepeated [] ws with
        | some w => simp only [hwidth, ne_eq, not_true, if_false, Except.map]
        | none =>
          have hsub : ∀ w ∈ ws, w ∈ n.wires := fun w hw => by
            simpa using List.find?_eq_none.mp hin w hw
          obtain ⟨A, B, rfl⟩ := List.append_of_mem ((h.mem_iff id).mpr (by simp [hn]))
          obtain ⟨d, hr⟩ : ∃ d, c.remove id = .ok (n, d) := by simp [Circuit.remove, hn]
          obtain ⟨_, hgap, hfit⟩ := h.opened hr hf hwidth hsub (firstRepeated_eq_none hrep).1
          have hd := h.remove hr
          have hremove := h.remove?_columns id
          have hfill := fill?_columns hd.distinct (ends_columns n)
            fun op hop => (hfit op hop).1.nodup
          rw [hd.fill?_eq hgap hfit] at hfill
          rw [hr] at hremove
          simp only [hwidth, ne_eq, not_true, if_false, mapM_onto fun op hop => hwidth ▸ hf op hop,
            hremove, hr]
          simp [Except.map, bind, Except.bind, hfill]
          rfl
    · simp only [ne_eq, hwidth, not_false_eq_true, if_true, Except.map]

theorem after?_columns (r : Request) : c.columns.after? r = some (c.after r).columns := by
  cases r with
  | append op =>
    simp only [ColumnCircuit.after?, h.append?_columns, Circuit.after]
    cases c.append op <;> rfl
  | remove id =>
    simp only [ColumnCircuit.after?, h.remove?_columns, Circuit.after]
    cases c.remove id <;> rfl
  | substitute id f built ws =>
    simp only [ColumnCircuit.after?, h.substitute?_columns id built.fits, Circuit.after]
    cases c.substitute id f ws <;> rfl

theorem foldlM_after?_columns (requests : List Request) :
    requests.foldlM ColumnCircuit.after? c.columns =
      some (requests.foldl Circuit.after c).columns := by
  induction requests generalizing c L with
  | nil => rfl
  | cons r requests ih =>
    obtain ⟨⟨M, hM⟩, _⟩ := h.after r
    rw [List.foldlM_cons, h.after?_columns]
    exact ih hM

end Linked

theorem columns_empty (width : Nat) : (empty width).columns = ColumnCircuit.empty width := by
  simp [columns, empty, Circuit.width, ColumnCircuit.empty]

end Circuit

/-- Whatever is asked of a circuit that is kept in columns, no column ever lacks an entry that is to
be read or written. The columns of a node are as long as its gate has operands, and have the
neighbours on a wire at the position of the wire. -/
theorem ColumnCircuit.foldlM_after? (width : Nat) (requests : List Request) :
    let c := requests.foldl Circuit.after (.empty width)
    requests.foldlM after? (empty width) = some c.columns ∧
      ∀ id n, c.columns.node? id = some n → n.wires.length = n.gate.arity ∧
        n.prevs.length = n.gate.arity ∧ n.nexts.length = n.gate.arity ∧
        ∀ (k : Nat) (w : Wire), n.wires[k]? = some w →
          n.prevs[k]? = some (c.prev? id w) ∧ n.nexts[k]? = some (c.next? id w) := by
  intro c
  obtain ⟨⟨L, hL⟩, _⟩ := (Circuit.empty_linked width).foldl_after requests
  refine ⟨?_, ?_⟩
  · rw [← Circuit.columns_empty]
    exact (Circuit.empty_linked width).foldlM_after?_columns requests
  · intro id m hm
    rw [Circuit.node?_columns] at hm
    obtain ⟨n, hn, rfl⟩ := Option.map_eq_some_iff.mp hm
    have hfits := hL.fits id n hn
    have hlength : n.legs.length = n.gate.arity := by
      simpa [Node.op, Node.wires] using hfits.arity_eq
    refine ⟨by simpa [Node.columns, Node.wires] using hlength,
      by simpa [Node.columns, Node.prevs] using hlength,
      by simpa [Node.columns, Node.nexts] using hlength, ?_⟩
    intro k w hk
    obtain ⟨p, hp, rfl⟩ : ∃ p, n.legs[k]? = some p ∧ p.wire = w := by
      simpa [Node.columns, Node.wires] using hk
    have hleg : n.leg? p.wire = some p := Node.leg?_of_mem hfits.nodup (List.mem_of_getElem? hp)
    simp [Node.columns, Node.prevs, Node.nexts, Circuit.prev?, Circuit.next?, hp, hn, hleg, c]

end BasisFlow
