import BasisFlow.Proofs.Bookkeeping

namespace BasisFlow

/-- A node with one list for its wires, one for the nodes before it and one for the nodes after it.
Nothing makes these lists equally long. -/
structure ColumnNode where
  gate : Gate
  wires : List Wire
  prevs : List (Option NodeId)
  nexts : List (Option NodeId)
  deriving DecidableEq

/-- A circuit of such nodes, with an array for the first nodes of all wires and one for the last. -/
structure ColumnCircuit where
  width : Nat
  slots : Array (Option ColumnNode)
  firsts : Array (Option NodeId)
  lasts : Array (Option NodeId)
  size : Nat
  deriving DecidableEq

namespace ColumnNode

/-- The list with the entry at the position of a wire replaced. Nothing comes of it if there is no
such wire, or no entry at its position. -/
def replace? (n : ColumnNode) (w : Wire) (l : List (Option NodeId)) (target : Option NodeId) :
    Option (List (Option NodeId)) := do
  let k ← n.wires.idxOf? w
  if k < l.length then some (l.set k target) else none

def setNext? (n : ColumnNode) (w : Wire) (target : Option NodeId) : Option ColumnNode := do
  let nexts ← n.replace? w n.nexts target
  return { n with nexts := nexts }

def setPrev? (n : ColumnNode) (w : Wire) (target : Option NodeId) : Option ColumnNode := do
  let prevs ← n.replace? w n.prevs target
  return { n with prevs := prevs }

/-- The entries of all three lists side by side, as far as the shortest goes. -/
def rows (n : ColumnNode) : List (Wire × Option NodeId × Option NodeId) :=
  n.wires.zip (n.prevs.zip n.nexts)

end ColumnNode

namespace ColumnCircuit

def empty (width : Nat) : ColumnCircuit :=
  ⟨width, #[], Array.replicate width none, Array.replicate width none, 0⟩

def node? (c : ColumnCircuit) (id : NodeId) : Option ColumnNode :=
  c.slots[id]?.join

def linkNext? (c : ColumnCircuit) (id : Option NodeId) (w : Wire) (target : Option NodeId) :
    Option ColumnCircuit :=
  match id with
  | some a => do
    let n ← c.node? a
    let m ← n.setNext? w target
    return { c with slots := c.slots.setIfInBounds a (some m) }
  | none =>
    if w < c.firsts.size then some { c with firsts := c.firsts.setIfInBounds w target } else none

def linkPrev? (c : ColumnCircuit) (id : Option NodeId) (w : Wire) (target : Option NodeId) :
    Option ColumnCircuit :=
  match id with
  | some a => do
    let n ← c.node? a
    let m ← n.setPrev? w target
    return { c with slots := c.slots.setIfInBounds a (some m) }
  | none =>
    if w < c.lasts.size then some { c with lasts := c.lasts.setIfInBounds w target } else none

def hook? (id : NodeId) (c : ColumnCircuit) (row : Wire × Option NodeId × Option NodeId) :
    Option ColumnCircuit := do
  let d ← c.linkNext? row.2.1 row.1 (some id)
  d.linkPrev? row.2.2 row.1 (some id)

def unhook? (c : ColumnCircuit) (row : Wire × Option NodeId × Option NodeId) :
    Option ColumnCircuit := do
  let d ← c.linkNext? row.2.1 row.1 row.2.2
  d.linkPrev? row.2.2 row.1 row.2.1

def insert? (c : ColumnCircuit) (n : ColumnNode) : Option ColumnCircuit := do
  let hooked ← n.rows.foldlM (hook? c.slots.size) c
  return { hooked with slots := hooked.slots.push (some n), size := hooked.size + 1 }

/-- Adds an operation. Like all changes to a circuit of this kind, this comes to nothing at all
where a list or an array has no entry to read or to write. -/
def append? (c : ColumnCircuit) (op : Operation) :
    Option (Except CircuitError (NodeId × ColumnCircuit)) :=
  match op.check c.width with
  | .error e => some (.error e)
  | .ok () => do
    let prevs ← op.wires.mapM fun w => c.lasts[w]?
    let d ← c.insert? ⟨op.gate, op.wires, prevs, List.replicate op.wires.length none⟩
    return .ok (c.slots.size, d)

def remove? (c : ColumnCircuit) (id : NodeId) :
    Option (Except CircuitError (ColumnNode × ColumnCircuit)) :=
  match c.node? id with
  | none => some (.error (.missingNode id))
  | some n =>
    if c.size = 0 then none
    else do
      let vacated := { c with slots := c.slots.setIfInBounds id none, size := c.size - 1 }
      let d ← n.rows.foldlM unhook? vacated
      return .ok (n, d)

/-- Puts operations one after the other between the nodes `tails` and `heads` of their wires. -/
def fill? (c : ColumnCircuit) (tails heads : List (Wire × Option NodeId)) :
    List Operation → Option (List NodeId × ColumnCircuit)
  | [] => some ([], c)
  | op :: ops => do
    let prevs ← op.wires.mapM fun w => tails.lookup w
    let nexts ← op.wires.mapM fun w => heads.lookup w
    let d ← c.insert? ⟨op.gate, op.wires, prevs, nexts⟩
    let (ids, filled) ← d.fill? (op.wires.map (·, some c.slots.size) ++ tails) heads ops
    return (c.slots.size :: ids, filled)

def substitute? (c : ColumnCircuit) (id : NodeId) (f : Fragment) (wires : List Wire) :
    Option (Except CircuitError (List NodeId × ColumnCircuit)) :=
  match c.node? id with
  | none => some (.error (.missingNode id))
  | some n =>
    if f.width ≠ wires.length then some (.error (.substitutionWidth f.width wires.length))
    else match wires.find? (· ∉ n.wires) with
      | some w => some (.error (.substitutionWire w id))
      | none =>
        match firstRepeated [] wires with
        | some w => some (.error (.duplicateOperand w))
        | none => do
          let ops ← f.ops.mapM fun op => do
            let ws ← op.wires.mapM fun k => wires[k]?
            return Operation.mk op.gate ws
          match ← c.remove? id with
          | .error e => return .error e
          | .ok (n, opened) =>
            let filled ← opened.fill? (n.wires.zip n.prevs) (n.wires.zip n.nexts) ops
            return .ok filled

/-- The circuit after a request, which changes nothing if it is refused. -/
def after? (c : ColumnCircuit) : Request → Option ColumnCircuit
  | .append op => do
    match ← c.append? op with
    | .ok (_, d) => return d
    | .error _ => return c
  | .remove id => do
    match ← c.remove? id with
    | .ok (_, d) => return d
    | .error _ => return c
  | .substitute id f _ wires => do
    match ← c.substitute? id f wires with
    | .ok (_, d) => return d
    | .error _ => return c

end ColumnCircuit

/-- The columns of the legs of a node. -/
def Node.columns (n : Node) : ColumnNode :=
  ⟨n.gate, n.wires, n.prevs, n.nexts⟩

/-- The circuit with its nodes and its rails taken apart. -/
def Circuit.columns (c : Circuit) : ColumnCircuit :=
  ⟨c.width, c.slots.map (·.map Node.columns), c.rails.map (·.first), c.rails.map (·.last), c.size⟩

namespace Node

theorem rows_columns (n : Node) :
    n.columns.rows = n.legs.map fun p => (p.wire, p.prev, p.next) := by
  simp only [ColumnNode.rows, columns, wires, prevs, nexts, List.zip_map']

/-- On wires without repetition, a change to the leg on a wire is a change to the column at the
position of the wire. -/
theorem map_relink_eq_set {α : Type} {g : Leg → Leg} {view : Leg → α} {a : α}
    (hg : ∀ p, view (g p) = a) {legs : List Leg} {w : Wire} {k : Nat}
    (hn : (legs.map (·.wire)).Nodup) (hk : (legs.map (·.wire)).idxOf? w = some k) :
    (legs.map fun p => if p.wire = w then g p else p).map view = (legs.map view).set k a := by
  induction legs generalizing k with
  | nil => cases hk
  | cons p legs ih =>
    obtain ⟨hp, hn⟩ := List.nodup_cons.mp hn
    rw [List.map_cons, List.idxOf?_cons] at hk
    split at hk
    next hw =>
      obtain rfl := eq_of_beq hw
      cases hk
      have hrest : legs.map (fun q => if q.wire = p.wire then g q else q) = legs := by
        refine (List.map_congr_left ?_).trans (List.map_id legs)
        intro q hq
        have hne : q.wire ≠ p.wire := fun he => hp (List.mem_map.mpr ⟨q, hq, he⟩)
        exact if_neg hne
      simp only [List.map_cons, if_true, hrest, hg, List.set_cons_zero]
    next hw =>
      obtain ⟨j, hj, rfl⟩ := Option.map_eq_some_iff.mp hk
      have hne : p.wire ≠ w := by simpa using hw
      simp only [List.map_cons, if_neg hne, List.set_cons_succ, ih hn hj]

theorem replace?_columns {n : Node} (hn : n.wires.Nodup) (w : Wire) {g : Leg → Leg}
    {view : Leg → Option NodeId} {target : Option NodeId} (hg : ∀ p, view (g p) = target) :
    n.columns.replace? w (n.legs.map view) target = (n.leg? w).map fun _ =>
      (n.legs.map fun p => if p.wire = w then g p else p).map view := by
  have hwires : n.columns.wires = n.wires := rfl
  rw [ColumnNode.replace?, hwires]
  cases hk : n.wires.idxOf? w with
  | none =>
    rw [leg?_eq_none_iff.mpr (List.idxOf?_eq_none_iff.mp hk)]
    rfl
  | some k =>
    have hmem : w ∈ n.wires := List.isSome_idxOf?.mp (by rw [hk]; rfl)
    obtain ⟨p, hp⟩ := Option.isSome_iff_exists.mp (leg?_isSome_iff.mpr hmem)
    obtain ⟨hlt, _⟩ := List.idxOf?_eq_some_iff.mp hk
    have hentry : k < (n.legs.map view).length := by simpa [wires] using hlt
    rw [hp, map_relink_eq_set hg hn hk, Option.bind_eq_bind, Option.bind_some, if_pos hentry]
    rfl

theorem setNext?_columns {n : Node} (hn : n.wires.Nodup) (w : Wire) (target : Option NodeId) :
    n.columns.setNext? w target = (n.leg? w).map fun _ => (n.setNext w target).columns := by
  have hwires : (n.setNext w target).wires = n.wires := map_relink (fun p => by rfl) n
  have hprevs : (n.setNext w target).prevs = n.prevs := map_relink (fun p => by rfl) n
  have hset : n.columns.replace? w n.nexts target =
      (n.leg? w).map fun _ => (n.setNext w target).nexts :=
    replace?_columns hn w fun p => by rfl
  have hnexts : n.columns.nexts = n.nexts := rfl
  rw [ColumnNode.setNext?, hnexts, hset, columns, columns, hwires, hprevs]
  cases n.leg? w <;> rfl

theorem setPrev?_columns {n : Node} (hn : n.wires.Nodup) (w : Wire) (target : Option NodeId) :
    n.columns.setPrev? w target = (n.leg? w).map fun _ => (n.setPrev w target).columns := by
  have hwires : (n.setPrev w target).wires = n.wires := map_relink (fun p => by rfl) n
  have hnexts : (n.setPrev w target).nexts = n.nexts := map_relink (fun p => by rfl) n
  have hset : n.columns.replace? w n.prevs target =
      (n.leg? w).map fun _ => (n.setPrev w target).prevs :=
    replace?_columns hn w fun p => by rfl
  have hprevs : n.columns.prevs = n.prevs := rfl
  rw [ColumnNode.setPrev?, hprevs, hset, columns, columns, hwires, hnexts]
  cases n.leg? w <;> rfl

end Node

namespace Circuit

/-- No node has two legs on one wire. -/
def Distinct (c : Circuit) : Prop :=
  ∀ id op, c.op? id = some op → op.wires.Nodup

theorem Linked.distinct {c : Circuit} {L : List NodeId} (h : c.Linked L) : c.Distinct :=
  fun _ _ hop => (h.op_fits hop).nodup

theorem Distinct.congr {c d : Circuit} (h : c.frame = d.frame) (hc : c.Distinct) : d.Distinct := by
  have hop : c.op? = d.op? := congrArg Frame.op h
  intro id op hid
  exact hc id op (by rw [hop, hid])

theorem node?_columns (c : Circuit) (id : NodeId) :
    c.columns.node? id = (c.node? id).map Node.columns := by
  rw [ColumnCircuit.node?, columns, Array.getElem?_map, node?]
  cases c.slots[id]? <;> rfl

theorem modify_map {α β : Type} {xs : Array α} {k : Nat} {x : α} (hx : xs[k]? = some x)
    (f : α → α) (view : α → β) :
    (xs.modify k f).map view = (xs.map view).setIfInBounds k (view (f x)) := by
  apply Array.ext_getElem?
  intro j
  by_cases hj : k = j
  · subst j
    have hlt : k < xs.size := (Array.getElem?_eq_some_iff.mp hx).1
    rw [Array.getElem?_map, Array.getElem?_modify, if_pos rfl, hx,
      Array.getElem?_setIfInBounds_self_of_lt (by simpa using hlt)]
    rfl
  · simp [Array.getElem?_modify, hj]

theorem modify_map_same {α β : Type} (xs : Array α) (k : Nat) {f : α → α} {view : α → β}
    (hf : ∀ x, view (f x) = view x) : (xs.modify k f).map view = xs.map view := by
  apply Array.ext_getElem?
  intro j
  by_cases hj : k = j
  · subst j
    cases hx : xs[k]? <;> simp [Array.getElem?_modify, hx, hf]
  · simp [Array.getElem?_modify, hj]

/-- A change to the links of a node on a wire is made alike in a circuit and in its columns. -/
theorem modifyNode_columns {c : Circuit} (hc : c.Distinct) (a : NodeId) {w : Wire}
    {f : Node → Node} {f? : ColumnNode → Option ColumnNode}
    (hf : ∀ n : Node, n.wires.Nodup → f? n.columns = (n.leg? w).map fun _ => (f n).columns) :
    (do
      let n ← c.columns.node? a
      let m ← f? n
      return { c.columns with slots := c.columns.slots.setIfInBounds a (some m) }) =
    (do
      let n ← c.node? a
      let _ ← n.leg? w
      return c.modifyNode a f).map columns := by
  rw [node?_columns]
  cases hn : c.node? a with
  | none => rfl
  | some n =>
    have hslot : c.slots[a]? = some (some n) := Option.join_eq_some_iff.mp hn
    have hcolumns : (c.modifyNode a f).columns =
        { c.columns with slots := c.columns.slots.setIfInBounds a (some (f n).columns) } := by
      simp only [columns, modifyNode, modify_map hslot]
      rfl
    have hset := hf n (hc a n.op (by simp [op?, hn]))
    cases hp : n.leg? w <;> simp [hset, hp, hcolumns]

/-- A change to an end of a wire is made alike in a circuit and in its columns. -/
theorem modifyRail_columns {c : Circuit} {w : Wire} {g : Rail → Rail} {d : ColumnCircuit}
    (hd : ∀ r, c.rails[w]? = some r → d = (c.modifyRail w g).columns) :
    (if w < c.rails.size then some d else none) =
      (do
        let _ ← c.rails[w]?
        return c.modifyRail w g).map columns := by
  cases hr : c.rails[w]? with
  | none => exact if_neg (Nat.not_lt.mpr (Array.getElem?_eq_none_iff.mp hr))
  | some r =>
    rw [if_pos (Array.getElem?_eq_some_iff.mp hr).1, hd r hr]
    rfl

section Links

variable {c : Circuit} (hc : c.Distinct) (id : Option NodeId) (w : Wire) (target : Option NodeId)

include hc

theorem linkNext?_columns :
    c.columns.linkNext? id w target = (c.linkNext? id w target).map columns := by
  cases id with
  | some a => exact modifyNode_columns hc a fun n hn => Node.setNext?_columns hn w target
  | none =>
    have hsize : c.columns.firsts.size = c.rails.size := Array.size_map
    rw [ColumnCircuit.linkNext?, hsize]
    apply modifyRail_columns
    intro r hr
    have hfirsts := modify_map hr (fun r => { r with first := target }) (·.first)
    have hlasts : (c.rails.modify w fun r => { r with first := target }).map (·.last) =
        c.rails.map (·.last) := modify_map_same c.rails w fun r => by rfl
    simp only [columns, modifyRail, width, Array.size_modify, hfirsts, hlasts]

theorem linkPrev?_columns :
    c.columns.linkPrev? id w target = (c.linkPrev? id w target).map columns := by
  cases id with
  | some a => exact modifyNode_columns hc a fun n hn => Node.setPrev?_columns hn w target
  | none =>
    have hsize : c.columns.lasts.size = c.rails.size := Array.size_map
    rw [ColumnCircuit.linkPrev?, hsize]
    apply modifyRail_columns
    intro r hr
    have hlasts := modify_map hr (fun r => { r with last := target }) (·.last)
    have hfirsts : (c.rails.modify w fun r => { r with last := target }).map (·.first) =
        c.rails.map (·.first) := modify_map_same c.rails w fun r => by rfl
    simp only [columns, modifyRail, width, Array.size_modify, hfirsts, hlasts]

end Links

section Granted

variable {c d : Circuit} {id target : Option NodeId} {w : Wire}

theorem linkNext?_eq_some (h : c.linkNext? id w target = some d) :
    c.linkNext id w target = d := by
  cases id with
  | some a =>
    obtain ⟨n, _, h⟩ := Option.bind_eq_some_iff.mp h
    obtain ⟨p, _, h⟩ := Option.bind_eq_some_iff.mp h
    exact Option.some.inj h
  | none =>
    obtain ⟨r, _, h⟩ := Option.bind_eq_some_iff.mp h
    exact Option.some.inj h

theorem linkPrev?_eq_some (h : c.linkPrev? id w target = some d) :
    c.linkPrev id w target = d := by
  cases id with
  | some a =>
    obtain ⟨n, _, h⟩ := Option.bind_eq_some_iff.mp h
    obtain ⟨p, _, h⟩ := Option.bind_eq_some_iff.mp h
    exact Option.some.inj h
  | none =>
    obtain ⟨r, _, h⟩ := Option.bind_eq_some_iff.mp h
    exact Option.some.inj h

theorem relink?_eq_some {p : Leg} {next prev : Option NodeId}
    (h : (c.linkNext? p.prev p.wire next).bind (·.linkPrev? p.next p.wire prev) = some d) :
    (c.linkNext p.prev p.wire next).linkPrev p.next p.wire prev = d := by
  obtain ⟨e, he, h⟩ := Option.bind_eq_some_iff.mp h
  rw [linkNext?_eq_some he, linkPrev?_eq_some h]

theorem hook?_eq_some {new : NodeId} {p : Leg} (h : c.hook? new p = some d) : c.hook new p = d :=
  relink?_eq_some h

theorem unhook?_eq_some {p : Leg} (h : c.unhook? p = some d) : c.unhook p = d :=
  relink?_eq_some h

end Granted

section Legs

variable {c : Circuit} (hc : c.Distinct) (p : Leg)

include hc

/-- The two links of a leg are set alike in a circuit and in its columns. -/
theorem relink?_columns (next prev : Option NodeId) :
    (c.columns.linkNext? p.prev p.wire next).bind (·.linkPrev? p.next p.wire prev) =
      ((c.linkNext? p.prev p.wire next).bind (·.linkPrev? p.next p.wire prev)).map columns := by
  rw [linkNext?_columns hc]
  cases hd : c.linkNext? p.prev p.wire next with
  | none => rfl
  | some d =>
    have hframe : c.frame = d.frame := by
      rw [← linkNext?_eq_some hd, frame_linkNext]
    exact linkPrev?_columns (hc.congr hframe) p.next p.wire prev

theorem hook?_columns (id : NodeId) :
    c.columns.hook? id (p.wire, p.prev, p.next) = (c.hook? id p).map columns :=
  relink?_columns hc p (some id) (some id)

theorem unhook?_columns :
    c.columns.unhook? (p.wire, p.prev, p.next) = (c.unhook? p).map columns :=
  relink?_columns hc p p.next p.prev

end Legs

/-- What is done alike to a circuit and to its columns for every leg is done alike for a node. -/
theorem foldlM_columns {f : ColumnCircuit → Wire × Option NodeId × Option NodeId →
      Option ColumnCircuit} {g : Circuit → Leg → Option Circuit}
    (hf : ∀ {c : Circuit}, c.Distinct → ∀ p : Leg,
      f c.columns (p.wire, p.prev, p.next) = (g c p).map columns)
    (hg : ∀ {c d : Circuit} {p : Leg}, g c p = some d → d.frame = c.frame)
    (n : Node) {c : Circuit} (hc : c.Distinct) :
    n.columns.rows.foldlM f c.columns = (n.legs.foldlM g c).map columns := by
  rw [Node.rows_columns]
  induction n.legs generalizing c with
  | nil => rfl
  | cons p legs ih =>
    rw [List.map_cons, List.foldlM_cons, List.foldlM_cons, hf hc]
    cases hd : g c p with
    | none => rfl
    | some d => exact ih (hc.congr (hg hd).symm)

theorem insert?_columns {c : Circuit} (hc : c.Distinct) (n : Node) :
    c.columns.insert? n.columns = (c.insert? n).map columns := by
  have hsize : c.columns.slots.size = c.slots.size := Array.size_map
  have hhooked := foldlM_columns (fun hd p => hook?_columns hd p c.slots.size)
    (fun h => by rw [← hook?_eq_some h, frame_hook]) n hc
  rw [ColumnCircuit.insert?, insert?, hsize, hhooked]
  cases n.legs.foldlM (hook? c.slots.size) c with
  | none => rfl
  | some d => simp [columns, width]

end Circuit

end BasisFlow
