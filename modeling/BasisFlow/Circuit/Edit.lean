import BasisFlow.Circuit.Basic

namespace BasisFlow.Circuit

def modifyNode (c : Circuit) (id : NodeId) (f : Node → Node) : Circuit :=
  { c with slots := c.slots.modify id fun n => n.map f }

def modifyRail (c : Circuit) (w : Wire) (f : Rail → Rail) : Circuit :=
  { c with rails := c.rails.modify w f }

/-- Makes `target` the follower on a wire of the node `id`, or of the input if there is none. -/
def linkNext (c : Circuit) (id : Option NodeId) (w : Wire) (target : Option NodeId) : Circuit :=
  match id with
  | some id => c.modifyNode id fun n => n.setNext w target
  | none => c.modifyRail w fun r => { r with first := target }

/-- Makes `target` the forerunner on a wire of the node `id`, or of the output if there is none. -/
def linkPrev (c : Circuit) (id : Option NodeId) (w : Wire) (target : Option NodeId) : Circuit :=
  match id with
  | some id => c.modifyNode id fun n => n.setPrev w target
  | none => c.modifyRail w fun r => { r with last := target }

/-- Lets both neighbours of a leg point at the node `id`. -/
def hook (id : NodeId) (c : Circuit) (p : Leg) : Circuit :=
  (c.linkNext p.prev p.wire (some id)).linkPrev p.next p.wire (some id)

/-- Lets the neighbours of a leg point at each other. -/
def unhook (c : Circuit) (p : Leg) : Circuit :=
  (c.linkNext p.prev p.wire p.next).linkPrev p.next p.wire p.prev

/-- Puts a new node between the neighbours that its legs name. Its index is the next free one. -/
def insert (c : Circuit) (n : Node) : Circuit :=
  let hooked := n.legs.foldl (hook c.slots.size) c
  { hooked with slots := hooked.slots.push (some n), size := hooked.size + 1 }

/-- Adds an operation at the end of its wires and returns the index of its node. -/
def append (c : Circuit) (op : Operation) : Except CircuitError (NodeId × Circuit) := do
  op.check c.width
  let legs := op.wires.map fun w => ⟨w, c.last? w, none⟩
  return (c.slots.size, c.insert ⟨op.gate, legs⟩)

/-- Takes out a node and closes the gap on each of its wires. -/
def remove (c : Circuit) (id : NodeId) : Except CircuitError (Node × Circuit) :=
  match c.node? id with
  | none => .error (.missingNode id)
  | some n =>
    let taken := { c with slots := c.slots.setIfInBounds id none, size := c.size - 1 }
    .ok (n, n.legs.foldl unhook taken)

/-- The legs of an operation that is put at the near side of a gap. -/
def legsIn (gap : List Leg) (ws : List Wire) : List Leg :=
  ws.filterMap fun w => gap.find? (·.wire = w)

/-- The gap that is left behind a node put into it on the wires `ws`. -/
def narrow (gap : List Leg) (ws : List Wire) (id : NodeId) : List Leg :=
  gap.map fun p => if p.wire ∈ ws then { p with prev := some id } else p

/-- Fills a gap with operations one after the other and returns the indices of their nodes. -/
def fill (c : Circuit) (gap : List Leg) : List Operation → List NodeId × Circuit
  | [] => ([], c)
  | op :: ops =>
    let id := c.slots.size
    let (ids, filled) := (c.insert ⟨op.gate, legsIn gap op.wires⟩).fill
      (narrow gap op.wires id) ops
    (id :: ids, filled)

/-- Puts a fragment in the place of a node, its local wire `k` on the `k`-th of `wires`. The node
has to exist, the fragment to be as wide as `wires` is long, and these to be operands of the node
without repetition; the first condition that fails is the error. -/
def substitute (c : Circuit) (id : NodeId) (f : Fragment) (wires : List Wire) :
    Except CircuitError (List NodeId × Circuit) :=
  match c.node? id with
  | none => .error (.missingNode id)
  | some n =>
    if f.width ≠ wires.length then .error (.substitutionWidth f.width wires.length)
    else match wires.find? (· ∉ n.wires) with
      | some w => .error (.substitutionWire w id)
      | none =>
        match firstRepeated [] wires with
        | some w => .error (.duplicateOperand w)
        | none => do
          let (n, opened) ← c.remove id
          return opened.fill n.legs (f.ops.map (·.onto wires))

end BasisFlow.Circuit
