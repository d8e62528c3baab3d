import BasisFlow.Circuit.Basic

namespace BasisFlow.Circuit

/-- Follows a wire from a node on for at most `steps` nodes. -/
def follow (c : Circuit) (w : Wire) : Nat → Option NodeId → List NodeId
  | steps + 1, some id => id :: c.follow w steps (c.next? id w)
  | _, _ => []

/-- The nodes on a wire from input to output. There are no more of them than slots. -/
def lane (c : Circuit) (w : Wire) : List NodeId :=
  c.follow w c.slots.size (c.first? w)

/-- The operations on a wire from input to output. -/
def laneOps (c : Circuit) (w : Wire) : List Operation :=
  (c.lane w).filterMap fun id => (c.node? id).map (·.op)

/-- Whether no node directly before `id` is still waiting. -/
def isReady (c : Circuit) (waiting : List NodeId) (id : NodeId) : Bool :=
  (c.before id).all (· ∉ waiting)

/-- Takes the first waiting node that is ready, again and again. -/
def arrange (c : Circuit) : Nat → List NodeId → List NodeId
  | 0, _ => []
  | steps + 1, waiting =>
    match waiting.find? (c.isReady waiting) with
    | some id => id :: c.arrange steps (waiting.erase id)
    | none => []

/-- All nodes, each after the nodes before it, and of several that could come next the oldest. -/
def order (c : Circuit) : List NodeId :=
  c.arrange c.ids.length c.ids

/-- All operations in the order of `order`. -/
def ops (c : Circuit) : List Operation :=
  c.order.filterMap fun id => (c.node? id).map (·.op)

/-- Puts a node one layer behind the farthest node before it. -/
def addLayer (c : Circuit) (layers : List (NodeId × Nat)) (id : NodeId) :
    List (NodeId × Nat) :=
  let reached := (c.before id).map fun p => (layers.lookup p).getD 0
  (id, reached.foldl max 0 + 1) :: layers

/-- The layer of every node, when nodes are placed in the order of `order`. -/
def layers (c : Circuit) : List (NodeId × Nat) :=
  c.order.foldl c.addLayer []

/-- The number of layers. -/
def depth (c : Circuit) : Nat :=
  (c.layers.map (·.2)).foldl max 0

/-- How many gates of a name there are. -/
def countNamed (c : Circuit) (name : String) : Nat :=
  c.nodes.countP fun (_, n) => n.gate.name = name

/-- How many gates there are of every name that occurs. -/
def counts (c : Circuit) : List (String × Nat) :=
  (c.nodes.map fun (_, n) => n.gate.name).eraseDups.map fun name => (name, c.countNamed name)

/-- Two circuits agree if every wire carries the same operations in the same order, however
operations on different wires are interleaved. -/
def agrees (a b : Circuit) : Bool :=
  a.width == b.width && (List.range a.width).all fun w => a.laneOps w == b.laneOps w

/-- One line of a listing. -/
def opLine (op : Operation) : Except Fault String := do
  let label ← op.gate.label
  let operands := op.wires.map fun w => "q" ++ toString w
  return label ++ " " ++ String.intercalate ", " operands ++ ";\n"

/-- A listing of all operations. -/
def text (c : Circuit) : Except Fault String := do
  let lines ← c.ops.mapM opLine
  return String.join lines

end BasisFlow.Circuit
