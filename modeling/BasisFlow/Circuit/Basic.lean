import BasisFlow.Operation

namespace BasisFlow

/-- One operand of a node: its wire, and the nodes before and after it on that wire. At the input
there is no node before, at the output none after. -/
structure Leg where
  wire : Wire
  prev : Option NodeId
  next : Option NodeId
  deriving DecidableEq

/-- An operation in its place in a circuit. -/
structure Node where
  gate : Gate
  legs : List Leg
  deriving DecidableEq

/-- The two ends of a wire: its first and its last node. -/
structure Rail where
  first : Option NodeId
  last : Option NodeId
  deriving DecidableEq

/-- A circuit as a graph. A node is known by the index of its slot, which stays empty for good once
the node is removed, so that an index names at most one node ever. -/
structure Circuit where
  slots : Array (Option Node)
  rails : Array Rail
  size : Nat
  deriving DecidableEq

namespace Node

def wires (n : Node) : List Wire :=
  n.legs.map (·.wire)

def prevs (n : Node) : List (Option NodeId) :=
  n.legs.map (·.prev)

def nexts (n : Node) : List (Option NodeId) :=
  n.legs.map (·.next)

def op (n : Node) : Operation :=
  ⟨n.gate, n.wires⟩

def leg? (n : Node) (w : Wire) : Option Leg :=
  n.legs.find? (·.wire = w)

/-- Redirects the link forward on one wire. -/
def setNext (n : Node) (w : Wire) (target : Option NodeId) : Node :=
  { n with legs := n.legs.map fun p => if p.wire = w then { p with next := target } else p }

/-- Redirects the link back on one wire. -/
def setPrev (n : Node) (w : Wire) (target : Option NodeId) : Node :=
  { n with legs := n.legs.map fun p => if p.wire = w then { p with prev := target } else p }

end Node

namespace Circuit

/-- A circuit of bare wires. -/
def empty (width : Nat) : Circuit :=
  ⟨#[], Array.replicate width ⟨none, none⟩, 0⟩

/-- The circuit `empty width`, with 16 bytes of storage for either end of every wire. -/
def allocate (width : Nat) : Except Fault Circuit := do
  Word.reserve width 16
  return empty width

/-- The number of wires. -/
def width (c : Circuit) : Nat :=
  c.rails.size

def isEmpty (c : Circuit) : Bool :=
  c.size == 0

def node? (c : Circuit) (id : NodeId) : Option Node :=
  c.slots[id]?.join

def first? (c : Circuit) (w : Wire) : Option NodeId :=
  c.rails[w]?.bind (·.first)

def last? (c : Circuit) (w : Wire) : Option NodeId :=
  c.rails[w]?.bind (·.last)

/-- The node after `id` on a wire. -/
def next? (c : Circuit) (id : NodeId) (w : Wire) : Option NodeId :=
  (c.node? id).bind fun n => (n.leg? w).bind (·.next)

/-- The nodes directly before `id`, once for each wire. -/
def before (c : Circuit) (id : NodeId) : List NodeId :=
  match c.node? id with
  | some n => n.prevs.filterMap fun p => p
  | none => []

/-- The indices of all nodes, in the order of creation. -/
def ids (c : Circuit) : List NodeId :=
  (List.range c.slots.size).filter fun id => (c.node? id).isSome

/-- All nodes with their indices, in the order of creation. -/
def nodes (c : Circuit) : List (NodeId × Node) :=
  c.ids.filterMap fun id => (c.node? id).map fun n => (id, n)

end Circuit

end BasisFlow
