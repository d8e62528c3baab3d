import BasisFlow.Gate

namespace BasisFlow

abbrev Wire := Nat

abbrev NodeId := Nat

/-- A gate together with the wires that it acts on. -/
structure Operation where
  gate : Gate
  wires : List Wire
  deriving DecidableEq

/-- Why a circuit cannot be changed or stored as asked. -/
inductive CircuitError where
  | missingNode (id : NodeId)
  | wireOutOfRange (wire width : Nat)
  | duplicateOperand (wire : Wire)
  | operandCount (gate : String) (arity given : Nat)
  | substitutionWidth (width given : Nat)
  | substitutionWire (wire : Wire) (id : NodeId)
  | storage (reason : String)
  | arithmetic (fault : Fault)
  deriving DecidableEq

def CircuitError.message : CircuitError → String
  | .missingNode id => "missing node " ++ toString id
  | .wireOutOfRange wire width =>
    "error applying gate: qubit " ++ toString wire ++ " is out of range for a circuit of " ++
      toString width ++ " qubit(s)"
  | .duplicateOperand wire =>
    "error applying gate: qubit " ++ toString wire ++ " appears more than once"
  | .operandCount gate arity given =>
    "error applying gate: " ++ gate ++ " acts on " ++ toString arity ++ " qubit(s), but " ++
      toString given ++ " were given"
  | .substitutionWidth width given =>
    "error in substitution: replacement has " ++ toString width ++ " qubit(s), but " ++
      toString given ++ " wire(s) were given"
  | .substitutionWire wire id =>
    "error in substitution: wire " ++ toString wire ++ " is not an operand of node " ++
      toString id
  | .storage reason => "I/O error: " ++ reason
  | .arithmetic fault => fault.message

/-- The entry of a list whose second occurrence comes first, given the entries `seen` before. -/
def firstRepeated (seen : List Wire) : List Wire → Option Wire
  | [] => none
  | w :: ws => if w ∈ seen then some w else firstRepeated (w :: seen) ws

namespace Operation

/-- Accepts an operation on a circuit of `width` wires. The number of operands is looked at first,
then their range, then repetitions. -/
def check (op : Operation) (width : Nat) : Except CircuitError Unit := do
  let arity ← op.gate.countedArity.mapError .arithmetic
  if arity ≠ op.wires.length then .error (.operandCount op.gate.name arity op.wires.length)
  else match op.wires.find? (width ≤ ·) with
    | some w => .error (.wireOutOfRange w width)
    | none =>
      match firstRepeated [] op.wires with
      | some w => .error (.duplicateOperand w)
      | none => .ok ()

/-- The operation with every local wire `k` renamed to the `k`-th of `wires`. -/
def onto (wires : List Wire) (op : Operation) : Operation :=
  { op with wires := op.wires.map fun k => wires.getD k 0 }

end Operation

/-- The decomposition of the swap-type gates into controlled bit flips. -/
def Gate.definition : Gate → Option (List Operation)
  | .halfSwap => some [⟨.cx, [1, 0]⟩, ⟨.cx, [0, 1]⟩]
  | .base .swap => some [⟨.cx, [0, 1]⟩, ⟨.cx, [1, 0]⟩, ⟨.cx, [0, 1]⟩]
  | _ => none

/-- A small circuit with wires of its own, which can take the place of a node. -/
structure Fragment where
  width : Nat
  ops : List Operation
  deriving DecidableEq

namespace Fragment

def empty (width : Nat) : Fragment :=
  ⟨width, []⟩

def push (f : Fragment) (op : Operation) : Except CircuitError Fragment := do
  op.check f.width
  return { f with ops := f.ops ++ [op] }

/-- One gate on as many wires as it has operands, in order. -/
def single (g : Gate) (width : Nat) : Fragment :=
  ⟨width, [⟨g, List.range width⟩]⟩

end Fragment

end BasisFlow
