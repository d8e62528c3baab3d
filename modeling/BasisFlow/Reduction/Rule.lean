import BasisFlow.Reduction.Controls
import BasisFlow.Reduction.Swaps

namespace BasisFlow

/-- The two kinds of node that are reduced. -/
inductive Rule where
  | controls
  | swaps
  deriving DecidableEq

/-- A decision on a node, not yet carried out. -/
structure Finding where
  rule : Rule
  node : NodeId
  op : Operation
  decision : Decision
  deriving DecidableEq

namespace Rule

/-- The decision of a rule on an operation, if the rule is about its gate at all. -/
def decision? (rule : Rule) (node : NodeId) (op : Operation) (t : Tracking) :
    Except ReductionError (Option Decision) :=
  match rule, op.gate with
  | .controls, .controlled g p => do
    let d ← Controls.reduce node g p op.wires t
    return some d
  | .swaps, .base .swap => do
    let d ← Swaps.reduce node op.wires t
    return some d
  | _, _ => .ok none

/-- What a rule decides on a node of a circuit. Nothing is changed. -/
def find (rule : Rule) (c : Circuit) (node : NodeId) (t : Tracking) :
    Except ReductionError (Option Finding) :=
  match c.node? node with
  | none => .error (.circuit (.missingNode node))
  | some n => do
    let d ← rule.decision? node n.op t
    return d.map (⟨rule, node, n.op, ·⟩)

end Rule

namespace Finding

/-- What is known of the wires behind the reduced node. -/
def track (f : Finding) (t : Tracking) : Tracking :=
  match f.rule, f.decision.reduction with
  | .controls, .keep => t.propagate f.op
  | .controls, .remove => t
  | .controls, .substitute fragment wires =>
    (fragment.ops.map (·.onto wires)).foldl Tracking.propagate t
  | .swaps, .substitute _ [top, bottom] => t.exchange top bottom
  | .swaps, _ => t

/-- Carries out the decision. -/
def simplify (f : Finding) (c : Circuit) (t : Tracking) :
    Except ReductionError (Outcome × Circuit × Tracking) := do
  let (outcome, c) ← (f.decision.reduction.commit c f.node).mapError .circuit
  return (outcome, c, f.track t)

end Finding

/-- Carries out what a rule decides on a node. A node that the rule is not about stays, and what is
known stays with it. -/
def Rule.apply (rule : Rule) (c : Circuit) (node : NodeId) (t : Tracking) :
    Except ReductionError (Outcome × Circuit × Tracking) := do
  let found ← rule.find c node t
  match found with
  | some f => f.simplify c t
  | none => return (.kept, c, t)

end BasisFlow
