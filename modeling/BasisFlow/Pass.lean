import BasisFlow.Circuit.Order
import BasisFlow.Pass.Report
import BasisFlow.Reduction.Rule

namespace BasisFlow

/-- Which rules a pass applies. Gates of the others stay, and their effect is still tracked. -/
structure Options where
  controls : Bool
  swaps : Bool
  deriving DecidableEq

def Options.all : Options :=
  ⟨true, true⟩

/-- The rule for a kind of gate, if it is switched on. -/
def Options.rule? (o : Options) : GateKind → Option Rule
  | .controlled => if o.controls then some .controls else none
  | .swap => if o.swaps then some .swaps else none
  | _ => none

/-- How far a pass has come: the circuit as reduced so far, what is known of the wires behind
the nodes visited so far, and the counts. -/
structure Progress where
  circuit : Circuit
  states : Tracking
  report : Report
  deriving DecidableEq

namespace Progress

def start (c : Circuit) : Progress :=
  ⟨c, .initial c.width, .empty⟩

/-- Deals with one node. The effect of a gate that no rule is switched on for is tracked here, and
the rules track that of the others. -/
def handle (o : Options) (p : Progress) (id : NodeId) (n : Node) :
    Except ReductionError (Outcome × Circuit × Tracking) :=
  match o.rule? n.gate.kind with
  | some rule => rule.apply p.circuit id p.states
  | none => .ok (.kept, p.circuit, p.states.propagate n.op)

/-- Visits one node. -/
def visit (o : Options) (p : Progress) (id : NodeId) :
    Except ReductionError (Outcome × Progress) :=
  match p.circuit.node? id with
  | none => .error (.circuit (.missingNode id))
  | some n => do
    let (outcome, c, t) ← p.handle o id n
    return (outcome, ⟨c, t, p.report.record outcome⟩)

/-- Visits nodes in order up to the first that fails, and leaves what was reached before it. -/
def walk (o : Options) (p : Progress) : List NodeId → Progress × Option ReductionError
  | [] => (p, none)
  | id :: ids =>
    match p.visit o id with
    | .ok (_, next) => next.walk o ids
    | .error e => (p, some e)

end Progress

/-- A pass over circuits, with what it knew of the wires at the end of its last run if that was
successful. -/
structure Pass where
  options : Options
  states : Option Tracking
  deriving DecidableEq

namespace Pass

def new (o : Options) : Pass :=
  ⟨o, none⟩

/-- Runs over the nodes of a circuit once, in an order that is fixed at the start. After a failure
the reductions before it stay. -/
def run (p : Pass) (c : Circuit) : Pass × Circuit × Except ReductionError Report :=
  match (Progress.start c).walk p.options c.order with
  | (last, none) => (⟨p.options, some last.states⟩, last.circuit, .ok last.report)
  | (last, some e) => (⟨p.options, none⟩, last.circuit, .error e)

end Pass

end BasisFlow
