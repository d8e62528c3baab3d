import BasisFlow.Circuit.Edit
import BasisFlow.Tracking

namespace BasisFlow

/-- What is to become of a node. A fragment has its local wire `k` on the `k`-th of the wires. -/
inductive Reduction where
  | keep
  | remove
  | substitute (f : Fragment) (wires : List Wire)
  deriving DecidableEq

/-- What has become of a node. -/
inductive Outcome where
  | kept
  | removed
  | substituted
  deriving DecidableEq

/-- Why no reduction can be decided on or carried out. -/
inductive ReductionError where
  | swapOperands (node : NodeId) (given : Nat)
  | controlOperands (gate : String) (needed : Nat) (node : NodeId) (given : Nat)
  | openControlsOnMinus (wires : List Wire)
  | circuit (e : CircuitError)
  | untracked (e : Tracking.Untracked)
  deriving DecidableEq

def ReductionError.message : ReductionError → String
  | .swapOperands node given =>
    "error in swap: node " ++ toString node ++ " has " ++ toString given ++
      " operand(s), but a swap needs exactly 2"
  | .controlOperands gate needed node given =>
    "error in controlled gate: controlled " ++ gate ++ " needs " ++ toString needed ++
      " operand(s), but node " ++ toString node ++ " has " ++ toString given
  | .openControlsOnMinus wires =>
    "unhandled rewrite: bit flip on a |-> target with only open controls surviving on wires " ++
      Text.bracketed (wires.map fun w => toString w)
  | .circuit e => "dag error: " ++ e.message
  | .untracked e => e.message

/-- How the table of swap replacements is read: as it stands, or with the two wires exchanged. -/
inductive Orientation where
  | same
  | exchanged
  deriving DecidableEq

/-- Why a reduction was decided on, where that is worth a remark. -/
inductive Remark where
  | idleTarget
  | neverFires (wire : Wire)
  | allSatisfied
  | swapTable (top bottom : BasisState) (orientation : Orientation)
  deriving DecidableEq

/-- A reduction with the remark on it. -/
structure Decision where
  reduction : Reduction
  remark : Option Remark
  deriving DecidableEq

namespace Reduction

/-- The replacement of a node by one gate on the given wires. -/
def single (g : Gate) (wires : List Wire) : Reduction :=
  .substitute (.single g wires.length) wires

/-- Carries out a reduction on a node. -/
def commit (r : Reduction) (c : Circuit) (id : NodeId) : Except CircuitError (Outcome × Circuit) :=
  match r with
  | .keep => .ok (.kept, c)
  | .remove => do
    let (_, c) ← c.remove id
    return (.removed, c)
  | .substitute f wires => do
    let (_, c) ← c.substitute id f wires
    return (.substituted, c)

end Reduction

/-- The state of a wire that a reduction depends on. -/
def Tracking.look (t : Tracking) (w : Wire) : Except ReductionError BasisState :=
  (t.read w).mapError .untracked

end BasisFlow
