import BasisFlow.Reduction

namespace BasisFlow.Controls

/-- What is left of the controls of a gate, of which those with a known bit are looked up. -/
inductive Survey where
  | contradicted (wire : Wire)
  | surviving (controls : List (Wire × Bool))
  deriving DecidableEq

/-- Drops the controls that are always satisfied and stops at the first that never is. -/
def survey (t : Tracking) : List (Wire × Bool) → Except ReductionError Survey
  | [] => .ok (.surviving [])
  | (w, required) :: rest => do
    let s ← t.look w
    match s.bit? with
    | some b => if b = required then survey t rest else return .contradicted w
    | none =>
      let result ← survey t rest
      match result with
      | .surviving controls => return .surviving ((w, required) :: controls)
      | .contradicted w => return .contradicted w

/-- A bit flip on a target in the minus state is a phase flip on the surviving controls. One that
has to be one becomes the target of the phase flip and the others control it; a single survivor
is the target whatever its value, up to a phase of the whole. -/
def kickback : List (Wire × Bool) → Except ReductionError Decision
  | [] => .ok ⟨.remove, some .allSatisfied⟩
  | [(w, _)] => .ok ⟨.single (.base .z) [w], none⟩
  | survivors =>
    match survivors.find? (·.2) with
    | none => .error (.openControlsOnMinus (survivors.map (·.1)))
    | some target =>
      let rest := survivors.erase target
      .ok ⟨.single (.controlled .z ⟨rest.map (·.2)⟩) (rest.map (·.1) ++ [target.1]), none⟩

/-- The gate with only its surviving controls, on these and the targets. -/
def strip (g : BaseGate) (survivors : List (Wire × Bool)) (targets : List Wire) : Reduction :=
  let gate := if survivors.isEmpty then .base g else .controlled g ⟨survivors.map (·.2)⟩
  .single gate (survivors.map (·.1) ++ targets)

/-- Decides on a controlled gate. A bit flip on a target in the plus state does nothing, and a
gate with a control that is never satisfied does nothing either. -/
def reduce (node : NodeId) (g : BaseGate) (p : Polarity) (wires : List Wire) (t : Tracking) :
    Except ReductionError Decision :=
  if wires.length ≠ p.length + g.arity then
    .error (.controlOperands g.name (p.length + g.arity) node wires.length)
  else if p.isEmpty then .ok ⟨.keep, none⟩
  else match (wires.drop p.length).getLast? with
    | none => .error (.controlOperands g.name p.length node 0)
    | some target => do
      let flipped ← if g = .x then t.look target else .ok .unknown
      if flipped = .plus then return ⟨.remove, some .idleTarget⟩
      else
        let result ← survey t ((wires.take p.length).zip p.bits)
        match result with
        | .contradicted w => return ⟨.remove, some (.neverFires w)⟩
        | .surviving survivors =>
          if flipped = .minus then kickback survivors
          else if survivors.length = p.length then return ⟨.keep, none⟩
          else return ⟨strip g survivors (wires.drop p.length), none⟩

end BasisFlow.Controls
