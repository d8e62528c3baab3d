import BasisFlow.Reduction

namespace BasisFlow.Swaps

/-- The place of a wire in a swap. -/
inductive Role where
  | top
  | bottom
  deriving DecidableEq

/-- The operand that has a role: the first or the second. -/
def Role.operand : Role → Orientation → Nat
  | .top, .same => 0
  | .bottom, .same => 1
  | .top, .exchanged => 1
  | .bottom, .exchanged => 0

/-- One gate of a replacement. -/
inductive Step where
  | x (r : Role)
  | z (r : Role)
  | h (r : Role)
  | halfSwap (a b : Role)
  deriving DecidableEq

namespace Step

def gate : Step → Gate
  | .x _ => .base .x
  | .z _ => .base .z
  | .h _ => .base .h
  | .halfSwap _ _ => .halfSwap

def operands (o : Orientation) : Step → List Nat
  | .x r => [r.operand o]
  | .z r => [r.operand o]
  | .h r => [r.operand o]
  | .halfSwap a b => [a.operand o, b.operand o]

def op (o : Orientation) (s : Step) : Operation :=
  ⟨s.gate, s.operands o⟩

end Step

/-- The replacement for a pair of states. -/
structure Entry where
  top : BasisState
  bottom : BasisState
  steps : List Step
  deriving DecidableEq

/-- The replacements from which all others are derived. -/
def table : List Entry :=
  [⟨.zero, .zero, []⟩,
   ⟨.one, .one, []⟩,
   ⟨.plus, .plus, []⟩,
   ⟨.minus, .minus, []⟩,
   ⟨.one, .zero, [.x .top, .x .bottom]⟩,
   ⟨.zero, .plus, [.h .top, .h .bottom]⟩,
   ⟨.plus, .one, [.h .top, .x .top, .x .bottom, .h .bottom]⟩,
   ⟨.zero, .minus, [.x .top, .h .top, .h .bottom, .x .bottom]⟩,
   ⟨.plus, .minus, [.z .top, .z .bottom]⟩,
   ⟨.unknown, .zero, [.halfSwap .bottom .top]⟩,
   ⟨.unknown, .one, [.x .top, .halfSwap .bottom .top]⟩,
   ⟨.unknown, .plus, [.halfSwap .top .bottom]⟩,
   ⟨.unknown, .minus, [.z .top, .halfSwap .top .bottom]⟩]

/-- The entry that serves a pair of states, and how to read it. Only two unknown states have
none. -/
def canonical? : BasisState → BasisState → Option (BasisState × BasisState × Orientation)
  | .unknown, .unknown => none
  | .zero, .one => some (.one, .zero, .exchanged)
  | .plus, .zero => some (.zero, .plus, .exchanged)
  | .one, .minus => some (.zero, .plus, .same)
  | .minus, .one => some (.zero, .plus, .same)
  | .minus, .zero => some (.plus, .one, .same)
  | .one, .plus => some (.zero, .minus, .same)
  | .minus, .plus => some (.plus, .minus, .exchanged)
  | .zero, .unknown => some (.unknown, .zero, .exchanged)
  | .one, .unknown => some (.unknown, .one, .exchanged)
  | .plus, .unknown => some (.unknown, .plus, .exchanged)
  | .minus, .unknown => some (.unknown, .minus, .exchanged)
  | top, bottom => some (top, bottom, .same)

def lookup? (top bottom : BasisState) : Option (List Step × Orientation) := do
  let (t, b, o) ← canonical? top bottom
  let e ← table.find? fun e => e.top = t && e.bottom = b
  return (e.steps, o)

/-- Decides on a swap of two wires from their states. -/
def decide (top bottom : Wire) (s r : BasisState) : Decision :=
  if s = r then
    if s = .unknown then ⟨.keep, none⟩ else ⟨.remove, none⟩
  else
    match lookup? s r with
    | some (steps, o) =>
      ⟨.substitute ⟨2, steps.map (·.op o)⟩ [top, bottom], some (.swapTable s r o)⟩
    | none => ⟨.keep, none⟩

/-- Decides on a swap node. -/
def reduce (node : NodeId) (wires : List Wire) (t : Tracking) : Except ReductionError Decision :=
  match wires with
  | [top, bottom] => do
    let s ← t.look top
    let r ← t.look bottom
    return decide top bottom s r
  | _ => .error (.swapOperands node wires.length)

end BasisFlow.Swaps
