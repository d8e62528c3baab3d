import BasisFlow.Angle
import BasisFlow.Polarity

namespace BasisFlow

/-- A gate that has a controlled form. A black box is known by its name and its number of wires
only. -/
inductive BaseGate where
  | h
  | x
  | y
  | z
  | s
  | sdg
  | t
  | tdg
  | rx (θ : Angle)
  | ry (θ : Angle)
  | rz (θ : Angle)
  | u (θ φ lam : Angle)
  | swap
  | blackBox (name : String) (arity : Nat)
  deriving DecidableEq

/-- A gate. The controls of a controlled gate are its first operands, one for each bit of the
polarity, and the operands of the base gate follow. -/
inductive Gate where
  | base (g : BaseGate)
  | halfSwap
  | reset
  | controlled (g : BaseGate) (polarity : Polarity)
  deriving DecidableEq

/-- What a gate does to wires in a known state. -/
inductive GateKind where
  | controlled
  | swap
  | reset
  | phaseOnly
  | other
  deriving DecidableEq

namespace BaseGate

/-- The number of operands. -/
def arity : BaseGate → Nat
  | .swap => 2
  | .blackBox _ n => n
  | _ => 1

def name : BaseGate → String
  | .h => "h"
  | .x => "x"
  | .y => "y"
  | .z => "z"
  | .s => "s"
  | .sdg => "sdg"
  | .t => "t"
  | .tdg => "tdg"
  | .rx _ => "rx"
  | .ry _ => "ry"
  | .rz _ => "rz"
  | .u _ _ _ => "u"
  | .swap => "swap"
  | .blackBox name _ => name

def kind : BaseGate → GateKind
  | .swap => .swap
  | .s => .phaseOnly
  | .sdg => .phaseOnly
  | .t => .phaseOnly
  | .tdg => .phaseOnly
  | .rz θ => if θ = .pi then .other else .phaseOnly
  | _ => .other

/-- The angle in the other direction. -/
def backwards (θ : Angle) : Except GateError Angle :=
  θ.neg.mapError .arithmetic

def inverse : BaseGate → Except GateError BaseGate
  | .s => .ok .sdg
  | .sdg => .ok .s
  | .t => .ok .tdg
  | .tdg => .ok .t
  | .rx θ => do return .rx (← backwards θ)
  | .ry θ => do return .ry (← backwards θ)
  | .rz θ => do return .rz (← backwards θ)
  | .u θ φ lam => do return .u (← backwards θ) (← backwards lam) (← backwards φ)
  | .blackBox name _ => .error (.noInverse name)
  | g => .ok g

end BaseGate

namespace Gate

/-- The number of operands. -/
def arity : Gate → Nat
  | .base g => g.arity
  | .halfSwap => 2
  | .reset => 1
  | .controlled g p => p.length + g.arity

/-- The number of operands, as a machine word. -/
def countedArity (g : Gate) : Except Fault Nat :=
  Word.fitCount g.arity

/-- A short name, in which every control is one letter. -/
def name : Gate → String
  | .base g => g.name
  | .halfSwap => "half_swap"
  | .reset => "reset"
  | .controlled g p => String.ofList (List.replicate p.length 'c') ++ g.name

def kind : Gate → GateKind
  | .base g => g.kind
  | .halfSwap => .other
  | .reset => .reset
  | .controlled _ _ => .controlled

/-- The bit flip with `n` controls, all of which have to be one. -/
def mcx (n : Nat) : Gate :=
  .controlled .x (.closed n)

/-- The gate `mcx n`, with storage for its polarity. -/
def allocateMcx (n : Nat) : Except GateError Gate := do
  return .controlled .x (← Polarity.allocateClosed n)

def cx : Gate := mcx 1

def ccx : Gate := mcx 2

def cz : Gate := .controlled .z (.closed 1)

/-- Adds controls before those that the gate has already. -/
def control (p : Polarity) : Gate → Except GateError Gate
  | .base g => .ok (.controlled g p)
  | .controlled g q => .ok (.controlled g (p ++ q))
  | .halfSwap => .error (.noControlledForm "half_swap")
  | .reset => .error (.noControlledForm "reset")

/-- Adds `n` controls, of which the polarity has to speak exactly. -/
def controlledOn (g : Gate) (n : Nat) (p : Polarity) : Except GateError Gate :=
  if p.length = n then g.control p else .error (.polarityLength p.length n)

def inverse : Gate → Except GateError Gate
  | .base g => do return .base (← g.inverse)
  | .controlled g p => do return .controlled (← g.inverse) p
  | .halfSwap => .error (.noInverse "half_swap")
  | .reset => .error (.noInverse "reset")

def isControlled : Gate → Bool
  | .controlled _ _ => true
  | _ => false

/-- How the gate is written in a listing. Angles are shown for plain rotations, and a polarity
where some control has to be zero. -/
def label : Gate → Except Fault String
  | .base (.rx θ) => do return "rx(" ++ (← θ.label) ++ ")"
  | .base (.ry θ) => do return "ry(" ++ (← θ.label) ++ ")"
  | .base (.rz θ) => do return "rz(" ++ (← θ.label) ++ ")"
  | .base (.u θ φ lam) => do
    return "u(" ++ (← θ.label) ++ ", " ++ (← φ.label) ++ ", " ++ (← lam.label) ++ ")"
  | .controlled g p =>
    let name := (Gate.controlled g p).name
    if p.isClosed then .ok name else .ok (name ++ "[" ++ p.text ++ "]")
  | g => .ok g.name

end Gate

end BasisFlow
