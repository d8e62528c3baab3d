import BasisFlow.Gate

namespace BasisFlow

/-- What is known of one wire: an eigenstate of the bit or of the phase basis, in which the wire is
apart from all others, or nothing. -/
inductive BasisState where
  | zero
  | one
  | plus
  | minus
  | unknown
  deriving DecidableEq

namespace BasisState

def symbol : BasisState → String
  | .zero => "0"
  | .one => "1"
  | .plus => "+"
  | .minus => "-"
  | .unknown => "?"

def name : BasisState → String
  | .zero => "Zero"
  | .one => "One"
  | .plus => "Plus"
  | .minus => "Minus"
  | .unknown => "Unknown"

/-- The place of a state in the order of the list above. -/
def rank : BasisState → Nat
  | .zero => 0
  | .one => 1
  | .plus => 2
  | .minus => 3
  | .unknown => 4

def order (a b : BasisState) : Ordering :=
  compare a.rank b.rank

def isKnown (s : BasisState) : Bool :=
  s != .unknown

/-- The value of a wire in the bit basis. -/
def bit? : BasisState → Option Bool
  | .zero => some false
  | .one => some true
  | _ => none

def isClassical (s : BasisState) : Bool :=
  s.bit?.isSome

end BasisState

/-- A map on the known states of one wire. -/
inductive Transfer where
  | bitFlip
  | phaseFlip
  | bitPhaseFlip
  | basisChange
  deriving DecidableEq

namespace Transfer

/-- The map that a gate makes, if it is one of the four. Half a turn about an axis is the flip of
that axis up to a phase of the whole. -/
def ofBase? : BaseGate → Option Transfer
  | .x => some .bitFlip
  | .z => some .phaseFlip
  | .y => some .bitPhaseFlip
  | .h => some .basisChange
  | .rx θ => if θ = .pi then some .bitFlip else none
  | .rz θ => if θ = .pi then some .phaseFlip else none
  | .ry θ => if θ = .pi then some .bitPhaseFlip else none
  | _ => none

def ofGate? : Gate → Option Transfer
  | .base g => ofBase? g
  | _ => none

def flipBit : BasisState → BasisState
  | .zero => .one
  | .one => .zero
  | s => s

def flipPhase : BasisState → BasisState
  | .plus => .minus
  | .minus => .plus
  | s => s

def changeBasis : BasisState → BasisState
  | .zero => .plus
  | .one => .minus
  | .plus => .zero
  | .minus => .one
  | .unknown => .unknown

def apply : Transfer → BasisState → BasisState
  | .bitFlip, s => flipBit s
  | .phaseFlip, s => flipPhase s
  | .bitPhaseFlip, s => flipPhase (flipBit s)
  | .basisChange, s => changeBasis s

end Transfer

end BasisFlow
