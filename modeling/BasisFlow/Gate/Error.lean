import BasisFlow.Fault
import BasisFlow.Text.Literal

namespace BasisFlow

/-- Why a gate or the polarity of its controls cannot be built. -/
inductive GateError where
  | noControlledForm (gate : String)
  | noInverse (gate : String)
  | polarityLength (bits controls : Nat)
  | polarityOverflow (state controls : Nat)
  | polarityParse (found : Char)
  | arithmetic (fault : Fault)
  deriving DecidableEq

def GateError.message : GateError → String
  | .noControlledForm gate =>
    "unsupported operation: cannot take the controlled form of gate " ++ gate
  | .noInverse gate =>
    "unsupported operation: cannot take the inverse of gate " ++ gate
  | .polarityLength bits controls =>
    "error in controlled gate: polarity has " ++ toString bits ++ " bit(s), but " ++
      toString controls ++ " control(s) were requested"
  | .polarityOverflow state controls =>
    "error in controlled gate: control state " ++ toString state ++ " does not fit in " ++
      toString controls ++ " bit(s)"
  | .polarityParse found =>
    "error parsing polarity: invalid character " ++ Text.charLiteral found
  | .arithmetic fault => fault.message

end BasisFlow
