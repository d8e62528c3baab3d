namespace BasisFlow

/-- The ways in which exact arithmetic on machine words, and storage addressed by them, can fail. -/
inductive Fault where
  | overflow
  | zeroDenominator
  | zeroDivisor
  | unrepresentable
  | capacity
  | shapeTooLarge (rows : Nat)
  | entryOutOfRange (row : Nat)
  deriving DecidableEq

def Fault.message : Fault → String
  | .overflow => "arithmetic overflow"
  | .zeroDenominator => "denominator == 0"
  | .zeroDivisor => "attempt to divide by zero"
  | .unrepresentable => "error converting to phase: unrepresentable float"
  | .capacity => "capacity overflow"
  | .shapeTooLarge rows =>
    "ndarray: Shape too large, product of non-zero axis lengths overflows isize in shape [" ++
      toString rows ++ ", " ++ toString rows ++ "]"
  | .entryOutOfRange row =>
    "ndarray: index [" ++ toString row ++ ", " ++ toString row ++
      "] is out of bounds for array of shape [0, 0]"

end BasisFlow
