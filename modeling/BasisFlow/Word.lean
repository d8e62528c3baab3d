import BasisFlow.Fault

namespace BasisFlow.Word

/-- The least signed 64-bit word. -/
def least : Int := -9223372036854775808

/-- The greatest signed 64-bit word. -/
def greatest : Int := 9223372036854775807

/-- The integer itself if it is a signed 64-bit word, and an overflow otherwise. -/
def fit (x : Int) : Except Fault Int :=
  if least ≤ x ∧ x ≤ greatest then .ok x else .error .overflow

/-- The number itself if it is an unsigned 64-bit word, and an overflow otherwise. -/
def fitCount (n : Nat) : Except Fault Nat :=
  if n < 18446744073709551616 then .ok n else .error .overflow

/-- There is room for `count` items of `size` bytes each only if their bytes together are counted by
a signed word. -/
def reserve (count size : Nat) : Except Fault Unit :=
  if count * size < 9223372036854775808 then .ok () else .error .capacity

/-- The greatest common divisor, which is no word only when it is `2 ^ 63`. -/
def gcd (m n : Int) : Except Fault Int :=
  fit (Int.gcd m n)

/-- The absolute least common multiple, multiplied out after the division. -/
def lcm (m n : Int) : Except Fault Int := do
  let g ← gcd m n
  let p ← fit (m * (n / g))
  fit p.natAbs

/-- The nearest floating-point number to a signed word. -/
def toFloat (x : Int) : Float :=
  (Int64.ofInt x).toFloat

end BasisFlow.Word
