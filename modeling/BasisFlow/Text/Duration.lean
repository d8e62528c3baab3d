namespace BasisFlow.Text

/-- The quotient of two natural numbers, rounded to the nearest integer, a half to the even one. -/
def roundDiv (n d : Nat) : Nat :=
  let q := n / d
  let r := n % d
  if 2 * r < d then q
  else if d < 2 * r then q + 1
  else q + q % 2

/-- A count of units of which `unit` make one, with three decimals. -/
def thousandths (n unit : Nat) : String :=
  let t := roundDiv (1000 * n) unit
  let digits := Nat.toDigits 10 (t % 1000)
  toString (t / 1000) ++ "." ++ String.ofList (List.replicate (3 - digits.length) '0' ++ digits)

/-- A time span in the largest unit of which it holds at least one. -/
def duration (nanoseconds : Nat) : String :=
  if 1000000000 ≤ nanoseconds then thousandths nanoseconds 1000000000 ++ "s"
  else if 1000000 ≤ nanoseconds then thousandths nanoseconds 1000000 ++ "ms"
  else if 1000 ≤ nanoseconds then thousandths nanoseconds 1000 ++ "µs"
  else thousandths nanoseconds 1 ++ "ns"

end BasisFlow.Text
