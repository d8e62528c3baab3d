import BasisFlow.Word

namespace BasisFlow

/-- A fraction of signed words. The operations below keep the denominator positive and the two
parts without a common divisor; `make` is where both are established. -/
structure Fraction where
  num : Int
  den : Int
  deriving DecidableEq

namespace Fraction

/-- The fraction `n / d` in lowest terms, its sign on the numerator. -/
def make (n d : Int) : Except Fault Fraction :=
  if d = 0 then .error .zeroDenominator
  else if n = 0 then .ok ⟨0, 1⟩
  else if n = d then .ok ⟨1, 1⟩
  else do
    let g ← Word.gcd n d
    if d < 0 then
      let num ← Word.fit (-(n / g))
      let den ← Word.fit (-(d / g))
      return ⟨num, den⟩
    else
      return ⟨n / g, d / g⟩

/-- A sum or difference. Equal denominators are kept, others are brought to their least common
multiple first. -/
def combine (op : Int → Int → Int) (x y : Fraction) : Except Fault Fraction :=
  if x.den = y.den then do
    let num ← Word.fit (op x.num y.num)
    make num x.den
  else do
    let l ← Word.lcm x.den y.den
    let a ← Word.fit (x.num * (l / x.den))
    let b ← Word.fit (y.num * (l / y.den))
    let num ← Word.fit (op a b)
    make num l

def add (x y : Fraction) : Except Fault Fraction :=
  combine (· + ·) x y

def sub (x y : Fraction) : Except Fault Fraction :=
  combine (· - ·) x y

def neg (x : Fraction) : Except Fault Fraction := do
  let num ← Word.fit (-x.num)
  return ⟨num, x.den⟩

/-- The product with an integer, which is divided by what it shares with the denominator first. -/
def scale (x : Fraction) (k : Int) : Except Fault Fraction := do
  let g ← Word.gcd x.den k
  let num ← Word.fit (x.num * (k / g))
  make num (x.den / g)

/-- The quotient by an integer, which is divided by what it shares with the numerator first. -/
def shrink (x : Fraction) (k : Int) : Except Fault Fraction := do
  let g ← Word.gcd x.num k
  if g = 0 then .error .zeroDivisor
  else
    let den ← Word.fit (x.den * (k / g))
    make (x.num / g) den

/-- The representative in `[0, 1)` of a fraction modulo one. -/
def modOne (x : Fraction) : Except Fault Fraction :=
  make (x.num % x.den) x.den

/-- The order of the rational numbers, by cross multiplication. -/
def order (x y : Fraction) : Ordering :=
  compare (x.num * y.den) (y.num * x.den)

def text (x : Fraction) : String :=
  if x.den = 1 then toString x.num else toString x.num ++ "/" ++ toString x.den

end Fraction

end BasisFlow
