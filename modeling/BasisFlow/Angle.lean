import BasisFlow.Fraction.Approximation

namespace BasisFlow

/-- An angle, as the fraction of a full turn in `[0, 1)`. -/
structure Angle where
  turns : Fraction
  deriving DecidableEq

namespace Angle

/-- The angle of any fraction of a turn: whole turns are dropped. -/
def ofFraction (x : Fraction) : Except Fault Angle := do
  let turns ← x.modOne
  return ⟨turns⟩

def ofTurns (n d : Int) : Except Fault Angle := do
  let x ← Fraction.make n d
  ofFraction x

def zero : Angle := ⟨⟨0, 1⟩⟩

/-- Half a turn. -/
def pi : Angle := ⟨⟨1, 2⟩⟩

/-- A quarter of a turn. -/
def halfPi : Angle := ⟨⟨1, 4⟩⟩

/-- An eighth of a turn. -/
def quarterPi : Angle := ⟨⟨1, 8⟩⟩

/-- An eighth of a turn backwards. -/
def minusQuarterPi : Angle := ⟨⟨7, 8⟩⟩

def isZero (a : Angle) : Bool :=
  a == zero

def neg (a : Angle) : Except Fault Angle := do
  let x ← a.turns.neg
  ofFraction x

def add (a b : Angle) : Except Fault Angle := do
  let x ← a.turns.add b.turns
  ofFraction x

def sub (a b : Angle) : Except Fault Angle := do
  let x ← a.turns.sub b.turns
  ofFraction x

def scale (a : Angle) (k : Int) : Except Fault Angle := do
  let x ← a.turns.scale k
  ofFraction x

def shrink (a : Angle) (k : Int) : Except Fault Angle := do
  let x ← a.turns.shrink k
  ofFraction x

def order (a b : Angle) : Ordering :=
  a.turns.order b.turns

/-- The full turn in radians. -/
def tau : Float := 6.283185307179586

def ofRadians (x : Float) : Except Fault Angle := do
  let f ← Fraction.ofFloat (x / tau)
  ofFraction f

def radians (a : Angle) : Float :=
  tau * (Word.toFloat a.turns.num / Word.toFloat a.turns.den)

/-- The angle as a multiple of `π`. The multiple is twice the fraction of a turn and has to be a
fraction of words as well. -/
def label (a : Angle) : Except Fault String :=
  if a = zero then .ok "0"
  else if a = pi then .ok "π"
  else do
    let x ← a.turns.scale 2
    if x.num = 1 then return "π/" ++ toString x.den
    else return "(" ++ x.text ++ ")π"

end Angle

end BasisFlow
