import BasisFlow.Gate.Error
import BasisFlow.Word

namespace BasisFlow

/-- The values that the controls of a gate have to take, in operand order. -/
structure Polarity where
  bits : List Bool
  deriving DecidableEq

namespace Polarity

/-- Every one of `n` controls has to be one. -/
def closed (n : Nat) : Polarity :=
  ⟨List.replicate n true⟩

/-- The binary digits of `state`, the lowest on the first of `n` controls. -/
def ofNat (state n : Nat) : Except GateError Polarity :=
  if state >>> n = 0 then .ok ⟨(List.range n).map state.testBit⟩
  else .error (.polarityOverflow state n)

/-- The polarity `closed n`, with one byte of storage for every control. -/
def allocateClosed (n : Nat) : Except GateError Polarity := do
  (Word.reserve n 1).mapError .arithmetic
  return closed n

/-- The polarity `ofNat state n`, with one byte of storage for every control. -/
def allocateOfNat (state n : Nat) : Except GateError Polarity := do
  (Word.reserve n 1).mapError .arithmetic
  ofNat state n

def bitOfChar (c : Char) : Except GateError Bool :=
  if c = '0' then .ok false
  else if c = '1' then .ok true
  else .error (.polarityParse c)

/-- Reads a binary numeral. The highest digit is written first and belongs to the last control. -/
def parse (s : String) : Except GateError Polarity := do
  let bits ← s.toList.mapM bitOfChar
  return ⟨bits.reverse⟩

def text (p : Polarity) : String :=
  String.ofList (p.bits.reverse.map fun b => if b then '1' else '0')

def length (p : Polarity) : Nat :=
  p.bits.length

def isEmpty (p : Polarity) : Bool :=
  p.bits.isEmpty

def get? (p : Polarity) (k : Nat) : Option Bool :=
  p.bits[k]?

def isClosed (p : Polarity) : Bool :=
  p.bits.all id

/-- The controls of `p` followed by those of `q`. -/
def append (p q : Polarity) : Polarity :=
  ⟨p.bits ++ q.bits⟩

instance : Append Polarity := ⟨append⟩

/-- The number whose binary digits are the required values, the first control lowest. -/
def toNat (p : Polarity) : Nat :=
  p.bits.foldr (fun b n => b.toNat + 2 * n) 0

end Polarity

end BasisFlow
