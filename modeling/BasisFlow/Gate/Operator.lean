import BasisFlow.Amplitude
import BasisFlow.Gate

namespace BasisFlow

open Amplitude

/-- A square matrix over the basis states of `operands` wires. The value of the `k`-th operand is
bit `k` of a row or column. -/
structure Operator (K : Type) where
  operands : Nat
  entry : Nat → Nat → K

namespace Operator

variable {K : Type} [Zero K] [One K]

def dim (m : Operator K) : Nat :=
  1 <<< m.operands

/-- The matrix with the given rows. -/
def ofRows (operands : Nat) (rows : List (List K)) : Operator K :=
  ⟨operands, fun r c => (rows.getD r []).getD c 0⟩

/-- The matrix that acts as `m` where the lowest bits are those of the polarity, and as the
identity elsewhere. -/
def controlled (m : Operator K) (p : Polarity) : Operator K :=
  let values := 1 <<< p.length
  let required := p.toNat
  ⟨p.length + m.operands, fun r c =>
    if r % values = required ∧ c % values = required then m.entry (r / values) (c / values)
    else if r = c then 1
    else 0⟩

end Operator

variable {K : Type} [Zero K] [One K] [Neg K] [Mul K] [Amplitude K]

/-- The matrix of a gate, unless the gate is a black box. The last entry of a general rotation takes
the sum of two angles, which may fail. -/
def BaseGate.operator : BaseGate → Except Fault (Option (Operator K))
  | .h => .ok (some (.ofRows 1 [[rootHalf, rootHalf], [rootHalf, -rootHalf]]))
  | .x => .ok (some (.ofRows 1 [[0, 1], [1, 0]]))
  | .y => .ok (some (.ofRows 1 [[0, -i], [i, 0]]))
  | .z => .ok (some (.ofRows 1 [[1, 0], [0, -1]]))
  | .s => .ok (some (.ofRows 1 [[1, 0], [0, i]]))
  | .sdg => .ok (some (.ofRows 1 [[1, 0], [0, -i]]))
  | .t => .ok (some (.ofRows 1 [[1, 0], [0, cis .quarterPi]]))
  | .tdg => .ok (some (.ofRows 1 [[1, 0], [0, cis .minusQuarterPi]]))
  | .rx θ =>
    let c : K := cosHalf θ
    let s : K := sinHalf θ
    .ok (some (.ofRows 1 [[c, -i * s], [-i * s, c]]))
  | .ry θ =>
    let c : K := cosHalf θ
    let s : K := sinHalf θ
    .ok (some (.ofRows 1 [[c, -s], [s, c]]))
  | .rz θ =>
    let e : K := cisHalf θ
    .ok (some (.ofRows 1 [[conj e, 0], [0, e]]))
  | .u θ φ lam => do
    let sum ← φ.add lam
    let c : K := cosHalf θ
    let s : K := sinHalf θ
    return some (.ofRows 1 [[c, -cis lam * s], [cis φ * s, cis sum * c]])
  | .swap => .ok (some (.ofRows 2 [[1, 0, 0, 0], [0, 0, 1, 0], [0, 1, 0, 0], [0, 0, 0, 1]]))
  | .blackBox _ _ => .ok none

/-- The matrix of a gate, unless the gate is a reset or a black box. -/
def Gate.operator : Gate → Except Fault (Option (Operator K))
  | .base g => g.operator
  | .halfSwap =>
    .ok (some (.ofRows 2 [[1, 0, 0, 0], [0, 0, 1, 0], [0, 0, 0, 1], [0, 1, 0, 0]]))
  | .reset => .ok none
  | .controlled g p => do
    let matrix ← g.operator
    return matrix.map fun m => m.controlled p

/-- There is room for the matrix of a controlled gate only if its rows, its entries and the 16 bytes
of every entry can be counted in machine words. The word for `2 ^ 64` rows or more is zero, and then
the first entry to be set, where all controls are met, is missing. -/
def Gate.reserveOperator : Gate → Except Fault Unit
  | .controlled g p =>
    let operands := p.length + g.arity
    if 64 ≤ p.length then .error .overflow
    else if 64 ≤ operands then .error (.entryOutOfRange p.toNat)
    else
      let rows := 1 <<< operands
      if rows * rows < 9223372036854775808 then Word.reserve (rows * rows) 16
      else .error (.shapeTooLarge rows)
  | _ => .ok ()

/-- The matrix of a gate, if there is room for it. -/
def Gate.allocateOperator (g : Gate) : Except Fault (Option (Operator K)) := do
  let matrix ← g.operator
  match matrix with
  | none => return none
  | some m =>
    g.reserveOperator
    return some m

end BasisFlow
