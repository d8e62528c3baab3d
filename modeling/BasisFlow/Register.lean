import BasisFlow.BasisState
import BasisFlow.Circuit.Order
import BasisFlow.Gate.Operator

namespace BasisFlow

open Amplitude

/-- Why a circuit cannot be simulated. -/
inductive SimulationError where
  | noMatrix (gate : String)
  | tooManyQubits (given : Nat)
  | wireOutOfRange (wire width : Nat)
  | operandCount (gate : String) (arity given : Nat)
  | indexOutOfRange (index size : Nat)
  | arithmetic (fault : Fault)
  deriving DecidableEq

/-- The most wires that a register can have. -/
def maxQubits : Nat := 20

def SimulationError.message : SimulationError → String
  | .noMatrix gate => "cannot simulate gate " ++ gate ++ ": no unitary matrix"
  | .tooManyQubits given =>
    "cannot simulate " ++ toString given ++ " qubit(s): at most " ++ toString maxQubits ++
      " are supported"
  | .wireOutOfRange wire width =>
    "error applying gate: qubit " ++ toString wire ++ " is out of range for " ++
      toString width ++ " qubit(s)"
  | .operandCount gate arity given =>
    "error applying gate: " ++ gate ++ " acts on " ++ toString arity ++ " qubit(s), but " ++
      toString given ++ " were given"
  | .indexOutOfRange index size =>
    "ndarray: index " ++ toString index ++ " is out of bounds for array of shape [" ++
      toString size ++ "]"
  | .arithmetic fault => fault.message

/-- The pure state of a register of wires. The value of wire `k` is bit `k` of an index. -/
structure Register (K : Type) where
  qubits : Nat
  amplitudes : Array K

/-- The sum of all values of `f` below `n`, from the first on. -/
def sumBelow {K : Type} [Zero K] [Add K] (n : Nat) (f : Nat → K) : K :=
  (List.range n).foldl (fun total k => total + f k) 0

/-- The number whose bit `j` is the bit of `index` at the `j`-th wire. -/
def gather : List Wire → Nat → Nat
  | [], _ => 0
  | w :: ws, index => (index.testBit w).toNat + 2 * gather ws index

/-- The number with bit `j` of `l` at the `j`-th wire. Bits on a repeated wire add up. -/
def scatter : List Wire → Nat → Nat
  | [], _ => 0
  | w :: ws, l => (l % 2) <<< w + scatter ws (l / 2)

/-- The number with a bit at every wire. -/
def wireMask : List Wire → Nat
  | [] => 0
  | w :: ws => 1 <<< w + wireMask ws

/-- The index without the bits of a mask. -/
def clearBits (mask index : Nat) : Nat :=
  index ^^^ (index &&& mask)

namespace Register

variable {K : Type} [Zero K]

/-- The amplitude of a basis state, which is zero outside the register. -/
def amplitude (r : Register K) (index : Nat) : K :=
  r.amplitudes.getD index 0

section Build

variable [One K]

/-- All wires at zero. -/
def ground (qubits : Nat) : Register K :=
  ⟨qubits, Array.ofFn fun k : Fin (1 <<< qubits) => if k.val = 0 then 1 else 0⟩

def new (qubits : Nat) : Except SimulationError (Register K) :=
  if maxQubits < qubits then .error (.tooManyQubits qubits) else .ok (ground qubits)

end Build

section Act

variable [Add K] [Mul K]

/-- A row of a matrix times the amplitudes that the columns stand for, where the bits outside the
operands are those of `rest`. -/
def rowProduct (r : Register K) (m : Operator K) (columns : List (Nat × Nat)) (row rest : Nat) :
    K :=
  columns.foldl (fun total (col, bits) => total + m.entry row col * r.amplitude (rest ||| bits)) 0

/-- The register after a matrix has acted on some of its wires. -/
def act (r : Register K) (m : Operator K) (ws : List Wire) : Register K :=
  let mask := wireMask ws
  let columns := (List.range (1 <<< ws.length)).map fun col => (col, scatter ws col)
  { r with amplitudes := Array.ofFn fun k : Fin r.amplitudes.size =>
      r.rowProduct m columns (gather ws k.val) (clearBits mask k.val) }

end Act

section Simulate

variable [One K] [Add K] [Sub K] [Neg K] [Mul K] [Amplitude K]

/-- Applies an operation. Repeated wires are not refused, but their bits may add up to an index
outside the register: the first such index is met in the first row. -/
def apply (r : Register K) (op : Operation) : Except SimulationError (Register K) := do
  let arity ← op.gate.countedArity.mapError .arithmetic
  if arity ≠ op.wires.length then .error (.operandCount op.gate.name arity op.wires.length)
  else match op.wires.find? (r.qubits ≤ ·) with
    | some w => .error (.wireOutOfRange w r.qubits)
    | none => do
      let matrix : Option (Operator K) ← op.gate.allocateOperator.mapError .arithmetic
      match matrix with
      | none => .error (.noMatrix op.gate.name)
      | some m =>
        let indices := (List.range (1 <<< op.wires.length)).map (scatter op.wires)
        match indices.find? (r.amplitudes.size ≤ ·) with
        | some index => .error (.indexOutOfRange index r.amplitudes.size)
        | none => .ok (r.act m op.wires)

/-- The state that a circuit makes of all wires at zero. -/
def run (c : Circuit) : Except SimulationError (Register K) := do
  let start ← new c.width
  c.ops.foldlM apply start

/-- The inner product, over the amplitudes that both registers have. -/
def dot (a b : Register K) : K :=
  sumBelow (min a.amplitudes.size b.amplitudes.size) fun k =>
    conj (a.amplitude k) * b.amplitude k

/-- The squared modulus. -/
def weight (a : K) : K :=
  conj a * a

/-- The part of a known state in a pair of amplitudes for zero and one. -/
def overlap (s : BasisState) (a₀ a₁ : K) : K :=
  match s with
  | .zero => a₀
  | .one => a₁
  | .plus => (a₀ + a₁) * rootHalf
  | .minus => (a₀ - a₁) * rootHalf
  | .unknown => 0

/-- The probability to find a wire in a known state. -/
def probability? (r : Register K) (w : Wire) (s : BasisState) : Option K :=
  if w < r.qubits ∧ s ≠ .unknown then
    some (sumBelow r.amplitudes.size fun k =>
      if k.testBit w then 0 else weight (overlap s (r.amplitude k) (r.amplitude (k ||| 1 <<< w))))
  else none

end Simulate

end Register

end BasisFlow
