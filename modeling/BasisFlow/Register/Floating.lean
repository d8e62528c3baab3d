import BasisFlow.Amplitude.Floating
import BasisFlow.Register

namespace BasisFlow

abbrev FloatRegister := Register Floating

namespace FloatRegister

/-- Whether two states are the same up to a phase of the whole. -/
def sameUpToPhase (a b : FloatRegister) (tolerance : Float) : Bool :=
  a.qubits == b.qubits && (1.0 - (a.dot b).normSq).abs < tolerance

end FloatRegister

/-- Whether two circuits make the same state of all wires at zero, up to a phase of the whole. -/
def Circuit.equivalent (a b : Circuit) : Except SimulationError Bool := do
  let ψ : FloatRegister ← Register.run a
  let φ : FloatRegister ← Register.run b
  return FloatRegister.sameUpToPhase ψ φ 1e-9

end BasisFlow
