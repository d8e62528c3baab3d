import BasisFlow.Reduction
import BasisFlow.Text.Duration

namespace BasisFlow

/-- The counts of one run over a circuit. -/
structure Report where
  visited : Nat
  removed : Nat
  substituted : Nat
  kept : Nat
  deriving DecidableEq

namespace Report

def empty : Report :=
  ⟨0, 0, 0, 0⟩

/-- Counts one visit. -/
def record (r : Report) : Outcome → Report
  | .kept => { r with visited := r.visited + 1, kept := r.kept + 1 }
  | .removed => { r with visited := r.visited + 1, removed := r.removed + 1 }
  | .substituted => { r with visited := r.visited + 1, substituted := r.substituted + 1 }

def text (r : Report) (nanoseconds : Nat) : String :=
  "visited " ++ toString r.visited ++ " node(s): " ++ toString r.removed ++ " removed, " ++
    toString r.substituted ++ " substituted, " ++ toString r.kept ++ " kept in " ++
    Text.duration nanoseconds

end Report

end BasisFlow
