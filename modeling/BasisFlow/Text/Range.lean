namespace BasisFlow.Text

/-- Whether a character lies in one of the ranges of code points, the ends included. -/
def inRanges (ranges : List (Nat × Nat)) (c : Char) : Bool :=
  ranges.any fun r => r.1 ≤ c.toNat && c.toNat ≤ r.2

end BasisFlow.Text
