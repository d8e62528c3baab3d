import BasisFlow.Drawing
import BasisFlow.Pass.Log
import BasisFlow.Register.Floating
import BasisFlow.Proofs.AngleTerms
import BasisFlow.Proofs.EditOrder
import BasisFlow.Proofs.Inverse
import BasisFlow.Proofs.LeastOrder
import BasisFlow.Proofs.LocalSoundness
import BasisFlow.Proofs.Probability
import BasisFlow.Proofs.Rebuild
import BasisFlow.Proofs.Refusals
import BasisFlow.Proofs.Settings
import BasisFlow.Proofs.Stability
import BasisFlow.Proofs.Tensor
import BasisFlow.Proofs.Unitarity
import BasisFlow.Proofs.Measurement
import BasisFlow.Proofs.Accounting
import BasisFlow.Proofs.LongestPath
import BasisFlow.Proofs.WideNodes
import BasisFlow.Proofs.RepeatedWires
import BasisFlow.Proofs.OperatorRange
import BasisFlow.Proofs.Labels
import BasisFlow.Proofs.Numerals
import BasisFlow.Proofs.SwapDefinitions
import BasisFlow.Proofs.FaithfulDrawing
import BasisFlow.Proofs.Logging
import BasisFlow.Proofs.ColumnRequests
