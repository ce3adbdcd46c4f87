import CoefficientTightening.Main
import CoefficientTightening.Formulation.Access
import CoefficientTightening.Formulation.Text
import CoefficientTightening.Reduction.Text
import CoefficientTightening.Scalar.Extended
import CoefficientTightening.Proofs.ExactArithmetic
import CoefficientTightening.Proofs.RowPass
import CoefficientTightening.Proofs.SurplusRule
import CoefficientTightening.Proofs.CutEntries
import CoefficientTightening.Proofs.ClosedForm
import CoefficientTightening.Proofs.Points
import CoefficientTightening.Proofs.FeasibleSet
import CoefficientTightening.Proofs.FixedPoint
import CoefficientTightening.Proofs.CanonicalRows
import CoefficientTightening.Proofs.InstancePoints
import CoefficientTightening.Proofs.ModelPoints
import CoefficientTightening.Proofs.RoundedArithmetic
import CoefficientTightening.Proofs.ChangeTrace
import CoefficientTightening.Proofs.AcceptedCuts
import CoefficientTightening.Proofs.LinkedStorages
import CoefficientTightening.Proofs.Consistent
import CoefficientTightening.Proofs.ConsistentPass
import CoefficientTightening.Proofs.ReductionReplay
import CoefficientTightening.Proofs.ReductionLog
import CoefficientTightening.Proofs.RealChanges
import CoefficientTightening.Proofs.TwoRounds
import CoefficientTightening.Proofs.Binary64.Arithmetic
import CoefficientTightening.Proofs.PositionMap
import CoefficientTightening.Proofs.GivenEntries
import CoefficientTightening.Proofs.Transposition
import CoefficientTightening.Proofs.Construction
import CoefficientTightening.Proofs.Binary64.Wholes
import CoefficientTightening.Proofs.ComputedValues
import CoefficientTightening.Proofs.WholeNumbers
import CoefficientTightening.Proofs.WholeRows
import CoefficientTightening.Proofs.WholeDoubles
import CoefficientTightening.Proofs.NonzeroCounts
import CoefficientTightening.Proofs.WriteBack
import CoefficientTightening.Proofs.RoundCalls
import CoefficientTightening.Proofs.PresolveFailure
import CoefficientTightening.Proofs.HandedBack
import CoefficientTightening.Proofs.RebuiltModel
import CoefficientTightening.Proofs.StructuralZeros
import CoefficientTightening.Proofs.ReadBack
import CoefficientTightening.Proofs.Recomputation
import CoefficientTightening.Proofs.StoredValues
import CoefficientTightening.Proofs.Reflection
import CoefficientTightening.Proofs.IndependentRows
import CoefficientTightening.Proofs.AddedZeros
import CoefficientTightening.Proofs.SplitRuns
import CoefficientTightening.Proofs.ReachableStates
import CoefficientTightening.Proofs.UntouchedParts
import CoefficientTightening.Proofs.FiniteChanges
import CoefficientTightening.Proofs.FlatArrays
import CoefficientTightening.Proofs.FirstViolation
import CoefficientTightening.Proofs.ExtremeValues
import CoefficientTightening.Proofs.TightActivities
import CoefficientTightening.Proofs.OneColumn
