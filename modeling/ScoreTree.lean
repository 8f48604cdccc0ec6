import ScoreTree.Expr.Eval
import ScoreTree.Expr.Text
import ScoreTree.Json.Choice
import ScoreTree.Model.Format
import ScoreTree.Model.Predict
import ScoreTree.Proofs.BuildOrder
import ScoreTree.Proofs.BuiltTree
import ScoreTree.Proofs.BuiltValue
import ScoreTree.Proofs.Coherence
import ScoreTree.Proofs.DirectBuild
import ScoreTree.Proofs.Distribution
import ScoreTree.Proofs.ExactVector
import ScoreTree.Proofs.Formula.Unique
import ScoreTree.Proofs.Json.Grammar
import ScoreTree.Proofs.OutputShape
import ScoreTree.Proofs.PredictedClass
import ScoreTree.Proofs.Shape
import ScoreTree.Proofs.Textbook
import ScoreTree.Proofs.TwoClasses
import ScoreTree.Proofs.Json.Numbers
import ScoreTree.Proofs.Json.Strings
import ScoreTree.Proofs.Json.Nesting
import ScoreTree.Proofs.Json.Values
import ScoreTree.Proofs.Loading
import ScoreTree.Proofs.ObjectForm
import ScoreTree.Proofs.Json.Printed
import ScoreTree.Proofs.RoundTrip
import ScoreTree.Proofs.Dependence
import ScoreTree.Proofs.Composition
import ScoreTree.Proofs.ArrayForm
import ScoreTree.Proofs.Reloading
import ScoreTree.Proofs.Decimal.Naturals
import ScoreTree.Proofs.ClassIndex
import ScoreTree.Proofs.Decimal.Order
import ScoreTree.Proofs.LargestDouble
import ScoreTree.Proofs.Reordering
import ScoreTree.Proofs.ArrayAccess
import ScoreTree.Proofs.Recovery
import ScoreTree.Proofs.Decomposition
import ScoreTree.Proofs.LastBinding
import ScoreTree.Proofs.Decimal.Sums
import ScoreTree.Proofs.Decimal.UnitInterval
import ScoreTree.Proofs.RoundedSoftmax
