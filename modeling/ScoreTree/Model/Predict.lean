import ScoreTree.Expr.Eval
import ScoreTree.Model.ToExpr

/-!
# Predictions

The values of the outputs of a model, and the class that it predicts for a row of features, as an
index and as the label at that index.
-/

namespace ScoreTree

universe u

/-- Why there is no prediction. -/
inductive PredictError where
  | build (error : BuildError)
  | eval (error : EvalError)
  deriving DecidableEq

namespace FittedModel

section Output

variable {α : Type u} [NatCast α] [Add α] [Mul α] [Sub α] [Neg α] [Div α] [ExpLn α]
variable [LT α] [DecidableLT α] [LE α] [DecidableLE α]

/-- The value of an output of a model under bindings of the input. -/
def output (m : FittedModel α) (s : Settings) (b : Bindings α) :
    Except PredictError (Value α) := do
  let tree ← (m.toExpr s).result.mapError .build
  (tree.eval b).mapError .eval

theorem output_eq_ok_iff {m : FittedModel α} {s : Settings} {b : Bindings α} {v : Value α} :
    m.output s b = .ok v ↔ ∃ tree, (m.toExpr s).result = .ok tree ∧ tree.eval b = .ok v := by
  unfold output
  cases (m.toExpr s).result with
  | error error =>
    constructor
    · intro h
      cases h
    · rintro ⟨tree, htree, -⟩
      cases htree
  | ok tree =>
    change (tree.eval b).mapError PredictError.eval = .ok v ↔ _
    constructor
    · intro h
      refine ⟨tree, rfl, ?_⟩
      cases heval : tree.eval b with
      | error error =>
        rw [heval] at h
        cases h
      | ok w =>
        rw [heval] at h
        cases h
        rfl
    · rintro ⟨tree', htree, heval⟩
      cases htree
      rw [heval]
      rfl

end Output

/-- The value of an output of a model for a row of features. -/
def outputOn (m : FittedModel Float) (method : Method) (row : List Float) :
    Except PredictError (Value Float) :=
  m.output ⟨method, defaultInput⟩ (Bindings.empty.bind defaultInput (.vector row))

/-- The index of the predicted class. -/
def predictedIndex (m : FittedModel Float) (row : List Float) : Except PredictError Nat := do
  match ← m.outputOn .predict row with
  | .scalar x => return x.toUInt64.toNat
  | .vector _ => return 0

end FittedModel
end ScoreTree
