import ScoreTree.Build.Error
import ScoreTree.Json.Basic

/-!
# Fitted models

A fitted logistic regression: its parameters as they were exported, in any shape. A single row of
coefficients stands for two classes, of which the second one is the positive class.
-/

namespace ScoreTree

universe u

/-- The parameters of a fitted logistic regression. -/
structure FittedModel (α : Type u) where
  /-- One row per class, or a single one. -/
  coef : List (List α)
  intercept : List α
  /-- The labels of the classes, in their order. -/
  classes : Option (List Json)
  /-- The name of a strategy, or `auto`. -/
  strategyName : String
  /-- What the parameters were fitted with, which decides what `auto` stands for. -/
  solver : String

namespace FittedModel

variable {α : Type u}

def isBinary (m : FittedModel α) : Bool := m.coef.length == 1

/-- The number of classes. -/
def classCount (m : FittedModel α) : Nat :=
  if m.coef.length = 1 then 2 else m.coef.length

/-- The number of features, read off the first row. -/
def features (m : FittedModel α) : Nat := (m.coef.headD []).length

/-- The strategy that the parameters were fitted for. -/
def strategy (m : FittedModel α) : Except BuildError Strategy :=
  if m.strategyName = "auto" then
    if m.solver = "liblinear" ∨ m.isBinary then .ok .ovr else .ok .multinomial
  else Strategy.parse m.strategyName

/-- The label of the class at an index. -/
def label? (m : FittedModel α) (index : Nat) : Option Json :=
  m.classes.bind fun labels => labels[index]?

end FittedModel
end ScoreTree
