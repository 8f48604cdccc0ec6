/-!
# Operators

The named functions of one argument that a score tree can apply. `Operator.all` is the registry in
its fixed order; each entry has one name, by which it is found again (`ofName?_name`), and one kind,
which says what it does to the shape of its argument.
-/

namespace ScoreTree

/-- A function of one argument. -/
inductive Operator where
  /-- One above zero, zero elsewhere. -/
  | step
  /-- The logistic function. -/
  | sigmoid
  /-- The natural logarithm. -/
  | log
  /-- Position of the first largest component. -/
  | argMax
  /-- Division by the sum of the components. -/
  | normalize
  /-- Exponentials, divided by their sum. -/
  | softmax
  deriving DecidableEq

namespace Operator

/-- What an operator does to the shape of its argument. -/
inductive Kind where
  /-- Works on each component alone and keeps any shape. -/
  | pointwise
  /-- Takes a vector that is not empty and gives one of the same length. -/
  | vectorToVector
  /-- Takes a vector that is not empty and gives a scalar. -/
  | vectorToScalar
  deriving DecidableEq

/-- The name by which an operator is written and found. -/
def name : Operator → String
  | step => "Step"
  | sigmoid => "Sigmoid"
  | log => "Log"
  | argMax => "ArgMax"
  | normalize => "VecSumNormalize"
  | softmax => "SKLearnSoftmax"

def kind : Operator → Kind
  | step | sigmoid | log => .pointwise
  | argMax => .vectorToScalar
  | normalize | softmax => .vectorToVector

/-- The registry. -/
def all : List Operator := [step, sigmoid, log, argMax, normalize, softmax]

/-- The operator of a given name. Names are compared exactly. -/
def ofName? (text : String) : Option Operator :=
  all.find? fun op => op.name == text

theorem ofName?_name (op : Operator) : ofName? op.name = some op := by
  cases op <;> rfl

end Operator
end ScoreTree
