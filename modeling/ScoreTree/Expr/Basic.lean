import ScoreTree.Operator
import ScoreTree.Value
import ScoreTree.Weights

/-!
# Score trees

An expression is a path: every node but the leaf has one child. The leaf is a named input or a
constant; above it stand affine maps, operators and output marks. Nodes are plain data;
`Expr.affine` is the constructor of affine nodes that checks their weights.

* `Expr.spine` lists the operators below the root, outermost first.
* `Expr.core` is the first node below operators and output marks.
-/

namespace ScoreTree

universe u

variable {α : Type u}

/-- Which output of a classifier a tree stands for. -/
inductive OutputMode where
  /-- Probability of the positive class, or of every class. -/
  | probability
  /-- Natural logarithm of the probability. -/
  | logProbability
  /-- Index of the predicted class. -/
  | label
  deriving DecidableEq

/-- An expression over named inputs. -/
inductive Expr (α : Type u) where
  /-- The value bound to a name. -/
  | input (name : String)
  | const (value : Value α)
  /-- An affine map of the argument. -/
  | linear (weights : Weights α) (arg : Expr α)
  | unary (op : Operator) (arg : Expr α)
  /-- The argument itself, marked as an output of a classifier. -/
  | classifier (mode : OutputMode) (arg : Expr α)
  deriving BEq

namespace Expr

/-- The affine map of an expression, if the weights define one. Whether the argument has as many
components as there are features is only known when the tree is evaluated. -/
def affine (weights : Weights α) (arg : Expr α) : Except ShapeError (Expr α) :=
  match weights.defect? with
  | some defect => .error defect
  | none => .ok (.linear weights arg)

/-- Operators applied one after the other, the first of the list outermost. -/
def applyAll (ops : List Operator) (arg : Expr α) : Expr α :=
  ops.foldr .unary arg

/-- The expression below one output mark at the root, or the expression itself. -/
def unmarked : Expr α → Expr α
  | classifier _ arg => arg
  | e => e

/-- The operators from the root inwards, up to the first other node. -/
def operators : Expr α → List Operator
  | unary op arg => op :: arg.operators
  | _ => []

/-- The operators from the root inwards, where one output mark at the root is passed over. -/
def spine (e : Expr α) : List Operator :=
  e.unmarked.operators

/-- The first node from the root inwards that is neither an operator nor an output mark. -/
def core : Expr α → Expr α
  | classifier _ arg => arg.core
  | unary _ arg => arg.core
  | e => e

/-- The weights of an affine root. -/
def weights? : Expr α → Option (Weights α)
  | linear weights _ => some weights
  | _ => none

/-- The operator at the root. -/
def operator? : Expr α → Option Operator
  | unary op _ => some op
  | _ => none

/-- The output mark at the root. -/
def mode? : Expr α → Option OutputMode
  | classifier mode _ => some mode
  | _ => none

/-- Whether an operator that satisfies `p` is applied anywhere in the tree. -/
def usesOperator (p : Operator → Bool) : Expr α → Bool
  | input _ => false
  | const _ => false
  | linear _ arg => arg.usesOperator p
  | unary op arg => p op || arg.usesOperator p
  | classifier _ arg => arg.usesOperator p

/-- The weights of every affine node define a map. -/
def WellFormed : Expr α → Prop
  | input _ => True
  | const _ => True
  | linear weights arg => weights.WellFormed ∧ arg.WellFormed
  | unary _ arg => arg.WellFormed
  | classifier _ arg => arg.WellFormed

theorem affine_eq_ok_iff {w : Weights α} {arg e : Expr α} :
    affine w arg = .ok e ↔ w.WellFormed ∧ e = .linear w arg := by
  unfold affine
  rw [← Weights.defect?_eq_none_iff]
  cases w.defect? <;> simp [eq_comm]

theorem WellFormed.of_affine {w : Weights α} {arg e : Expr α} (harg : arg.WellFormed)
    (h : affine w arg = .ok e) : e.WellFormed := by
  obtain ⟨hw, rfl⟩ := affine_eq_ok_iff.1 h
  exact ⟨hw, harg⟩

end Expr
end ScoreTree
