import ScoreTree.Logistic
import ScoreTree.Model.Basic
import ScoreTree.Settings

/-!
# The tree of a model

`FittedModel.toExprWith` checks the parameters of a model and builds the tree of one of its outputs.
A single row and several rows are checked in their own orders. The strategy of a model matters only
for probabilities.

A single row that was fitted for all classes at once has the probability of two classes with the
scores `-d` and `d`, which is the logistic function of `2 * d`. So its parameters are doubled where
probabilities are asked for.
-/

namespace ScoreTree

universe u

variable {α : Type u}

namespace FittedModel

/-- Whether the parameters of a single row are doubled, which takes the strategy for probabilities
only. -/
def isDoubled (m : FittedModel α) (method : Method) : Except BuildError Bool :=
  if method.isProbability then m.strategy.map (· == .multinomial) else .ok false

variable [NatCast α] [Mul α]

def double (x : α) : α := x * ((2 : Nat) : α)

/-- The tree of a model with a single row. -/
def ofSingleRow (select : Selector α) (m : FittedModel α) (row : List α) (s : Settings) :
    Build α (Expr α) := do
  Build.tell (.dispatchBinary row.length)
  match m.intercept with
  | [b] =>
    match m.isDoubled s.method with
    | .error e => Build.fail e
    | .ok false => Logistic.ofRow select row b (.input s.input) s.method
    | .ok true => Logistic.ofRow select (row.map double) (double b) (.input s.input) s.method
  | intercept => Build.fail (.model (.singleIntercept intercept.length))

omit [NatCast α] [Mul α] in
/-- The tree of a model with any other number of rows. -/
def ofRows (select : Selector α) (m : FittedModel α) (s : Settings) : Build α (Expr α) := do
  Build.tell (.dispatchMulticlass m.coef.length)
  if m.coef.isEmpty then Build.fail (.model .noRows)
  else
    match Matrix.ofRows m.coef with
    | .error row => Build.fail (.model (.raggedRow row))
    | .ok coef =>
      if m.intercept.length = m.coef.length then
        Logistic.ofMatrixResolving select coef m.intercept (.input s.input) s.method m.strategy
      else Build.fail (.model (.interceptCount m.coef.length m.intercept.length))

/-- The tree of an output of a model, where outputs of probabilities are left to the selector. -/
def toExprWith (select : Selector α) (m : FittedModel α) (s : Settings) : Build α (Expr α) :=
  match m.coef with
  | [row] => m.ofSingleRow select row s
  | _ => m.ofRows select s

theorem toExprWith_eq_ofSingleRow (select : Selector α) {m : FittedModel α} {row : List α}
    (h : m.coef = [row]) (s : Settings) : m.toExprWith select s = m.ofSingleRow select row s := by
  simp only [toExprWith, h]

theorem toExprWith_eq_ofRows (select : Selector α) {m : FittedModel α} (h : m.coef.length ≠ 1)
    (s : Settings) : m.toExprWith select s = m.ofRows select s := by
  unfold toExprWith
  split
  · rename_i row hrow
    exact absurd (by rw [hrow, List.length_singleton]) h
  · rfl

/-- The tree of an output of a model. -/
def toExpr (m : FittedModel α) (s : Settings) : Build α (Expr α) :=
  m.toExprWith Selector.standard s

end FittedModel
end ScoreTree
