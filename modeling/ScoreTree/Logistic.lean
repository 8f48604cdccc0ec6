import ScoreTree.Build.Selector

/-!
# Trees of logistic regressions

The tree of a logistic regression with given coefficients, for one row (`Logistic.ofRow`) and for
one row per class (`Logistic.ofMatrix`). With `L` the affine map of the scores:

| scores   | decision | predict    | probabilities                                           |
|----------|----------|------------|---------------------------------------------------------|
| one row  | `L`      | `Step(L)`  | `Sigmoid(L)`                                            |
| ovr      | `L`      | `ArgMax(L)`| `Sigmoid(L)` divided by the sum                         |
| multinomial | `L`   | `ArgMax(L)`| exponentials of `L` divided by their sum                |

Outputs of probabilities are left to the selector.
-/

namespace ScoreTree
namespace Logistic

universe u

variable {α : Type u}

/-- The affine map of the scores. -/
def decision (weights : Weights α) (arg : Expr α) : Build α (Expr α) :=
  .ofExcept ((Expr.affine weights arg).mapError .shape)

/-- The tree for one row of coefficients, whose probability is that of the positive class. -/
def ofRow (select : Selector α) (coef : Row α) (intercept : α) (arg : Expr α)
    (method : Method) : Build α (Expr α) := do
  Build.tell (.binary coef.entries.length method)
  let scores ← decision (.row coef intercept) arg
  match method with
  | .decisionFunction => return scores
  | .predict => return .unary .step scores
  | .predictProba | .predictLogProba => select.call (.unary .sigmoid scores) method

/-- The probabilities of the classes with the given scores. -/
def probabilities (strategy : Strategy) (scores : Expr α) : Expr α :=
  match strategy with
  | .ovr => .unary .normalize (.unary .sigmoid scores)
  | .multinomial => .unary .softmax scores

/-- The tree for one row of coefficients per class. The strategy may be unknown; that matters only
where probabilities are asked for. -/
def ofMatrixResolving (select : Selector α) (coef : Matrix α) (intercept : List α) (arg : Expr α)
    (method : Method) (strategy : Except BuildError Strategy) : Build α (Expr α) := do
  Build.tell (.multiclass coef.height coef.width method)
  let scores ← decision (.matrix coef intercept) arg
  match method with
  | .decisionFunction => return scores
  | .predict => return .unary .argMax scores
  | .predictProba | .predictLogProba =>
    match strategy with
    | .error e => Build.fail e
    | .ok strategy =>
      Build.tell (.normalizing strategy)
      select.call (probabilities strategy scores) method

/-- The tree for one row of coefficients per class. -/
def ofMatrix (select : Selector α) (coef : Matrix α) (intercept : List α) (arg : Expr α)
    (method : Method) (strategy : Strategy) : Build α (Expr α) :=
  ofMatrixResolving select coef intercept arg method (.ok strategy)

/-- The tree for one row of coefficients per class, with the strategy given by its name. -/
def ofMatrixNamed (select : Selector α) (coef : Matrix α) (intercept : List α) (arg : Expr α)
    (method : Method) (strategyName : String) : Build α (Expr α) :=
  ofMatrixResolving select coef intercept arg method (Strategy.parse strategyName)

end Logistic
end ScoreTree
