import ScoreTree.Model.Predict
import ScoreTree.Proofs.BuiltTree
import ScoreTree.Proofs.Evaluation

/-!
# Values of trees that are built

What the trees of a model evaluate to, as functions of the value of their scores: `rowValue` for a
single row and `rowsValue` for any other number of rows. Nothing is asked of the numbers.
-/

namespace ScoreTree

universe u

variable {α : Type u} [NatCast α] [Add α] [Mul α]

namespace FittedModel

/-- The scores of several rows for a vector of features. -/
def scores (m : FittedModel α) (x : Row α) : List α :=
  List.zipWith (fun row c => (Row.ofList row).dot x + c) m.coef m.intercept

theorem Regular.length_scores {m : FittedModel α} (hm : m.Regular) (x : Row α) :
    (m.scores x).length = m.coef.length := by
  simp [scores, hm.intercepts]

theorem Regular.exists_scores {m : FittedModel α} (hm : m.Regular) (x : Row α) :
    ∃ d ds, m.scores x = d :: ds ∧ (d :: ds).length = m.coef.length := by
  obtain ⟨d, ds, hcons⟩ :=
    List.exists_cons_of_length_pos (hm.rows_pos.trans_eq (hm.length_scores x).symm)
  exact ⟨d, ds, hcons, hcons ▸ hm.length_scores x⟩

end FittedModel

variable [Sub α] [Neg α] [Div α] [ExpLn α] [LT α] [DecidableLT α] [LE α] [DecidableLE α]
variable {b : Bindings α}

namespace Logistic

/-- The outputs of a single row with the score `d`. -/
def rowValue (d : α) : Method → Value α
  | .decisionFunction => .scalar d
  | .predict => .scalar (Scalar.step d)
  | .predictProba => .scalar (Scalar.logistic d)
  | .predictLogProba => .scalar (ExpLn.ln (Scalar.logistic d))

/-- The probabilities of the classes with the scores `d :: ds`. -/
def probabilityValues (strategy : Strategy) (d : α) (ds : List α) : List α :=
  match strategy with
  | .ovr => Vector.normalize ((d :: ds).map Scalar.logistic)
  | .multinomial => Vector.softmax d ds

/-- The outputs of any other number of rows with the scores `d :: ds`. -/
def rowsValue (strategy : Strategy) (d : α) (ds : List α) : Method → Value α
  | .decisionFunction => .vector (d :: ds)
  | .predict => .scalar ((Vector.argMax d ds : Nat) : α)
  | .predictProba => .vector (probabilityValues strategy d ds)
  | .predictLogProba => .vector ((probabilityValues strategy d ds).map ExpLn.ln)

theorem eval_rowTree {scores : Expr α} {d : α} (h : scores.eval b = .ok (.scalar d))
    (method : Method) : (rowTree scores method).eval b = .ok (rowValue d method) := by
  have hsigmoid : (Expr.unary .sigmoid scores).eval b = .ok (.scalar (Scalar.logistic d)) :=
    Expr.eval_unary h
  cases method with
  | decisionFunction => exact h
  | predict => exact Expr.eval_unary h
  | predictProba => exact hsigmoid
  | predictLogProba => exact Expr.eval_unary hsigmoid

theorem eval_probabilities {scores : Expr α} {d : α} {ds : List α}
    (h : scores.eval b = .ok (.vector (d :: ds))) (strategy : Strategy) :
    (probabilities strategy scores).eval b = .ok (.vector (probabilityValues strategy d ds)) := by
  cases strategy with
  | ovr =>
    have hsigmoid : (Expr.unary .sigmoid scores).eval b =
        .ok (.vector ((d :: ds).map Scalar.logistic)) := Expr.eval_unary h
    exact Expr.eval_unary hsigmoid
  | multinomial => exact Expr.eval_unary h

theorem eval_rowsTree {scores : Expr α} {d : α} {ds : List α}
    (h : scores.eval b = .ok (.vector (d :: ds))) (strategy : Strategy) (method : Method) :
    (rowsTree scores strategy method).eval b = .ok (rowsValue strategy d ds method) := by
  cases method with
  | decisionFunction => exact h
  | predict => exact Expr.eval_unary h
  | predictProba => exact eval_probabilities h strategy
  | predictLogProba => exact Expr.eval_unary (eval_probabilities h strategy)

end Logistic

namespace FittedModel

variable {m : FittedModel α} {s : Settings}

theorem Regular.eval_scores (hm : m.Regular) {v : Value α} {input : String}
    (hinput : b.get? input = some v) (hlength : v.components.entries.length = m.features) :
    (m.rowsScores input).eval b = .ok (.vector (m.scores v.components)) := by
  rw [hm.rowsScores_eq]
  exact Expr.eval_linear (Expr.eval_input hinput) hlength

theorem eval_tree_of_row (hrows : m.coef.length = 1) {d : α}
    (h : (m.singleRowScores s).eval b = .ok (.scalar d)) :
    (m.tree s).eval b = .ok (Logistic.rowValue d s.method) := by
  rw [tree, if_pos hrows]
  exact Logistic.eval_rowTree h _

theorem eval_tree_of_rows (hrows : m.coef.length ≠ 1) {d : α} {ds : List α}
    (h : (m.rowsScores s.input).eval b = .ok (.vector (d :: ds))) :
    (m.tree s).eval b = .ok (Logistic.rowsValue (m.resolved?.getD .ovr) d ds s.method) := by
  rw [tree, if_neg hrows]
  exact Logistic.eval_rowsTree h _ _

/-- Over several rows the outputs are functions of the scores. -/
theorem Regular.eval_tree_of_scores (hm : m.Regular) (hrows : m.coef.length ≠ 1) {v : Value α}
    (hinput : b.get? s.input = some v) (hlength : v.components.entries.length = m.features) {d : α}
    {ds : List α} (hscores : m.scores v.components = d :: ds) :
    (m.tree s).eval b = .ok (Logistic.rowsValue (m.resolved?.getD .ovr) d ds s.method) :=
  eval_tree_of_rows hrows (hscores ▸ hm.eval_scores hinput hlength)

/-- A regular model has the output that its tree evaluates to. -/
theorem Regular.output_eq (hm : m.Regular)
    (hresolved : s.method.isProbability = true → m.resolved?.isSome = true) {v : Value α}
    (h : (m.tree s).eval b = .ok v) : m.output s b = .ok v :=
  output_eq_ok_iff.mpr ⟨m.tree s, toExpr_eq_ok_iff.mpr ⟨hm, hresolved, rfl⟩, h⟩

end FittedModel
end ScoreTree
