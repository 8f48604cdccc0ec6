import ScoreTree.Proofs.BuildOrder

/-!
# Trees that are built

The trees that the standard selector lets through, as functions of the scores, and when a model has
one: `toExpr_eq_ok_iff_of_row` for a single row, `toExpr_eq_ok_iff_of_rows` for any other number
of rows, and `toExpr_eq_ok_iff` for both.
-/

namespace ScoreTree

universe u

variable {α : Type u}

namespace Logistic

/-- The tree of one row with the given scores. -/
def rowTree (scores : Expr α) : Method → Expr α
  | .decisionFunction => scores
  | .predict => .unary .step scores
  | .predictProba => .classifier .probability (.unary .sigmoid scores)
  | .predictLogProba => .classifier .logProbability (.unary .log (.unary .sigmoid scores))

/-- The tree of any other number of rows with the given scores. -/
def rowsTree (scores : Expr α) (strategy : Strategy) : Method → Expr α
  | .decisionFunction => scores
  | .predict => .unary .argMax scores
  | .predictProba => .classifier .probability (probabilities strategy scores)
  | .predictLogProba => .classifier .logProbability (.unary .log (probabilities strategy scores))

theorem outputOfRow_standard (scores : Expr α) (method : Method) :
    (outputOfRow Selector.standard scores method).result = .ok (rowTree scores method) := by
  cases method <;> rfl

theorem outputOfRows_standard (scores : Expr α) (strategy : Strategy) (method : Method) :
    (outputOfRows Selector.standard scores strategy method).result =
      .ok (rowsTree scores strategy method) := by
  cases method <;> cases strategy <;> rfl

theorem ofRow_standard {coef : Row α} {intercept : α}
    (h : (Weights.row coef intercept).WellFormed) (arg : Expr α) (method : Method) :
    (ofRow Selector.standard coef intercept arg method).result =
      .ok (rowTree (.linear (.row coef intercept) arg) method) := by
  have hcoef : coef.entries ≠ [] := List.ne_nil_of_length_pos h
  rw [ofRow_eq_decide, Build.decide_result_eq_ok_iff, outputOfRow_standard]
  simp [Line.isFault, hcoef]

theorem ofMatrix_standard {coef : Matrix α} {intercept : List α}
    (h : (Weights.matrix coef intercept).WellFormed) (arg : Expr α) (method : Method)
    (strategy : Strategy) :
    (ofMatrix Selector.standard coef intercept arg method strategy).result =
      .ok (rowsTree (.linear (.matrix coef intercept) arg) strategy method) := by
  obtain ⟨hwidth, hheight, hintercept⟩ := h
  rw [ofMatrix, ofMatrixResolving_eq_decide _ _ _ _ _ _ hheight hintercept.symm,
    Build.decide_result_eq_ok_iff]
  refine ⟨by simp [Line.isFault, strategyLines, hwidth.ne'], ?_⟩
  exact outputOfRows_standard _ strategy method

theorem eq_rowTree_of_ofRow {coef : Row α} {intercept : α} {arg t : Expr α} {method : Method}
    (h : (ofRow Selector.standard coef intercept arg method).result = .ok t) :
    t = rowTree (.linear (.row coef intercept) arg) method := by
  rw [ofRow_eq_decide, Build.decide_result_eq_ok_iff, outputOfRow_standard] at h
  exact (Except.ok.inj h.2).symm

theorem eq_rowsTree_of_ofMatrix {coef : Matrix α} {intercept : List α} {arg t : Expr α}
    {method : Method} {strategy : Strategy}
    (h : (ofMatrix Selector.standard coef intercept arg method strategy).result = .ok t) :
    t = rowsTree (.linear (.matrix coef intercept) arg) strategy method := by
  have hdefect : (Weights.matrix coef intercept).defect? = none := by
    rw [ofMatrix, ofMatrixResolving, Build.tell_bind, decision_eq] at h
    cases hdefect : (Weights.matrix coef intercept).defect? with
    | none => rfl
    | some defect =>
      rw [hdefect] at h
      cases h
  rw [ofMatrix_standard (Weights.defect?_eq_none_iff.mp hdefect)] at h
  exact (Except.ok.inj h).symm

end Logistic

namespace FittedModel

variable [NatCast α] [Mul α]

/-- A model with a single row has a tree if the row is not empty, it comes with one intercept, and
its strategy is known where probabilities are asked for. -/
theorem toExpr_eq_ok_iff_of_row {m : FittedModel α} {row : List α} (hrow : m.coef = [row])
    {s : Settings} {tree : Expr α} :
    (m.toExpr s).result = .ok tree ↔
      m.intercept.length = 1 ∧ (s.method.isProbability = true → m.resolved?.isSome = true) ∧
        0 < m.features ∧ Logistic.rowTree (m.singleRowScores s) s.method = tree := by
  rw [toExpr, toExprWith_eq_ofSingleRow _ hrow, ofSingleRow_eq_decide _ _ _ hrow,
    Build.decide_result_eq_ok_iff, Logistic.outputOfRow_standard]
  simp [singleRowLines, Line.isFault, Nat.pos_iff_ne_zero, and_assoc]

/-- A model with several rows has a tree if they have one length above zero, there are as many
intercepts, and its strategy is known where probabilities are asked for. -/
theorem toExpr_eq_ok_iff_of_rows {m : FittedModel α} (hrows : m.coef.length ≠ 1)
    {s : Settings} {tree : Expr α} :
    (m.toExpr s).result = .ok tree ↔
      0 < m.coef.length ∧ m.unevenRow = m.coef.length ∧ m.intercept.length = m.coef.length ∧
        0 < m.features ∧ (s.method.isProbability = true → m.resolved?.isSome = true) ∧
          Logistic.rowsTree (m.rowsScores s.input) (m.resolved?.getD .ovr) s.method = tree := by
  rw [toExpr, toExprWith_eq_ofRows _ hrows, ofRows_eq_decide, Build.decide_result_eq_ok_iff,
    Logistic.outputOfRows_standard]
  simp [rowsLines, Line.isFault, Nat.pos_iff_ne_zero, and_assoc]

/-- Parameters that define an affine map: rows of one length above zero, and an intercept for each. -/
structure Regular (m : FittedModel α) : Prop where
  rows_pos : 0 < m.coef.length
  length_eq : ∀ row ∈ m.coef, row.length = m.features
  intercepts : m.intercept.length = m.coef.length
  features_pos : 0 < m.features

omit [NatCast α] [Mul α] in
/-- The scores of several regular rows are the affine map of the parameters. -/
theorem Regular.rowsScores_eq {m : FittedModel α} (hm : m.Regular) (input : String) :
    m.rowsScores input =
      .linear (.matrix (.rowMajor m.coef hm.length_eq) m.intercept) (.input input) :=
  FittedModel.rowsScores_eq input (Matrix.ofRows_rowMajor hm.length_eq)

/-- The tree of an output of a regular model. -/
def tree (m : FittedModel α) (s : Settings) : Expr α :=
  if m.coef.length = 1 then Logistic.rowTree (m.singleRowScores s) s.method
  else Logistic.rowsTree (m.rowsScores s.input) (m.resolved?.getD .ovr) s.method

/-- A model has a tree if it is regular and its strategy is known where probabilities are asked for. -/
theorem toExpr_eq_ok_iff {m : FittedModel α} {s : Settings} {tree : Expr α} :
    (m.toExpr s).result = .ok tree ↔
      m.Regular ∧ (s.method.isProbability = true → m.resolved?.isSome = true) ∧
        m.tree s = tree := by
  by_cases hrows : m.coef.length = 1
  · obtain ⟨row, hrow⟩ := List.length_eq_one_iff.mp hrows
    have hregular : m.Regular ↔ m.intercept.length = 1 ∧ 0 < m.features := by
      constructor
      · intro hm
        exact ⟨hm.intercepts.trans hrows, hm.features_pos⟩
      · rintro ⟨hintercept, hfeatures⟩
        exact ⟨by omega, by simp [hrow, features], by omega, hfeatures⟩
    rw [toExpr_eq_ok_iff_of_row hrow, hregular, FittedModel.tree, if_pos hrows]
    tauto
  · rw [toExpr_eq_ok_iff_of_rows hrows, FittedModel.tree, if_neg hrows, unevenRow_eq_length_iff]
    constructor
    · rintro ⟨hpos, heven, hintercept, hfeatures, hresolved, htree⟩
      exact ⟨⟨hpos, heven, hintercept, hfeatures⟩, hresolved, htree⟩
    · rintro ⟨hm, hresolved, htree⟩
      exact ⟨hm.rows_pos, hm.length_eq, hm.intercepts, hm.features_pos, hresolved, htree⟩

end FittedModel
end ScoreTree
