import Mathlib.Tactic
import ScoreTree.Model.Predict

/-!
# Models and their parameters

The tree of a model is the tree that is built from its parameters directly, with an event in front
that tells which of the two builders was chosen (`toExprWith_eq_direct`). Builds are compared as a
whole: the tree or the failure, and the log with all events and calls of the selector.
-/

namespace ScoreTree

universe u

variable {α : Type u}

/-- Where no probabilities are asked for, the strategy is not looked at. -/
theorem Logistic.ofMatrixResolving_congr (select : Selector α) (coef : Matrix α)
    (intercept : List α) (arg : Expr α) {method : Method} (h : method.isProbability = false)
    (strategy strategy' : Except BuildError Strategy) :
    ofMatrixResolving select coef intercept arg method strategy =
      ofMatrixResolving select coef intercept arg method strategy' := by
  cases method with
  | decisionFunction => rfl
  | predict => rfl
  | predictProba => cases h
  | predictLogProba => cases h

namespace FittedModel

theorem strategy_eq_parse {m : FittedModel α} (h : m.strategyName ≠ "auto") :
    m.strategy = Strategy.parse m.strategyName := by
  rw [strategy, if_neg h]

variable [NatCast α] [Mul α]

/-- Several rows of one length with an intercept each are built as a matrix. -/
theorem toExprWith_eq_ofMatrixResolving (select : Selector α) {m : FittedModel α} (s : Settings)
    (hrows : 2 ≤ m.coef.length) (hlength : ∀ row ∈ m.coef, row.length = m.features)
    (hintercepts : m.intercept.length = m.coef.length) :
    m.toExprWith select s = (do
      Build.tell (.dispatchMulticlass m.coef.length)
      Logistic.ofMatrixResolving select (.rowMajor m.coef hlength) m.intercept (.input s.input) s.method
        m.strategy) := by
  have hmatrix : Matrix.ofRows m.coef = .ok (.rowMajor m.coef hlength) :=
    Matrix.ofRows_rowMajor hlength
  have hempty : m.coef.isEmpty = false := by
    rw [List.isEmpty_eq_false_iff]
    exact List.ne_nil_of_length_pos (by omega)
  rw [toExprWith_eq_ofRows select (by omega), ofRows, hempty, hmatrix]
  simp only [Bool.false_eq_true, if_false, hintercepts, if_true]

/-- A single row with its intercept is built as it is, or doubled. -/
theorem toExprWith_eq_ofRow (select : Selector α) {m : FittedModel α} (s : Settings)
    {row : List α} {c : α} (hrow : m.coef = [row]) (hintercept : m.intercept = [c])
    {isDoubled : Bool} (h : m.isDoubled s.method = .ok isDoubled) :
    m.toExprWith select s = (do
      Build.tell (.dispatchBinary row.length)
      if isDoubled = true then
        Logistic.ofRow select (row.map double) (double c) (.input s.input) s.method
      else Logistic.ofRow select row c (.input s.input) s.method) := by
  simp only [toExprWith, hrow, ofSingleRow, hintercept, h]
  cases isDoubled <;> rfl

omit [NatCast α] [Mul α] in
theorem isDoubled_of_known {m : FittedModel α} {method : Method}
    (h : method.isProbability = false ∨ ∃ strategy, m.strategy = .ok strategy) :
    m.isDoubled method =
      .ok (decide (method.isProbability = true ∧ m.strategy = .ok .multinomial)) := by
  unfold isDoubled
  rcases h with hmethod | ⟨strategy, hstrategy⟩
  · simp [hmethod]
  · rw [hstrategy]
    cases method.isProbability <;> cases strategy <;> simp [Except.map]

/-- The tree of a model is that of its parameters. Several rows are built as a matrix by the strategy
that was resolved, or by the name of the strategy unless that is `auto`; scores and labels are the
same by any strategy and any name. A single row is built as it is, or doubled where probabilities of
all classes at once are asked for. -/
theorem toExprWith_eq_direct (select : Selector α) (m : FittedModel α) (s : Settings) :
    (∀ (_ : 2 ≤ m.coef.length) (hlength : ∀ row ∈ m.coef, row.length = m.features),
      m.intercept.length = m.coef.length →
      let byStrategy (strategy : Strategy) : Build α (Expr α) := do
        Build.tell (.dispatchMulticlass m.coef.length)
        Logistic.ofMatrix select (.rowMajor m.coef hlength) m.intercept (.input s.input) s.method strategy
      let byName (name : String) : Build α (Expr α) := do
        Build.tell (.dispatchMulticlass m.coef.length)
        Logistic.ofMatrixNamed select (.rowMajor m.coef hlength) m.intercept (.input s.input) s.method name
      (∀ strategy, m.strategy = .ok strategy → m.toExprWith select s = byStrategy strategy) ∧
        (m.strategyName ≠ "auto" → m.toExprWith select s = byName m.strategyName) ∧
        (s.method = .decisionFunction ∨ s.method = .predict → ∀ strategy name,
          m.toExprWith select s = byStrategy strategy ∧ m.toExprWith select s = byName name)) ∧
    (∀ row c, m.coef = [row] → m.intercept = [c] →
      s.method.isProbability = false ∨ (∃ strategy, m.strategy = .ok strategy) →
      m.toExprWith select s = (do
        Build.tell (.dispatchBinary row.length)
        if s.method.isProbability = true ∧ m.strategy = .ok .multinomial then
          Logistic.ofRow select (row.map fun x => x * ((2 : Nat) : α)) (c * ((2 : Nat) : α))
            (.input s.input) s.method
        else Logistic.ofRow select row c (.input s.input) s.method)) := by
  constructor
  · intro hrows hlength hintercepts byStrategy byName
    have hresolving := toExprWith_eq_ofMatrixResolving select s hrows hlength hintercepts
    refine ⟨?_, ?_, ?_⟩
    · intro strategy hstrategy
      rw [hresolving, hstrategy]
      rfl
    · intro hname
      rw [hresolving, strategy_eq_parse hname]
      rfl
    · intro hmethod strategy name
      have hscores : s.method.isProbability = false := by
        rcases hmethod with h | h <;> rw [h] <;> rfl
      have hany (strategy' : Except BuildError Strategy) :
          m.toExprWith select s = (do
            Build.tell (.dispatchMulticlass m.coef.length)
            Logistic.ofMatrixResolving select (.rowMajor m.coef hlength) m.intercept (.input s.input)
              s.method strategy') := by
        rw [hresolving]
        congr 1
        funext _
        exact Logistic.ofMatrixResolving_congr _ _ _ _ hscores _ _
      exact ⟨hany (.ok strategy), hany (Strategy.parse name)⟩
  · intro row c hrow hintercept hknown
    rw [toExprWith_eq_ofRow select s hrow hintercept (isDoubled_of_known hknown)]
    simp only [decide_eq_true_eq]
    rfl

/-- Two classes of two features, with a name that no strategy has. -/
def unknownStrategy : FittedModel Float where
  coef := [[1, 0], [0, 1]]
  intercept := [0, 0.5]
  classes := none
  strategyName := "one_vs_rest"
  solver := "lbfgs"

/-- A single row that was fitted for all classes at once. -/
def jointRow : FittedModel Float where
  coef := [[1, -2]]
  intercept := [0.5]
  classes := none
  strategyName := "multinomial"
  solver := "lbfgs"

theorem toExprWith_eq_direct_unknownStrategy :
    (unknownStrategy.strategyName ≠ "auto" ∧
      unknownStrategy.toExprWith Selector.standard ⟨.predictProba, "x"⟩ = (do
        Build.tell (.dispatchMulticlass 2)
        Logistic.ofMatrixNamed Selector.standard (.rowMajor [[1, 0], [0, 1]] (by decide)) [0, 0.5]
          (.input "x") .predictProba "one_vs_rest")) ∧
    (jointRow.strategy = .ok .multinomial ∧
      jointRow.toExprWith Selector.probabilityOnly ⟨.predictLogProba, "x"⟩ = (do
        Build.tell (.dispatchBinary 2)
        Logistic.ofRow Selector.probabilityOnly (.ofList [1 * 2, -2 * 2]) (0.5 * 2) (.input "x")
          .predictLogProba)) := by
  obtain ⟨hmatrix, -⟩ :=
    toExprWith_eq_direct Selector.standard unknownStrategy ⟨.predictProba, "x"⟩
  obtain ⟨-, hrow⟩ :=
    toExprWith_eq_direct Selector.probabilityOnly jointRow ⟨.predictLogProba, "x"⟩
  have hname : unknownStrategy.strategyName ≠ "auto" := by decide
  have hstrategy : jointRow.strategy = .ok .multinomial := rfl
  refine ⟨⟨hname, ?_⟩, hstrategy, ?_⟩
  · exact (hmatrix (by decide) (by decide) rfl).2.1 hname
  · have hbuild := hrow [1, -2] 0.5 rfl rfl (.inr ⟨_, hstrategy⟩)
    rw [if_pos ⟨rfl, hstrategy⟩] at hbuild
    exact hbuild

end FittedModel
end ScoreTree
