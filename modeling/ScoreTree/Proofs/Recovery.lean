import ScoreTree.Proofs.Dependence
import ScoreTree.Proofs.OutputShape

/-!
# What a tree tells of its model

The tree of several rows is a chain of operators over one affine node. The node holds coefficients,
intercepts and the name of the input, and the chain tells the method, and the strategy where there are
probabilities. So two models have one tree exactly if they agree in all of this, and a single row has
the tree of no model with several rows (`toExpr_eq_iff_same_parameters`). The numbers may be of any
kind, also patterns of bits.
-/

namespace ScoreTree

universe u

variable {α : Type u}

/-- The operators that make probabilities of scores, outermost first. -/
def Strategy.operators : Strategy → List Operator
  | .ovr => [.normalize, .sigmoid]
  | .multinomial => [.softmax]

namespace Logistic

/-- The operators above the scores of several rows, outermost first. -/
def rowsOperators (strategy : Strategy) : Method → List Operator
  | .decisionFunction => []
  | .predict => [.argMax]
  | .predictProba => strategy.operators
  | .predictLogProba => .log :: strategy.operators

variable (w : Weights α) (arg : Expr α) (strategy : Strategy) (method : Method)

theorem spine_rowsTree :
    (rowsTree (.linear w arg) strategy method).spine = rowsOperators strategy method := by
  cases method <;> cases strategy <;> rfl

theorem core_rowsTree : (rowsTree (.linear w arg) strategy method).core = .linear w arg := by
  cases method <;> cases strategy <;> rfl

theorem core_rowTree : (rowTree (.linear w arg) method).core = .linear w arg := by
  cases method <;> rfl

/-- The operators tell the method, and the strategy where it matters. -/
theorem rowsOperators_eq_iff {strategy strategy' : Strategy} {method method' : Method} :
    rowsOperators strategy method = rowsOperators strategy' method' ↔
      method = method' ∧ (method.isProbability = true → strategy = strategy') := by
  cases method <;> cases method' <;> cases strategy <;> cases strategy' <;>
    simp [rowsOperators, Strategy.operators, Method.isProbability]

end Logistic

namespace FittedModel

theorem exists_strategy_of_getD {m m' : FittedModel α} (h : m.resolved?.isSome = true)
    (h' : m'.resolved?.isSome = true) (hresolved : m.resolved?.getD .ovr = m'.resolved?.getD .ovr) :
    ∃ strategy, m.strategy = .ok strategy ∧ m'.strategy = .ok strategy := by
  obtain ⟨strategy, hstrategy⟩ := Option.isSome_iff_exists.mp h
  obtain ⟨strategy', hstrategy'⟩ := Option.isSome_iff_exists.mp h'
  rw [hstrategy, hstrategy', Option.getD_some, Option.getD_some] at hresolved
  exact ⟨strategy, strategy_of_resolved hstrategy, hresolved ▸ strategy_of_resolved hstrategy'⟩

variable [NatCast α] [Mul α] {m m' : FittedModel α} {s s' : Settings}

theorem core_tree_of_row (hrows : m.coef.length = 1) : (m.tree s).core = m.singleRowScores s := by
  rw [tree, if_pos hrows]
  exact Logistic.core_rowTree _ _ _

theorem Regular.tree_of_rows (hm : m.Regular) (hrows : m.coef.length ≠ 1) :
    m.tree s = Logistic.rowsTree
      (.linear (.matrix (.rowMajor m.coef hm.length_eq) m.intercept) (.input s.input))
      (m.resolved?.getD .ovr) s.method := by
  rw [tree, if_neg hrows, hm.rowsScores_eq]

theorem Regular.core_tree_of_rows (hm : m.Regular) (hrows : m.coef.length ≠ 1) :
    (m.tree s).core =
      .linear (.matrix (.rowMajor m.coef hm.length_eq) m.intercept) (.input s.input) := by
  rw [hm.tree_of_rows hrows, Logistic.core_rowsTree]

theorem Regular.spine_tree_of_rows (hm : m.Regular) (hrows : m.coef.length ≠ 1) :
    (m.tree s).spine = Logistic.rowsOperators (m.resolved?.getD .ovr) s.method := by
  rw [hm.tree_of_rows hrows, Logistic.spine_rowsTree]

/-- Two models with several rows have one tree exactly if they agree in the settings, in all
coefficients and intercepts, and in the strategy where probabilities are asked for. A model with a
single row has no such tree. -/
theorem toExpr_eq_iff_same_parameters {tree tree' : Expr α} (hrows : 2 ≤ m.coef.length)
    (htree : (m.toExpr s).result = .ok tree) (htree' : (m'.toExpr s').result = .ok tree') :
    (2 ≤ m'.coef.length → (tree = tree' ↔
      s = s' ∧ m.coef = m'.coef ∧ m.intercept = m'.intercept ∧
        (s.method.isProbability = true →
          ∃ strategy, m.strategy = .ok strategy ∧ m'.strategy = .ok strategy))) ∧
    (m'.coef.length = 1 → tree ≠ tree') := by
  obtain ⟨hm, hresolved, rfl⟩ := toExpr_eq_ok_iff.mp htree
  obtain ⟨hm', hresolved', hbuilt'⟩ := toExpr_eq_ok_iff.mp htree'
  have hcore := hm.core_tree_of_rows (s := s) (by omega)
  constructor
  · intro hrows'
    constructor
    · intro heq
      rw [← hbuilt'] at heq
      have hsamecore := congrArg Expr.core heq
      rw [hcore, hm'.core_tree_of_rows (by omega)] at hsamecore
      simp only [Expr.linear.injEq, Weights.matrix.injEq, Expr.input.injEq] at hsamecore
      obtain ⟨⟨hcoef, hintercept⟩, hinput⟩ := hsamecore
      have hsamespine := congrArg Expr.spine heq
      rw [hm.spine_tree_of_rows (by omega), hm'.spine_tree_of_rows (by omega),
        Logistic.rowsOperators_eq_iff] at hsamespine
      obtain ⟨hmethod, hstrategy⟩ := hsamespine
      have hsettings : s = s' := by
        cases s
        cases s'
        exact congrArg₂ Settings.mk hmethod hinput
      refine ⟨hsettings, congrArg Matrix.rows hcoef, hintercept, fun hprobability => ?_⟩
      exact exists_strategy_of_getD (hresolved hprobability) (hresolved' (hmethod ▸ hprobability))
        (hstrategy hprobability)
    · rintro ⟨rfl, hcoef, hintercept, hstrategy⟩
      have hbuild : m'.toExpr s = m.toExpr s :=
        toExprWith_congr Selector.standard hcoef.symm hintercept.symm fun hmethod => by
          obtain ⟨strategy, h, h'⟩ := hstrategy hmethod
          rw [h, h']
      rw [hbuild, htree] at htree'
      exact Except.ok.inj htree'
  · intro hrow heq
    have hsamecore := congrArg Expr.core heq
    rw [← hbuilt', hcore, core_tree_of_row hrow] at hsamecore
    cases hsamecore

/-- Two classes of two features, for all classes at once. -/
def opposite : FittedModel Float where
  coef := [[1, -2], [-1, 2]]
  intercept := [0.5, -0.5]
  classes := some [.string "no", .string "yes"]
  strategyName := "auto"
  solver := "lbfgs"

/-- The first row alone, which is a classifier of two classes as well. -/
def firstRow : FittedModel Float :=
  { opposite with coef := [[1, -2]], intercept := [0.5] }

/-- The strategy that `auto` stands for gives the same tree under its own name, one class against the
rest another one, and the first row alone a third. -/
theorem toExpr_eq_iff_same_parameters_opposite :
    ∃ tree tree' tree'', (opposite.toExpr ⟨.predictProba, "x"⟩).result = .ok tree ∧
      ({ opposite with strategyName := "multinomial" }.toExpr ⟨.predictProba, "x"⟩).result =
        .ok tree ∧
      ({ opposite with strategyName := "ovr" }.toExpr ⟨.predictProba, "x"⟩).result = .ok tree' ∧
      (firstRow.toExpr ⟨.predictProba, "x"⟩).result = .ok tree'' ∧ tree ≠ tree' ∧ tree ≠ tree'' := by
  have hbuilt : (opposite.toExpr ⟨.predictProba, "x"⟩).result = .ok _ := rfl
  have hnamed : ({ opposite with strategyName := "multinomial" }.toExpr
      ⟨.predictProba, "x"⟩).result = .ok _ := rfl
  have hagainst : ({ opposite with strategyName := "ovr" }.toExpr
      ⟨.predictProba, "x"⟩).result = .ok _ := rfl
  have hrow : (firstRow.toExpr ⟨.predictProba, "x"⟩).result = .ok _ := rfl
  have hsame := ((toExpr_eq_iff_same_parameters (by decide) hbuilt hnamed).1 (by decide)).mpr
    ⟨rfl, rfl, rfl, fun _ => ⟨.multinomial, rfl, rfl⟩⟩
  refine ⟨_, _, _, hbuilt, hsame ▸ hnamed, hagainst, hrow, ?_, ?_⟩
  · intro heq
    obtain ⟨-, -, -, hstrategy⟩ :=
      ((toExpr_eq_iff_same_parameters (by decide) hbuilt hagainst).1 (by decide)).mp heq
    obtain ⟨strategy, h, h'⟩ := hstrategy rfl
    cases h
    cases h'
  · exact (toExpr_eq_iff_same_parameters (by decide) hbuilt hrow).2 rfl

end FittedModel
end ScoreTree
