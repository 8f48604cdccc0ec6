import ScoreTree.Proofs.DirectBuild

/-!
# What a build depends on

A build looks at the coefficients and intercepts of a model, and at its strategy only where
probabilities are asked for (`toExprWith_congr`). So the labels of the classes never matter, an unknown
strategy matters for probabilities only, and the solver matters only where `auto` stands for
something (`toExprWith_irrelevant`).
-/

namespace ScoreTree
namespace FittedModel

universe u

variable {α : Type u} {m m' : FittedModel α}

/-! ## The strategy -/

theorem strategy_congr (hname : m'.strategyName = m.strategyName)
    (h : m.strategyName = "auto" →
      (m'.solver = "liblinear" ∨ m'.isBinary ↔ m.solver = "liblinear" ∨ m.isBinary)) :
    m'.strategy = m.strategy := by
  unfold strategy
  rw [hname]
  by_cases hauto : m.strategyName = "auto"
  · simp only [if_pos hauto, h hauto]
  · simp only [if_neg hauto]

theorem isDoubled_congr {method : Method}
    (h : method.isProbability = true → m'.strategy = m.strategy) :
    m'.isDoubled method = m.isDoubled method := by
  unfold isDoubled
  cases hmethod : method.isProbability with
  | false => rfl
  | true => rw [h hmethod]

/-! ## The build -/

theorem ofRows_congr (select : Selector α) {s : Settings} (hcoef : m'.coef = m.coef)
    (hintercept : m'.intercept = m.intercept)
    (h : s.method.isProbability = true → m'.strategy = m.strategy) :
    m'.ofRows select s = m.ofRows select s := by
  have hmatrix (coef : Matrix α) :
      Logistic.ofMatrixResolving select coef m.intercept (.input s.input) s.method m'.strategy =
        Logistic.ofMatrixResolving select coef m.intercept (.input s.input) s.method
          m.strategy := by
    cases hmethod : s.method.isProbability with
    | false => exact Logistic.ofMatrixResolving_congr _ _ _ _ hmethod _ _
    | true => rw [h hmethod]
  simp only [ofRows, hcoef, hintercept, hmatrix]

variable [NatCast α] [Mul α]

theorem ofSingleRow_congr (select : Selector α) (row : List α) {s : Settings}
    (hintercept : m'.intercept = m.intercept)
    (h : s.method.isProbability = true → m'.strategy = m.strategy) :
    m'.ofSingleRow select row s = m.ofSingleRow select row s := by
  simp only [ofSingleRow, hintercept, isDoubled_congr h]

/-- Coefficients and intercepts settle a build, together with the strategy where probabilities are
asked for. -/
theorem toExprWith_congr (select : Selector α) {s : Settings} (hcoef : m'.coef = m.coef)
    (hintercept : m'.intercept = m.intercept)
    (h : s.method.isProbability = true → m'.strategy = m.strategy) :
    m'.toExprWith select s = m.toExprWith select s := by
  unfold toExprWith
  rw [hcoef]
  split
  · exact ofSingleRow_congr select _ hintercept h
  · exact ofRows_congr select hcoef hintercept h

/-- What must not matter does not matter, neither for the tree or the failure nor for the events and the
calls of the selector. Scores and labels depend on coefficients and intercepts alone. Probabilities
depend on what the strategy resolves to as well, which may be the same failure. The labels of the
classes matter nowhere, and the solver only where `auto` is resolved for other than one row. -/
theorem toExprWith_irrelevant (select : Selector α) (s : Settings) (m : FittedModel α) :
    (∀ m' : FittedModel α, m'.coef = m.coef → m'.intercept = m.intercept →
      (s.method = .decisionFunction ∨ s.method = .predict →
        m'.toExprWith select s = m.toExprWith select s) ∧
      (s.method = .predictProba ∨ s.method = .predictLogProba → m'.strategy = m.strategy →
        m'.toExprWith select s = m.toExprWith select s)) ∧
    (∀ classes, { m with classes := classes }.toExprWith select s = m.toExprWith select s) ∧
    (∀ classes solver, m.strategyName ≠ "auto" ∨ m.coef.length = 1 →
      { m with classes := classes, solver := solver }.toExprWith select s =
        m.toExprWith select s) := by
  refine ⟨?_, ?_, ?_⟩
  · intro m' hcoef hintercept
    constructor
    · intro hmethod
      have hscores : s.method.isProbability = false := by
        rcases hmethod with h | h <;> rw [h] <;> rfl
      apply toExprWith_congr select hcoef hintercept
      intro hprobability
      rw [hscores] at hprobability
      cases hprobability
    · intro _ hstrategy
      exact toExprWith_congr select hcoef hintercept fun _ => hstrategy
  · intro classes
    exact toExprWith_congr select rfl rfl fun _ => rfl
  · intro classes solver hknown
    refine toExprWith_congr select rfl rfl fun _ => strategy_congr rfl fun hauto => ?_
    have hrow : m.coef.length = 1 := hknown.resolve_left fun h => h hauto
    simp [isBinary, hrow]

/-- Two classes of one feature, with a name that no strategy has. -/
def misnamed : FittedModel Float where
  coef := [[1], [-1]]
  intercept := [0, 0.5]
  classes := some [.string "no", .string "yes"]
  strategyName := "softmax"
  solver := "lbfgs"

/-- The same parameters under another known name. -/
def renamed : FittedModel Float :=
  { misnamed with classes := none, strategyName := "ovr", solver := "saga" }

theorem toExprWith_irrelevant_misnamed :
    (misnamed.strategy ≠ renamed.strategy ∧
      renamed.toExprWith Selector.standard ⟨.predict, "x"⟩ =
        misnamed.toExprWith Selector.standard ⟨.predict, "x"⟩) ∧
    ({ misnamed with classes := none, solver := "liblinear" }.strategy = misnamed.strategy ∧
      { misnamed with classes := none, solver := "liblinear" }.toExprWith Selector.standard
        ⟨.predictProba, "x"⟩ = misnamed.toExprWith Selector.standard ⟨.predictProba, "x"⟩) ∧
    (misnamed.strategyName ≠ "auto" ∧
      { misnamed with classes := some [], solver := "saga" }.toExprWith Selector.standard
        ⟨.predictLogProba, "x"⟩ = misnamed.toExprWith Selector.standard ⟨.predictLogProba, "x"⟩) := by
  have hname : misnamed.strategyName ≠ "auto" := by decide
  have hstrategy : { misnamed with classes := none, solver := "liblinear" }.strategy =
      misnamed.strategy := rfl
  obtain ⟨hscores, -, -⟩ :=
    toExprWith_irrelevant Selector.standard ⟨.predict, "x"⟩ misnamed
  obtain ⟨hprobabilities, -, -⟩ :=
    toExprWith_irrelevant Selector.standard ⟨.predictProba, "x"⟩ misnamed
  obtain ⟨-, -, hsolver⟩ :=
    toExprWith_irrelevant Selector.standard ⟨.predictLogProba, "x"⟩ misnamed
  refine ⟨⟨?_, ?_⟩, ⟨hstrategy, ?_⟩, hname, ?_⟩
  · intro h
    cases h
  · exact (hscores renamed rfl rfl).1 (.inr rfl)
  · exact (hprobabilities _ rfl rfl).2 (.inl rfl) hstrategy
  · exact hsolver _ _ (.inl hname)

end FittedModel
end ScoreTree
