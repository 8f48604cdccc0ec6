import Mathlib.Tactic
import ScoreTree.Model.ToExpr

/-!
# Trees that can be built

`Expr.Reachable` collects what the constructors, the builders and the models give, in any order and
over each other. A builder checks the weights of its affine node, and all other nodes come from
constructors, so these trees are exactly the well-formed ones (`reachable_iff_wellFormed`).
-/

namespace ScoreTree

universe u

variable {α : Type u}

/-- A build in two steps succeeds if both steps do. -/
theorem Build.result_bind_eq_ok_iff {β γ : Type u} {a : Build α β} {f : β → Build α γ} {c : γ} :
    (a >>= f).result = .ok c ↔ ∃ b, a.result = .ok b ∧ (f b).result = .ok c := by
  rw [result_bind]
  cases a.result <;> simp [Except.bind]

namespace Expr

/-- The weights of the affine nodes at any depth, outermost first. -/
def affineMaps : Expr α → List (Weights α)
  | input _ => []
  | const _ => []
  | linear weights arg => weights :: arg.affineMaps
  | unary _ arg => arg.affineMaps
  | classifier _ arg => arg.affineMaps

theorem wellFormed_iff {e : Expr α} : e.WellFormed ↔ ∀ w ∈ e.affineMaps, w.WellFormed := by
  induction e with
  | input name => simp [WellFormed, affineMaps]
  | const value => simp [WellFormed, affineMaps]
  | linear weights arg ih => simp [WellFormed, affineMaps, ih]
  | unary op arg ih => exact ih
  | classifier mode arg ih => exact ih

/-- Trees that the constructors give, where affine nodes are checked. -/
inductive Constructible : Expr α → Prop
  | input (name : String) : Constructible (.input name)
  | const (value : Value α) : Constructible (.const value)
  | affine {weights : Weights α} {arg e : Expr α} (harg : Constructible arg)
      (h : Expr.affine weights arg = .ok e) : Constructible e
  | unary (op : Operator) {arg : Expr α} (harg : Constructible arg) : Constructible (.unary op arg)
  | classifier (mode : OutputMode) {arg : Expr α} (harg : Constructible arg) :
      Constructible (.classifier mode arg)

theorem constructible_iff_wellFormed {e : Expr α} : e.Constructible ↔ e.WellFormed := by
  constructor
  · intro h
    induction h with
    | input name => trivial
    | const value => trivial
    | affine harg h ih => exact ih.of_affine h
    | unary op harg ih => exact ih
    | classifier mode harg ih => exact ih
  · intro h
    induction e with
    | input name => exact .input name
    | const value => exact .const value
    | linear weights arg ih => exact .affine (ih h.2) (affine_eq_ok_iff.mpr ⟨h.1, rfl⟩)
    | unary op arg ih => exact .unary op (ih h)
    | classifier mode arg ih => exact .classifier mode (ih h)

end Expr

/-- A selector that makes its result of the probabilities by constructors. -/
def Selector.Constructs (select : Selector α) : Prop :=
  ∀ (probs : Expr α) (method : Method) (e : Expr α), probs.Constructible →
    select probs method = .ok e → e.Constructible

theorem Selector.constructs_standard : (standard : Selector α).Constructs := by
  rintro probs method e hprobs h
  cases method with
  | decisionFunction => cases h
  | predict =>
    cases h
    exact .classifier .label (.unary .argMax hprobs)
  | predictProba =>
    cases h
    exact .classifier .probability hprobs
  | predictLogProba =>
    cases h
    exact .classifier .logProbability (.unary .log hprobs)

namespace Logistic

variable {select : Selector α} {arg e : Expr α} {method : Method}

theorem constructible_decision {weights : Weights α} (harg : arg.Constructible)
    (h : (decision weights arg).result = .ok e) : e.Constructible := by
  have haffine : Expr.affine weights arg = .ok e := by
    change (Expr.affine weights arg).mapError BuildError.shape = .ok e at h
    cases hscores : Expr.affine weights arg with
    | error error =>
      rw [hscores] at h
      cases h
    | ok scores =>
      rw [hscores] at h
      cases h
      rfl
  exact .affine harg haffine

theorem constructible_probabilities (strategy : Strategy) {scores : Expr α}
    (h : scores.Constructible) : (probabilities strategy scores).Constructible := by
  cases strategy with
  | ovr => exact .unary .normalize (.unary .sigmoid h)
  | multinomial => exact .unary .softmax h

theorem constructible_ofRow (hselect : select.Constructs) {coef : Row α} {intercept : α}
    (harg : arg.Constructible) (h : (ofRow select coef intercept arg method).result = .ok e) :
    e.Constructible := by
  obtain ⟨-, -, h⟩ := Build.result_bind_eq_ok_iff.mp h
  obtain ⟨scores, hscores, h⟩ := Build.result_bind_eq_ok_iff.mp h
  have hscores := constructible_decision harg hscores
  cases method with
  | decisionFunction =>
    cases h
    exact hscores
  | predict =>
    cases h
    exact .unary .step hscores
  | predictProba => exact hselect _ _ e (.unary .sigmoid hscores) h
  | predictLogProba => exact hselect _ _ e (.unary .sigmoid hscores) h

theorem constructible_ofMatrixResolving (hselect : select.Constructs) {coef : Matrix α}
    {intercept : List α} (harg : arg.Constructible) {strategy : Except BuildError Strategy}
    (h : (ofMatrixResolving select coef intercept arg method strategy).result = .ok e) :
    e.Constructible := by
  obtain ⟨-, -, h⟩ := Build.result_bind_eq_ok_iff.mp h
  obtain ⟨scores, hscores, h⟩ := Build.result_bind_eq_ok_iff.mp h
  have hscores := constructible_decision harg hscores
  cases method with
  | decisionFunction =>
    cases h
    exact hscores
  | predict =>
    cases h
    exact .unary .argMax hscores
  | predictProba =>
    cases strategy with
    | error error => cases h
    | ok strategy => exact hselect _ _ e (constructible_probabilities strategy hscores) h
  | predictLogProba =>
    cases strategy with
    | error error => cases h
    | ok strategy => exact hselect _ _ e (constructible_probabilities strategy hscores) h

end Logistic

namespace FittedModel

variable [NatCast α] [Mul α] {select : Selector α} {m : FittedModel α} {s : Settings} {e : Expr α}

theorem constructible_ofSingleRow (hselect : select.Constructs) {row : List α}
    (h : (m.ofSingleRow select row s).result = .ok e) : e.Constructible := by
  obtain ⟨-, -, h⟩ := Build.result_bind_eq_ok_iff.mp h
  split at h
  · split at h
    · cases h
    · exact Logistic.constructible_ofRow hselect (.input s.input) h
    · exact Logistic.constructible_ofRow hselect (.input s.input) h
  · cases h

omit [NatCast α] [Mul α] in
theorem constructible_ofRows (hselect : select.Constructs)
    (h : (m.ofRows select s).result = .ok e) : e.Constructible := by
  obtain ⟨-, -, h⟩ := Build.result_bind_eq_ok_iff.mp h
  split at h
  · cases h
  · split at h
    · cases h
    · split at h
      · exact Logistic.constructible_ofMatrixResolving hselect (.input s.input) h
      · cases h

theorem constructible_toExprWith (hselect : select.Constructs)
    (h : (m.toExprWith select s).result = .ok e) : e.Constructible := by
  unfold toExprWith at h
  split at h
  · exact constructible_ofSingleRow hselect h
  · exact constructible_ofRows hselect h

end FittedModel

variable [NatCast α] [Mul α]

namespace Expr

/-- Trees that constructors, builders and models give, over inputs that were given in the same way. -/
inductive Reachable : Expr α → Prop
  | input (name : String) : Reachable (.input name)
  | const (value : Value α) : Reachable (.const value)
  | affine {weights : Weights α} {arg e : Expr α} (harg : Reachable arg)
      (h : Expr.affine weights arg = .ok e) : Reachable e
  | unary (op : Operator) {arg : Expr α} (harg : Reachable arg) : Reachable (.unary op arg)
  | classifier (mode : OutputMode) {arg : Expr α} (harg : Reachable arg) :
      Reachable (.classifier mode arg)
  | ofRow {select : Selector α} (hselect : select.Constructs) {coef : Row α} {intercept : α}
      {arg e : Expr α} (harg : Reachable arg) {method : Method}
      (h : (Logistic.ofRow select coef intercept arg method).result = .ok e) : Reachable e
  | ofMatrix {select : Selector α} (hselect : select.Constructs) {coef : Matrix α}
      {intercept : List α} {arg e : Expr α} (harg : Reachable arg) {method : Method}
      {strategy : Strategy}
      (h : (Logistic.ofMatrix select coef intercept arg method strategy).result = .ok e) :
      Reachable e
  | ofMatrixNamed {select : Selector α} (hselect : select.Constructs) {coef : Matrix α}
      {intercept : List α} {arg e : Expr α} (harg : Reachable arg) {method : Method}
      {strategyName : String}
      (h : (Logistic.ofMatrixNamed select coef intercept arg method strategyName).result = .ok e) :
      Reachable e
  | ofModel {select : Selector α} (hselect : select.Constructs) {m : FittedModel α} {s : Settings}
      {e : Expr α} (h : (m.toExprWith select s).result = .ok e) : Reachable e

/-- Builders and models give no tree that constructors could not give. -/
theorem Reachable.constructible {e : Expr α} (h : e.Reachable) : e.Constructible := by
  induction h with
  | input name => exact .input name
  | const value => exact .const value
  | affine harg h ih => exact .affine ih h
  | unary op harg ih => exact .unary op ih
  | classifier mode harg ih => exact .classifier mode ih
  | ofRow hselect harg h ih => exact Logistic.constructible_ofRow hselect ih h
  | ofMatrix hselect harg h ih => exact Logistic.constructible_ofMatrixResolving hselect ih h
  | ofMatrixNamed hselect harg h ih => exact Logistic.constructible_ofMatrixResolving hselect ih h
  | ofModel hselect h => exact FittedModel.constructible_toExprWith hselect h

theorem Constructible.reachable {e : Expr α} (h : e.Constructible) : e.Reachable := by
  induction h with
  | input name => exact .input name
  | const value => exact .const value
  | affine harg h ih => exact .affine ih h
  | unary op harg ih => exact .unary op ih
  | classifier mode harg ih => exact .classifier mode ih

theorem reachable_iff_wellFormed {e : Expr α} : e.Reachable ↔ e.WellFormed :=
  ⟨fun h => constructible_iff_wellFormed.mp h.constructible,
    fun h => (constructible_iff_wellFormed.mpr h).reachable⟩

end Expr
end ScoreTree
