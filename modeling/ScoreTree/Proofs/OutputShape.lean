import ScoreTree.Proofs.BuiltTree
import ScoreTree.Proofs.Shape

/-!
# Shapes of outputs

The tree of a model is an affine map of its input, under operators that suit the shape of its scores:
a scalar for a single row, a vector with one component per class otherwise. So only the input can
make an evaluation fail, by being unbound or by having another number of features
(`Regular.shape_tree`), and no operator meets an argument that it refuses
(`eval_toExpr_never_wrong`).
-/

namespace ScoreTree

universe u

variable {α : Type u}

namespace Shape

/-- The shape of an affine map with a given number of features and a given result, when its argument
is the input of a name. -/
def ofAffine (features : ℕ) (result : Shape) (name : String) :
    Option Shape → Except EvalError Shape
  | none => .error (.unbound name)
  | some s => if s.size = features then .ok result else .error (.featureCount features s.size)

theorem map_ofAffine (g : Shape → Shape) (features : ℕ) (result : Shape) (name : String)
    (s : Option Shape) :
    (ofAffine features result name s).map g = ofAffine features (g result) name s := by
  cases s with
  | none => rfl
  | some s =>
    simp only [ofAffine]
    split_ifs <;> rfl

theorem eq_of_ofAffine {features : ℕ} {result r : Shape} {name : String} {s : Option Shape}
    (h : ofAffine features result name s = .ok r) : r = result := by
  cases s with
  | none => cases h
  | some s =>
    simp only [ofAffine] at h
    split_ifs at h
    exact (Except.ok.inj h).symm

end Shape

namespace Expr

theorem wellFormed_linear_input {w : Weights α} (h : w.WellFormed) (name : String) :
    (linear w (input name)).WellFormed :=
  ⟨h, trivial⟩

theorem shape_linear_input (w : Weights α) (name : String) (shapes : String → Option Shape) :
    (linear w (input name)).shape shapes =
      Shape.ofAffine w.features w.resultShape name (shapes name) := by
  simp only [shape]
  cases shapes name <;> rfl

end Expr

namespace Logistic

theorem wellFormed_rowTree {scores : Expr α} (h : scores.WellFormed) (method : Method) :
    (rowTree scores method).WellFormed := by
  cases method <;> exact h

theorem wellFormed_rowsTree {scores : Expr α} (h : scores.WellFormed) (strategy : Strategy)
    (method : Method) : (rowsTree scores strategy method).WellFormed := by
  cases method <;> cases strategy <;> exact h

/-- Over a single row all operators are pointwise. -/
theorem shape_rowTree {scores : Expr α} {shapes : String → Option Shape}
    (h : ∀ s, scores.shape shapes = .ok s → s = .scalar) (method : Method) :
    (rowTree scores method).shape shapes = scores.shape shapes := by
  cases hscores : scores.shape shapes with
  | error error => cases method <;> simp only [rowTree, Expr.shape, hscores] <;> rfl
  | ok s =>
    obtain rfl := h s hscores
    cases method <;> simp only [rowTree, Expr.shape, hscores] <;> rfl

/-- Over several rows the operators take a vector that is not empty, and only the position of the
largest score is no vector again. -/
theorem shape_rowsTree {scores : Expr α} {shapes : String → Option Shape}
    (h : ∀ s, scores.shape shapes = .ok s → ∃ n, s = .vector (n + 1) .standard) (strategy : Strategy)
    (method : Method) :
    (rowsTree scores strategy method).shape shapes =
      (scores.shape shapes).map fun s => if method = .predict then .scalar else s := by
  cases hscores : scores.shape shapes with
  | error error =>
    cases method <;> cases strategy <;> simp only [rowsTree, probabilities, Expr.shape, hscores] <;>
      rfl
  | ok s =>
    obtain ⟨n, rfl⟩ := h s hscores
    cases method <;> cases strategy <;> simp only [rowsTree, probabilities, Expr.shape, hscores] <;>
      rfl

end Logistic

namespace FittedModel

/-- The shape of an output. A class index is a scalar, and so is all that a single row gives. -/
def outputShape (m : FittedModel α) (method : Method) : Shape :=
  if method = .predict ∨ m.coef.length = 1 then .scalar else .vector m.classCount .standard

theorem Regular.exists_weights_rows {m : FittedModel α} (hm : m.Regular) (input : String) :
    ∃ w : Weights α, m.rowsScores input = .linear w (.input input) ∧ w.WellFormed ∧
      w.features = m.features ∧ w.resultShape = .vector m.coef.length .standard :=
  ⟨.matrix (.rowMajor m.coef hm.length_eq) m.intercept, hm.rowsScores_eq input,
    ⟨hm.features_pos, hm.rows_pos, hm.intercepts⟩, rfl, rfl⟩

variable [NatCast α] [Mul α]

theorem Regular.exists_weights_row {m : FittedModel α} (hm : m.Regular) (s : Settings) :
    ∃ w : Weights α, m.singleRowScores s = .linear w (.input s.input) ∧ w.WellFormed ∧
      w.features = m.features ∧ w.resultShape = .scalar := by
  refine ⟨_, rfl, ?_, ?_, rfl⟩
  · have := hm.features_pos
    simpa [Weights.WellFormed, features] using this
  · simp [Weights.features, features]

theorem Regular.wellFormed_tree {m : FittedModel α} (hm : m.Regular) (s : Settings) :
    (m.tree s).WellFormed := by
  unfold tree
  split_ifs
  · obtain ⟨w, hscores, hw, -⟩ := hm.exists_weights_row s
    rw [hscores]
    exact Logistic.wellFormed_rowTree (Expr.wellFormed_linear_input hw _) _
  · obtain ⟨w, hscores, hw, -⟩ := hm.exists_weights_rows s.input
    rw [hscores]
    exact Logistic.wellFormed_rowsTree (Expr.wellFormed_linear_input hw _) _ _

/-- A tree has a shape exactly if its scores have one. -/
theorem Regular.shape_tree {m : FittedModel α} (hm : m.Regular) (s : Settings)
    (shapes : String → Option Shape) :
    (m.tree s).shape shapes =
      Shape.ofAffine m.features (m.outputShape s.method) s.input (shapes s.input) := by
  unfold tree outputShape classCount
  by_cases hrows : m.coef.length = 1
  · obtain ⟨w, hscores, -, hfeatures, hresult⟩ := hm.exists_weights_row s
    have hshape := Expr.shape_linear_input w s.input shapes
    rw [hfeatures, hresult] at hshape
    have hscalar : ∀ r, (m.singleRowScores s).shape shapes = .ok r → r = .scalar := by
      intro r hr
      rw [hscores, hshape] at hr
      exact Shape.eq_of_ofAffine hr
    rw [if_pos hrows, if_pos (.inr hrows), Logistic.shape_rowTree hscalar, hscores, hshape]
  · obtain ⟨w, hscores, -, hfeatures, hresult⟩ := hm.exists_weights_rows s.input
    have hshape := Expr.shape_linear_input w s.input shapes
    rw [hfeatures, hresult] at hshape
    -- There is a row, so the operators on vectors never see an empty one.
    have hvector : ∀ r, (m.rowsScores s.input).shape shapes = .ok r →
        ∃ n, r = .vector (n + 1) .standard := by
      intro r hr
      rw [hscores, hshape] at hr
      obtain ⟨n, hn⟩ := Nat.exists_eq_add_one.mpr hm.rows_pos
      exact ⟨n, hn ▸ Shape.eq_of_ofAffine hr⟩
    rw [if_neg hrows, if_neg hrows, Logistic.shape_rowsTree hvector, hscores, hshape,
      Shape.map_ofAffine]
    simp only [hrows, or_false]

variable [Add α] [Sub α] [Neg α] [Div α] [ExpLn α] [LT α] [DecidableLT α] [LE α] [DecidableLE α]

section Evaluation

variable {m : FittedModel α} {s : Settings} {b : Bindings α} {v : Value α}

theorem Regular.eval_tree_of_unbound (hm : m.Regular) (hinput : b.get? s.input = none) :
    (m.tree s).eval b = .error (.unbound s.input) := by
  have hshape := hm.shape_tree s b.shapes
  rw [Bindings.shapes, hinput] at hshape
  exact Expr.eval_eq_error_of_shape (hm.wellFormed_tree s) hshape

theorem Regular.eval_tree_of_length_ne (hm : m.Regular) (hinput : b.get? s.input = some v)
    (hlength : v.components.entries.length ≠ m.features) :
    (m.tree s).eval b = .error (.featureCount m.features v.components.entries.length) := by
  have hshape := hm.shape_tree s b.shapes
  rw [Bindings.shapes, hinput, Option.map_some, Shape.ofAffine, ← Value.length_components,
    if_neg hlength] at hshape
  exact Expr.eval_eq_error_of_shape (hm.wellFormed_tree s) hshape

/-- Over an input with the right number of features a tree has a value of the shape of its output. -/
theorem Regular.exists_value (hm : m.Regular) (hinput : b.get? s.input = some v)
    (hlength : v.components.entries.length = m.features) :
    ∃ r, (m.tree s).eval b = .ok r ∧ r.shape = m.outputShape s.method := by
  have hshape := hm.shape_tree s b.shapes
  rw [Bindings.shapes, hinput, Option.map_some, Shape.ofAffine, ← Value.length_components,
    if_pos hlength] at hshape
  exact Expr.exists_eval_of_shape (hm.wellFormed_tree s) hshape

end Evaluation

/-- A tree that was built fails only if its input is unbound or has the wrong number of features, and
gives a value of the shape of its output otherwise. -/
theorem eval_toExpr_never_wrong {m : FittedModel α} {s : Settings} {tree : Expr α}
    (htree : (m.toExpr s).result = .ok tree) (b : Bindings α) :
    (b.get? s.input = none → tree.eval b = .error (.unbound s.input)) ∧
      (∀ v, b.get? s.input = some v → v.components.entries.length ≠ m.features →
        tree.eval b = .error (.featureCount m.features v.components.entries.length)) ∧
      (∀ v, b.get? s.input = some v → v.components.entries.length = m.features →
        ∃ r, tree.eval b = .ok r ∧ r.shape = m.outputShape s.method) ∧
      ∀ op, tree.eval b ≠ .error (.expectedVector op) ∧ tree.eval b ≠ .error (.emptyVector op) := by
  obtain ⟨hm, -, rfl⟩ := toExpr_eq_ok_iff.mp htree
  refine ⟨hm.eval_tree_of_unbound, fun v => hm.eval_tree_of_length_ne, fun v => hm.exists_value, ?_⟩
  intro op
  cases hinput : b.get? s.input with
  | none => simp [hm.eval_tree_of_unbound hinput]
  | some v =>
    by_cases hlength : v.components.entries.length = m.features
    · obtain ⟨r, hr, -⟩ := hm.exists_value hinput hlength
      simp [hr]
    · simp [hm.eval_tree_of_length_ne hinput hlength]

/-- Three classes of two features, each class against the rest. -/
def threeAgainstRest : FittedModel Float where
  coef := [[1, 0], [0, 1], [-1, -1]]
  intercept := [0, 0.5, -0.5]
  classes := none
  strategyName := "auto"
  solver := "liblinear"

/-- A row with gaps between its entries, of which one is incomparable. -/
def gappedRow : Row Float := ⟨[0 / 0, 1], .strided, by simp⟩

theorem eval_toExpr_never_wrong_threeAgainstRest :
    ∃ tree, (threeAgainstRest.toExpr ⟨.predictLogProba, "x"⟩).result = .ok tree ∧
      tree.eval Bindings.empty = .error (.unbound "x") ∧
      tree.eval (Bindings.empty.bind "x" (.scalar 1)) = .error (.featureCount 2 1) ∧
      ∃ r, tree.eval (Bindings.empty.bind "x" (.vector gappedRow)) = .ok r ∧
        r.shape = .vector 3 .standard := by
  have never (b : Bindings Float) :=
    eval_toExpr_never_wrong (m := threeAgainstRest) (s := ⟨.predictLogProba, "x"⟩) rfl b
  refine ⟨_, rfl, (never _).1 rfl, (never _).2.1 (.scalar 1) rfl (by decide), ?_⟩
  exact (never _).2.2.1 (.vector gappedRow) rfl rfl

end FittedModel
end ScoreTree
