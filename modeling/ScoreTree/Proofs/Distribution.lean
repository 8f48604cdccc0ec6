import ScoreTree.Proofs.Shares

/-!
# Distributions

Whatever the parameters are, the probabilities that a tree computes over an ordered field form a
distribution: positive numbers whose sum is one, and below one if there are several
(`probabilities_isDistribution`). On the way every divisor and every argument of a logarithm is
positive.
-/

namespace ScoreTree

variable {K : Type*} [Field K]

theorem Weights.exists_apply_matrix {coef : Matrix K} {intercept : List K}
    (h : (matrix coef intercept).WellFormed) (x : Row K) :
    ∃ d ds, (matrix coef intercept).apply x = .vector (.ofList (d :: ds)) ∧
      (d :: ds).length = coef.height := by
  obtain ⟨-, hheight, hintercept⟩ := h
  have hlength : (List.zipWith (fun row c => coef.layout.dot x.layout row x.entries + c) coef.rows
      intercept).length = coef.height := by
    simp [hintercept, Matrix.height]
  obtain ⟨d, ds, hcons⟩ := List.exists_cons_of_length_pos (hheight.trans_eq hlength.symm)
  exact ⟨d, ds, by rw [apply, hcons], by rw [← hcons, hlength]⟩

variable [LinearOrder K] [ExpLn K]

/-- Both strategies divide the scores `d :: ds` by a positive sum, and the softmax does divide. -/
structure HasPositiveSums (d : K) (ds : List K) : Prop where
  laneSum_pos : 0 < Vector.laneSum ((d :: ds).map Scalar.logistic)
  plainSum_pos : 0 < Vector.plainSum (Vector.powers d ds)
  softmax_eq :
    Vector.softmax d ds = (Vector.powers d ds).map (· / Vector.plainSum (Vector.powers d ds))

variable [IsStrictOrderedRing K] [ExpLaws K]

theorem hasPositiveSums (d : K) (ds : List K) : HasPositiveSums d ds where
  laneSum_pos := by
    rw [Vector.laneSum_eq_sum]
    refine Vector.sum_map_pos (fun t => ?_) (List.cons_ne_nil d ds)
    rw [Scalar.logistic_eq_sigmoid]
    exact Scalar.sigmoid_pos t
  plainSum_pos := Vector.plainSum_powers_pos d ds
  softmax_eq := Vector.softmax_eq_powers d ds

/-- The probabilities of one row per class are a distribution, and that of a single row lies between
zero and one. Their logarithms are taken of the same positive numbers. -/
theorem probabilities_isDistribution {arg : Expr K} {b : Bindings K} {v : Value K}
    (harg : arg.eval b = .ok v) :
    (∀ (coef : Matrix K) (intercept : List K) (strategy : Strategy),
      (Weights.matrix coef intercept).WellFormed → v.components.entries.length = coef.width →
      ∃ (probs : Expr K) (p : List K) (d : K) (ds : List K),
        (Logistic.ofMatrix Selector.standard coef intercept arg .predictProba strategy).result =
          .ok (.classifier .probability probs) ∧
        (Expr.classifier .probability probs).eval b = .ok (.vector p) ∧
        IsDistribution coef.height p ∧
        (Expr.linear (.matrix coef intercept) arg).eval b = .ok (.vector (d :: ds)) ∧
        HasPositiveSums d ds ∧
        (Logistic.ofMatrix Selector.standard coef intercept arg .predictLogProba strategy).result =
          .ok (.classifier .logProbability (.unary .log probs))) ∧
    (∀ (coef : Row K) (intercept : K),
      (Weights.row coef intercept).WellFormed →
      v.components.entries.length = coef.entries.length →
      ∃ (probs : Expr K) (p : K),
        (Logistic.ofRow Selector.standard coef intercept arg .predictProba).result =
          .ok (.classifier .probability probs) ∧
        (Expr.classifier .probability probs).eval b = .ok (.scalar p) ∧ 0 < p ∧ p < 1 ∧
        (Logistic.ofRow Selector.standard coef intercept arg .predictLogProba).result =
          .ok (.classifier .logProbability (.unary .log probs))) := by
  constructor
  · intro coef intercept strategy hw hlength
    obtain ⟨d, ds, hvalue, hheight⟩ := Weights.exists_apply_matrix hw v.components
    have hscores : (Expr.linear (.matrix coef intercept) arg).eval b = .ok (.vector (d :: ds)) :=
      hvalue ▸ Expr.eval_linear harg hlength
    have hprobs := Logistic.eval_probabilities hscores strategy
    rw [Logistic.probabilityValues_eq_shares] at hprobs
    refine ⟨_, _, d, ds, Logistic.ofMatrix_standard hw arg _ strategy, hprobs, ?_, hscores,
      hasPositiveSums d ds, Logistic.ofMatrix_standard hw arg _ strategy⟩
    rw [← hheight]
    exact Vector.isDistribution_shares strategy.weight_pos (List.cons_ne_nil d ds)
  · intro coef intercept hw hlength
    have hscores : (Expr.linear (.row coef intercept) arg).eval b =
        .ok (.scalar (coef.dot v.components + intercept)) :=
      Expr.eval_linear harg hlength
    have hprob := Logistic.eval_rowTree hscores .predictProba
    rw [Logistic.rowValue, Scalar.logistic_eq_sigmoid] at hprob
    exact ⟨_, _, Logistic.ofRow_standard hw arg _, hprob, Scalar.sigmoid_pos _,
      Scalar.sigmoid_lt_one _, Logistic.ofRow_standard hw arg _⟩

theorem probabilities_isDistribution_threeRows :
    ∃ (probs : Expr ℝ) (p : List ℝ),
      (Logistic.ofMatrix Selector.standard (.rowMajor [[1, 0], [0, 1], [-1, -1]] (by decide))
          [0, 1, 2] (.input "x") .predictProba .ovr).result = .ok (.classifier .probability probs) ∧
        (Expr.classifier .probability probs).eval
          (Bindings.empty.bind "x" (.vector (.ofList [1000, -1000]))) = .ok (.vector p) ∧
        IsDistribution 3 p := by
  obtain ⟨hrows, -⟩ := probabilities_isDistribution
    (Expr.eval_input (Bindings.get?_bind_self Bindings.empty "x"
      (.vector (.ofList [(1000 : ℝ), -1000]))))
  obtain ⟨probs, p, -, -, htree, hp, hdistribution, -⟩ :=
    hrows (.rowMajor [[1, 0], [0, 1], [-1, -1]] (by decide)) [0, 1, 2] .ovr
      ⟨by decide, by decide, rfl⟩ rfl
  exact ⟨probs, p, htree, hp, hdistribution⟩

end ScoreTree
