import ScoreTree.Proofs.Textbook

/-!
# The predicted class and the probabilities

The predicted class is read off the scores, the probabilities are computed from them. Shares are
ordered as their weights are, so the class of the first largest score has a largest probability, and
the first one wherever the weights increase strictly (`predict_agrees_with_probabilities`).
-/

namespace ScoreTree

variable {K : Type*} [Field K] [LinearOrder K]

namespace Vector

theorem argMax_isFirstMax_getD (x : K) (xs : List K) :
    IsFirstMax (fun i => (x :: xs).getD i 0) (x :: xs).length (argMax x xs) := by
  refine argMax_isFirstMax _ (List.ext_getElem (by simp) ?_)
  intro i hi _
  rw [List.getElem_map, List.getElem_range, List.getElem_eq_getD 0]

variable [IsStrictOrderedRing K]

theorem shares_lt_shares_iff {f : K → K} (hf : ∀ x, 0 < f x) {xs : List K} {i j : ℕ}
    (hi : i < xs.length) (hj : j < xs.length) :
    (shares f xs).getD i 0 < (shares f xs).getD j 0 ↔ f (xs.getD i 0) < f (xs.getD j 0) := by
  have hsum := sum_map_pos hf (List.ne_nil_of_length_pos (Nat.zero_lt_of_lt hi))
  rw [getD_shares hi, getD_shares hj, div_lt_div_iff_of_pos_right hsum]

theorem shares_le_of_isFirstMax {f : K → K} (hf : ∀ x, 0 < f x) (hmono : Monotone f) {xs : List K}
    {k : ℕ} (h : IsFirstMax (fun i => xs.getD i 0) xs.length k) :
    ∀ q ∈ shares f xs, q ≤ (shares f xs).getD k 0 := by
  intro q hq
  obtain ⟨j, hj, rfl⟩ := List.getElem_of_mem hq
  have hlength : j < xs.length := by simpa using hj
  rw [List.getElem_eq_getD 0]
  refine not_lt.mp fun hlt => ?_
  rw [shares_lt_shares_iff hf h.lt hlength] at hlt
  exact absurd (hmono (h.le j hlength)) (not_le.mpr hlt)

theorem isFirstMax_shares {f : K → K} (hf : ∀ x, 0 < f x) {range : Set K}
    (hmono : StrictMonoOn f range) {xs : List K} (hxs : ∀ x ∈ xs, x ∈ range) {k : ℕ}
    (h : IsFirstMax (fun i => xs.getD i 0) xs.length k) :
    IsFirstMax (fun i => (shares f xs).getD i 0) (shares f xs).length k := by
  have hrange : ∀ i < xs.length, xs.getD i 0 ∈ range := by
    intro i hi
    rw [← List.getElem_eq_getD (h := hi)]
    exact hxs _ (List.getElem_mem hi)
  rw [length_shares]
  refine h.of_lt_iff_lt fun i hi j hj => ?_
  rw [shares_lt_shares_iff hf hi hj, hmono.lt_iff_lt (hrange i hi) (hrange j hj)]

end Vector

/-- The scores that a strategy tells apart. The sigmoid takes those beyond its limits for equal. -/
def Strategy.range : Strategy → Set K
  | .ovr => {t | Scalar.limit t = t}
  | .multinomial => Set.univ

theorem FittedModel.score_mem_range {m : FittedModel K} {x : List K} {strategy : Strategy}
    (hstrategy : m.resolved? = some strategy)
    (h : m.strategy = .ok .multinomial ∨
      ∀ i < m.coef.length, m.score x i ∈ Set.Icc (-500) 500) :
    ∀ i < m.coef.length, m.score x i ∈ strategy.range := by
  intro i hi
  cases strategy with
  | ovr =>
    rcases h with hmultinomial | hscores
    · rw [strategy_of_resolved hstrategy] at hmultinomial
      cases hmultinomial
    · exact Scalar.limit_eq_self (hscores i hi)
  | multinomial => exact Set.mem_univ _

variable [ExpLn K] {b : Bindings K}

/-- The label that the standard selector reads off probabilities is the position of the first
largest one. -/
theorem Selector.exists_standard_label {probs : Expr K} {p : List K} {k : ℕ}
    (h : probs.eval b = .ok (.vector p))
    (hk : Vector.IsFirstMax (fun i => p.getD i 0) p.length k) :
    ∃ label, Selector.standard probs .predict = .ok label ∧
      label.eval b = .ok (.scalar (k : K)) := by
  obtain ⟨q, qs, rfl⟩ : ∃ q qs, p = q :: qs :=
    List.exists_cons_of_ne_nil (List.ne_nil_of_length_pos (Nat.zero_lt_of_lt hk.lt))
  refine ⟨_, rfl, ?_⟩
  rw [hk.unique (Vector.argMax_isFirstMax_getD q qs)]
  exact Expr.eval_unary h

variable [ExpLaws K] [IsStrictOrderedRing K]

theorem Strategy.weight_strictMonoOn (strategy : Strategy) :
    StrictMonoOn (strategy.weight : K → K) strategy.range := by
  cases strategy with
  | ovr => exact Scalar.sigmoid_strictMonoOn
  | multinomial => exact ExpLaws.exp_strictMono.strictMonoOn _

namespace FittedModel

variable {m : FittedModel K} {input : String} {x : Row K}

/-- A single row predicts the positive class exactly where its probability is above one half. -/
theorem Regular.label_eq_one_iff (hm : m.Regular) (hrows : m.coef.length = 1)
    (hx : x.entries.length = m.features) (hb : b.get? input = some (.vector x)) :
    ∃ (k : ℕ) (p : K), (m.tree ⟨.predict, input⟩).eval b = .ok (.scalar (k : K)) ∧
      (m.tree ⟨.predictProba, input⟩).eval b = .ok (.scalar p) ∧ (k = 1 ↔ 1 / 2 < p) := by
  have hvalue (method : Method) := eval_tree_of_row hrows
    (eval_singleRowScores (s := ⟨method, input⟩) hrows (hm.intercepts.trans hrows) hx hb)
  refine ⟨if 0 < m.score x.entries 0 then 1 else 0, _, (hvalue .predict).trans ?_,
    hvalue .predictProba, ?_⟩
  · simp [Logistic.rowValue, Method.isProbability, Scalar.step_eq]
  · rw [Scalar.logistic_eq_sigmoid, Scalar.half_lt_sigmoid_iff]
    split_ifs <;> simp_all

/-- Several rows predict a class of largest probability, and the first one if the strategy tells the
scores apart. -/
theorem Regular.label_isFirstMax (hm : m.Regular) (hrows : m.coef.length ≠ 1)
    (strategy : Strategy) (hx : x.entries.length = m.features) (hb : b.get? input = some (.vector x)) :
    ∃ (k : ℕ) (p : List K), (m.tree ⟨.predict, input⟩).eval b = .ok (.scalar (k : K)) ∧
      (Logistic.probabilities strategy (m.rowsScores input)).eval b = .ok (.vector p) ∧
      k < p.length ∧ (∀ q ∈ p, q ≤ p.getD k 0) ∧
      ((∀ i < m.coef.length, m.score x.entries i ∈ strategy.range) →
        Vector.IsFirstMax (fun i => p.getD i 0) p.length k) := by
  have hscores := eval_rowsScores (unevenRow_eq_length_iff.mpr hm.length_eq) hm.intercepts hx hb
  obtain ⟨d, ds, hcons⟩ : ∃ d ds, (List.range m.coef.length).map (m.score x.entries) = d :: ds :=
    List.exists_cons_of_ne_nil (by simpa using hm.rows_pos.ne')
  rw [hcons] at hscores
  have hprobs := Logistic.eval_probabilities hscores strategy
  rw [Logistic.probabilityValues_eq_shares] at hprobs
  -- The scan runs over the scores. What it finds is carried over to the shares by their order.
  have hfirst := Vector.argMax_isFirstMax_getD d ds
  refine ⟨_, _, eval_tree_of_rows (s := ⟨.predict, input⟩) hrows hscores, hprobs,
    by simpa using hfirst.lt,
    Vector.shares_le_of_isFirstMax strategy.weight_pos strategy.weight_mono hfirst, ?_⟩
  intro hrange
  refine Vector.isFirstMax_shares strategy.weight_pos strategy.weight_strictMonoOn ?_ hfirst
  rw [← hcons]
  simpa using hrange

/-- The predicted class is a class of largest probability, by both strategies. It is the class that
the position of the largest probability names, unless two scores beyond the limits of the sigmoid
are taken for equal. -/
theorem predict_agrees_with_probabilities {tree : Expr K}
    (htree : (m.toExpr ⟨.predictProba, input⟩).result = .ok tree) (hx : x.entries.length = m.features)
    (hb : b.get? input = some (.vector x)) :
    ∃ k : ℕ, m.output ⟨.predict, input⟩ b = .ok (.scalar (k : K)) ∧
      (m.coef.length = 1 → ∃ p, tree.eval b = .ok (.scalar p) ∧ (k = 1 ↔ 1 / 2 < p)) ∧
      (m.coef.length ≠ 1 → ∃ (probs : Expr K) (p : List K),
        tree = .classifier .probability probs ∧ tree.eval b = .ok (.vector p) ∧
        k < p.length ∧ (∀ q ∈ p, q ≤ p.getD k 0) ∧
        (m.strategy = .ok .multinomial ∨
            (∀ i < m.coef.length, m.score x.entries i ∈ Set.Icc (-500) 500) →
          Vector.IsFirstMax (fun i => p.getD i 0) p.length k ∧
          ∃ label, Selector.standard probs .predict = .ok label ∧
            label.eval b = .ok (.scalar (k : K)))) := by
  obtain ⟨hm, hresolved, rfl⟩ := toExpr_eq_ok_iff.mp htree
  obtain ⟨strategy, hstrategy⟩ := Option.isSome_iff_exists.mp (hresolved rfl)
  by_cases hrows : m.coef.length = 1
  · obtain ⟨k, p, hlabel, hprob, hk⟩ := hm.label_eq_one_iff hrows hx hb
    exact ⟨k, hm.output_eq (by simp [Method.isProbability]) hlabel, fun _ => ⟨p, hprob, hk⟩,
      fun h => absurd hrows h⟩
  · obtain ⟨k, p, hlabel, hprobs, hlt, hle, hfirst⟩ := hm.label_isFirstMax hrows strategy hx hb
    have htree : m.tree ⟨.predictProba, input⟩ =
        .classifier .probability (Logistic.probabilities strategy (m.rowsScores input)) := by
      rw [FittedModel.tree, if_neg hrows, hstrategy]
      rfl
    rw [htree]
    refine ⟨k, hm.output_eq (by simp [Method.isProbability]) hlabel, fun h => absurd h hrows,
      fun _ => ⟨_, p, rfl, hprobs, hlt, hle, fun hcondition => ?_⟩⟩
    have hmax := hfirst (score_mem_range hstrategy hcondition)
    exact ⟨hmax, Selector.exists_standard_label hprobs hmax⟩

theorem predict_agrees_with_probabilities_threeClasses :
    ∃ tree, (threeClasses.toExpr ⟨.predictProba, "x"⟩).result = .ok tree ∧
      threeClasses.coef.length ≠ 1 ∧ threeClasses.strategy = .ok .multinomial ∧
      ∃ (k : ℕ) (p : List ℝ),
        threeClasses.output ⟨.predict, "x"⟩
            (Bindings.empty.bind "x" (.vector nineFeatures)) =
          .ok (.scalar (k : ℝ)) ∧
        tree.eval (Bindings.empty.bind "x" (.vector nineFeatures)) =
          .ok (.vector p) ∧
        Vector.IsFirstMax (fun i => p.getD i 0) p.length k := by
  have htree : (threeClasses.toExpr ⟨.predictProba, "x"⟩).result = .ok _ := rfl
  obtain ⟨k, hlabel, -, hrows⟩ := predict_agrees_with_probabilities
    (x := nineFeatures) htree rfl (Bindings.get?_bind_self ..)
  obtain ⟨_, p, -, hp, -, -, hfirst⟩ := hrows (by decide)
  exact ⟨_, rfl, by decide, rfl, k, p, hlabel, hp, (hfirst (.inl rfl)).1⟩

end FittedModel
end ScoreTree
