import ScoreTree.Proofs.Shares

/-!
# Textbook logistic regression

What the four methods of a fitted model mean over an ordered field, written with sums over the
features and the classes. `eval_toExpr_answers` says that the tree of a model computes exactly this.
-/

namespace ScoreTree

universe u

namespace FittedModel

variable {K : Type u} [Field K]

/-- The score of a class: the sum over the features, and the intercept. -/
def score (m : FittedModel K) (x : List K) (i : ℕ) : K :=
  ∑ j ∈ Finset.range m.features, (m.coef.getD i []).getD j 0 * x.getD j 0 + m.intercept.getD i 0

/-- A number for each class, of which a single row has one. -/
def perClass (m : FittedModel K) (f : ℕ → K) : Value K :=
  if m.coef.length = 1 then .scalar (f 0) else .vector ((List.range m.coef.length).map f)

variable [LinearOrder K] [ExpLn K]

/-- The probabilities of the classes with scores `d`. A single row that stands for two classes with
the scores `-d` and `d` has the sigmoid of their difference. -/
def probability (m : FittedModel K) (strategy : Strategy) (d : ℕ → K) : Value K :=
  let n := m.coef.length
  m.perClass fun i =>
    match strategy with
    | .ovr =>
      if n = 1 then Scalar.sigmoid (d i)
      else Scalar.sigmoid (d i) / ∑ k ∈ Finset.range n, Scalar.sigmoid (d k)
    | .multinomial =>
      if n = 1 then Scalar.sigmoid (2 * d i)
      else ExpLn.exp (d i) / ∑ k ∈ Finset.range n, ExpLn.exp (d k)

/-- What a method answers for the features `x`. -/
def Answers (m : FittedModel K) (x : List K) : Method → Value K → Prop
  | .decisionFunction, v => v = m.perClass (m.score x)
  | .predict, v =>
    if m.coef.length = 1 then v = .scalar (if 0 < m.score x 0 then 1 else 0)
    else ∃ k : ℕ, v = .scalar (k : K) ∧
      IsLeast {i | i < m.coef.length ∧ ∀ j < m.coef.length, m.score x j ≤ m.score x i} k
  | .predictProba, v =>
    ∃ strategy, m.strategy = .ok strategy ∧ v = m.probability strategy (m.score x)
  | .predictLogProba, v =>
    ∃ strategy, m.strategy = .ok strategy ∧
      v = (m.probability strategy (m.score x)).map ExpLn.ln

end FittedModel

theorem sum_map_range {M : Type u} [AddCommMonoid M] (n : ℕ) (f : ℕ → M) :
    ((List.range n).map f).sum = ∑ k ∈ Finset.range n, f k := by
  induction n with
  | zero => simp
  | succ n ih => simp [List.range_succ, Finset.sum_range_succ, ih]

namespace FittedModel

variable {K : Type u} [Field K] [LinearOrder K] [ExpLn K] {b : Bindings K}

omit [LinearOrder K] [ExpLn K] in
theorem score_eq_dot {m : FittedModel K} {x row : List K} {c : K} {i : ℕ}
    (hrow : m.coef[i]? = some row) (hc : m.intercept[i]? = some c)
    (hlength : row.length = m.features) (hx : x.length = m.features) :
    m.score x i = Vector.dot row x + c := by
  rw [Vector.dot_eq_sum_range (hlength.trans hx.symm)]
  simp [score, hrow, hc, hlength]

theorem eval_singleRowScores {m : FittedModel K} {s : Settings} {x : Row K}
    (hrows : m.coef.length = 1) (hintercept : m.intercept.length = 1)
    (hx : x.entries.length = m.features) (hb : b.get? s.input = some (.vector x)) :
    (m.singleRowScores s).eval b = .ok (.scalar
      (if s.method.isProbability = true ∧ m.resolved? = some .multinomial
        then 2 * m.score x.entries 0 else m.score x.entries 0)) := by
  obtain ⟨row, hrow⟩ := List.length_eq_one_iff.mp hrows
  obtain ⟨c, hc⟩ := List.length_eq_one_iff.mp hintercept
  have hfeatures : m.features = row.length := by simp [features, hrow]
  have hscore : m.score x.entries 0 = Vector.dot row x.entries + c :=
    score_eq_dot (by simp [hrow]) (by simp [hc]) hfeatures.symm hx
  have hinput := Expr.eval_input hb
  by_cases hdouble : s.method.isProbability = true ∧ m.resolved? = some .multinomial
  · rw [singleRowScores, Expr.eval_linear hinput]
    · simp only [if_pos hdouble, hrow, hc, Weights.apply, List.headD_cons, Value.components,
        Row.dot_eq, Row.entries_ofList]
      rw [Vector.dot_map_mul, hscore]
      push_cast
      ring_nf
    · simp [Value.components, Weights.features, hx, hrow, hfeatures]
  · rw [singleRowScores, Expr.eval_linear hinput]
    · simp [hdouble, hrow, hc, Weights.apply, Value.components, Row.dot_eq, hscore]
    · simp [Value.components, Weights.features, hx, hrow, hfeatures]

theorem eval_rowsScores {m : FittedModel K} {input : String} {x : Row K}
    (heven : m.unevenRow = m.coef.length) (hintercept : m.intercept.length = m.coef.length)
    (hx : x.entries.length = m.features) (hb : b.get? input = some (.vector x)) :
    (m.rowsScores input).eval b =
      .ok (.vector ((List.range m.coef.length).map (m.score x.entries))) := by
  have hrows : ∀ row ∈ m.coef, row.length = m.features := unevenRow_eq_length_iff.mp heven
  let weights : Weights K := .matrix (.rowMajor m.coef hrows) m.intercept
  have hscores : m.rowsScores input = .linear weights (.input input) :=
    rowsScores_eq input (Matrix.ofRows_rowMajor hrows)
  have hlength : (Value.vector x).components.entries.length = weights.features := hx
  have hvalues : List.zipWith (fun row c => Layout.standard.dot x.layout row x.entries + c) m.coef
      m.intercept = (List.range m.coef.length).map (m.score x.entries) := by
    refine List.ext_getElem (by simp [hintercept]) ?_
    intro i hi _
    have hcoef : i < m.coef.length := by simpa [hintercept] using hi
    have hlast : i < m.intercept.length := hintercept ▸ hcoef
    rw [List.getElem_zipWith, List.getElem_map, List.getElem_range, Layout.dot_eq,
      score_eq_dot (List.getElem?_eq_getElem hcoef) (List.getElem?_eq_getElem hlast)
        (hrows _ (List.getElem_mem hcoef)) hx]
  rw [hscores, Expr.eval_linear (Expr.eval_input hb) hlength, ← hvalues]
  rfl

theorem probability_of_row {m : FittedModel K} (hrows : m.coef.length = 1) (strategy : Strategy)
    (d : ℕ → K) :
    m.probability strategy d =
      .scalar (Scalar.sigmoid (if strategy = .multinomial then 2 * d 0 else d 0)) := by
  cases strategy <;> simp [probability, perClass, hrows]

theorem probability_of_rows {m : FittedModel K} (hrows : m.coef.length ≠ 1) (strategy : Strategy)
    (d : ℕ → K) :
    m.probability strategy d =
      .vector (Vector.shares strategy.weight ((List.range m.coef.length).map d)) := by
  cases strategy <;>
    simp [probability, perClass, hrows, Vector.shares, Strategy.weight, Function.comp_def,
      sum_map_range]

variable [IsStrictOrderedRing K] [ExpLaws K]

theorem eval_rowTree_answers {m : FittedModel K} {s : Settings} {x : Row K}
    (hrows : m.coef.length = 1) (hintercept : m.intercept.length = 1)
    (hresolved : s.method.isProbability = true → m.resolved?.isSome = true)
    (hx : x.entries.length = m.features) (hb : b.get? s.input = some (.vector x)) :
    ∃ v, (Logistic.rowTree (m.singleRowScores s) s.method).eval b = .ok v ∧
      m.Answers x.entries s.method v := by
  have hscores := eval_singleRowScores hrows hintercept hx hb
  refine ⟨_, Logistic.eval_rowTree hscores s.method, ?_⟩
  generalize s.method = method at hresolved ⊢
  cases method with
  | decisionFunction => simp [Logistic.rowValue, Answers, perClass, hrows, Method.isProbability]
  | predict => simp [Logistic.rowValue, Answers, hrows, Method.isProbability, Scalar.step_eq]
  | predictProba =>
    obtain ⟨strategy, hstrategy⟩ := Option.isSome_iff_exists.mp (hresolved rfl)
    refine ⟨strategy, strategy_of_resolved hstrategy, ?_⟩
    rw [probability_of_row hrows]
    simp [Logistic.rowValue, hstrategy, Method.isProbability, Scalar.logistic_eq_sigmoid]
  | predictLogProba =>
    obtain ⟨strategy, hstrategy⟩ := Option.isSome_iff_exists.mp (hresolved rfl)
    refine ⟨strategy, strategy_of_resolved hstrategy, ?_⟩
    rw [probability_of_row hrows]
    simp [Logistic.rowValue, hstrategy, Method.isProbability, Value.map,
      Scalar.logistic_eq_sigmoid]

theorem eval_rowsTree_answers {m : FittedModel K} {s : Settings} {x : Row K}
    (hpos : 0 < m.coef.length) (hrows : m.coef.length ≠ 1)
    (heven : m.unevenRow = m.coef.length) (hintercept : m.intercept.length = m.coef.length)
    (hresolved : s.method.isProbability = true → m.resolved?.isSome = true)
    (hx : x.entries.length = m.features) (hb : b.get? s.input = some (.vector x)) :
    ∃ v, (Logistic.rowsTree (m.rowsScores s.input) (m.resolved?.getD .ovr) s.method).eval b =
      .ok v ∧ m.Answers x.entries s.method v := by
  have hscores := eval_rowsScores heven hintercept hx hb
  obtain ⟨d, ds, hcons⟩ : ∃ d ds, (List.range m.coef.length).map (m.score x.entries) = d :: ds :=
    List.exists_cons_of_ne_nil (by simpa using hpos.ne')
  have hprobs (strategy : Strategy) : m.probability strategy (m.score x.entries) =
      .vector (Logistic.probabilityValues strategy d ds) := by
    rw [probability_of_rows hrows, hcons, Logistic.probabilityValues_eq_shares]
  rw [hcons] at hscores
  refine ⟨_, Logistic.eval_rowsTree hscores _ s.method, ?_⟩
  generalize s.method = method at hresolved ⊢
  cases method with
  | decisionFunction => simp [Logistic.rowsValue, Answers, perClass, hrows, hcons]
  | predict =>
    rw [Answers, if_neg hrows]
    exact ⟨_, rfl, (Vector.argMax_isFirstMax (m.score x.entries) hcons.symm).isLeast⟩
  | predictProba =>
    obtain ⟨strategy, hstrategy⟩ := Option.isSome_iff_exists.mp (hresolved rfl)
    refine ⟨strategy, strategy_of_resolved hstrategy, ?_⟩
    rw [hstrategy, hprobs]
    rfl
  | predictLogProba =>
    obtain ⟨strategy, hstrategy⟩ := Option.isSome_iff_exists.mp (hresolved rfl)
    refine ⟨strategy, strategy_of_resolved hstrategy, ?_⟩
    rw [hstrategy, hprobs]
    rfl

/-- The tree of a model computes what the textbook says, for every row of features. -/
theorem eval_toExpr_answers {m : FittedModel K} {s : Settings} {tree : Expr K}
    (htree : (m.toExpr s).result = .ok tree) {x : Row K} (hx : x.entries.length = m.features)
    (hb : b.get? s.input = some (.vector x)) :
    ∃ v, tree.eval b = .ok v ∧ m.Answers x.entries s.method v := by
  by_cases hrows : m.coef.length = 1
  · obtain ⟨row, hrow⟩ := List.length_eq_one_iff.mp hrows
    obtain ⟨hintercept, hresolved, -, rfl⟩ := (toExpr_eq_ok_iff_of_row hrow).mp htree
    exact eval_rowTree_answers hrows hintercept hresolved hx hb
  · obtain ⟨hpos, heven, hintercept, -, hresolved, rfl⟩ :=
      (toExpr_eq_ok_iff_of_rows hrows).mp htree
    exact eval_rowsTree_answers hpos hrows heven hintercept hresolved hx hb

/-- Three classes with nine features, one more than the lanes of a sum. -/
def threeClasses : FittedModel ℝ where
  coef := [[1, 0, 0, 0, 0, 0, 0, 0, 2], [0, 1, 0, 0, 0, 0, 0, 0, 0], [0, 0, 1, 0, 0, 0, 0, 0, -1]]
  intercept := [0, 1, 2]
  classes := none
  strategyName := "auto"
  solver := "lbfgs"

/-- A row of features that lie from the last to the first. -/
def nineFeatures : Row ℝ := ⟨[1, 2, 3, 4, 5, 6, 7, 8, 9], .reversed, by simp⟩

theorem eval_toExpr_answers_threeClasses :
    ∃ tree, (threeClasses.toExpr ⟨.predictLogProba, "x"⟩).result = .ok tree ∧
      ∃ v, tree.eval (Bindings.empty.bind "x" (.vector nineFeatures)) = .ok v ∧
        threeClasses.Answers nineFeatures.entries .predictLogProba v := by
  have htree : (threeClasses.toExpr ⟨.predictLogProba, "x"⟩).result = .ok _ := rfl
  exact ⟨_, rfl, eval_toExpr_answers htree (x := nineFeatures) rfl
    (Bindings.get?_bind_self Bindings.empty "x" _)⟩

end FittedModel
end ScoreTree
