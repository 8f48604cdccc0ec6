import ScoreTree.Proofs.BuiltValue
import ScoreTree.Proofs.OutputShape

/-!
# Coherent outputs

The outputs of a model are built from the same scores. So their trees exist together, up to the
strategy, which only probabilities ask for (`toExpr_result_eq`); they fail on the same inputs with
the same failure, and where they do not fail each output is a function of another (`Coherent`).
Nothing is asked of the numbers.
-/

namespace ScoreTree

universe u

variable {α : Type u}

/-- The failure of a line that is a fault. -/
def Line.fault? : Line → Option BuildError
  | tell _ => none
  | refuse faulty error => if faulty then some error else none

/-- The result of a build is its first fault, or that of the final build. -/
theorem Build.decide_result_eq {β : Type u} (final : Build α β) (lines : List Line) :
    (decide final lines).result = match lines.findSome? Line.fault? with
      | some error => .error error
      | none => final.result := by
  induction lines with
  | nil => rfl
  | cons line lines ih =>
    rw [List.findSome?_cons]
    cases line with
    | tell event => exact ih
    | refuse faulty error =>
      cases faulty with
      | true => rfl
      | false => exact ih

namespace FittedModel

/-! ## Which trees exist -/

/-- The first fault that keeps a model from having an output. -/
def fault? (m : FittedModel α) (method : Method) : Option BuildError :=
  (if m.coef.length = 1 then m.singleRowLines method else m.rowsLines method).findSome? Line.fault?

/-- Faults depend on the output only by whether it is one of probabilities. -/
theorem fault?_congr (m : FittedModel α) {method method' : Method}
    (h : method.isProbability = method'.isProbability) : m.fault? method = m.fault? method' := by
  unfold fault?
  split_ifs
  · simp only [singleRowLines, List.findSome?_cons, Line.fault?, h]
  · simp only [rowsLines, List.findSome?_cons, Line.fault?, h]

theorem exists_strategy_iff (m : FittedModel α) :
    (∃ strategy, m.strategy = .ok strategy) ↔ m.resolved?.isSome = true := by
  rw [strategy_eq]
  cases m.resolved? <;> simp

theorem resolved?_of_strategy {m : FittedModel α} {strategy : Strategy}
    (h : m.strategy = .ok strategy) : m.resolved? = some strategy := by
  rw [← toOption_strategy, h]
  rfl

section Build

variable [NatCast α] [Mul α]

theorem toExpr_result_eq (m : FittedModel α) (s : Settings) :
    (m.toExpr s).result = match m.fault? s.method with
      | some error => .error error
      | none => .ok (m.tree s) := by
  rw [toExpr, fault?, FittedModel.tree]
  split_ifs with hrows
  · obtain ⟨row, hrow⟩ := List.length_eq_one_iff.mp hrows
    rw [toExprWith_eq_ofSingleRow _ hrow, ofSingleRow_eq_decide _ _ _ hrow,
      Build.decide_result_eq, Logistic.outputOfRow_standard]
  · rw [toExprWith_eq_ofRows _ hrows, ofRows_eq_decide, Build.decide_result_eq,
      Logistic.outputOfRows_standard]

theorem toExpr_error_congr (m : FittedModel α) (input : String) {method method' : Method}
    (h : method.isProbability = method'.isProbability) (error : BuildError) :
    (m.toExpr ⟨method, input⟩).result = .error error ↔
      (m.toExpr ⟨method', input⟩).result = .error error := by
  rw [toExpr_result_eq, toExpr_result_eq]
  simp only [m.fault?_congr h]
  cases m.fault? method' <;> simp

/-- Probabilities have a tree where scores have one and the strategy is known. -/
theorem exists_probabilities_iff (m : FittedModel α) (input : String) :
    (∃ tree, (m.toExpr ⟨.predictProba, input⟩).result = .ok tree) ↔
      (∃ tree, (m.toExpr ⟨.decisionFunction, input⟩).result = .ok tree) ∧
        ∃ strategy, m.strategy = .ok strategy := by
  simp [toExpr_eq_ok_iff, exists_strategy_iff, Method.isProbability]

/-! ## Scores of a single row -/

/-- The model with all its parameters doubled. -/
def doubled (m : FittedModel α) : FittedModel α :=
  { m with
    coef := m.coef.map fun row => row.map double
    intercept := m.intercept.map double }

theorem features_doubled (m : FittedModel α) : m.doubled.features = m.features := by
  unfold features doubled
  cases m.coef <;> simp

theorem Regular.doubled {m : FittedModel α} (hm : m.Regular) : m.doubled.Regular where
  rows_pos := by simpa [FittedModel.doubled] using hm.rows_pos
  length_eq := by
    intro row hrow
    obtain ⟨row', hrow', rfl⟩ := List.mem_map.mp hrow
    rw [features_doubled, List.length_map, hm.length_eq row' hrow']
  intercepts := by simpa [FittedModel.doubled] using hm.intercepts
  features_pos := by simpa [features_doubled] using hm.features_pos

theorem singleRowScores_congr (m : FittedModel α) (input : String) {method method' : Method}
    (h : method.isProbability = method'.isProbability) :
    m.singleRowScores ⟨method, input⟩ = m.singleRowScores ⟨method', input⟩ := by
  simp only [singleRowScores, h]

/-- Unless it was fitted for all classes at once, a single row has one score for all outputs. -/
theorem singleRowScores_of_ne {m : FittedModel α} (h : m.resolved? ≠ some .multinomial)
    (input : String) (method method' : Method) :
    m.singleRowScores ⟨method, input⟩ = m.singleRowScores ⟨method', input⟩ := by
  simp [singleRowScores, h]

/-- A single row that was fitted for all classes at once has the probability of the doubled model. -/
theorem Regular.singleRowScores_multinomial {m : FittedModel α} (hm : m.Regular)
    (hrows : m.coef.length = 1) (h : m.resolved? = some .multinomial) (input : String) :
    m.singleRowScores ⟨.predictProba, input⟩ =
      m.doubled.singleRowScores ⟨.decisionFunction, input⟩ := by
  obtain ⟨row, hrow⟩ := List.length_eq_one_iff.mp hrows
  obtain ⟨c, hc⟩ := List.length_eq_one_iff.mp (hm.intercepts.trans hrows)
  simp [singleRowScores, FittedModel.doubled, hrow, hc, h, Method.isProbability, double,
    Function.comp_def]

end Build

/-! ## Values -/

variable [NatCast α] [Add α] [Mul α] [Sub α] [Neg α] [Div α] [ExpLn α]
variable [LT α] [DecidableLT α] [LE α] [DecidableLE α]

/-- How the outputs of a model depend on each other. -/
structure Coherent (m : FittedModel α) (input : String) (b : Bindings α)
    (answer : Method → Value α) : Prop where
  /-- A single row predicts by the sign of its score. -/
  predict_row : m.coef.length = 1 →
    ∃ d, answer .decisionFunction = .scalar d ∧ answer .predict = .scalar (Scalar.step d)
  /-- Several rows predict the position of the first largest score. -/
  predict_rows : m.coef.length ≠ 1 →
    ∃ d ds, answer .decisionFunction = .vector (.ofList (d :: ds)) ∧
      answer .predict = .scalar ((Vector.argMax d ds : ℕ) : α)
  log : answer .predictLogProba = (answer .predictProba).map ExpLn.ln
  proba_row : m.coef.length = 1 → m.strategy = .ok .ovr →
    answer .predictProba = (answer .decisionFunction).map Scalar.logistic
  /-- A single row that was fitted for all classes at once takes the score of the doubled model. -/
  proba_row_multinomial : m.coef.length = 1 → m.strategy = .ok .multinomial →
    ∃ v, m.doubled.output ⟨.decisionFunction, input⟩ b = .ok v ∧
      answer .predictProba = v.map Scalar.logistic
  proba_rows : m.coef.length ≠ 1 → m.strategy = .ok .ovr →
    Operator.normalize.apply ((answer .decisionFunction).map Scalar.logistic) =
      .ok (answer .predictProba)
  proba_rows_multinomial : m.coef.length ≠ 1 → m.strategy = .ok .multinomial →
    Operator.softmax.apply (answer .decisionFunction) = .ok (answer .predictProba)

variable {m : FittedModel α} {input : String} {b : Bindings α} {v : Value α}

theorem Regular.exists_score (hm : m.Regular) (hrows : m.coef.length = 1)
    (hinput : b.get? input = some v) (hlength : v.components.entries.length = m.features) :
    ∃ d, (m.singleRowScores ⟨.decisionFunction, input⟩).eval b = .ok (.scalar d) := by
  obtain ⟨r, hr, hshape⟩ := hm.exists_value (s := ⟨.decisionFunction, input⟩) hinput hlength
  rw [outputShape, if_pos (.inr hrows)] at hshape
  cases r with
  | scalar d =>
    rw [FittedModel.tree, if_pos hrows] at hr
    exact ⟨d, hr⟩
  | vector ds => cases hshape

/-- Over a single row the outputs are functions of two scores, that of the decision and that of the
probability. -/
theorem Regular.exists_coherent_row (hm : m.Regular) (hrows : m.coef.length = 1)
    (hinput : b.get? input = some v) (hlength : v.components.entries.length = m.features) :
    ∃ answer, (∀ method, (m.tree ⟨method, input⟩).eval b = .ok (answer method)) ∧
      m.Coherent input b answer := by
  obtain ⟨d, hd⟩ := hm.exists_score hrows hinput hlength
  obtain ⟨p, hp⟩ := hm.doubled.exists_score (by simpa [FittedModel.doubled] using hrows) hinput
    (by rwa [features_doubled])
  have hscores (method : Method) : (m.singleRowScores ⟨method, input⟩).eval b =
      .ok (.scalar (if method.isProbability = true ∧ m.resolved? = some .multinomial then p
        else d)) := by
    split_ifs with h
    · have hmethod : method.isProbability = Method.predictProba.isProbability := h.1
      rw [m.singleRowScores_congr input hmethod, hm.singleRowScores_multinomial hrows h.2]
      exact hp
    · rcases not_and_or.mp h with hmethod | hstrategy
      · have hmethod : method.isProbability = Method.decisionFunction.isProbability :=
          Bool.eq_false_iff.mpr hmethod
        rw [m.singleRowScores_congr input hmethod]
        exact hd
      · rw [singleRowScores_of_ne hstrategy input method .decisionFunction]
        exact hd
  refine ⟨fun method => Logistic.rowValue
    (if method.isProbability = true ∧ m.resolved? = some .multinomial then p else d) method,
    fun method => eval_tree_of_row (s := ⟨method, input⟩) hrows (hscores method), ?_⟩
  constructor
  case predict_row => exact fun _ => ⟨d, by simp [Logistic.rowValue, Method.isProbability]⟩
  case predict_rows => exact fun h => absurd hrows h
  case log => rfl
  case proba_row =>
    intro _ hstrategy
    simp [Logistic.rowValue, Method.isProbability, resolved?_of_strategy hstrategy, Value.map]
  case proba_row_multinomial =>
    intro _ hstrategy
    refine ⟨.scalar p, hm.doubled.output_eq (by simp [Method.isProbability]) ?_, ?_⟩
    · exact eval_tree_of_row (s := ⟨.decisionFunction, input⟩)
        (by simpa [FittedModel.doubled] using hrows) hp
    · simp [Logistic.rowValue, Method.isProbability, resolved?_of_strategy hstrategy, Value.map]
  case proba_rows => exact fun h => absurd hrows h
  case proba_rows_multinomial => exact fun h => absurd hrows h

/-- Over several rows all outputs are functions of the vector of scores. -/
theorem Regular.exists_coherent_rows (hm : m.Regular) (hrows : m.coef.length ≠ 1)
    (hinput : b.get? input = some v) (hlength : v.components.entries.length = m.features) :
    ∃ answer, (∀ method, (m.tree ⟨method, input⟩).eval b = .ok (answer method)) ∧
      m.Coherent input b answer := by
  obtain ⟨d, ds, hscores, -⟩ := hm.exists_scores v.components
  refine ⟨Logistic.rowsValue (m.resolved?.getD .ovr) d ds, fun method =>
    hm.eval_tree_of_scores (s := ⟨method, input⟩) hrows hinput hlength hscores, ?_⟩
  constructor
  case predict_row => exact fun h => absurd h hrows
  case predict_rows => exact fun _ => ⟨d, ds, rfl, rfl⟩
  case log => rfl
  case proba_row => exact fun h => absurd h hrows
  case proba_row_multinomial => exact fun h => absurd h hrows
  case proba_rows =>
    intro _ hstrategy
    rw [resolved?_of_strategy hstrategy]
    rfl
  case proba_rows_multinomial =>
    intro _ hstrategy
    rw [resolved?_of_strategy hstrategy]
    rfl

/-- The trees of a model exist together, as far as the strategy is known. All of them fail with one
failure, or all of them have values that determine each other. -/
theorem outputs_cohere (m : FittedModel α) (input : String) (b : Bindings α) :
    let build (method : Method) := (m.toExpr ⟨method, input⟩).result
    (∀ error, build .decisionFunction = .error error ↔ build .predict = .error error) ∧
      (∀ error, build .predictProba = .error error ↔ build .predictLogProba = .error error) ∧
      ((∃ tree, build .predictProba = .ok tree) ↔
        (∃ tree, build .decisionFunction = .ok tree) ∧ ∃ strategy, m.strategy = .ok strategy) ∧
      ((∃ error, ∀ method tree, build method = .ok tree → tree.eval b = .error error) ∨
        ∃ answer : Method → Value α,
          (∀ method tree, build method = .ok tree → tree.eval b = .ok (answer method)) ∧
            m.Coherent input b answer) := by
  intro build
  refine ⟨m.toExpr_error_congr input rfl, m.toExpr_error_congr input rfl,
    m.exists_probabilities_iff input, ?_⟩
  by_cases hm : m.Regular
  · have htree {method : Method} {tree : Expr α} (h : build method = .ok tree) :
        m.tree ⟨method, input⟩ = tree := (toExpr_eq_ok_iff.mp h).2.2
    cases hinput : b.get? input with
    | none =>
      exact .inl ⟨.unbound input, fun method tree h => htree h ▸ hm.eval_tree_of_unbound hinput⟩
    | some v =>
      by_cases hlength : v.components.entries.length = m.features
      · right
        have hcoherent : ∃ answer : Method → Value α,
            (∀ method, (m.tree ⟨method, input⟩).eval b = .ok (answer method)) ∧
              m.Coherent input b answer := by
          by_cases hrows : m.coef.length = 1
          · exact hm.exists_coherent_row hrows hinput hlength
          · exact hm.exists_coherent_rows hrows hinput hlength
        obtain ⟨answer, heval, hcoherent⟩ := hcoherent
        exact ⟨answer, fun method tree h => htree h ▸ heval method, hcoherent⟩
      · exact .inl ⟨_, fun method tree h => htree h ▸ hm.eval_tree_of_length_ne hinput hlength⟩
  · -- Without a tree there is nothing to evaluate.
    refine .inl ⟨.unbound input, fun method tree h => ?_⟩
    exact absurd (toExpr_eq_ok_iff.mp h).1 hm

end FittedModel
end ScoreTree
