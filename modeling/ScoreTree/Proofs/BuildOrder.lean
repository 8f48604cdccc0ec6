import Mathlib.Tactic
import ScoreTree.Model.ToExpr

/-!
# The order of checks in a build

What a build does is laid out as an ordered list of lines: events to tell and faults to refuse, the
first fault being the outcome (`Build.decide`). A single row and any other number of rows have lists
of their own, since they check in different orders: a single row looks at the strategy before the
shape of its coefficients, several rows after it. `FittedModel.toExprWith` is exactly its list,
followed by the output that the method asks for.
-/

namespace ScoreTree

universe u

/-- A line of an ordered list of checks. -/
inductive Line where
  /-- An event that is told. -/
  | tell (event : Event)
  /-- A fault that ends the build. -/
  | refuse (faulty : Bool) (error : BuildError)

/-- Whether a build ends at a line. -/
def Line.isFault : Line → Bool
  | tell _ => false
  | refuse faulty _ => faulty

namespace Build

variable {α β : Type u}

/-- The lines in their order up to the first fault, and the final build if there is none. -/
def decide (final : Build α β) : List Line → Build α β
  | [] => final
  | .tell event :: lines => ⟨.event event :: (decide final lines).log, (decide final lines).result⟩
  | .refuse faulty error :: lines => if faulty then fail error else decide final lines

theorem decide_append (final : Build α β) (before after : List Line) :
    decide final (before ++ after) = decide (decide final after) before := by
  induction before with
  | nil => rfl
  | cons line before ih =>
    cases line with
    | tell event => simp only [List.cons_append, decide, ih]
    | refuse faulty error => simp only [List.cons_append, decide, ih]

/-- A build succeeds if no line is a fault and the final build succeeds. -/
theorem decide_result_eq_ok_iff {final : Build α β} {lines : List Line} {b : β} :
    (decide final lines).result = .ok b ↔
      (∀ line ∈ lines, line.isFault = false) ∧ final.result = .ok b := by
  induction lines with
  | nil => simp [decide]
  | cons line lines ih =>
    cases line with
    | tell event => simp [decide, Line.isFault, ih]
    | refuse faulty error => cases faulty <;> simp [decide, Line.isFault, ih, fail, ofExcept]

theorem tell_bind (event : Event) (f : PUnit → Build α β) :
    (tell event >>= f) = decide (f ⟨⟩) [.tell event] := rfl

end Build

namespace Logistic

variable {α : Type u}

/-- The output of one row with the given scores. -/
def outputOfRow (select : Selector α) (scores : Expr α) (method : Method) : Build α (Expr α) :=
  match method with
  | .decisionFunction => ⟨[], .ok scores⟩
  | .predict => ⟨[], .ok (.unary .step scores)⟩
  | .predictProba | .predictLogProba =>
    ⟨[.call (.unary .sigmoid scores) method], select (.unary .sigmoid scores) method⟩

/-- The output of any other number of rows with the given scores. -/
def outputOfRows (select : Selector α) (scores : Expr α) (strategy : Strategy) (method : Method) :
    Build α (Expr α) :=
  let probs := match strategy with
    | .ovr => .unary .normalize (.unary .sigmoid scores)
    | .multinomial => .unary .softmax scores
  match method with
  | .decisionFunction => ⟨[], .ok scores⟩
  | .predict => ⟨[], .ok (.unary .argMax scores)⟩
  | .predictProba | .predictLogProba =>
    ⟨[.event (.normalizing strategy), .call probs method], select probs method⟩

theorem decision_eq (weights : Weights α) (arg : Expr α) :
    decision weights arg = match weights.defect? with
      | some defect => .fail (.shape defect)
      | none => pure (.linear weights arg) := by
  unfold decision Expr.affine
  cases weights.defect? <;> rfl

theorem ofRow_eq_decide (select : Selector α) (coef : Row α) (intercept : α) (arg : Expr α)
    (method : Method) :
    ofRow select coef intercept arg method =
      Build.decide (outputOfRow select (.linear (.row coef intercept) arg) method)
        [.tell (.binary coef.entries.length method),
          .refuse coef.entries.isEmpty (.shape .empty)] := by
  rw [ofRow, Build.tell_bind, decision_eq, Weights.defect?]
  cases coef.entries.isEmpty with
  | true => rfl
  | false => cases method <;> rfl

/-- An unknown strategy is a fault where probabilities are asked for. -/
def strategyLines (method : Method) : Except BuildError Strategy → List Line
  | .ok _ => []
  | .error error => [.refuse method.isProbability error]

theorem ofMatrixResolving_eq_decide (select : Selector α) (coef : Matrix α) (intercept : List α)
    (arg : Expr α) (method : Method) (strategy : Except BuildError Strategy)
    (hheight : 0 < coef.height) (hintercept : coef.height = intercept.length) :
    ofMatrixResolving select coef intercept arg method strategy =
      Build.decide
        (outputOfRows select (.linear (.matrix coef intercept) arg)
          (strategy.toOption.getD .ovr) method)
        ([.tell (.multiclass coef.height coef.width method),
          .refuse (coef.width == 0) (.shape .empty)] ++ strategyLines method strategy) := by
  have hempty : coef.isEmpty = (coef.width == 0) := by
    simp [Matrix.isEmpty, hheight.ne']
  rw [ofMatrixResolving, Build.tell_bind, decision_eq, Weights.defect?, hempty,
    if_pos hintercept]
  cases hwidth : coef.width == 0 with
  | true => rfl
  | false =>
    cases strategy with
    | error error => cases method <;> rfl
    | ok strategy => cases strategy <;> cases method <;> rfl

end Logistic

theorem Strategy.ofName?_eq (text : String) :
    ofName? text = if text = "ovr" then some .ovr
      else if text = "multinomial" then some .multinomial else none := by
  by_cases hovr : text = "ovr"
  · rw [if_pos hovr, hovr]
    rfl
  · by_cases hmultinomial : text = "multinomial"
    · rw [if_neg hovr, if_pos hmultinomial, hmultinomial]
      rfl
    · simp [ofName?, all, name, Ne.symm hovr, Ne.symm hmultinomial, hovr, hmultinomial]

namespace FittedModel

variable {α : Type u}

/-- The strategy that the parameters name. `auto` stands for one class against the rest if they were
fitted so by their solver or if there is a single row. -/
def resolved? (m : FittedModel α) : Option Strategy :=
  if m.strategyName = "ovr" then some .ovr
  else if m.strategyName = "multinomial" then some .multinomial
  else if m.strategyName = "auto" then
    if m.solver = "liblinear" ∨ m.coef.length = 1 then some .ovr else some .multinomial
  else none

theorem strategy_eq (m : FittedModel α) :
    m.strategy = match m.resolved? with
      | some strategy => .ok strategy
      | none => .error (.unknownStrategy m.strategyName) := by
  unfold strategy resolved? Strategy.parse
  by_cases hauto : m.strategyName = "auto"
  · by_cases hovr : m.solver = "liblinear" ∨ m.coef.length = 1
    · simp [hauto, hovr, isBinary]
    · simp [hauto, hovr, isBinary]
  · rw [if_neg hauto, Strategy.ofName?_eq]
    by_cases hovr : m.strategyName = "ovr"
    · simp [hovr]
    · by_cases hmultinomial : m.strategyName = "multinomial"
      · simp [hmultinomial]
      · simp [hauto, hovr, hmultinomial]

theorem strategy_of_resolved {m : FittedModel α} {strategy : Strategy}
    (h : m.resolved? = some strategy) : m.strategy = .ok strategy := by
  rw [strategy_eq, h]

theorem toOption_strategy (m : FittedModel α) : m.strategy.toOption = m.resolved? := by
  rw [strategy_eq]
  cases m.resolved? <;> rfl

theorem strategyLines_strategy (m : FittedModel α) (method : Method) (final : Build α (Expr α)) :
    Build.decide final (Logistic.strategyLines method m.strategy) =
      Build.decide final
        [.refuse (method.isProbability && m.resolved?.isNone)
          (.unknownStrategy m.strategyName)] := by
  rw [strategy_eq]
  cases m.resolved? with
  | none => simp [Logistic.strategyLines]
  | some strategy => simp [Logistic.strategyLines, Build.decide]

/-- The index of the first row that is not as long as the first one, or the number of rows. -/
def unevenRow (m : FittedModel α) : ℕ :=
  m.coef.findIdx fun row => row.length != m.features

theorem raggedRow?_eq (m : FittedModel α) :
    Matrix.raggedRow? m.coef = (m.coef[m.unevenRow]?).map fun row =>
      ⟨m.unevenRow, row.length, m.features⟩ := by
  have hindex : (m.coef.zipIdx.findIdx fun entry => entry.1.length != m.features) =
      m.unevenRow := by
    have := List.findIdx_map m.coef.zipIdx Prod.fst fun row => row.length != m.features
    rw [List.zipIdx_map_fst] at this
    exact this.symm
  unfold Matrix.raggedRow?
  dsimp only
  rw [List.find?_eq_getElem?_findIdx, ← features, hindex]
  simp [List.getElem?_zipIdx, Function.comp_def]

theorem unevenRow_eq_length_iff {m : FittedModel α} :
    m.unevenRow = m.coef.length ↔ ∀ row ∈ m.coef, row.length = m.features := by
  simp [unevenRow, List.findIdx_eq_length]

/-- The checks of a model with a single row, before its output. -/
def singleRowLines (m : FittedModel α) (method : Method) : List Line :=
  [.tell (.dispatchBinary m.features),
    .refuse (m.intercept.length != 1) (.model (.singleIntercept m.intercept.length)),
    .refuse (method.isProbability && m.resolved?.isNone) (.unknownStrategy m.strategyName),
    .tell (.binary m.features method),
    .refuse (m.features == 0) (.shape .empty)]

/-- The checks of a model with any other number of rows, before its output. -/
def rowsLines (m : FittedModel α) (method : Method) : List Line :=
  [.tell (.dispatchMulticlass m.coef.length),
    .refuse (m.coef.length == 0) (.model .noRows),
    .refuse (m.unevenRow != m.coef.length) (.model (.raggedRow
      ⟨m.unevenRow, (m.coef.getD m.unevenRow []).length, m.features⟩)),
    .refuse (m.intercept.length != m.coef.length)
      (.model (.interceptCount m.coef.length m.intercept.length)),
    .tell (.multiclass m.coef.length m.features method),
    .refuse (m.features == 0) (.shape .empty),
    .refuse (method.isProbability && m.resolved?.isNone) (.unknownStrategy m.strategyName)]

/-- The scores of several rows. Uneven rows have none, and are refused before. -/
def rowsScores (m : FittedModel α) (input : String) : Expr α :=
  if h : ∀ row ∈ m.coef, row.length = (m.coef.headD []).length then
    .linear (.matrix (.rowMajor m.coef h) m.intercept) (.input input)
  else .input input

theorem rowsScores_eq {m : FittedModel α} (input : String) {coef : Matrix α}
    (h : Matrix.ofRows m.coef = .ok coef) :
    m.rowsScores input = .linear (.matrix coef m.intercept) (.input input) := by
  obtain ⟨hrows, hlayout⟩ := Matrix.ofRows_eq_ok_iff.mp h
  have hrectangular : ∀ row ∈ m.coef, row.length = (m.coef.headD []).length :=
    hrows ▸ coef.rectangular
  have hcoef : Matrix.rowMajor m.coef hrectangular = coef := Matrix.ext hrows.symm hlayout.symm
  rw [rowsScores, dif_pos hrectangular, hcoef]

variable [NatCast α] [Mul α]

/-- The scores of a single row. For probabilities of all classes at once, coefficients and intercept
are doubled. Without an intercept there are none, and that is refused before. -/
def singleRowScores (m : FittedModel α) (s : Settings) : Expr α :=
  let scale (x : α) : α :=
    if s.method.isProbability = true ∧ m.resolved? = some .multinomial then x * ((2 : ℕ) : α) else x
  .linear (.row ((m.coef.headD []).map scale) (scale (m.intercept.headD ((0 : ℕ) : α))))
    (.input s.input)

/-- The outcome of a build, as an ordered list of checks and the output that follows them. -/
def decisionList (select : Selector α) (m : FittedModel α) (s : Settings) : Build α (Expr α) :=
  if m.coef.length = 1 then
    Build.decide (Logistic.outputOfRow select (m.singleRowScores s) s.method)
      (m.singleRowLines s.method)
  else
    Build.decide
      (Logistic.outputOfRows select (m.rowsScores s.input) (m.resolved?.getD .ovr) s.method)
      (m.rowsLines s.method)

omit [NatCast α] [Mul α] in
theorem isDoubled_eq (m : FittedModel α) (method : Method) :
    m.isDoubled method =
      if (method.isProbability && m.resolved?.isNone) = true then
        .error (.unknownStrategy m.strategyName)
      else .ok (method.isProbability && m.resolved? == some .multinomial) := by
  unfold isDoubled
  rw [strategy_eq]
  cases method.isProbability with
  | false => simp
  | true =>
    cases m.resolved? with
    | none => simp [Except.map]
    | some strategy => cases strategy <;> simp [Except.map]

theorem ofSingleRow_eq_decide (select : Selector α) (m : FittedModel α) {row : List α}
    (s : Settings) (hrow : m.coef = [row]) :
    m.ofSingleRow select row s =
      Build.decide (Logistic.outputOfRow select (m.singleRowScores s) s.method)
        (m.singleRowLines s.method) := by
  have hfeatures : m.features = row.length := by simp [features, hrow]
  rw [ofSingleRow, Build.tell_bind, singleRowLines, hfeatures]
  cases hintercept : m.intercept with
  | nil => rfl
  | cons b rest =>
    cases rest with
    | cons b' rest => simp [Build.decide]
    | nil =>
      dsimp only
      rw [isDoubled_eq]
      cases hunknown : s.method.isProbability && m.resolved?.isNone with
      | true => rfl
      | false =>
        have hempty : (row.length == 0) = row.isEmpty := by cases row <;> rfl
        by_cases hdouble : s.method.isProbability = true ∧ m.resolved? = some .multinomial
        · have hflag : (s.method.isProbability && m.resolved? == some .multinomial) = true := by
            simpa using hdouble
          have hscores : m.singleRowScores s =
              .linear (.row (row.map double) (double b)) (.input s.input) := by
            simp only [singleRowScores, hdouble, hrow, hintercept, and_self, if_true,
              List.headD_cons]
            rfl
          rw [hflag, hscores]
          simp only [Bool.false_eq_true, if_false]
          rw [Logistic.ofRow_eq_decide, Row.entries_ofList, List.length_map, List.isEmpty_map,
            hempty]
          rfl
        · have hflag : (s.method.isProbability && m.resolved? == some .multinomial) = false := by
            simpa using hdouble
          have hscores : m.singleRowScores s = .linear (.row row b) (.input s.input) := by
            simp [singleRowScores, hdouble, hrow, hintercept]
          rw [hflag, hscores]
          simp only [Bool.false_eq_true, if_false]
          rw [Logistic.ofRow_eq_decide, Row.entries_ofList, hempty]
          rfl

omit [NatCast α] [Mul α] in
theorem ofRows_eq_decide (select : Selector α) (m : FittedModel α) (s : Settings) :
    m.ofRows select s =
      Build.decide
        (Logistic.outputOfRows select (m.rowsScores s.input) (m.resolved?.getD .ovr) s.method)
        (m.rowsLines s.method) := by
  rw [ofRows, Build.tell_bind, rowsLines]
  cases hrows : m.coef.isEmpty with
  | true =>
    have hzero : m.coef.length = 0 := by simpa using hrows
    simp [Build.decide, hzero]
  | false =>
    have hpos : 0 < m.coef.length := List.length_pos_iff.mpr (by simpa using hrows)
    cases hof : Matrix.ofRows m.coef with
    | error ragged =>
      have hragged := Matrix.ofRows_eq_error_iff.mp hof
      rw [raggedRow?_eq] at hragged
      obtain ⟨row, hrow, rfl⟩ := Option.map_eq_some_iff.mp hragged
      have hlt : m.unevenRow < m.coef.length := (List.getElem?_eq_some_iff.mp hrow).1
      simp [Build.decide, hpos.ne', hlt.ne, hrow]
    | ok coef =>
      have hcoef : coef.rows = m.coef := (Matrix.ofRows_eq_ok_iff.mp hof).1
      have heven : m.unevenRow = m.coef.length :=
        unevenRow_eq_length_iff.mpr (by rw [features, ← hcoef]; exact coef.rectangular)
      have hheight : coef.height = m.coef.length := by rw [Matrix.height, hcoef]
      have hwidth : coef.width = m.features := by rw [Matrix.width, hcoef, features]
      by_cases hintercept : m.intercept.length = m.coef.length
      · have hbody : Logistic.ofMatrixResolving select coef m.intercept (.input s.input)
            s.method m.strategy = _ :=
          Logistic.ofMatrixResolving_eq_decide _ _ _ _ _ _ (by rw [hheight]; exact hpos)
            (by rw [hheight, hintercept])
        rw [Build.decide_append, strategyLines_strategy, toOption_strategy, hheight, hwidth,
          ← rowsScores_eq s.input hof] at hbody
        simp [Build.decide, hpos.ne', heven, hintercept, hbody]
      · simp [Build.decide, hpos.ne', heven, hintercept]

theorem toExprWith_eq_decisionList (select : Selector α) (m : FittedModel α) (s : Settings) :
    m.toExprWith select s = m.decisionList select s := by
  unfold decisionList
  split_ifs with hrows
  · obtain ⟨row, hrow⟩ := List.length_eq_one_iff.mp hrows
    rw [toExprWith_eq_ofSingleRow select hrow, ofSingleRow_eq_decide select m s hrow]
  · rw [toExprWith_eq_ofRows select hrows, ofRows_eq_decide]

end FittedModel
end ScoreTree
