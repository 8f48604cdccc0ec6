import ScoreTree.Proofs.Textbook

/-!
# Two classes, by one row or by two

A classifier of two classes can be written with a single row of coefficients, whose score is that of
the positive class, or with a row for each class, where the scores are opposite numbers. The trees
differ in every operator: a step against the position of the largest score, one sigmoid against shares.
They still give the same answers (`oneRow_agrees_with_twoRows`).
-/

namespace ScoreTree

variable {K : Type*} [Field K]

theorem Vector.dot_map_neg (xs ys : List K) : dot (xs.map (- ·)) ys = -dot xs ys := by
  have hneg : xs.map (- ·) = xs.map (· * (-1)) := by simp
  rw [hneg, dot_map_mul, neg_one_mul]

theorem Vector.shares_pair (f : K → K) (s t : K) :
    shares f [s, t] = [f s / (f s + f t), f t / (f s + f t)] := by
  simp [shares]

namespace FittedModel

theorem double_eq (d : K) : double d = 2 * d := by
  rw [double, Nat.cast_ofNat, mul_comm]

/-- A classifier of two classes with a single row. -/
def oneRow (w : List K) (c : K) (strategy : Strategy) (classes : Option (List Json))
    (solver : String) : FittedModel K where
  coef := [w]
  intercept := [c]
  classes
  strategyName := strategy.name
  solver

/-- A classifier of two classes with a row for each, of opposite coefficients. -/
def twoRows (w : List K) (c : K) (strategy : Strategy) (classes : Option (List Json))
    (solver : String) : FittedModel K where
  coef := [w.map (- ·), w]
  intercept := [-c, c]
  classes
  strategyName := strategy.name
  solver

section Parameters

variable (w : List K) (c : K) (strategy : Strategy) (classes : Option (List Json)) (solver : String)

omit [Field K] in
theorem oneRow_regular (hw : w ≠ []) : (oneRow w c strategy classes solver).Regular where
  rows_pos := Nat.one_pos
  length_eq := by simp [oneRow, features]
  intercepts := rfl
  features_pos := List.length_pos_iff.mpr hw

theorem twoRows_regular (hw : w ≠ []) : (twoRows w c strategy classes solver).Regular where
  rows_pos := Nat.two_pos
  length_eq := by simp [twoRows, features]
  intercepts := rfl
  features_pos := by simpa [twoRows, features, List.length_pos_iff] using hw

omit [Field K] in
theorem oneRow_resolved : (oneRow w c strategy classes solver).resolved? = some strategy := by
  cases strategy <;> rfl

theorem twoRows_resolved : (twoRows w c strategy classes solver).resolved? = some strategy := by
  cases strategy <;> rfl

variable {x : List K}

theorem score_oneRow (hx : x.length = w.length) :
    (oneRow w c strategy classes solver).score x 0 = Vector.dot w x + c :=
  score_eq_dot rfl rfl rfl hx

theorem scores_twoRows (hx : x.length = w.length) :
    (List.range 2).map ((twoRows w c strategy classes solver).score x) =
      [-(Vector.dot w x + c), Vector.dot w x + c] := by
  have hfeatures : (twoRows w c strategy classes solver).features = w.length := by
    simp [twoRows, features]
  have hfirst : (twoRows w c strategy classes solver).score x 0 = -(Vector.dot w x + c) := by
    rw [score_eq_dot rfl rfl (by simp [hfeatures]) (hx.trans hfeatures.symm), Vector.dot_map_neg,
      neg_add]
  have hsecond : (twoRows w c strategy classes solver).score x 1 = Vector.dot w x + c :=
    score_eq_dot rfl rfl hfeatures.symm (hx.trans hfeatures.symm)
  simp [List.range_succ, hfirst, hsecond]

end Parameters

end FittedModel

variable [LinearOrder K]

/-- The score that the sigmoid of a single row is taken of. -/
def Strategy.contrast (strategy : Strategy) (d : K) : K :=
  if strategy = .multinomial then FittedModel.double d else d

theorem Vector.argMax_opposite [IsStrictOrderedRing K] (d : K) :
    argMax (-d) [d] = if 0 < d then 1 else 0 := by
  simp [argMax, argMaxFrom]

variable [ExpLn K]

/-- The shares of opposite scores are the sigmoid and what it leaves to one. -/
theorem Strategy.shares_opposite [IsStrictOrderedRing K] [ExpLaws K] (strategy : Strategy) {d : K}
    (h : strategy = .multinomial → |2 * d| ≤ 500) :
    Vector.shares strategy.weight [-d, d] =
      [1 - Scalar.sigmoid (strategy.contrast d), Scalar.sigmoid (strategy.contrast d)] := by
  have hpos : 0 < strategy.weight (-d) + strategy.weight d :=
    add_pos (strategy.weight_pos _) (strategy.weight_pos _)
  have hrest : strategy.weight (-d) / (strategy.weight (-d) + strategy.weight d) =
      1 - strategy.weight d / (strategy.weight (-d) + strategy.weight d) := by
    rw [eq_sub_iff_add_eq, ← add_div, div_self hpos.ne']
  have hshare : strategy.weight d / (strategy.weight (-d) + strategy.weight d) =
      Scalar.sigmoid (strategy.contrast d) := by
    cases strategy with
    | ovr =>
      change Scalar.sigmoid d / (Scalar.sigmoid (-d) + Scalar.sigmoid d) = Scalar.sigmoid d
      rw [Scalar.sigmoid_neg, sub_add_cancel, div_one]
    | multinomial =>
      rw [Strategy.contrast, if_pos rfl, FittedModel.double_eq]
      exact Scalar.exp_div_exp_neg_add_exp (abs_le.mp (h rfl))
  rw [Vector.shares_pair, hrest, hshare]

namespace FittedModel

variable {w : List K} {x : Row K} {input : String} {b : Bindings K}

theorem output_oneRow (hw : w ≠ []) (hx : x.entries.length = w.length) (c : K) (strategy : Strategy)
    (classes : Option (List Json)) (solver : String) (hb : b.get? input = some (.vector x))
    (method : Method) :
    (oneRow w c strategy classes solver).output ⟨method, input⟩ b =
      .ok (Logistic.rowValue (if method.isProbability = true then
        strategy.contrast (Vector.dot w x.entries + c) else Vector.dot w x.entries + c) method) := by
  have hresolved := oneRow_resolved w c strategy classes solver
  have hscores := eval_singleRowScores (m := oneRow w c strategy classes solver)
    (s := ⟨method, input⟩) rfl rfl hx hb
  rw [score_oneRow w c strategy classes solver hx, hresolved] at hscores
  refine (oneRow_regular w c strategy classes solver hw).output_eq (by simp [hresolved]) ?_
  rw [eval_tree_of_row rfl hscores]
  cases strategy with
  | ovr => cases method <;> rfl
  | multinomial => cases method <;> simp [Method.isProbability, Strategy.contrast, double_eq]

theorem output_twoRows (hw : w ≠ []) (hx : x.entries.length = w.length) (c : K) (strategy : Strategy)
    (classes : Option (List Json)) (solver : String) (hb : b.get? input = some (.vector x))
    (method : Method) :
    (twoRows w c strategy classes solver).output ⟨method, input⟩ b =
      .ok (Logistic.rowsValue strategy (-(Vector.dot w x.entries + c))
        [Vector.dot w x.entries + c] method) := by
  have hm := twoRows_regular w c strategy classes solver hw
  have hresolved := twoRows_resolved w c strategy classes solver
  have hscores := eval_rowsScores (unevenRow_eq_length_iff.mpr hm.length_eq) hm.intercepts
    (hx.trans (by simp [twoRows, features])) hb
  rw [show (twoRows w c strategy classes solver).coef.length = 2 from rfl,
    scores_twoRows w c strategy classes solver hx] at hscores
  refine hm.output_eq (by simp [hresolved]) ?_
  rw [eval_tree_of_rows (by simp [twoRows]) hscores, hresolved]
  rfl

variable [IsStrictOrderedRing K] [ExpLaws K]

/-- One row and two rows of the same classifier have opposite scores, the same label, and the same
probabilities as far as the sigmoid does not limit its argument. -/
theorem oneRow_agrees_with_twoRows (hw : w ≠ []) (hx : x.entries.length = w.length) (c : K)
    (strategy : Strategy) (classes classes' : Option (List Json)) (solver solver' : String)
    (hb : b.get? input = some (.vector x)) :
    let d := (List.zipWith (· * ·) w x.entries).sum + c
    let one := oneRow w c strategy classes solver
    let two := twoRows w c strategy classes' solver'
    one.output ⟨.decisionFunction, input⟩ b = .ok (.scalar d) ∧
      two.output ⟨.decisionFunction, input⟩ b = .ok (.vector (.ofList [-d, d])) ∧
      (∃ k : ℕ, one.output ⟨.predict, input⟩ b = .ok (.scalar (k : K)) ∧
        two.output ⟨.predict, input⟩ b = .ok (.scalar (k : K))) ∧
      ((strategy = .multinomial → |2 * d| ≤ 500) → ∃ p,
        one.output ⟨.predictProba, input⟩ b = .ok (.scalar p) ∧
        two.output ⟨.predictProba, input⟩ b = .ok (.vector (.ofList [1 - p, p])) ∧
        one.output ⟨.predictLogProba, input⟩ b = .ok (.scalar (ExpLn.ln p)) ∧
        two.output ⟨.predictLogProba, input⟩ b =
          .ok (.vector (.ofList [ExpLn.ln (1 - p), ExpLn.ln p]))) := by
  intro d one two
  have hone (method : Method) : one.output ⟨method, input⟩ b = .ok (Logistic.rowValue
      (if method.isProbability = true then strategy.contrast d else d) method) := by
    simpa only [Vector.dot_eq_sum] using output_oneRow hw hx c strategy classes solver hb method
  have htwo (method : Method) :
      two.output ⟨method, input⟩ b = .ok (Logistic.rowsValue strategy (-d) [d] method) := by
    simpa only [Vector.dot_eq_sum] using output_twoRows hw hx c strategy classes' solver' hb method
  -- From here on the models and the score matter through these values only.
  clear_value d one two
  refine ⟨hone .decisionFunction, htwo .decisionFunction, ?_, ?_⟩
  · refine ⟨if 0 < d then 1 else 0, (hone .predict).trans ?_, (htwo .predict).trans ?_⟩
    · simp [Logistic.rowValue, Method.isProbability, Scalar.step_eq]
    · simp [Logistic.rowsValue, Vector.argMax_opposite]
  · intro hlimit
    have hprobs : Logistic.probabilityValues strategy (-d) [d] =
        [1 - Scalar.sigmoid (strategy.contrast d), Scalar.sigmoid (strategy.contrast d)] := by
      rw [Logistic.probabilityValues_eq_shares, strategy.shares_opposite hlimit]
    have hprob : Scalar.logistic (strategy.contrast d) = Scalar.sigmoid (strategy.contrast d) :=
      Scalar.logistic_eq_sigmoid _
    refine ⟨Scalar.sigmoid (strategy.contrast d), (hone .predictProba).trans ?_,
      (htwo .predictProba).trans ?_, (hone .predictLogProba).trans ?_,
      (htwo .predictLogProba).trans ?_⟩
    · simp only [Method.isProbability, if_true, Logistic.rowValue, hprob]
    · rw [Logistic.rowsValue, hprobs]
    · simp only [Method.isProbability, if_true, Logistic.rowValue, hprob]
    · rw [Logistic.rowsValue, hprobs]
      rfl

theorem oneRow_agrees_with_twoRows_multinomial :
    |2 * ((List.zipWith (· * ·) [(1 : ℝ), -2] [3, 1]).sum + 1 / 2)| ≤ 500 ∧ ∃ p : ℝ,
      (oneRow [1, -2] (1 / 2) .multinomial none "lbfgs").output ⟨.predictProba, "x"⟩
          (Bindings.empty.bind "x" (.vector (.ofList [3, 1]))) = .ok (.scalar p) ∧
        (twoRows [1, -2] (1 / 2) .multinomial none "liblinear").output ⟨.predictProba, "x"⟩
          (Bindings.empty.bind "x" (.vector (.ofList [3, 1]))) =
            .ok (.vector (.ofList [1 - p, p])) := by
  have hlimit : |2 * ((List.zipWith (· * ·) [(1 : ℝ), -2] [3, 1]).sum + 1 / 2)| ≤ 500 := by
    norm_num [abs_le]
  obtain ⟨-, -, -, hprobs⟩ := oneRow_agrees_with_twoRows (w := [(1 : ℝ), -2]) (x := .ofList [3, 1])
    (List.cons_ne_nil _ _) rfl (1 / 2) .multinomial none none "lbfgs" "liblinear"
    (Bindings.get?_bind_self Bindings.empty "x" _)
  obtain ⟨p, hone, htwo, -⟩ := hprobs fun _ => hlimit
  exact ⟨hlimit, p, hone, htwo⟩

end FittedModel
end ScoreTree
