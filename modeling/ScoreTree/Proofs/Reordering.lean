import ScoreTree.Proofs.Coherence
import ScoreTree.Proofs.LargestDouble
import ScoreTree.Proofs.Shares

/-!
# Models with their classes in another order

Coefficients, intercepts and labels of a model are put in another order together. The scores are the
same numbers in the new order, and so are the probabilities where sums do not depend on the order of
their terms. The position of the largest score follows the order as well if there is only one such
position, so its label stays the same (`reordered_outputs`).
-/

namespace ScoreTree

universe u v w

/-! ## Lists in another order -/

section Lists

variable {β : Type u} {γ : Type v} {δ : Type w} {order : List ℕ}

/-- The elements at the positions that `order` lists, in its order. -/
def reorder (order : List ℕ) (xs : List β) : List β := order.filterMap fun i => xs[i]?

theorem reorder_map (f : β → γ) (order : List ℕ) (xs : List β) :
    reorder order (xs.map f) = (reorder order xs).map f := by
  simp [reorder, List.map_filterMap]

theorem reorder_zipWith (f : β → γ → δ) (order : List ℕ) {xs : List β} {ys : List γ}
    (h : xs.length = ys.length) :
    reorder order (List.zipWith f xs ys) =
      List.zipWith f (reorder order xs) (reorder order ys) := by
  induction order with
  | nil => rfl
  | cons i order ih =>
    simp only [reorder, List.filterMap_cons, List.getElem?_zipWith] at ih ⊢
    by_cases hi : i < xs.length
    · simp [hi, h ▸ hi, ih]
    · have hi' : ¬ i < ys.length := h ▸ hi
      simp [hi, hi', ih]

theorem reorder_range (xs : List β) : reorder (List.range xs.length) xs = xs := by
  induction xs with
  | nil => rfl
  | cons x xs ih =>
    rw [List.length_cons, List.range_succ_eq_map, reorder, List.filterMap_cons, List.filterMap_map]
    exact congrArg (x :: ·) ih

theorem reorder_perm {xs : List β} (h : order.Perm (List.range xs.length)) :
    (reorder order xs).Perm xs :=
  (h.filterMap _).trans (.of_eq (reorder_range xs))

theorem getElem?_reorder {xs : List β} (h : ∀ i ∈ order, i < xs.length) (k : ℕ) :
    (reorder order xs)[k]? = order[k]?.bind fun i => xs[i]? := by
  induction order generalizing k with
  | nil => rfl
  | cons i order ih =>
    have hi := h i List.mem_cons_self
    have htail := ih fun j hj => h j (List.mem_cons_of_mem i hj)
    simp only [reorder, List.filterMap_cons, List.getElem?_eq_getElem hi] at htail ⊢
    cases k with
    | zero => simp [hi]
    | succ k => simpa using htail k

/-- A component that no component exceeds is found in another order at its new position. -/
theorem isTop_of_isTop_reorder {xs : List Float} (h : order.Perm (List.range xs.length)) {k : ℕ}
    (hk : Vector.IsTop (reorder order xs) k) : ∃ i, order[k]? = some i ∧ Vector.IsTop xs i := by
  obtain ⟨top, htop, hmax⟩ := hk
  rw [getElem?_reorder fun i hi => List.mem_range.mp (h.subset hi)] at htop
  obtain ⟨i, hi, htop⟩ := Option.bind_eq_some_iff.mp htop
  exact ⟨i, hi, top, htop, fun x hx => hmax x ((reorder_perm h).symm.subset hx)⟩

end Lists

theorem Vector.shares_reorder {K : Type u} [Field K] (f : K → K) {order : List ℕ} {xs : List K}
    (h : order.Perm (List.range xs.length)) :
    shares f (reorder order xs) = reorder order (shares f xs) := by
  have hsum : ((reorder order xs).map f).sum = (xs.map f).sum :=
    ((reorder_perm h).map f).sum_eq
  simp only [shares, hsum, reorder_map]

/-! ## Models in another order -/

namespace FittedModel

section Model

variable {α : Type u} {m : FittedModel α} {order : List ℕ}

/-- The model with its classes in another order. -/
def reorder (m : FittedModel α) (order : List ℕ) : FittedModel α :=
  { m with
    coef := ScoreTree.reorder order m.coef
    intercept := ScoreTree.reorder order m.intercept
    classes := m.classes.map (ScoreTree.reorder order) }

/-- Several rows of one length with an intercept each, and labels for all of them if there are any,
and an order of the rows. -/
structure Reorderable (m : FittedModel α) (order : List ℕ) : Prop where
  two_le : 2 ≤ m.coef.length
  length_eq : ∀ row ∈ m.coef, row.length = m.features
  intercepts : m.intercept.length = m.coef.length
  labels : ∀ labels, m.classes = some labels → labels.length = m.coef.length
  order : order.Perm (List.range m.coef.length)

namespace Reorderable

theorem rows_ne_one (h : m.Reorderable order) : m.coef.length ≠ 1 := by
  have := h.two_le
  omega

theorem coef_perm (h : m.Reorderable order) : (m.reorder order).coef.Perm m.coef :=
  reorder_perm h.order

theorem length_coef (h : m.Reorderable order) : (m.reorder order).coef.length = m.coef.length :=
  h.coef_perm.length_eq

theorem length_intercept (h : m.Reorderable order) :
    (m.reorder order).intercept.length = m.coef.length :=
  (reorder_perm (h.intercepts.symm ▸ h.order)).length_eq.trans h.intercepts

theorem features_reorder (h : m.Reorderable order) : (m.reorder order).features = m.features := by
  have hpos : 0 < (m.reorder order).coef.length := by
    have := h.two_le
    rw [h.length_coef]
    omega
  obtain ⟨row, rows, hcons⟩ := List.exists_cons_of_length_pos hpos
  have hmem : row ∈ m.coef := h.coef_perm.subset (hcons ▸ List.mem_cons_self)
  rw [features, hcons, List.headD_cons, h.length_eq row hmem]

theorem length_eq_reorder (h : m.Reorderable order) :
    ∀ row ∈ (m.reorder order).coef, row.length = (m.reorder order).features := by
  intro row hrow
  rw [h.features_reorder]
  exact h.length_eq row (h.coef_perm.subset hrow)

theorem resolved?_reorder (h : m.Reorderable order) : (m.reorder order).resolved? = m.resolved? := by
  unfold resolved?
  rw [h.length_coef]
  rfl

/-- The checks look at sizes and names only. -/
theorem rowsLines_reorder (h : m.Reorderable order) (method : Method) :
    (m.reorder order).rowsLines method = m.rowsLines method := by
  have hnone : m.coef.getD m.coef.length [] = (m.reorder order).coef.getD m.coef.length [] := by
    simp [h.length_coef]
  unfold rowsLines
  rw [unevenRow_eq_length_iff.mpr h.length_eq, unevenRow_eq_length_iff.mpr h.length_eq_reorder,
    h.length_coef, h.length_intercept, h.features_reorder, h.resolved?_reorder, h.intercepts, hnone]
  rfl

theorem fault?_reorder (h : m.Reorderable order) (method : Method) :
    (m.reorder order).fault? method = m.fault? method := by
  rw [fault?, fault?, if_neg (h.length_coef ▸ h.rows_ne_one), if_neg h.rows_ne_one,
    h.rowsLines_reorder]

theorem regular_reorder (h : m.Reorderable order) (hm : m.Regular) : (m.reorder order).Regular where
  rows_pos := h.length_coef ▸ hm.rows_pos
  length_eq := h.length_eq_reorder
  intercepts := h.length_intercept.trans h.length_coef.symm
  features_pos := h.features_reorder ▸ hm.features_pos

theorem label?_reorder (h : m.Reorderable order) {k i : ℕ} (hk : order[k]? = some i) :
    (m.reorder order).label? k = m.label? i := by
  cases hclasses : m.classes with
  | none => simp [label?, reorder, hclasses]
  | some labels =>
    have hlength := h.labels labels hclasses
    have hbound : ∀ i ∈ order, i < labels.length := fun i hi => by
      rw [hlength]
      exact List.mem_range.mp (h.order.subset hi)
    simp [label?, reorder, hclasses, getElem?_reorder hbound, hk]

/-- Both models have a tree, or both are refused for the same reason. -/
theorem result_reorder [NatCast α] [Mul α] (h : m.Reorderable order) (s : Settings) :
    (∃ tree tree', (m.toExpr s).result = .ok tree ∧
      ((m.reorder order).toExpr s).result = .ok tree') ∨
    ∃ error, (m.toExpr s).result = .error error ∧
      ((m.reorder order).toExpr s).result = .error error := by
  rw [toExpr_result_eq, toExpr_result_eq, h.fault?_reorder]
  cases m.fault? s.method with
  | some error => exact .inr ⟨error, rfl, rfl⟩
  | none => exact .inl ⟨_, _, rfl, rfl⟩

theorem scores_reorder [NatCast α] [Add α] [Mul α] (h : m.Reorderable order) (x : Row α) :
    (m.reorder order).scores x = ScoreTree.reorder order (m.scores x) :=
  (reorder_zipWith _ order h.intercepts.symm).symm

end Reorderable
end Model

/-! ## Outputs of several rows -/

section Output

variable {α : Type u} [NatCast α] [Add α] [Mul α] [Sub α] [Neg α] [Div α] [ExpLn α]
variable [LT α] [DecidableLT α] [LE α] [DecidableLE α]
variable {m : FittedModel α} {order : List ℕ} {s : Settings} {b : Bindings α}

/-- There is a value only for a regular model and an input with its number of features. -/
theorem exists_input_of_output {r : Value α} (h : m.output s b = .ok r) :
    m.Regular ∧ ∃ v, b.get? s.input = some v ∧ v.components.entries.length = m.features := by
  obtain ⟨tree, htree, heval⟩ := output_eq_ok_iff.mp h
  obtain ⟨hm, -, rfl⟩ := toExpr_eq_ok_iff.mp htree
  cases hinput : b.get? s.input with
  | none =>
    rw [hm.eval_tree_of_unbound hinput] at heval
    cases heval
  | some v =>
    refine ⟨hm, v, rfl, ?_⟩
    by_contra hlength
    rw [hm.eval_tree_of_length_ne hinput hlength] at heval
    cases heval

/-- Where the model has the output, it is a vector with one component per class for every row of
features, and the model in another order has this vector in that order. -/
def FollowsOrder (m : FittedModel α) (order : List ℕ) (method : Method) : Prop :=
  ∀ (input : String) (b : Bindings α) (v : Value α), b.get? input = some v →
    v.components.entries.length = m.features → ∀ tree, (m.toExpr ⟨method, input⟩).result = .ok tree →
      ∃ xs : List α, xs.length = m.classCount ∧ m.output ⟨method, input⟩ b = .ok (.vector xs) ∧
        (m.reorder order).output ⟨method, input⟩ b = .ok (.vector (ScoreTree.reorder order xs))

namespace Reorderable

/-- The outputs of both models are functions of scores that are the same but for the order. -/
theorem exists_outputs (h : m.Reorderable order) (hm : m.Regular) {input : String} {v : Value α}
    (hinput : b.get? input = some v) (hlength : v.components.entries.length = m.features) :
    ∃ (d d' : α) (ds ds' : List α), (d :: ds).length = m.coef.length ∧
      ScoreTree.reorder order (d :: ds) = d' :: ds' ∧
      ∀ method, (method.isProbability = true → m.resolved?.isSome = true) →
        m.output ⟨method, input⟩ b =
            .ok (Logistic.rowsValue (m.resolved?.getD .ovr) d ds method) ∧
          (m.reorder order).output ⟨method, input⟩ b =
            .ok (Logistic.rowsValue (m.resolved?.getD .ovr) d' ds' method) := by
  have hm' := h.regular_reorder hm
  obtain ⟨d, ds, hscores, hds⟩ := hm.exists_scores v.components
  obtain ⟨d', ds', hscores', -⟩ := hm'.exists_scores v.components
  refine ⟨d, d', ds, ds', hds, by rw [← hscores, ← h.scores_reorder, hscores'], ?_⟩
  intro method hresolved
  have heval := hm.eval_tree_of_scores (s := ⟨method, input⟩) h.rows_ne_one hinput hlength hscores
  have heval' := hm'.eval_tree_of_scores (s := ⟨method, input⟩) (h.length_coef ▸ h.rows_ne_one)
    hinput (hlength.trans h.features_reorder.symm) hscores'
  rw [h.resolved?_reorder] at heval'
  exact ⟨hm.output_eq hresolved heval, hm'.output_eq (h.resolved?_reorder ▸ hresolved) heval'⟩

/-- An output follows the order if it does so as a function of the scores. -/
theorem followsOrder (h : m.Reorderable order) {method : Method}
    (hvalue : ∀ (strategy : Strategy) (d d' : α) (ds ds' : List α),
      order.Perm (List.range (d :: ds).length) → ScoreTree.reorder order (d :: ds) = d' :: ds' →
      ∃ xs : List α, xs.length = (d :: ds).length ∧
        Logistic.rowsValue strategy d ds method = .vector xs ∧
        Logistic.rowsValue strategy d' ds' method = .vector (ScoreTree.reorder order xs)) :
    m.FollowsOrder order method := by
  intro input b v hinput hlength tree htree
  obtain ⟨hm, hresolved, -⟩ := toExpr_eq_ok_iff.mp htree
  obtain ⟨d, d', ds, ds', hds, hscores, houtputs⟩ := h.exists_outputs hm hinput hlength
  obtain ⟨houtput, houtput'⟩ := houtputs method hresolved
  obtain ⟨xs, hxs, hvalue, hvalue'⟩ :=
    hvalue (m.resolved?.getD .ovr) d d' ds ds' (hds ▸ h.order) hscores
  rw [hvalue] at houtput
  rw [hvalue'] at houtput'
  exact ⟨xs, by rw [hxs, hds, classCount, if_neg h.rows_ne_one], houtput, houtput'⟩

/-- Scores are put in order bit for bit, since no score looks at another one. -/
theorem decision_followsOrder (h : m.Reorderable order) :
    m.FollowsOrder order .decisionFunction :=
  h.followsOrder fun _ d _ ds _ _ hscores =>
    ⟨d :: ds, rfl, rfl, congrArg (fun xs => Value.vector (.ofList xs)) hscores.symm⟩

end Reorderable
end Output

section Exact

variable {K : Type u} [Field K] [LinearOrder K] [IsStrictOrderedRing K] [ExpLn K] [ExpLaws K]
variable {m : FittedModel K} {order : List ℕ}

/-- Probabilities follow the order since the sum of their weights does not depend on it. -/
theorem probabilityValues_reorder (strategy : Strategy) {d d' : K} {ds ds' : List K}
    (h : order.Perm (List.range (d :: ds).length))
    (hscores : ScoreTree.reorder order (d :: ds) = d' :: ds') :
    Logistic.probabilityValues strategy d' ds' =
      ScoreTree.reorder order (Logistic.probabilityValues strategy d ds) := by
  rw [Logistic.probabilityValues_eq_shares, Logistic.probabilityValues_eq_shares, ← hscores,
    Vector.shares_reorder _ h]

theorem Reorderable.probability_followsOrder (h : m.Reorderable order) {method : Method}
    (hmethod : method.isProbability = true) : m.FollowsOrder order method := by
  refine h.followsOrder fun strategy d d' ds ds' horder hscores => ?_
  have hprobs := probabilityValues_reorder strategy horder hscores
  have hlength : (Logistic.probabilityValues strategy d ds).length = (d :: ds).length := by
    rw [Logistic.probabilityValues_eq_shares, Vector.length_shares]
  cases method with
  | decisionFunction => cases hmethod
  | predict => cases hmethod
  | predictProba =>
    exact ⟨_, hlength, rfl, congrArg (fun xs => Value.vector (.ofList xs)) hprobs⟩
  | predictLogProba =>
    refine ⟨_, (List.length_map _).trans hlength, rfl, ?_⟩
    rw [Logistic.rowsValue, hprobs, reorder_map]

end Exact

section Label

variable {m : FittedModel Float} {order : List ℕ} {input : String} {b : Bindings Float}

/-- A scan finds the only largest score in any order. -/
theorem argMax_reorder {d d' : Float} {ds ds' : List Float}
    (horder : order.Perm (List.range (d :: ds).length))
    (hscores : ScoreTree.reorder order (d :: ds) = d' :: ds')
    (hknown : ∀ x ∈ d :: ds, x.isNaN = false) (hone : ∃! k, Vector.IsTop (d :: ds) k) :
    order[Vector.argMax d' ds']? = some (Vector.argMax d ds) := by
  have hperm : (d' :: ds').Perm (d :: ds) := hscores ▸ reorder_perm horder
  have htop : Vector.IsTop (ScoreTree.reorder order (d :: ds)) (Vector.argMax d' ds') :=
    hscores ▸ Vector.isTop_argMax fun x hx => hknown x (hperm.subset hx)
  obtain ⟨i, hi, hitop⟩ := isTop_of_isTop_reorder horder htop
  rw [hi, hone.unique hitop (Vector.isTop_argMax hknown)]

theorem Reorderable.exists_predictions (h : m.Reorderable order) {d : List Float}
    (hd : m.output ⟨.decisionFunction, input⟩ b = .ok (.vector d))
    (hknown : ∀ x ∈ d, x.isNaN = false) (hone : ∃! k, Vector.IsTop d k) :
    ∃ k k', order[k']? = some k ∧
      m.output ⟨.predict, input⟩ b = .ok (.scalar (Float.ofNat k)) ∧
      (m.reorder order).output ⟨.predict, input⟩ b = .ok (.scalar (Float.ofNat k')) ∧
      (m.reorder order).label? k' = m.label? k := by
  obtain ⟨hm, v, hinput, hlength⟩ := exists_input_of_output hd
  obtain ⟨x, x', xs, xs', hxs, hscores, houtputs⟩ := h.exists_outputs hm hinput hlength
  obtain ⟨hdecision, -⟩ := houtputs .decisionFunction (by rintro ⟨⟩)
  obtain ⟨hpredict, hpredict'⟩ := houtputs .predict (by rintro ⟨⟩)
  obtain rfl : x :: xs = d := by
    rw [hdecision] at hd
    exact congrArg Row.entries (Value.vector.inj (Except.ok.inj hd))
  have hk := argMax_reorder (hxs ▸ h.order) hscores hknown hone
  exact ⟨_, _, hk, hpredict, hpredict', h.label?_reorder hk⟩

end Label

variable {K : Type u} [Field K] [LinearOrder K] [IsStrictOrderedRing K] [ExpLn K] [ExpLaws K]

/-- A model with its classes in another order has a tree where the model has one, and fails alike
elsewhere. Its scores are those of the model in that order, bit for bit, and without a rounding so are
the probabilities and their logarithms. Where all scores are known and one class alone has the
largest, the label of the prediction is the same. -/
theorem reordered_outputs {order : List ℕ} {m : FittedModel Float} (hm : m.Reorderable order)
    {e : FittedModel K} (he : e.Reorderable order) :
    (∀ s, (∃ tree tree', (m.toExpr s).result = .ok tree ∧
        ((m.reorder order).toExpr s).result = .ok tree') ∨
      ∃ error, (m.toExpr s).result = .error error ∧
        ((m.reorder order).toExpr s).result = .error error) ∧
    m.FollowsOrder order .decisionFunction ∧
    (∀ method, method ≠ .predict → e.FollowsOrder order method) ∧
    ∀ (input : String) (b : Bindings Float) (d : List Float),
      m.output ⟨.decisionFunction, input⟩ b = .ok (.vector d) → (∀ x ∈ d, x.isNaN = false) →
      (∃! k, Vector.IsTop d k) → ∃ k k', order[k']? = some k ∧
        m.output ⟨.predict, input⟩ b = .ok (.scalar (Float.ofNat k)) ∧
        (m.reorder order).output ⟨.predict, input⟩ b = .ok (.scalar (Float.ofNat k')) ∧
        (m.reorder order).label? k' = m.label? k := by
  refine ⟨hm.result_reorder, hm.decision_followsOrder, ?_, ?_⟩
  · intro method hmethod
    cases method with
    | decisionFunction => exact he.decision_followsOrder
    | predict => exact absurd rfl hmethod
    | predictProba => exact he.probability_followsOrder rfl
    | predictLogProba => exact he.probability_followsOrder rfl
  · intro input b d
    exact hm.exists_predictions

/-- Three classes of two features with their labels. -/
def compass {α : Type u} [OfNat α 0] [OfNat α 1] [Neg α] : FittedModel α where
  coef := [[1, 0], [0, 1], [-1, -1]]
  intercept := [0, 1, 0]
  classes := some [.string "east", .string "north", .string "elsewhere"]
  strategyName := "auto"
  solver := "lbfgs"

theorem compass_reorderable {α : Type u} [OfNat α 0] [OfNat α 1] [Neg α] :
    (compass : FittedModel α).Reorderable [2, 0, 1] where
  two_le := Nat.le_add_left 2 1
  length_eq := by simp [compass, features]
  intercepts := rfl
  labels := by
    rintro _ ⟨⟩
    rfl
  order := by
    change [2, 0, 1].Perm (List.range 3)
    decide

theorem reordered_outputs_compass :
    (compass : FittedModel ℝ).FollowsOrder [2, 0, 1] .predictProba ∧
      ∃ k k', [2, 0, 1][k']? = some k ∧
        compass.outputOn .predict [3, 1] = .ok (.scalar (Float.ofNat k)) ∧
        (compass.reorder [2, 0, 1]).outputOn .predict [3, 1] = .ok (.scalar (Float.ofNat k')) ∧
        (compass.reorder [2, 0, 1]).label? k' = (compass : FittedModel Float).label? k := by
  obtain ⟨-, -, hexact, hlabel⟩ := reordered_outputs (m := compass) compass_reorderable
    (e := (compass : FittedModel ℝ)) compass_reorderable
  have hscores : compass.scores (.ofList [3, 1]) = [3, 2, (-4 : Float)] := by decide +kernel
  refine ⟨hexact .predictProba (by decide), hlabel _ _ [3, 2, -4] ?_ ?_ ?_⟩
  · rw [← hscores]
    rfl
  · decide +kernel
  · refine ⟨0, ⟨3, rfl, by decide +kernel⟩, ?_⟩
    rintro k ⟨top, htop, hmax⟩
    have hlargest : ¬ top < 3 := hmax 3 List.mem_cons_self
    obtain _ | _ | _ | k := k
    · rfl
    · cases htop
      exact absurd (by decide +kernel) hlargest
    · cases htop
      exact absurd (by decide +kernel) hlargest
    · cases htop

end FittedModel
end ScoreTree
