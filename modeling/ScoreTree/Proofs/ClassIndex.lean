import ScoreTree.Proofs.Coherence
import ScoreTree.Proofs.Decimal.Naturals

/-!
# The index of the predicted class

Whatever the scores are, a step is zero or one and the scan for the largest score ends at one of its
positions. So a prediction is the index of a class, and its label is found wherever the model has
labels for all its classes (`predict_indexes_class`).
-/

namespace ScoreTree

universe u

variable {α : Type u} [NatCast α]

theorem Scalar.exists_step [LT α] [DecidableLT α] (x : α) : ∃ k : ℕ, k < 2 ∧ step x = (k : α) := by
  unfold step
  split
  · exact ⟨1, Nat.one_lt_two, rfl⟩
  · exact ⟨0, Nat.two_pos, rfl⟩

namespace FittedModel

variable {m : FittedModel α} {k : ℕ}

omit [NatCast α] in
theorem label?_eq_some {labels : List Json} (h : m.classes = some labels) (hk : k < labels.length) :
    m.label? k = some labels[k] := by
  simp [label?, h, hk]

omit [NatCast α] in
theorem label?_eq_none_iff :
    m.label? k = none ↔ ∀ labels, m.classes = some labels → labels.length ≤ k := by
  simp [label?, Option.bind_eq_none_iff]

variable [Add α] [Mul α] [Sub α] [Neg α] [Div α] [ExpLn α]
variable [LT α] [DecidableLT α] [LE α] [DecidableLE α]

/-- The prediction is the index of a class, for scores of any kind. -/
theorem Regular.exists_index {b : Bindings α} {v : Value α} {input : String} (hm : m.Regular)
    (hinput : b.get? input = some v) (hlength : v.components.entries.length = m.features) :
    ∃ k < m.classCount, (m.tree ⟨.predict, input⟩).eval b = .ok (.scalar (k : α)) := by
  unfold classCount
  by_cases hrows : m.coef.length = 1
  · obtain ⟨d, hd⟩ := hm.exists_score hrows hinput hlength
    obtain ⟨k, hk, hstep⟩ := Scalar.exists_step d
    have hvalue := eval_tree_of_row (s := ⟨.predict, input⟩) hrows hd
    rw [Logistic.rowValue, hstep] at hvalue
    exact ⟨k, by rwa [if_pos hrows], hvalue⟩
  · obtain ⟨d, ds, hscores, hcount⟩ := hm.exists_scores v.components
    have hposition := Vector.argMax_lt_length d ds
    rw [hcount] at hposition
    exact ⟨Vector.argMax d ds, by rwa [if_neg hrows],
      hm.eval_tree_of_scores (s := ⟨.predict, input⟩) hrows hinput hlength hscores⟩

/-- A prediction is the index of a class, as a double that is read back as this index, and labels for
all classes have one for it. An index is exact as a double up to `2 ^ 53`, which is more than the rows
that a memory holds. -/
theorem predict_indexes_class {m : FittedModel Float} {input : String} {tree : Expr Float}
    (htree : (m.toExpr ⟨.predict, input⟩).result = .ok tree) {b : Bindings Float} {v : Value Float}
    (hinput : b.get? input = some v) (hlength : v.components.entries.length = m.features) :
    ∃ k < m.classCount, tree.eval b = .ok (.scalar (Float.ofNat k)) ∧
      (k ≤ 2 ^ 53 →
        Decimal.IsExactly (Float.ofNat k) k ∧ (Float.ofNat k).toUInt64.toNat = k) ∧
      (∀ labels, m.classes = some labels → m.classCount ≤ labels.length →
        ∃ hk : k < labels.length, m.label? k = some labels[k]) ∧
      (m.label? k = none ↔ ∀ labels, m.classes = some labels → labels.length ≤ k) := by
  obtain ⟨hm, -, rfl⟩ := toExpr_eq_ok_iff.mp htree
  obtain ⟨k, hk, hvalue⟩ := hm.exists_index hinput hlength
  refine ⟨k, hk, hvalue, ?_, ?_, label?_eq_none_iff⟩
  · intro hsmall
    have hexact := Decimal.isExactly_ofNat hsmall
    exact ⟨hexact, hexact.toNat_toUInt64 (hsmall.trans_lt (by norm_num))⟩
  · intro labels hlabels hcount
    exact ⟨hk.trans_le hcount, label?_eq_some hlabels (hk.trans_le hcount)⟩

/-- Three labelled classes of two features. -/
def threeLabels : FittedModel Float where
  coef := [[1, 0], [0, 1], [-1, -1]]
  intercept := [0, 0.5, -0.5]
  classes := some [.string "setosa", .string "versicolor", .string "virginica"]
  strategyName := "auto"
  solver := "lbfgs"

/-- A row with an incomparable feature has a prediction, too. -/
theorem predict_indexes_class_threeLabels :
    ∃ tree, (threeLabels.toExpr ⟨.predict, "x"⟩).result = .ok tree ∧
      ∃ k < 3, tree.eval (Bindings.empty.bind "x" (.vector (.ofList [0 / 0, 1]))) =
          .ok (.scalar (Float.ofNat k)) ∧
        (Float.ofNat k).toUInt64.toNat = k ∧ ∃ label, threeLabels.label? k = some label := by
  have htree : (threeLabels.toExpr ⟨.predict, "x"⟩).result = .ok _ := rfl
  obtain ⟨k, hk, hvalue, hexact, hlabel, -⟩ := predict_indexes_class htree
    (Bindings.get?_bind_self Bindings.empty "x" (.vector (.ofList [0 / 0, 1]))) rfl
  have hcount : k < 3 := hk
  obtain ⟨hposition, hknown⟩ := hlabel _ rfl (by decide)
  exact ⟨_, rfl, k, hcount, hvalue, (hexact (by omega)).2, _, hknown⟩

end FittedModel
end ScoreTree
