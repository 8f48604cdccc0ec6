import ScoreTree.Matrix

/-!
# Weights

Coefficients and intercepts of an affine map: one row, which gives a scalar, or a matrix, which
gives one component per row. `Weights.defect?` finds what keeps them from defining a map.
-/

namespace ScoreTree

universe u

variable {α : Type u}

/-- Why weights define no affine map. -/
inductive ShapeError where
  /-- There is no coefficient. -/
  | empty
  /-- The number of intercepts is not that of the rows. -/
  | interceptLength (rows intercepts : Nat)
  deriving DecidableEq

def ShapeError.message : ShapeError → String
  | empty => "coefficients must not be empty"
  | interceptLength rows intercepts =>
    s!"coefficient matrix has {rows} rows but intercept has {intercepts} entries"

/-- Coefficients and intercepts of an affine map. -/
inductive Weights (α : Type u) where
  /-- One row and its intercept; the map gives a scalar. -/
  | row (coef : Row α) (intercept : α)
  /-- One row and one intercept per component of the result. How the intercepts lie in memory does
  not matter. -/
  | matrix (coef : Matrix α) (intercept : List α)
  deriving BEq

namespace Weights

/-- The number of components that the map takes. -/
def features : Weights α → Nat
  | row coef _ => coef.entries.length
  | matrix coef _ => coef.width

/-- The number of components that the map gives. -/
def outputs : Weights α → Nat
  | row .. => 1
  | matrix coef _ => coef.height

/-- Whether the map gives a vector. -/
def isMatrix : Weights α → Bool
  | row .. => false
  | matrix .. => true

/-- What is wrong with the weights. Missing coefficients are found before missing intercepts. -/
def defect? : Weights α → Option ShapeError
  | row coef _ => if coef.entries.isEmpty then some .empty else none
  | matrix coef intercept =>
    if coef.isEmpty then some .empty
    else if coef.height = intercept.length then none
    else some (.interceptLength coef.height intercept.length)

/-- Weights with at least one coefficient and one intercept per row. -/
def WellFormed : Weights α → Prop
  | row coef _ => 0 < coef.entries.length
  | matrix coef intercept =>
    0 < coef.width ∧ 0 < coef.height ∧ intercept.length = coef.height

theorem defect?_eq_none_iff {w : Weights α} : w.defect? = none ↔ w.WellFormed := by
  cases w with
  | row coef _ =>
    cases hcoef : coef.entries <;> simp [defect?, WellFormed, hcoef]
  | matrix coef intercept =>
    by_cases hempty : coef.isEmpty = true
    · simp only [defect?, hempty, if_true, WellFormed]
      simp only [Matrix.isEmpty, Bool.or_eq_true, beq_iff_eq] at hempty
      constructor
      · simp
      · omega
    · by_cases hlength : coef.height = intercept.length
      · simp only [defect?, hempty, if_pos hlength, WellFormed]
        simp only [Matrix.isEmpty, Bool.or_eq_true, beq_iff_eq] at hempty
        constructor
        · intro _
          omega
        · simp
      · simp only [defect?, hempty, if_neg hlength, WellFormed]
        constructor
        · simp
        · omega

end Weights
end ScoreTree
