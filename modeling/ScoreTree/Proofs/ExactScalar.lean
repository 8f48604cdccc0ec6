import Mathlib.Analysis.SpecialFunctions.Log.Basic
import Mathlib.Tactic
import ScoreTree.Scalar

/-!
# Scalars without rounding

Over an ordered field the functions of one number are the textbook ones. Of the exponential only its
laws are used, collected in `ExpLaws`; the logarithm stays arbitrary. The two branches of
`Scalar.logistic` are one formula, `Scalar.sigmoid` (`logistic_eq_sigmoid`). The sigmoid lies between
zero and one, is symmetric (`sigmoid_neg`) and increases strictly as far as its argument is not limited
(`sigmoid_strictMonoOn`).
-/

namespace ScoreTree

/-- The laws of an exponential: positive, strictly increasing, and sums become products. -/
class ExpLaws (K : Type*) [Field K] [LinearOrder K] [ExpLn K] : Prop where
  exp_pos : ∀ t : K, 0 < ExpLn.exp t
  exp_strictMono : StrictMono (ExpLn.exp : K → K)
  exp_add : ∀ a b : K, ExpLn.exp (a + b) = ExpLn.exp a * ExpLn.exp b
  exp_zero : ExpLn.exp (0 : K) = 1

noncomputable instance : ExpLn ℝ := ⟨Real.exp, Real.log⟩

instance : ExpLaws ℝ where
  exp_pos := Real.exp_pos
  exp_strictMono := Real.exp_strictMono
  exp_add := Real.exp_add
  exp_zero := Real.exp_zero

namespace Scalar

variable {K : Type*} [Field K] [LinearOrder K]

/-- A number limited to `[-500, 500]`. -/
def limit (t : K) : K := max (-500) (min t 500)

theorem clamp_eq_limit [IsStrictOrderedRing K] (t : K) : clamp t = limit t := by
  have hends : (-500 : K) ≤ 500 := by norm_num
  unfold clamp limit
  simp only [Nat.cast_ofNat]
  split_ifs with hlow hhigh
  · rw [min_eq_left (hlow.le.trans hends), max_eq_left hlow.le]
  · rw [min_eq_right hhigh.le, max_eq_right hends]
  · rw [min_eq_left (not_lt.mp hhigh), max_eq_right (not_lt.mp hlow)]

theorem limit_eq_self {t : K} (h : t ∈ Set.Icc (-500) 500) : limit t = t := by
  rw [limit, min_eq_left h.2, max_eq_right h.1]

theorem limit_mono : Monotone (limit : K → K) :=
  fun _ _ h => max_le_max le_rfl (min_le_min h le_rfl)

theorem limit_neg [IsStrictOrderedRing K] (t : K) : limit (-t) = -limit t := by
  have hends : (-500 : K) ≤ 500 := by norm_num
  calc
    limit (-t) = min (max (-500) (-t)) (-(-500)) := by
      rw [limit, max_min_distrib_left, max_eq_right hends, neg_neg]
    _ = -max (min 500 t) (-500) := by rw [max_neg_neg, min_neg_neg]
    _ = -limit t := by rw [limit, max_comm, min_comm]

theorem limit_pos_iff [IsStrictOrderedRing K] {t : K} : 0 < limit t ↔ 0 < t := by
  simp [limit]

theorem step_eq [IsStrictOrderedRing K] (t : K) : step t = if 0 < t then 1 else 0 := by
  simp [step]

section Sigmoid

variable [ExpLn K]

/-- The textbook sigmoid of a limited argument. -/
def sigmoid (t : K) : K := 1 / (1 + ExpLn.exp (-limit t))

variable [ExpLaws K]

open ExpLaws

theorem exp_neg_mul_exp (t : K) : ExpLn.exp (-t) * ExpLn.exp t = 1 := by
  rw [← exp_add, neg_add_cancel, exp_zero]

theorem exp_sub_eq (s t : K) : ExpLn.exp (s - t) = ExpLn.exp s * ExpLn.exp (-t) := by
  rw [sub_eq_add_neg, exp_add]

variable [IsStrictOrderedRing K]

theorem one_add_exp_pos (t : K) : 0 < 1 + ExpLn.exp t :=
  add_pos one_pos (exp_pos t)

/-- The sigmoid, with the exponential of the limited argument itself. -/
theorem sigmoid_eq_exp_div (t : K) :
    sigmoid t = ExpLn.exp (limit t) / (1 + ExpLn.exp (limit t)) := by
  have hinv := exp_neg_mul_exp (limit t)
  rw [sigmoid, div_eq_div_iff (one_add_exp_pos _).ne' (one_add_exp_pos _).ne']
  linear_combination -hinv

/-- Both branches of the logistic function compute the sigmoid. -/
theorem logistic_eq_sigmoid (t : K) : logistic t = sigmoid t := by
  unfold logistic
  simp only [clamp_eq_limit, Nat.cast_zero, Nat.cast_one]
  split_ifs
  · rfl
  · exact (sigmoid_eq_exp_div t).symm

theorem sigmoid_pos (t : K) : 0 < sigmoid t :=
  one_div_pos.mpr (one_add_exp_pos _)

theorem sigmoid_lt_one (t : K) : sigmoid t < 1 := by
  rw [sigmoid, div_lt_one (one_add_exp_pos _)]
  exact lt_add_of_pos_right 1 (exp_pos _)

theorem sigmoid_neg (t : K) : sigmoid (-t) = 1 - sigmoid t := by
  rw [sigmoid_eq_exp_div t, sigmoid, limit_neg, neg_neg, eq_sub_iff_add_eq, ← add_div,
    div_self (one_add_exp_pos _).ne']

/-- The sigmoid orders numbers as their limits are ordered, so it is constant outside the limits. -/
theorem sigmoid_lt_sigmoid_iff {s t : K} : sigmoid s < sigmoid t ↔ limit s < limit t := by
  rw [sigmoid, sigmoid, one_div_lt_one_div (one_add_exp_pos _) (one_add_exp_pos _),
    add_lt_add_iff_left, exp_strictMono.lt_iff_lt, neg_lt_neg_iff]

theorem sigmoid_mono : Monotone (sigmoid : K → K) := fun _ _ h =>
  not_lt.mp fun hlt => absurd (sigmoid_lt_sigmoid_iff.mp hlt) (not_lt.mpr (limit_mono h))

theorem sigmoid_strictMonoOn : StrictMonoOn (sigmoid : K → K) {t | limit t = t} := by
  intro s hs t ht hlt
  have hs : limit s = s := hs
  have ht : limit t = t := ht
  rwa [sigmoid_lt_sigmoid_iff, hs, ht]

theorem half_lt_sigmoid_iff {t : K} : 1 / 2 < sigmoid t ↔ 0 < t := by
  have hzero : sigmoid (0 : K) = 1 / 2 := by
    have := sigmoid_neg (0 : K)
    rw [neg_zero] at this
    linarith
  rw [← hzero, sigmoid_lt_sigmoid_iff, limit_eq_self (by norm_num), limit_pos_iff]

/-- The share of one of two exponentials of opposite numbers is the sigmoid of their distance. -/
theorem exp_div_exp_neg_add_exp {t : K} (h : 2 * t ∈ Set.Icc (-500) 500) :
    ExpLn.exp t / (ExpLn.exp (-t) + ExpLn.exp t) = sigmoid (2 * t) := by
  have hdouble : ExpLn.exp (2 * t) = ExpLn.exp t * ExpLn.exp t := by rw [two_mul, exp_add]
  have hinv := exp_neg_mul_exp t
  rw [sigmoid_eq_exp_div, limit_eq_self h, hdouble, div_eq_div_iff]
  · linear_combination -ExpLn.exp t * hinv
  · exact (add_pos (exp_pos _) (exp_pos _)).ne'
  · have := exp_pos t
    positivity

end Sigmoid
end Scalar
end ScoreTree
