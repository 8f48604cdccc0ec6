import Mathlib.Algebra.Order.BigOperators.Group.List
import Mathlib.Algebra.BigOperators.Ring.List
import Mathlib.Algebra.BigOperators.Group.Finset.Basic
import ScoreTree.Proofs.ExactScalar
import ScoreTree.Row

/-!
# Vectors without rounding

Over an ordered field the order of additions does not matter, so the lane sum is the sum, and the
layouts of two rows make no difference to their product. The largest component can be subtracted from
all exponents without a change of the quotients, and the position found by `Vector.argMax` is the least
one with a maximal component.
-/

namespace ScoreTree

variable {K : Type*} [Field K]

theorem Lanes.total_fill_zero : (Lanes.fill ((0 : ℕ) : K)).total = 0 := by
  simp [Lanes.total, Lanes.fill]

theorem Lanes.sumFrom_eq_sum (p : Lanes K) (xs : List K) :
    p.sumFrom xs = p.total + xs.sum := by
  induction p, xs using Lanes.sumFrom.induct with
  | case1 p x0 x1 x2 x3 x4 x5 x6 x7 rest ih =>
    rw [Lanes.sumFrom, ih]
    simp only [Lanes.total, List.sum_cons]
    ring
  | case2 p rest hshort =>
    calc
      p.sumFrom rest = rest.foldl (· + ·) (p.total + 0) := by
        rw [Lanes.sumFrom.eq_2 p rest hshort, add_zero]
      _ = p.total + rest.sum := by rw [List.foldl_assoc, List.sum_eq_foldl]

namespace Vector

theorem laneSum_eq_sum (xs : List K) : laneSum xs = xs.sum := by
  rw [laneSum, Lanes.sumFrom_eq_sum, Lanes.total_fill_zero, zero_add]

theorem plainSum_eq_sum (xs : List K) : plainSum xs = xs.sum := by
  rw [plainSum, Nat.cast_zero, List.sum_eq_foldl]

theorem dot_eq_sum (xs ys : List K) : dot xs ys = (List.zipWith (· * ·) xs ys).sum :=
  laneSum_eq_sum _

theorem dot_eq_sum_range {xs ys : List K} (h : xs.length = ys.length) :
    dot xs ys = ∑ j ∈ Finset.range xs.length, xs.getD j 0 * ys.getD j 0 := by
  rw [dot_eq_sum]
  induction xs generalizing ys with
  | nil => simp
  | cons x xs ih =>
    cases ys with
    | nil => simp at h
    | cons y ys =>
      rw [List.zipWith_cons_cons, List.sum_cons, ih (by simpa using h), List.length_cons,
        Finset.sum_range_succ']
      simp [add_comm]

theorem dot_map_mul (c : K) (xs ys : List K) :
    dot (xs.map (· * c)) ys = c * dot xs ys := by
  rw [dot_eq_sum, dot_eq_sum]
  induction xs generalizing ys with
  | nil => simp
  | cons x xs ih =>
    cases ys with
    | nil => simp
    | cons y ys =>
      simp only [List.map_cons, List.zipWith_cons_cons, List.sum_cons, ih]
      ring

theorem plainDot_eq_dot (xs ys : List K) : plainDot xs ys = dot xs ys := by
  rw [plainDot, plainSum_eq_sum, dot_eq_sum]

theorem normalize_eq (xs : List K) : normalize xs = xs.map (· / xs.sum) := by
  simp [normalize, laneSum_eq_sum]

end Vector

theorem Layout.dot_eq (a b : Layout) (xs ys : List K) : a.dot b xs ys = Vector.dot xs ys := by
  unfold Layout.dot
  split_ifs
  · rfl
  · exact Vector.plainDot_eq_dot xs ys

theorem Row.dot_eq (r s : Row K) : r.dot s = Vector.dot r.entries s.entries :=
  Layout.dot_eq ..

namespace Vector

variable [LinearOrder K]

theorem sum_map_pos [IsStrictOrderedRing K] {f : K → K} (hf : ∀ x, 0 < f x) {xs : List K}
    (hne : xs ≠ []) : 0 < (xs.map f).sum := by
  refine List.sum_pos _ ?_ (by simpa using hne)
  intro y hy
  obtain ⟨x, -, rfl⟩ := List.mem_map.mp hy
  exact hf x

section Softmax

variable [ExpLn K] [ExpLaws K] [IsStrictOrderedRing K]

open ExpLaws

theorem plainSum_powers_pos (x : K) (xs : List K) : 0 < plainSum (powers x xs) := by
  rw [plainSum_eq_sum]
  exact sum_map_pos (fun _ => exp_pos _) (List.cons_ne_nil x xs)

/-- The sum of the powers is never refused. -/
theorem softmax_eq_powers (x : K) (xs : List K) :
    softmax x xs = (powers x xs).map (· / plainSum (powers x xs)) := by
  unfold softmax
  dsimp only
  rw [Nat.cast_zero, if_pos (plainSum_powers_pos x xs)]

/-- The subtraction of the peak cancels. -/
theorem softmax_eq (x : K) (xs : List K) :
    softmax x xs =
      (x :: xs).map fun y => ExpLn.exp y / ((x :: xs).map ExpLn.exp).sum := by
  have hpowers : powers x xs =
      (x :: xs).map fun y => ExpLn.exp y * ExpLn.exp (-peak x xs) := by
    simp only [powers, Scalar.exp_sub_eq]
  have hsum : plainSum (powers x xs) =
      ((x :: xs).map ExpLn.exp).sum * ExpLn.exp (-peak x xs) := by
    rw [plainSum_eq_sum, hpowers, List.sum_map_mul_right]
  rw [softmax_eq_powers, hsum, hpowers, List.map_map]
  apply List.map_congr_left
  intro y _
  exact mul_div_mul_right _ _ (exp_pos (-peak x xs)).ne'

end Softmax
end Vector

section Maximum

variable {K : Type*} [LinearOrder K]

namespace Vector

/-- The position `k` of the first largest of `v 0, …, v (n - 1)`. -/
structure IsFirstMax (v : ℕ → K) (n k : ℕ) : Prop where
  lt : k < n
  le : ∀ j < n, v j ≤ v k
  lt_of_lt : ∀ j < k, v j < v k

theorem IsFirstMax.isLeast {v : ℕ → K} {n k : ℕ} (h : IsFirstMax v n k) :
    IsLeast {i | i < n ∧ ∀ j < n, v j ≤ v i} k := by
  refine ⟨⟨h.lt, h.le⟩, ?_⟩
  rintro i ⟨hi, hmax⟩
  by_contra hik
  exact absurd (hmax k h.lt) (not_le.mpr (h.lt_of_lt i (not_le.mp hik)))

theorem IsFirstMax.unique {v : ℕ → K} {n k l : ℕ} (hk : IsFirstMax v n k)
    (hl : IsFirstMax v n l) : k = l :=
  hk.isLeast.unique hl.isLeast

/-- The first largest position depends on the order of the components only. -/
theorem IsFirstMax.of_lt_iff_lt {v w : ℕ → K} {n k : ℕ} (h : IsFirstMax v n k)
    (hvw : ∀ i < n, ∀ j < n, w i < w j ↔ v i < v j) : IsFirstMax w n k where
  lt := h.lt
  le j hj := not_lt.mp fun hlt => absurd ((hvw k h.lt j hj).mp hlt) (not_lt.mpr (h.le j hj))
  lt_of_lt j hj := (hvw j (hj.trans h.lt) k h.lt).mpr (h.lt_of_lt j hj)

/-- The scan keeps the first largest position of the part that it has passed. -/
theorem argMaxFrom_isFirstMax (v : ℕ → K) (xs : List K) {bestAt position : ℕ}
    (hxs : ∀ (i : ℕ) (hi : i < xs.length), xs[i] = v (position + i))
    (h : IsFirstMax v position bestAt) :
    IsFirstMax v (position + xs.length) (argMaxFrom bestAt (v bestAt) position xs) := by
  induction xs generalizing bestAt position with
  | nil => simpa [argMaxFrom] using h
  | cons x xs ih =>
    have hx : x = v position := hxs 0 (by simp)
    have htail : ∀ (i : ℕ) (hi : i < xs.length), xs[i] = v (position + 1 + i) := by
      intro i hi
      have := hxs (i + 1) (by simpa using hi)
      simpa [Nat.add_assoc, Nat.add_comm 1 i] using this
    rw [List.length_cons, Nat.add_comm xs.length, ← Nat.add_assoc]
    simp only [argMaxFrom, hx]
    split_ifs with hgreater
    · refine ih htail ⟨Nat.lt_succ_self _, ?_, ?_⟩
      · intro j hj
        rcases Nat.lt_succ_iff_lt_or_eq.mp hj with hj | rfl
        · exact (h.le j hj).trans hgreater.le
        · exact le_rfl
      · intro j hj
        exact (h.le j hj).trans_lt hgreater
    · refine ih htail ⟨h.lt.trans (Nat.lt_succ_self _), ?_, h.lt_of_lt⟩
      intro j hj
      rcases Nat.lt_succ_iff_lt_or_eq.mp hj with hj | rfl
      · exact h.le j hj
      · exact not_lt.mp hgreater

theorem argMax_isFirstMax (v : ℕ → K) {n : ℕ} {x : K} {xs : List K}
    (h : x :: xs = (List.range n).map v) : IsFirstMax v n (argMax x xs) := by
  have hlength : n = 1 + xs.length := by
    have := congrArg List.length h
    simp only [List.length_cons, List.length_map, List.length_range] at this
    omega
  have hget : ∀ (i : ℕ) (hi : i < (x :: xs).length), (x :: xs)[i] = v i := by
    intro i hi
    simp [h]
  have hhead : x = v 0 := hget 0 (by simp)
  have hfirst : IsFirstMax v 1 0 :=
    ⟨Nat.zero_lt_one, fun j hj => by simp [Nat.lt_one_iff.mp hj], fun j hj => absurd hj (by simp)⟩
  rw [hlength, argMax, hhead]
  refine argMaxFrom_isFirstMax v xs (fun i hi => ?_) hfirst
  have := hget (i + 1) (by simpa using hi)
  simpa [Nat.add_comm 1 i] using this

end Vector
end Maximum
end ScoreTree
