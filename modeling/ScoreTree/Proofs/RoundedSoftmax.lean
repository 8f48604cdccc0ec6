import ScoreTree.Proofs.Decimal.UnitInterval
import ScoreTree.Proofs.LargestDouble

/-!
# Softmax with rounding

Over doubles the softmax keeps its guard open and its components between zero and one, for any number
of scores in standard order and any spread, also where a difference is beyond all finite doubles or an
exponential vanishes. The largest score is subtracted from itself, so its exponential is one. A partial
sum keeps what it has, so the sum is at least one, and it stays finite (`Vector.sum_bounds`). Division
by it keeps the order, so no share is larger than the one of the largest score
(`Expr.eval_softmax_bounded_or_refused`).

The exponential is any function with the bounds of `IsBoundedExp`: how it is rounded is left open.
Differences, sums and quotients are those of doubles, and what is needed of them is proved.
-/

namespace ScoreTree

universe u

open Decimal

/-- An exponential of doubles that stays between zero and one for all numbers that are not positive,
negative infinity included, and that is one at zero. -/
structure IsBoundedExp (E : ExpLn Float) : Prop where
  inUnitInterval : ∀ t : Float, t ≤ 0 → InUnitInterval (E.exp t)
  exp_zero : E.exp 0 = 1

/-- A coarse exponential: zero where the rounded exponential vanishes, and one elsewhere, as at
zero. -/
@[reducible]
def coarseExp : ExpLn Float where
  exp t := if t < -746 then 0 else 1
  ln t := t

theorem isBoundedExp_coarseExp : IsBoundedExp coarseExp where
  inUnitInterval t _ := by
    rw [coarseExp]
    dsimp only
    split_ifs <;> constructor <;> decide +kernel
  exp_zero := by decide +kernel

namespace Vector

/-! ## The largest score -/

/-- The scan for the position of the largest component and the one for the component itself agree, if
all components are comparable to themselves. -/
theorem getElem?_argMaxFrom {α : Type u} [LT α] [DecidableLT α] [LE α] [DecidableLE α]
    {ys xs : List α} {best : α} {bestAt position : ℕ} (hbest : best ≤ best)
    (hxs : ∀ x ∈ xs, x ≤ x) (hat : ys[bestAt]? = some best) (hrest : ys.drop position = xs) :
    ys[argMaxFrom bestAt best position xs]? = some (xs.foldl Scalar.maxKnown best) := by
  induction xs generalizing best bestAt position with
  | nil => exact hat
  | cons x xs ih =>
    have hx : ys[position]? = some x := by
      rw [← List.head?_drop, hrest, List.head?_cons]
    have htail : ys.drop (position + 1) = xs := by
      rw [← List.tail_drop, hrest, List.tail_cons]
    have hxs' : ∀ y ∈ xs, y ≤ y := fun y hy => hxs y (List.mem_cons_of_mem x hy)
    rw [argMaxFrom, List.foldl_cons, Scalar.maxKnown]
    split_ifs with hlt
    · exact ih (hxs x List.mem_cons_self) hxs' hx htail
    · exact ih hbest hxs' hat htail

theorem getElem?_argMax {α : Type u} [LT α] [DecidableLT α] [LE α] [DecidableLE α] {x : α}
    {xs : List α} (h : ∀ y ∈ x :: xs, y ≤ y) :
    (x :: xs)[argMax x xs]? = some (peak x xs) :=
  getElem?_argMaxFrom (h x List.mem_cons_self) (fun y hy => h y (List.mem_cons_of_mem x hy)) rfl rfl

/-- Scores without an incomparable one and without positive infinity, of which one is finite. The others
may be negative infinities. -/
structure AreShareable (xs : List Float) : Prop where
  known : ∀ y ∈ xs, y.isNaN = false
  ne_infinity : ∀ y ∈ xs, y ≠ infinity
  exists_finite : ∃ y ∈ xs, isFinite y = true

variable {x : Float} {xs : List Float}

namespace AreShareable

theorem getElem?_argMax (h : AreShareable (x :: xs)) :
    (x :: xs)[argMax x xs]? = some (peak x xs) :=
  Vector.getElem?_argMax fun y hy => le_refl_of_known (h.known y hy)

theorem le_peak (h : AreShareable (x :: xs)) {y : Float} (hy : y ∈ x :: xs) : y ≤ peak x xs := by
  obtain ⟨top, htop, hle⟩ := isTop_argMax h.known
  obtain rfl : peak x xs = top := Option.some.inj (h.getElem?_argMax.symm.trans htop)
  have hpeak := h.known _ (List.mem_of_getElem? htop)
  rw [le_iff_place_le (h.known y hy) hpeak, ← not_lt, ← lt_iff_place_lt hpeak (h.known y hy)]
  exact hle y hy

theorem isFinite_peak (h : AreShareable (x :: xs)) : isFinite (peak x xs) = true := by
  obtain ⟨y, hy, hfinite⟩ := h.exists_finite
  exact isFinite_of_le hfinite (h.le_peak hy)
    (h.ne_infinity _ (List.mem_of_getElem? h.getElem?_argMax))

end AreShareable

/-! ## Sums of exponentials -/

/-- Partial sums grow with each part and stay below the limit. -/
theorem sum_bounds {parts : List Float} (hparts : ∀ p ∈ parts, InUnitInterval p) {s : Float}
    (hs : IsPartialSum s) :
    IsPartialSum (parts.foldl (· + ·) s) ∧ s ≤ parts.foldl (· + ·) s ∧
      ∀ p ∈ parts, p ≤ parts.foldl (· + ·) s := by
  induction parts generalizing s with
  | nil => exact ⟨hs, le_refl_of_known (known_of_le hs.nonneg).2, by simp⟩
  | cons p parts ih =>
    have hp := hparts p List.mem_cons_self
    obtain ⟨hsum, hgrow, hle⟩ := ih (fun q hq => hparts q (List.mem_cons_of_mem p hq)) (hs.add hp)
    refine ⟨hsum, le_trans_double (le_add_left hs hp) hgrow, ?_⟩
    intro q hq
    rcases List.mem_cons.mp hq with rfl | hq
    · exact le_trans_double (le_add_right hs hp) hgrow
    · exact hle q hq

variable [E : ExpLn Float] (hE : IsBoundedExp E) (h : AreShareable (x :: xs))

include hE h

theorem inUnitInterval_of_mem_powers {p : Float} (hp : p ∈ powers x xs) : InUnitInterval p := by
  obtain ⟨y, hy, rfl⟩ := List.mem_map.mp hp
  exact hE.inUnitInterval _ (sub_nonpos_double (h.le_peak hy) h.isFinite_peak)

/-- The exponential of the largest score is one. -/
theorem getElem?_powers_argMax : (powers x xs)[argMax x xs]? = some 1 := by
  rw [powers, List.getElem?_map, h.getElem?_argMax, Option.map_some,
    sub_self_eq_zero h.isFinite_peak]
  exact congrArg some hE.exp_zero

theorem isPartialSum_powers : IsPartialSum (plainSum (powers x xs)) :=
  (sum_bounds (fun _ hp => inUnitInterval_of_mem_powers hE h hp) isPartialSum_zero).1

theorem le_plainSum_powers {p : Float} (hp : p ∈ powers x xs) : p ≤ plainSum (powers x xs) :=
  (sum_bounds (fun _ hp => inUnitInterval_of_mem_powers hE h hp) isPartialSum_zero).2.2 p hp

theorem one_le_plainSum_powers : 1 ≤ plainSum (powers x xs) :=
  le_plainSum_powers hE h (List.mem_of_getElem? (getElem?_powers_argMax hE h))

/-- The sum passes the guard. -/
theorem guard_powers : 0 < plainSum (powers x xs) :=
  lt_of_lt_of_le_double (by decide +kernel) (one_le_plainSum_powers hE h)

theorem softmax_eq_map_div :
    softmax x xs = (powers x xs).map (· / plainSum (powers x xs)) := by
  unfold softmax
  exact if_pos (guard_powers hE h)

theorem inUnitInterval_of_mem_softmax {p : Float} (hp : p ∈ softmax x xs) : InUnitInterval p := by
  rw [softmax_eq_map_div hE h] at hp
  obtain ⟨q, hq, rfl⟩ := List.mem_map.mp hp
  exact inUnitInterval_div (isPartialSum_powers hE h).isFinite (one_le_plainSum_powers hE h)
    (inUnitInterval_of_mem_powers hE h hq) (le_plainSum_powers hE h hq)

/-- The largest score has the largest share. -/
theorem exists_top_softmax :
    ∃ top, (softmax x xs)[argMax x xs]? = some top ∧ ∀ p ∈ softmax x xs, p ≤ top := by
  have hone := getElem?_powers_argMax hE h
  rw [softmax_eq_map_div hE h]
  refine ⟨1 / plainSum (powers x xs), ?_, ?_⟩
  · rw [List.getElem?_map, hone, Option.map_some]
  · intro p hp
    obtain ⟨q, hq, rfl⟩ := List.mem_map.mp hp
    have hunit := inUnitInterval_of_mem_powers hE h hq
    exact div_le_div_double (isPartialSum_powers hE h).isFinite (one_le_plainSum_powers hE h) hunit
      (inUnitInterval_of_mem_powers hE h (List.mem_of_getElem? hone)) hunit.le_one

end Vector

namespace Expr

/-- The softmax of scores without an incomparable one and without positive infinity, of which one is
finite. If they lie in standard order, the sum of the exponentials is finite and at least one, so each
exponential is divided by it, all shares are known and between zero and one, and none exceeds the share
at the position of the largest score. Scores that lie otherwise are refused, and nothing is divided. -/
theorem eval_softmax_bounded_or_refused [E : ExpLn Float] (hE : IsBoundedExp E) {e : Expr Float}
    {b : Bindings Float} {row : Row Float} {x : Float} {xs : List Float}
    (heval : e.eval b = .ok (.vector row)) (hrow : row.entries = x :: xs)
    (h : Vector.AreShareable (x :: xs)) :
    (row.layout = .standard →
      ∃ sum shares, sum = Vector.plainSum (Vector.powers x xs) ∧
        1 ≤ sum ∧ 0 < sum ∧ Decimal.isFinite sum = true ∧
        (unary .softmax e).eval b = .ok (.vector (.ofList shares)) ∧
        shares = (Vector.powers x xs).map (· / sum) ∧
        (∀ p ∈ shares, p.isNaN = false ∧ 0 ≤ p ∧ p ≤ 1) ∧
        ∃ k top, (unary .argMax e).eval b = .ok (.scalar (Float.ofNat k)) ∧
          k = Vector.argMax x xs ∧ shares[k]? = some top ∧ ∀ p ∈ shares, p ≤ top) ∧
    (row.layout ≠ .standard →
      (unary .softmax e).eval b = .error (.expectedVector .softmax)) := by
  have hsoftmax : (unary .softmax e).eval b =
      if row.layout = .standard then .ok (.vector (.ofList (Vector.softmax x xs)))
      else .error (.expectedVector .softmax) := by
    rw [eval_unary heval, Operator.apply, Operator.onComponents_of_entries _ _ hrow]
  have hargMax : (unary .argMax e).eval b = .ok (.scalar (Float.ofNat (Vector.argMax x xs))) := by
    rw [eval_unary heval, Operator.apply, Operator.onComponents_of_entries _ _ hrow]
    rfl
  constructor
  · intro hlayout
    rw [hsoftmax, if_pos hlayout]
    refine ⟨_, Vector.softmax x xs, rfl, Vector.one_le_plainSum_powers hE h,
      Vector.guard_powers hE h, (Vector.isPartialSum_powers hE h).isFinite, rfl,
      Vector.softmax_eq_map_div hE h, ?_, ?_⟩
    · intro p hp
      have hunit := Vector.inUnitInterval_of_mem_softmax hE h hp
      exact ⟨(known_of_le hunit.nonneg).2, hunit.nonneg, hunit.le_one⟩
    · obtain ⟨top, htop, hle⟩ := Vector.exists_top_softmax hE h
      exact ⟨_, top, hargMax, rfl, htop, hle⟩
  · intro hlayout
    rw [hsoftmax, if_neg hlayout]

/-- A difference beyond all finite doubles, one to negative infinity, and two largest scores, and the
same scores with gaps between them. -/
theorem eval_softmax_bounded_or_refused_overflow :
    letI := coarseExp
    (unary .softmax (const (.vector (.ofList [-1 / 0, 1.7e308, -1.7e308, 1.7e308])))).eval
        Bindings.empty = .ok (.vector (.ofList [0, 0.5, 0, 0.5])) ∧
      (unary .softmax (const (.vector ⟨[-1 / 0, 1.7e308, -1.7e308, 1.7e308], .strided,
        by simp⟩))).eval Bindings.empty = .error (.expectedVector .softmax) := by
  let := coarseExp
  have hscores : Vector.AreShareable [-1 / 0, 1.7e308, -1.7e308, 1.7e308] :=
    { known := by decide +kernel
      ne_infinity := by decide +kernel
      exists_finite := ⟨1.7e308, by simp, by decide +kernel⟩ }
  constructor
  · obtain ⟨sum, shares, hsum, -, -, -, hvalue, hshares, -⟩ :=
      (eval_softmax_bounded_or_refused isBoundedExp_coarseExp (b := Bindings.empty)
        (e := const (.vector (.ofList [-1 / 0, 1.7e308, -1.7e308, 1.7e308]))) rfl rfl hscores).1 rfl
    have hpowers : Vector.powers (-1 / 0) [1.7e308, -1.7e308, 1.7e308] = [0, 1, 0, 1] := by
      decide +kernel
    have hparts :
        [0, 1, 0, 1].map (· / Vector.plainSum [0, 1, 0, 1]) = [0, 0.5, 0, (0.5 : Float)] := by
      decide +kernel
    rw [hvalue, hshares, hsum, hpowers, hparts]
  · exact (eval_softmax_bounded_or_refused isBoundedExp_coarseExp (b := Bindings.empty)
      (e := const (.vector ⟨[-1 / 0, 1.7e308, -1.7e308, 1.7e308], .strided, by simp⟩)) rfl rfl
      hscores).2 (by decide)

/-- Two finite scores have no shares if they lie from the last to the first. -/
theorem softmax_refuses_reversed :
    Vector.AreShareable [1, 2] ∧
      (unary .softmax (const (.vector ⟨[(1 : Float), 2], .reversed, by simp⟩))).eval
        Bindings.empty = .error (.expectedVector .softmax) :=
  ⟨⟨by decide +kernel, by decide +kernel, 1, by simp, by decide +kernel⟩, rfl⟩

end Expr
end ScoreTree
