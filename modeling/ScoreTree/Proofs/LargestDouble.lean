import ScoreTree.Proofs.Decimal.Naturals
import ScoreTree.Proofs.Decimal.Order
import ScoreTree.Proofs.Evaluation
import ScoreTree.Proofs.ExactVector

/-!
# The largest of several doubles

The scan for the first largest component compares only, so it runs on doubles as on their levels
(`argMax_isFirstMax_level`), once it starts at a double that has a place. Among doubles that all have
places it ends where no component is larger (`isTop_argMax`). Doubles without a place are passed over,
unless the scan starts at one, which it then never leaves (`Expr.eval_argMax_eq_first`).
-/

namespace ScoreTree

universe u v

namespace Vector

/-- A scan takes the same way over images under a map that keeps all comparisons with a known number.
Numbers larger than a known one are known. -/
theorem argMaxFrom_map {α : Type u} {β : Type v} [LT α] [DecidableLT α] [LT β] [DecidableLT β]
    {IsKnown : α → Prop} {f : α → β} (hf : ∀ x y, IsKnown x → (x < y ↔ f x < f y))
    (hknown : ∀ x y, IsKnown x → x < y → IsKnown y) {best : α} (hbest : IsKnown best)
    (bestAt position : ℕ) (xs : List α) :
    argMaxFrom bestAt (f best) position (xs.map f) = argMaxFrom bestAt best position xs := by
  induction xs generalizing best bestAt position with
  | nil => rfl
  | cons x xs ih =>
    simp only [List.map_cons, argMaxFrom, ← hf best x hbest]
    split_ifs with hlt
    · exact ih (hknown best x hbest hlt) _ _
    · exact ih hbest _ _

open Decimal

/-- The level of a component, and the lowest one where there is none. -/
def levelAt (xs : List Float) (i : ℕ) : WithBot ℤ := (xs[i]?).elim ⊥ level

theorem levelAt_of_getElem? {xs : List Float} {i : ℕ} {y : Float} (h : xs[i]? = some y) :
    levelAt xs i = level y := by
  rw [levelAt, h, Option.elim_some]

/-- From a known double on, a scan ends at the first component of the highest level. -/
theorem argMax_isFirstMax_level {x : Float} (hx : x.isNaN = false) (xs : List Float) :
    IsFirstMax (levelAt (x :: xs)) (x :: xs).length (argMax x xs) := by
  have hlevel (y z : Float) (hy : y.isNaN = false) : y < z ↔ level y < level z :=
    lt_iff_level_lt hy z
  have hscan : argMax (level x) (xs.map level) = argMax x xs :=
    argMaxFrom_map hlevel (fun _ _ _ h => (known_of_lt h).2) hx 0 1 xs
  rw [← hscan]
  refine argMax_isFirstMax _ (List.ext_getElem (by simp) ?_)
  intro i hi _
  have hi' : i < (x :: xs).length := by simpa using hi
  rw [List.getElem_map, List.getElem_range, levelAt_of_getElem? (List.getElem?_eq_getElem hi')]
  exact List.getElem_map (l := x :: xs) level

/-- The position `k` of the first of the largest components. Components without a place do not count. -/
def IsFirstTop (xs : List Float) (k : ℕ) : Prop :=
  ∃ top, xs[k]? = some top ∧ top.isNaN = false ∧ (∀ y ∈ xs, y.isNaN = false → ¬ top < y) ∧
    ∀ j < k, ∀ y, xs[j]? = some y → y.isNaN = false → y < top

theorem IsFirstTop.unique {xs : List Float} {k l : ℕ} (hk : IsFirstTop xs k)
    (hl : IsFirstTop xs l) : k = l := by
  obtain ⟨x, hx, hxknown, hxtop, hxfirst⟩ := hk
  obtain ⟨y, hy, hyknown, hytop, hyfirst⟩ := hl
  rcases lt_trichotomy k l with h | h | h
  · exact absurd (hyfirst k h x hx hxknown) (hxtop y (List.mem_of_getElem? hy) hyknown)
  · exact h
  · exact absurd (hxfirst l h y hy hyknown) (hytop x (List.mem_of_getElem? hx) hxknown)

theorem isFirstTop_argMax {x : Float} (hx : x.isNaN = false) (xs : List Float) :
    IsFirstTop (x :: xs) (argMax x xs) := by
  have hfirst := argMax_isFirstMax_level hx xs
  obtain ⟨top, htop⟩ : ∃ top, (x :: xs)[argMax x xs]? = some top :=
    ⟨_, List.getElem?_eq_getElem hfirst.lt⟩
  have hlevel := levelAt_of_getElem? htop
  have hknown : top.isNaN = false := by
    -- The first component has a place, and the level of the top is not lower.
    have hle := hfirst.le 0 (Nat.succ_pos _)
    rw [hlevel, levelAt_of_getElem? (y := x) rfl, level_of_known hx] at hle
    rw [Bool.eq_false_iff]
    intro hnan
    rw [level_of_isNaN hnan, le_bot_iff] at hle
    exact WithBot.coe_ne_bot hle
  refine ⟨top, htop, hknown, ?_, ?_⟩
  · intro y hy _
    obtain ⟨j, hj⟩ := List.mem_iff_getElem?.mp hy
    rw [lt_iff_level_lt hknown, ← hlevel, ← levelAt_of_getElem? hj]
    exact (hfirst.le j (List.getElem?_eq_some_iff.mp hj).1).not_gt
  · intro j hj y hy hyknown
    rw [lt_iff_level_lt hyknown, ← hlevel, ← levelAt_of_getElem? hy]
    exact hfirst.lt_of_lt j hj

/-- The position `k` of a component that no component exceeds. -/
def IsTop (xs : List Float) (k : ℕ) : Prop := ∃ top, xs[k]? = some top ∧ ∀ x ∈ xs, ¬ top < x

theorem isTop_argMax {x : Float} {xs : List Float} (h : ∀ y ∈ x :: xs, y.isNaN = false) :
    IsTop (x :: xs) (argMax x xs) := by
  obtain ⟨top, htop, -, hle, -⟩ := isFirstTop_argMax (h x List.mem_cons_self) xs
  exact ⟨top, htop, fun y hy => hle y hy (h y hy)⟩

/-- Nothing is larger than a double without a place, so the scan stays where it is. -/
theorem argMaxFrom_of_isNaN {best : Float} (h : best.isNaN = true) (bestAt position : ℕ)
    (xs : List Float) : argMaxFrom bestAt best position xs = bestAt := by
  induction xs generalizing position with
  | nil => rfl
  | cons x xs ih =>
    have hlt : ¬ best < x := by
      intro hlt
      rw [(known_of_lt hlt).1] at h
      cases h
    rw [argMaxFrom, if_neg hlt, ih]

end Vector

namespace Expr

/-- The operator gives the position of the first of the largest components, as a double that is read
back as this position. Components without a place do not count, but if the first one has none, then its
position is the result. -/
theorem eval_argMax_eq_first {e : Expr Float} {b : Bindings Float} {row : Row Float} {x : Float}
    {xs : List Float} (h : e.eval b = .ok (.vector row)) (hrow : row.entries = x :: xs) :
    ∃ k, (unary .argMax e).eval b = .ok (.scalar (Float.ofNat k)) ∧
      (k ≤ 2 ^ 53 → (Float.ofNat k).toUInt64.toNat = k) ∧
      (x.isNaN = false → ∀ j, Vector.IsFirstTop (x :: xs) j ↔ j = k) ∧
      (x.isNaN = true → k = 0) := by
  refine ⟨Vector.argMax x xs, ?_, ?_, ?_, ?_⟩
  · rw [eval_unary h, Operator.apply, Operator.onComponents_of_entries _ _ hrow]
    rfl
  · intro hk
    exact (Decimal.isExactly_ofNat hk).toNat_toUInt64 (hk.trans_lt (by norm_num))
  · intro hx j
    have hfirst := Vector.isFirstTop_argMax hx xs
    constructor
    · intro hj
      exact hj.unique hfirst
    · rintro rfl
      exact hfirst
  · intro hx
    exact Vector.argMaxFrom_of_isNaN hx 0 1 xs

/-- Between the largest components one without a place is passed over, and at the front it wins. -/
theorem eval_argMax_eq_first_withGaps :
    (unary .argMax (const (.vector ⟨[1, 0 / 0, -3, 2, 2, 0 / 0], .reversed, by simp⟩))).eval
        Bindings.empty = .ok (.scalar (Float.ofNat 3)) ∧
      (unary .argMax (const (.vector (.ofList [0 / 0, 7])))).eval Bindings.empty =
        .ok (.scalar (Float.ofNat 0)) := by
  constructor
  · obtain ⟨k, hvalue, -, hfirst, -⟩ := eval_argMax_eq_first (b := Bindings.empty)
      (e := const (.vector ⟨[1, 0 / 0, -3, 2, 2, 0 / 0], .reversed, by simp⟩)) rfl rfl
    have htop : Vector.IsFirstTop [1, 0 / 0, -3, 2, 2, 0 / 0] 3 := by
      refine ⟨2, rfl, by decide +kernel, by decide +kernel, ?_⟩
      intro j hj y hy
      interval_cases j <;> obtain rfl := Option.some.inj hy <;> decide +kernel
    rw [hvalue, (hfirst (by decide +kernel) 3).mp htop]
  · obtain ⟨k, hvalue, -, -, hnone⟩ := eval_argMax_eq_first (b := Bindings.empty)
      (e := const (.vector (.ofList [0 / 0, 7]))) rfl rfl
    rw [hvalue, hnone (by decide +kernel)]

end Expr
end ScoreTree
