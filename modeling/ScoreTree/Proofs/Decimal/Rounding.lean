import Mathlib.Algebra.Order.Field.Power
import Mathlib.Tactic.Positivity
import Mathlib.Tactic.Ring
import Mathlib.Tactic.Linarith
import ScoreTree.Decimal.Shortest

/-!
# Rounding intervals

The integer comparisons of `Binary.admits` decide whether a decimal lies in the rounding interval of a
binary number, as rationals. The search for the shortest decimal stays inside this interval whatever
grid it stops on, and the intervals of two doubles have no common point: ends meet only between
neighbours, of which one significand is odd.
-/

namespace ScoreTree

namespace Decimal

def value (d : Decimal) : ℚ := d.coefficient * 10 ^ d.exponent

end Decimal

namespace Binary

variable {b : Binary} {tie : Decimal.Tie}

def value (b : Binary) : ℚ := b.significand * 2 ^ b.exponent

/-- The ends of the rounding interval in quarters of a unit. -/
def lowerQuarters (b : Binary) : Nat := 4 * b.significand - if b.narrowBelow then 1 else 2

def upperQuarters (b : Binary) : Nat := 4 * b.significand + 2

def lower (b : Binary) : ℚ := b.lowerQuarters * 2 ^ (b.exponent - 2)

def upper (b : Binary) : ℚ := b.upperQuarters * 2 ^ (b.exponent - 2)

/-- The rational rounds to the number; ties go to the even significand. -/
def RoundsTo (b : Binary) (q : ℚ) : Prop :=
  if b.significand % 2 = 0 then b.lower ≤ q ∧ q ≤ b.upper else b.lower < q ∧ q < b.upper

theorem RoundsTo.bounds {q : ℚ} (h : b.RoundsTo q) : b.lower ≤ q ∧ q ≤ b.upper := by
  unfold RoundsTo at h
  split at h
  · exact h
  · exact ⟨h.1.le, h.2.le⟩

/-! ## Integer comparisons -/

theorem pow_toNat (x : ℚ) (hx : x ≠ 0) (k : ℤ) : x ^ k.toNat = x ^ k * x ^ (-k).toNat := by
  rw [← zpow_natCast, ← zpow_natCast, ← zpow_add₀ hx]
  congr 1
  omega

/-- Quarters of the significand and multiples of the grid over their common denominator. -/
theorem exists_denominator (b : Binary) (e : ℤ) :
    ∃ s : ℚ, 0 < s ∧ (b.quarter e : ℚ) = 2 ^ (b.exponent - 2) * s ∧
      (b.gridUnit e : ℚ) = 10 ^ e * s := by
  refine ⟨2 ^ (2 - b.exponent).toNat * 10 ^ (-e).toNat, by positivity, ?_, ?_⟩
  · have htwo := pow_toNat 2 (by norm_num) (b.exponent - 2)
    rw [neg_sub] at htwo
    simp only [quarter, Nat.pow_eq, Nat.cast_mul, Nat.cast_pow, Nat.cast_ofNat]
    rw [htwo]
    ring
  · have hten := pow_toNat 10 (by norm_num) e
    simp only [gridUnit, Nat.pow_eq, Nat.cast_mul, Nat.cast_pow, Nat.cast_ofNat]
    rw [hten]
    ring

theorem quarter_le_iff (b : Binary) (e : ℤ) (n d : Nat) :
    n * b.quarter e ≤ d * b.gridUnit e ↔ (n : ℚ) * 2 ^ (b.exponent - 2) ≤ d * 10 ^ e := by
  obtain ⟨s, hs, hquarter, hunit⟩ := b.exists_denominator e
  rw [← Nat.cast_le (α := ℚ), Nat.cast_mul, Nat.cast_mul, hquarter, hunit, ← mul_assoc,
    ← mul_assoc, mul_le_mul_iff_left₀ hs]

theorem le_quarter_iff (b : Binary) (e : ℤ) (n d : Nat) :
    d * b.gridUnit e ≤ n * b.quarter e ↔ (d : ℚ) * 10 ^ e ≤ n * 2 ^ (b.exponent - 2) := by
  obtain ⟨s, hs, hquarter, hunit⟩ := b.exists_denominator e
  rw [← Nat.cast_le (α := ℚ), Nat.cast_mul, Nat.cast_mul, hquarter, hunit, ← mul_assoc,
    ← mul_assoc, mul_le_mul_iff_left₀ hs]

theorem admits_iff (b : Binary) (e : ℤ) (d : Nat) :
    b.admits e d = true ↔ b.RoundsTo (d * 10 ^ e) := by
  have hlower := b.quarter_le_iff e b.lowerQuarters d
  have hupper := b.le_quarter_iff e b.upperQuarters d
  have hlower' := not_congr (b.le_quarter_iff e b.lowerQuarters d)
  have hupper' := not_congr (b.quarter_le_iff e b.upperQuarters d)
  rw [not_le, not_le] at hlower' hupper'
  rw [lowerQuarters] at hlower hlower'
  rw [upperQuarters] at hupper hupper'
  unfold admits RoundsTo lower upper
  dsimp only
  split
  · rw [Bool.and_eq_true, decide_eq_true_eq, decide_eq_true_eq]
    exact and_congr hlower hupper
  · rw [Bool.and_eq_true, decide_eq_true_eq, decide_eq_true_eq]
    exact and_congr hlower' hupper'

/-! ## The search -/

theorem value_exact (b : Binary) : b.exact.value = b.value := by
  simp only [exact, Decimal.value, value, Nat.pow_eq, Nat.cast_mul, Nat.cast_pow, Nat.cast_ofNat]
  obtain ⟨n, hn | hn⟩ := b.exponent.eq_nat_or_neg
  · have hfinest : b.finest = 0 := by
      unfold finest
      split <;> omega
    simp [hfinest, hn]
  · have hfinest : b.finest = -n := by
      unfold finest
      split <;> omega
    have hten : (10 : ℚ) ^ n = 5 ^ n * 2 ^ n := by
      rw [← mul_pow]
      norm_num
    simp only [hfinest, hn, neg_neg, Int.toNat_natCast, Int.toNat_neg_natCast, pow_zero, mul_one,
      zpow_neg, zpow_natCast, hten]
    rw [mul_inv, ← mul_assoc, mul_inv_cancel_right₀ (by positivity)]

theorem roundsTo_value (hb : 0 < b.significand) : b.RoundsTo b.value := by
  have hpos : (0 : ℚ) < 2 ^ (b.exponent - 2) := by positivity
  have hvalue : b.value = (4 * b.significand : ℕ) * 2 ^ (b.exponent - 2) := by
    rw [value, zpow_sub₀ (by norm_num), Nat.cast_mul]
    norm_num
    ring
  have hlower : b.lower < b.value := by
    have hlt : b.lowerQuarters < 4 * b.significand := by
      unfold lowerQuarters
      split <;> omega
    rw [hvalue, lower]
    exact mul_lt_mul_of_pos_right (by exact_mod_cast hlt) hpos
  have hupper : b.value < b.upper := by
    have hlt : 4 * b.significand < b.upperQuarters := by
      unfold upperQuarters
      omega
    rw [hvalue, upper]
    exact mul_lt_mul_of_pos_right (by exact_mod_cast hlt) hpos
  unfold RoundsTo
  split
  · exact ⟨hlower.le, hupper.le⟩
  · exact ⟨hlower, hupper⟩

theorem roundsTo_zero (hb : b.significand = 0) : b.RoundsTo 0 := by
  have hlower : b.lower = 0 := by
    simp [lower, lowerQuarters, hb]
  have hupper : 0 ≤ b.upper := by
    unfold upper
    positivity
  rw [RoundsTo, hb, if_pos rfl]
  exact ⟨hlower.le, hupper⟩

theorem admits_of_onGrid? {e : ℤ} {d : Nat} (h : b.onGrid? tie e = some d) :
    b.admits e d = true := by
  unfold onGrid? at h
  dsimp only at h
  split at h
  · cases h
  · cases h
    assumption
  · cases h
    assumption
  · rename_i hdown hup
    split at h
    · cases h
      exact hdown
    · split at h
      · cases h
        exact hup
      · cases tie <;> dsimp only at h
        · split at h <;> cases h <;> assumption
        · cases h
          exact hup

theorem roundsTo_searchFrom (hb : 0 < b.significand) :
    ∀ (n : Nat) (e : ℤ), b.RoundsTo (b.searchFrom tie e n).value := by
  intro n
  induction n with
  | zero =>
    intro e
    rw [searchFrom, value_exact]
    exact roundsTo_value hb
  | succ n ih =>
    intro e
    rw [searchFrom]
    split
    · rename_i d hd
      exact (b.admits_iff e d).1 (admits_of_onGrid? hd)
    · exact ih (e - 1)

theorem roundsTo_shortest (hb : 0 < b.significand) : b.RoundsTo (b.shortest tie).value :=
  roundsTo_searchFrom hb _ _

/-! ## Doubles -/

/-- The finite double with the given low 63 bits, which are its position among the doubles. -/
def ofPosition (m : Nat) : Binary :=
  if m / 2 ^ 52 = 0 then ⟨m % 2 ^ 52, -1074, false⟩
  else ⟨2 ^ 52 + m % 2 ^ 52, Int.ofNat (m / 2 ^ 52) - 1075, m % 2 ^ 52 == 0 && 1 < m / 2 ^ 52⟩

theorem significand_ofPosition_mod_two (m : Nat) : (ofPosition m).significand % 2 = m % 2 := by
  unfold ofPosition
  split <;> dsimp only <;> omega

theorem ofPosition_of_lt {k f : Nat} (hf : f < 2 ^ 52) :
    ofPosition (k * 2 ^ 52 + f) =
      if k = 0 then ⟨f, -1074, false⟩
      else ⟨2 ^ 52 + f, Int.ofNat k - 1075, f == 0 && 1 < k⟩ := by
  have hdiv : (k * 2 ^ 52 + f) / 2 ^ 52 = k := by omega
  have hmod : (k * 2 ^ 52 + f) % 2 ^ 52 = f := by omega
  rw [ofPosition, hdiv, hmod]

theorem ofBits_eq_ofPosition (bits : UInt64) :
    ofBits bits = ofPosition (exponentField bits * 2 ^ 52 + fraction bits) := by
  have hfraction : fraction bits < 2 ^ 52 := Nat.mod_lt _ (by decide)
  rw [ofPosition_of_lt hfraction]
  rfl

/-- Neighbours share an end of their intervals. -/
theorem lower_ofPosition_succ (m : Nat) : (ofPosition (m + 1)).lower = (ofPosition m).upper := by
  obtain ⟨k, f, hf, rfl⟩ : ∃ k f, f < 2 ^ 52 ∧ m = k * 2 ^ 52 + f :=
    ⟨m / 2 ^ 52, m % 2 ^ 52, Nat.mod_lt _ (by decide), by omega⟩
  rw [ofPosition_of_lt hf]
  by_cases hlast : f + 1 < 2 ^ 52
  · -- The neighbour has the same exponent.
    rw [add_assoc, ofPosition_of_lt hlast]
    have hquarters (n : Nat) : 4 * (n + (f + 1)) - 2 = 4 * (n + f) + 2 := by omega
    split
    · have h := hquarters 0
      rw [zero_add, zero_add] at h
      simp [lower, upper, lowerQuarters, upperQuarters, h]
    · simp [lower, upper, lowerQuarters, upperQuarters, hquarters]
  · have hnext : k * 2 ^ 52 + f + 1 = (k + 1) * 2 ^ 52 + 0 := by omega
    have hf' : f = 2 ^ 52 - 1 := by omega
    rw [hnext, ofPosition_of_lt (by decide), if_neg (Nat.succ_ne_zero k), hf']
    split
    · rename_i hk
      subst hk
      simp [lower, upper, lowerQuarters, upperQuarters]
    · -- The neighbour is the least with its exponent, so half the space is below it.
      rename_i hk
      have hexponent : Int.ofNat (k + 1) - 1075 - 2 = Int.ofNat k - 1075 - 2 + 1 := by
        simp only [Int.ofNat_eq_natCast]
        omega
      have hnarrow : 1 < k + 1 := by omega
      simp only [lower, upper, lowerQuarters, upperQuarters, hexponent]
      rw [zpow_add_one₀ (by norm_num)]
      simp [hnarrow]
      ring

theorem lower_lt_upper (b : Binary) : b.lower < b.upper := by
  have hlt : b.lowerQuarters < b.upperQuarters := by
    unfold lowerQuarters upperQuarters
    omega
  have hpos : (0 : ℚ) < 2 ^ (b.exponent - 2) := by positivity
  exact mul_lt_mul_of_pos_right (by exact_mod_cast hlt) hpos

theorem strictMono_upper_ofPosition : StrictMono fun m => (ofPosition m).upper := by
  apply strictMono_nat_of_lt_succ
  intro m
  rw [← lower_ofPosition_succ]
  exact lower_lt_upper _

theorem not_roundsTo_of_lt {m n : Nat} {q : ℚ} (hlt : m < n) (hm : (ofPosition m).RoundsTo q) :
    ¬ (ofPosition n).RoundsTo q := by
  intro hn
  obtain ⟨n, rfl⟩ : ∃ k, n = k + 1 := ⟨n - 1, by omega⟩
  have hle : (ofPosition m).upper ≤ (ofPosition n).upper :=
    strictMono_upper_ofPosition.monotone (by omega)
  have hq : q ≤ (ofPosition m).upper := hm.bounds.2
  have hq' : (ofPosition n).upper ≤ q := by
    rw [← lower_ofPosition_succ]
    exact hn.bounds.1
  have hmn : m = n := strictMono_upper_ofPosition.injective (le_antisymm hle (hq'.trans hq))
  subst hmn
  have hend : q = (ofPosition m).upper := le_antisymm hq hq'
  unfold RoundsTo at hm hn
  rw [significand_ofPosition_mod_two] at hm hn
  rw [lower_ofPosition_succ, ← hend] at hn
  rw [← hend] at hm
  split at hm
  · rw [if_neg (by omega)] at hn
    exact absurd hn.1 (lt_irrefl q)
  · exact absurd hm.2 (lt_irrefl q)

/-- A rational rounds to one double only. -/
theorem position_eq_of_roundsTo {m n : Nat} {q : ℚ} (hm : (ofPosition m).RoundsTo q)
    (hn : (ofPosition n).RoundsTo q) : m = n := by
  rcases lt_trichotomy m n with hlt | heq | hlt
  · exact absurd hn (not_roundsTo_of_lt hlt hm)
  · exact heq
  · exact absurd hm (not_roundsTo_of_lt hlt hn)

end Binary
end ScoreTree
