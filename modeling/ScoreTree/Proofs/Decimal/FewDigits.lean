import ScoreTree.Proofs.Decimal.Drift

/-!
# The digits of a shortest decimal

The search stops at a grid as soon as its steps are shorter than the rounding interval, so the decimal that
it finds has at most two digits more than the number needs (`coefficient_shortest_le`).
-/

namespace ScoreTree
namespace Binary

variable {b : Binary} {tie : Decimal.Tie}

/-- The width of a rounding interval, where the space below may be narrow. -/
def width (b : Binary) : ℚ := 3 / 4 * 2 ^ b.exponent

theorem width_le (hb : 0 < b.significand) : b.width ≤ b.upper - b.lower := by
  have hpos : (0 : ℚ) < 2 ^ b.exponent := by positivity
  rw [width, Decimal.upper_eq]
  cases hnarrow : b.narrowBelow with
  | true =>
    rw [Decimal.lower_eq_of_narrow hb hnarrow]
    linarith
  | false =>
    rw [Decimal.lower_eq hb hnarrow]
    linarith

theorem roundsTo_of_lt {q : ℚ} (hlower : b.lower < q) (hupper : q < b.upper) : b.RoundsTo q := by
  unfold RoundsTo
  split_ifs
  · exact ⟨hlower.le, hupper.le⟩
  · exact ⟨hlower, hupper⟩

/-- The multiple of a grid below a number is found by a division of integers. -/
theorem floor_onGrid (b : Binary) (e : ℤ) :
    ((4 * b.significand * b.quarter e / b.gridUnit e : ℕ) : ℚ) * 10 ^ e ≤ b.value ∧
      b.value < ((4 * b.significand * b.quarter e / b.gridUnit e + 1 : ℕ) : ℚ) * 10 ^ e := by
  have hvalue : b.value = (4 * b.significand : ℕ) * 2 ^ (b.exponent - 2) := by
    rw [value, zpow_sub₀ (by norm_num), Nat.cast_mul]
    norm_num
    ring
  have hunit : 0 < b.gridUnit e := by
    unfold gridUnit
    rw [Nat.pow_eq, Nat.pow_eq]
    positivity
  have hbelow := Nat.div_mul_le_self (4 * b.significand * b.quarter e) (b.gridUnit e)
  have habove := Nat.lt_div_mul_add (a := 4 * b.significand * b.quarter e) hunit
  rw [← Nat.succ_mul, ← not_le, b.le_quarter_iff, not_le] at habove
  rw [b.le_quarter_iff] at hbelow
  rw [hvalue]
  exact ⟨hbelow, habove⟩

theorem lower_lt_value (hb : 0 < b.significand) : b.lower < b.value := by
  have hpos : (0 : ℚ) < 2 ^ b.exponent := by positivity
  rw [value]
  cases hnarrow : b.narrowBelow with
  | true =>
    rw [Decimal.lower_eq_of_narrow hb hnarrow]
    linarith
  | false =>
    rw [Decimal.lower_eq hb hnarrow]
    linarith

theorem value_lt_upper (b : Binary) : b.value < b.upper := by
  have hpos : (0 : ℚ) < 2 ^ b.exponent := by positivity
  rw [value, Decimal.upper_eq]
  linarith

/-- A grid without a hit has long steps. -/
theorem width_le_of_onGrid?_eq_none (hb : 0 < b.significand) {e : ℤ}
    (h : b.onGrid? tie e = none) : b.width ≤ 10 ^ e := by
  obtain ⟨hbelow, habove⟩ := b.floor_onGrid e
  generalize hd : 4 * b.significand * b.quarter e / b.gridUnit e = d at hbelow habove
  have hmiss : b.admits e d = false ∧ b.admits e (d + 1) = false := by
    unfold onGrid? at h
    dsimp only at h
    rw [hd] at h
    split at h
    · rename_i hdown hup
      exact ⟨hdown, hup⟩
    · cases h
    · cases h
    · split at h
      · cases h
      · split at h
        · cases h
        · cases tie <;> dsimp only at h
          · split at h <;> cases h
          · cases h
  have hlower : (d : ℚ) * 10 ^ e ≤ b.lower := by
    by_contra hgt
    have hadmits := (b.admits_iff e d).mpr
      (roundsTo_of_lt (not_le.mp hgt) (hbelow.trans_lt b.value_lt_upper))
    rw [hmiss.1] at hadmits
    cases hadmits
  have hupper : b.upper ≤ ((d + 1 : ℕ) : ℚ) * 10 ^ e := by
    by_contra hlt
    have hadmits := (b.admits_iff e (d + 1)).mpr
      (roundsTo_of_lt ((lower_lt_value hb).trans habove) (not_le.mp hlt))
    rw [hmiss.2] at hadmits
    cases hadmits
  have hwidth := width_le hb
  push_cast at hupper
  linarith

/-- The search ends on a grid whose steps are not much shorter than the rounding interval. -/
theorem width_le_searchFrom (hb : 0 < b.significand) :
    ∀ (n : Nat) (e : ℤ), e - n ≤ b.finest → b.width ≤ 10 ^ (e + 1) →
      b.width ≤ 10 ^ ((b.searchFrom tie e n).exponent + 1) := by
  intro n
  induction n with
  | zero =>
    intro e hfinest hwidth
    have hexponent : (b.searchFrom tie e 0).exponent = b.finest := rfl
    rw [hexponent]
    exact hwidth.trans (zpow_le_zpow_right₀ (by norm_num) (by omega))
  | succ n ih =>
    intro e hfinest hwidth
    rw [searchFrom]
    split
    · exact hwidth
    · rename_i hmiss
      refine ih (e - 1) (by omega) ?_
      rw [sub_add_cancel]
      exact width_le_of_onGrid?_eq_none hb hmiss

/-- The search starts above the rounding interval. -/
theorem width_le_coarsest (b : Binary) : b.width ≤ 10 ^ (b.coarsest + 1) := by
  have hwidth : b.width ≤ 2 ^ (b.exponent + (b.significand.log2 : ℤ) + 2) := by
    have hle : (2 : ℚ) ^ b.exponent ≤ 2 ^ (b.exponent + (b.significand.log2 : ℤ) + 2) :=
      zpow_le_zpow_right₀ (by norm_num) (by omega)
    have hpos : (0 : ℚ) < 2 ^ b.exponent := by positivity
    rw [width]
    linarith
  refine hwidth.trans ?_
  unfold coarsest
  dsimp only
  generalize b.exponent + (b.significand.log2 : ℤ) + 2 = k
  split_ifs with hk
  · calc (2 : ℚ) ^ k ≤ 2 ^ (3 * (k / 3 + 1 + 1)) := zpow_le_zpow_right₀ (by norm_num) (by omega)
      _ = (2 ^ (3 : ℤ)) ^ (k / 3 + 1 + 1) := zpow_mul ..
      _ ≤ 10 ^ (k / 3 + 1 + 1) := zpow_le_zpow_left₀ (by omega) (by norm_num) (by norm_num)
  · have hten : (0 : ℚ) < 10 ^ (-k / 4) := by positivity
    have hpower : (10 : ℚ) ^ (-k / 4) ≤ (2 ^ (4 : ℤ)) ^ (-k / 4) :=
      zpow_le_zpow_left₀ (by omega) (by norm_num) (by norm_num)
    calc (2 : ℚ) ^ k ≤ 2 ^ (-(4 * (-k / 4))) := zpow_le_zpow_right₀ (by norm_num) (by omega)
      _ = ((2 ^ (4 : ℤ)) ^ (-k / 4))⁻¹ := by rw [zpow_neg, zpow_mul]
      _ ≤ (10 ^ (-k / 4))⁻¹ := inv_anti₀ hten hpower
      _ = 10 ^ (-(-k / 4)) := (zpow_neg ..).symm
      _ ≤ 10 ^ (-(-k / 4) + 1) := zpow_le_zpow_right₀ (by norm_num) (by omega)

theorem width_le_shortest (hb : 0 < b.significand) (tie : Decimal.Tie) :
    b.width ≤ 10 ^ ((b.shortest tie).exponent + 1) :=
  width_le_searchFrom hb _ _ (by omega) b.width_le_coarsest

theorem coefficient_shortest_lt (hb : 0 < b.significand) (hfew : b.significand < 2 ^ 53)
    (tie : Decimal.Tie) : (b.shortest tie).coefficient < 10 ^ 18 := by
  have hwidth := width_le_shortest hb tie
  have hupper : (b.shortest tie).value ≤ b.upper := (roundsTo_shortest hb).bounds.2
  have hcast : (b.significand : ℚ) + 1 ≤ 2 ^ 53 := by exact_mod_cast hfew
  rw [zpow_add_one₀ (by norm_num)] at hwidth
  generalize b.shortest tie = d at hwidth hupper ⊢
  have hten : (0 : ℚ) < 10 ^ d.exponent := by positivity
  have htwo : (0 : ℚ) < 2 ^ b.exponent := by positivity
  rw [Decimal.upper_eq, Decimal.value] at hupper
  rw [width] at hwidth
  have hfactor : (b.significand + 1 / 2 : ℚ) * 2 ^ b.exponent ≤
      2 ^ 53 * (4 / 3 * (10 ^ d.exponent * 10)) :=
    mul_le_mul (by linarith) (by linarith) htwo.le (by positivity)
  have hlt : (d.coefficient : ℚ) * 10 ^ d.exponent < 10 ^ 18 * 10 ^ d.exponent := by linarith
  exact_mod_cast lt_of_mul_lt_mul_right hlt hten.le

/-- The exponents of the shortest decimals of doubles are bounded. -/
theorem exponent_shortest_ge (hb : 0 < b.significand) (hleast : -1074 ≤ b.exponent)
    (tie : Decimal.Tie) : -325 ≤ (b.shortest tie).exponent := by
  have hwidth := width_le_shortest hb tie
  by_contra hlt
  have hten : (10 : ℚ) ^ ((b.shortest tie).exponent + 1) ≤ (10 ^ 325)⁻¹ := by
    rw [← zpow_natCast, ← zpow_neg]
    exact zpow_le_zpow_right₀ (by norm_num) (by push_cast; omega)
  have htwo : (2 ^ 1075 : ℚ)⁻¹ ≤ b.width := by
    have hle : (2 : ℚ) ^ (-1074 : ℤ) ≤ 2 ^ b.exponent := zpow_le_zpow_right₀ (by norm_num) hleast
    have hhalf : (2 ^ 1075 : ℚ)⁻¹ = 1 / 2 * 2 ^ (-1074 : ℤ) := by
      rw [← zpow_natCast, ← zpow_neg, one_div, ← zpow_neg_one, ← zpow_add₀ (by norm_num)]
      congr 1
    have hpos : (0 : ℚ) < 2 ^ (-1074 : ℤ) := by positivity
    rw [hhalf, width]
    linarith
  have hsmall : ((2 ^ 1075 : ℕ) : ℚ) < (10 ^ 325 : ℕ) := Nat.cast_lt.mpr (by decide +kernel)
  simp only [Nat.cast_pow, Nat.cast_ofNat] at hsmall
  have hinv : ((10 : ℚ) ^ 325)⁻¹ < (2 ^ 1075)⁻¹ := inv_strictAnti₀ (by positivity) hsmall
  exact absurd (htwo.trans (hwidth.trans hten)) (not_le.mpr hinv)

theorem upper_lt_of_finite {p : Nat} (hp : p < Decimal.infinitePosition) :
    (ofPosition p).upper < 2 ^ 1024 := by
  have hle : (ofPosition p).upper ≤ (ofPosition (2046 * 2 ^ 52 + (2 ^ 52 - 1))).upper :=
    strictMono_upper_ofPosition.monotone (by rw [Decimal.infinitePosition] at hp; omega)
  refine hle.trans_lt ?_
  rw [ofPosition_of_lt (by decide), if_neg (by decide), Decimal.upper_eq]
  dsimp only
  have hpow : (2 : ℚ) ^ 1024 = 2 ^ 53 * 2 ^ (Int.ofNat 2046 - 1075) := by
    rw [← zpow_natCast, ← zpow_natCast, ← zpow_add₀ (by norm_num)]
    congr 1
  rw [hpow]
  exact mul_lt_mul_of_pos_right (by norm_num) (by positivity)

theorem exponent_shortest_le {p : Nat} (hp : p < Decimal.infinitePosition)
    (hb : 0 < (ofPosition p).significand) (tie : Decimal.Tie)
    (hpos : 0 < ((ofPosition p).shortest tie).coefficient) :
    ((ofPosition p).shortest tie).exponent ≤ 308 := by
  have hupper : ((ofPosition p).shortest tie).value < 2 ^ 1024 :=
    (roundsTo_shortest hb).bounds.2.trans_lt (upper_lt_of_finite hp)
  generalize (ofPosition p).shortest tie = d at hpos hupper ⊢
  by_contra hgt
  have hone : (1 : ℚ) ≤ d.coefficient := Nat.one_le_cast.mpr hpos
  have hten : (10 : ℚ) ^ 309 ≤ d.value := by
    rw [Decimal.value, ← zpow_natCast]
    calc (10 : ℚ) ^ ((309 : ℕ) : ℤ) ≤ 10 ^ d.exponent :=
          zpow_le_zpow_right₀ (by norm_num) (by push_cast; omega)
      _ ≤ d.coefficient * 10 ^ d.exponent := le_mul_of_one_le_left (by positivity) hone
  have hgreat : ((2 ^ 1024 : ℕ) : ℚ) < (10 ^ 309 : ℕ) := Nat.cast_lt.mpr (by decide +kernel)
  simp only [Nat.cast_pow, Nat.cast_ofNat] at hgreat
  exact absurd (hten.trans hupper.le) (not_le.mpr hgreat)

end Binary
end ScoreTree
