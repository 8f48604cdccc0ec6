import ScoreTree.Proofs.Decimal.Operations

/-!
# Drift

A rounding changes a number by a small factor (`IsNearest.within`), and the factors of several roundings
multiply. Two numbers that differ by a factor round to doubles that are few places apart: how
many, is decided by the factor and by the digits of the doubles (`position_le_add`).
-/

namespace ScoreTree
namespace Decimal

/-! ## Factors -/

/-- Neither number is greater than the other one times the factor. -/
def Within (c v w : ℚ) : Prop := w ≤ c * v ∧ v ≤ c * w

namespace Within

variable {c d v w v' w' z : ℚ}

theorem refl (hc : 1 ≤ c) (hv : 0 ≤ v) : Within c v v :=
  ⟨le_mul_of_one_le_left hv hc, le_mul_of_one_le_left hv hc⟩

theorem trans (h : Within c v w) (h' : Within d w z) (hc : 0 ≤ c) (hd : 0 ≤ d) :
    Within (c * d) v z := by
  constructor
  · calc z ≤ d * w := h'.1
      _ ≤ d * (c * v) := mul_le_mul_of_nonneg_left h.1 hd
      _ = c * d * v := by ring
  · calc v ≤ c * w := h.2
      _ ≤ c * (d * z) := mul_le_mul_of_nonneg_left h'.2 hc
      _ = c * d * z := by ring

theorem mul_right (h : Within c v w) (hz : 0 ≤ z) : Within c (v * z) (w * z) := by
  constructor
  · rw [← mul_assoc]
    exact mul_le_mul_of_nonneg_right h.1 hz
  · rw [← mul_assoc]
    exact mul_le_mul_of_nonneg_right h.2 hz

theorem mul (h : Within c v w) (h' : Within d v' w') (hc : 0 ≤ c)
    (hd : 0 ≤ d) (hw : 0 ≤ w) (hv' : 0 ≤ v') : Within (c * d) (v * v') (w * w') := by
  have hleft := h'.mul_right hw
  rw [mul_comm v', mul_comm w'] at hleft
  exact (h.mul_right hv').trans hleft hc hd

theorem div_right (h : Within c v w) (hz : 0 ≤ z) : Within c (v / z) (w / z) := by
  rw [div_eq_mul_inv, div_eq_mul_inv]
  exact h.mul_right (inv_nonneg.mpr hz)

/-- Divisors within a factor give quotients within it. -/
theorem div_left (h : Within c v w) (hz : 0 ≤ z) (hv : 0 < v) (hw : 0 < w) :
    Within c (z / v) (z / w) := by
  constructor
  · rw [← mul_div_assoc, div_le_div_iff₀ hw hv]
    calc z * v ≤ z * (c * w) := mul_le_mul_of_nonneg_left h.2 hz
      _ = c * z * w := by ring
  · rw [← mul_div_assoc, div_le_div_iff₀ hv hw]
    calc z * w ≤ z * (c * v) := mul_le_mul_of_nonneg_left h.1 hz
      _ = c * z * v := by ring

theorem mono (h : Within c v w) (hcd : c ≤ d) (hv : 0 ≤ v) (hw : 0 ≤ w) : Within d v w :=
  ⟨h.1.trans (mul_le_mul_of_nonneg_right hcd hv), h.2.trans (mul_le_mul_of_nonneg_right hcd hw)⟩

end Within

/-! ## The error of a rounding -/

/-- The factor of one rounding. -/
def roundoff : ℚ := 1 + 2 ^ (-53 : ℤ)

theorem roundoff_eq : roundoff = 9007199254740993 / 9007199254740992 := by norm_num [roundoff]

theorem one_le_roundoff : 1 ≤ roundoff := by norm_num [roundoff_eq]

/-- The least number with all of its digits. -/
theorem leastFull : (2 : ℚ) ^ 52 * 2 ^ (-1074 : ℤ) = 2 ^ (-1022 : ℤ) := by
  rw [← zpow_natCast, ← zpow_add₀ (by norm_num)]
  congr 1

theorem upper_eq (b : Binary) : b.upper = (b.significand + 1 / 2) * 2 ^ b.exponent := by
  rw [Binary.upper, Binary.upperQuarters, zpow_sub₀ (by norm_num)]
  push_cast
  norm_num
  ring

theorem lower_eq_of_narrow {b : Binary} (hsig : 0 < b.significand) (h : b.narrowBelow = true) :
    b.lower = (b.significand - 1 / 4) * 2 ^ b.exponent := by
  rw [Binary.lower, Binary.lowerQuarters, h, if_pos rfl, Nat.cast_sub (by omega),
    zpow_sub₀ (by norm_num)]
  push_cast
  norm_num
  ring

theorem lower_eq {b : Binary} (hsig : 0 < b.significand) (h : b.narrowBelow = false) :
    b.lower = (b.significand - 1 / 2) * 2 ^ b.exponent := by
  rw [Binary.lower, Binary.lowerQuarters, h, if_neg Bool.false_ne_true, Nat.cast_sub (by omega),
    zpow_sub₀ (by norm_num)]
  push_cast
  norm_num
  ring

theorem significand_ofPosition_lt (p : Nat) : (Binary.ofPosition p).significand < 2 ^ 53 := by
  unfold Binary.ofPosition
  split
  · dsimp only
    omega
  · dsimp only
    omega

/-- The space below a double is narrow where its digits are the least with an exponent that is not the
least. -/
theorem narrowBelow_ofPosition (p : Nat) : (Binary.ofPosition p).narrowBelow = true ↔
    (Binary.ofPosition p).significand = 2 ^ 52 ∧ -1074 < (Binary.ofPosition p).exponent := by
  unfold Binary.ofPosition
  split
  · simp
  · dsimp only
    simp only [Bool.and_eq_true, beq_iff_eq, decide_eq_true_eq, Int.ofNat_eq_natCast]
    omega

theorem IsNearest.exists_ofPosition {x : Float} {q : ℚ} (h : IsNearest x q) (hx : IsPositive x) :
    (Binary.ofPosition (position x)).RoundsTo q := by
  obtain ⟨p, hrounds, hposition⟩ := h
  have hfinite := hx.finite
  have hp : p = position x := by omega
  exact hp ▸ hrounds

/-- What rounds to a double, where it is not too small, rounds to one with all of its digits. -/
theorem le_significand {p : Nat} {q : ℚ} (h : q ≤ (Binary.ofPosition p).upper)
    (hq : 2 ^ (-1022 : ℤ) ≤ q) : 2 ^ 52 ≤ (Binary.ofPosition p).significand := by
  rcases (digits_ofPosition p).2 with hmany | hexponent
  · exact hmany
  · rw [upper_eq, hexponent] at h
    rw [← leastFull] at hq
    have hpos : (0 : ℚ) < 2 ^ (-1074 : ℤ) := by positivity
    have hhalf : (2 : ℚ) ^ 52 ≤ (Binary.ofPosition p).significand + 1 / 2 :=
      le_of_mul_le_mul_right (hq.trans h) hpos
    have hlt : ((2 ^ 52 : ℕ) : ℚ) < ((Binary.ofPosition p).significand + 1 : ℕ) := by
      push_cast
      linarith
    exact Nat.lt_succ_iff.mp (Nat.cast_lt.mp hlt)

/-- The value of a double with all of its digits is at most the factor of one rounding times the lower end
of its interval, unless it is the least one. -/
theorem value_le_lower {p : Nat} (hmany : 2 ^ 52 ≤ (Binary.ofPosition p).significand)
    (hleast : (Binary.ofPosition p).value ≠ 2 ^ (-1022 : ℤ)) :
    (Binary.ofPosition p).value ≤ roundoff * (Binary.ofPosition p).lower := by
  have hnarrow := narrowBelow_ofPosition p
  have hexponent := (digits_ofPosition p).1
  generalize Binary.ofPosition p = b at hmany hleast hnarrow hexponent ⊢
  have hpos : (0 : ℚ) < 2 ^ b.exponent := by positivity
  have hsig : 0 < b.significand := Nat.lt_of_lt_of_le (by decide) hmany
  have hcast : ((2 ^ 52 : ℕ) : ℚ) ≤ b.significand := Nat.cast_le.mpr hmany
  rw [Nat.cast_pow, Nat.cast_ofNat] at hcast
  cases hb : b.narrowBelow with
  | true =>
    have hlower : (b.significand : ℚ) ≤ roundoff * (b.significand - 1 / 4) := by
      rw [roundoff_eq]
      linarith
    rw [lower_eq_of_narrow hsig hb, Binary.value, ← mul_assoc]
    exact mul_le_mul_of_nonneg_right hlower hpos.le
  | false =>
    have hne : b.significand ≠ 2 ^ 52 := by
      intro heq
      rcases hexponent.lt_or_eq with hgreat | heq'
      · rw [hnarrow.mpr ⟨heq, hgreat⟩] at hb
        cases hb
      · rw [Binary.value, heq, ← heq', Nat.cast_pow, Nat.cast_ofNat, leastFull] at hleast
        exact hleast rfl
    have hlt : ((2 ^ 52 + 1 : ℕ) : ℚ) ≤ b.significand := by
      exact Nat.cast_le.mpr (Nat.lt_of_le_of_ne hmany hne.symm)
    rw [Nat.cast_add, Nat.cast_pow, Nat.cast_ofNat, Nat.cast_one] at hlt
    have hlower : (b.significand : ℚ) ≤ roundoff * (b.significand - 1 / 2) := by
      rw [roundoff_eq]
      linarith
    rw [lower_eq hsig hb, Binary.value, ← mul_assoc]
    exact mul_le_mul_of_nonneg_right hlower hpos.le

theorem upper_le_value {p : Nat} (hmany : 2 ^ 52 ≤ (Binary.ofPosition p).significand) :
    (Binary.ofPosition p).upper ≤ roundoff * (Binary.ofPosition p).value := by
  have hcast : ((2 ^ 52 : ℕ) : ℚ) ≤ (Binary.ofPosition p).significand := Nat.cast_le.mpr hmany
  rw [Nat.cast_pow, Nat.cast_ofNat] at hcast
  have hupper : ((Binary.ofPosition p).significand : ℚ) + 1 / 2 ≤
      roundoff * (Binary.ofPosition p).significand := by
    rw [roundoff_eq]
    linarith
  rw [upper_eq, Binary.value, ← mul_assoc]
  exact mul_le_mul_of_nonneg_right hupper (by positivity)

/-- A rounding changes a number by a small factor, unless it is too small. -/
theorem IsNearest.within {x : Float} {q : ℚ} (h : IsNearest x q) (hx : IsPositive x)
    (hq : 2 ^ (-1022 : ℤ) ≤ q) : Within roundoff q (size x) := by
  obtain ⟨hlower, hupper⟩ := (h.exists_ofPosition hx).bounds
  have hmany := le_significand hupper hq
  have hpos : (0 : ℚ) ≤ roundoff := zero_le_one.trans one_le_roundoff
  refine ⟨?_, hupper.trans (upper_le_value hmany)⟩
  by_cases hleast : size x = 2 ^ (-1022 : ℤ)
  · have hnonneg : (0 : ℚ) ≤ q := le_trans (by positivity) hq
    rw [hleast]
    exact hq.trans (le_mul_of_one_le_left hnonneg one_le_roundoff)
  · exact (value_le_lower hmany hleast).trans (mul_le_mul_of_nonneg_left hlower hpos)

/-- A number for which 53 digits are enough takes a longer unit only where it is rounded up to the next power
of two. -/
theorem narrowBelow_of_exponent_gt {p : Nat} {q : ℚ} {e : ℤ} (hp : 0 < p)
    (hlower : (Binary.ofPosition p).lower ≤ q) (he : -1074 ≤ e) (hq : q ≤ 2 ^ (e + 53))
    (hgt : e < (Binary.ofPosition p).exponent) :
    (Binary.ofPosition p).narrowBelow = true ∧ (Binary.ofPosition p).exponent ≤ e + 1 := by
  have hsig := significand_pos hp
  have hnarrow := narrowBelow_ofPosition p
  obtain ⟨-, hdigits⟩ := digits_ofPosition p
  generalize Binary.ofPosition p = b at *
  have hpos : (0 : ℚ) < 2 ^ b.exponent := by positivity
  have hmany : 2 ^ 52 ≤ b.significand := hdigits.resolve_right (by omega)
  have hnext : (2 : ℚ) ^ (e + 53) ≤ 2 ^ 52 * 2 ^ b.exponent := by
    rw [← zpow_natCast, ← zpow_add₀ (by norm_num)]
    exact zpow_le_zpow_right₀ (by norm_num) (by push_cast; omega)
  have hb : b.narrowBelow = true := by
    by_contra hnot
    rw [lower_eq hsig (Bool.eq_false_iff.mpr hnot)] at hlower
    have hne : b.significand ≠ 2 ^ 52 := fun heq => hnot (hnarrow.mpr ⟨heq, by omega⟩)
    have hlt : ((2 ^ 52 + 1 : ℕ) : ℚ) ≤ b.significand := Nat.cast_le.mpr (by omega)
    rw [Nat.cast_add, Nat.cast_pow, Nat.cast_ofNat, Nat.cast_one] at hlt
    have hscaled := mul_le_mul_of_nonneg_right hlt hpos.le
    linarith
  refine ⟨hb, ?_⟩
  by_contra hgreat
  have hsmall : (2 : ℚ) ^ (e + 53) ≤ 2 ^ 51 * 2 ^ b.exponent := by
    rw [← zpow_natCast, ← zpow_add₀ (by norm_num)]
    exact zpow_le_zpow_right₀ (by norm_num) (by push_cast; omega)
  rw [lower_eq_of_narrow hsig hb, (hnarrow.mp hb).1] at hlower
  push_cast at hlower
  linarith

/-- A rounding changes a number by half of a unit at most, where the unit is that of any 53 digits that
are enough for the number. -/
theorem IsNearest.error_le {x : Float} {q : ℚ} {e : ℤ} (h : IsNearest x q) (hx : IsPositive x)
    (he : -1074 ≤ e) (hq : q ≤ 2 ^ (e + 53)) : size x ≤ q + 2 ^ (e - 1) ∧ q ≤ size x + 2 ^ (e - 1) := by
  obtain ⟨hlower, hupper⟩ := (h.exists_ofPosition hx).bounds
  have hsig := significand_pos hx.pos
  have hnarrow := narrowBelow_ofPosition (position x)
  have hnext := narrowBelow_of_exponent_gt hx.pos hlower he hq
  rw [size, Binary.value]
  generalize Binary.ofPosition (position x) = b at *
  have hpos : (0 : ℚ) < 2 ^ b.exponent := by positivity
  have hhalf : (2 : ℚ) ^ (e - 1) = 2 ^ e / 2 := by
    rw [zpow_sub_one₀ (by norm_num)]
    ring
  rw [hhalf]
  rcases le_or_gt b.exponent e with hle | hgt
  · have hunit : (2 : ℚ) ^ b.exponent ≤ 2 ^ e := zpow_le_zpow_right₀ (by norm_num) hle
    rw [upper_eq] at hupper
    refine ⟨?_, by linarith⟩
    cases hb : b.narrowBelow with
    | true =>
      rw [lower_eq_of_narrow hsig hb] at hlower
      linarith
    | false =>
      rw [lower_eq hsig hb] at hlower
      linarith
  · obtain ⟨hb, hexponent⟩ := hnext hgt
    have hunit : (2 : ℚ) ^ b.exponent = 2 * 2 ^ e := by
      rw [show b.exponent = e + 1 by omega, zpow_add_one₀ (by norm_num)]
      ring
    have hpower : (2 : ℚ) ^ (e + 53) = 2 ^ 53 * 2 ^ e := by
      rw [zpow_add₀ (by norm_num), mul_comm]
      norm_cast
    rw [lower_eq_of_narrow hsig hb, (hnarrow.mp hb).1, hunit] at hlower
    rw [(hnarrow.mp hb).1, hunit]
    rw [hpower] at hq
    push_cast at hlower ⊢
    have hnonneg : (0 : ℚ) < 2 ^ e := by positivity
    exact ⟨by linarith, by linarith⟩

/-! ## Places -/

theorem exponent_ofPosition_succ (p : Nat) :
    (Binary.ofPosition p).exponent ≤ (Binary.ofPosition (p + 1)).exponent := by
  have hdiv : p / 2 ^ 52 ≤ (p + 1) / 2 ^ 52 := Nat.div_le_div_right (Nat.le_succ p)
  unfold Binary.ofPosition
  split_ifs
  all_goals
    simp only [Int.ofNat_eq_natCast]
    omega

/-- The next double is at least one unit further. -/
theorem upper_ofPosition_succ (p : Nat) :
    (Binary.ofPosition p).upper + 2 ^ (Binary.ofPosition p).exponent ≤
      (Binary.ofPosition (p + 1)).upper := by
  have hsig := significand_pos (Nat.succ_pos p)
  have hnarrow := narrowBelow_ofPosition (p + 1)
  have hlower := Binary.lower_ofPosition_succ p
  have hmono : (2 : ℚ) ^ (Binary.ofPosition p).exponent ≤ 2 ^ (Binary.ofPosition (p + 1)).exponent :=
    zpow_le_zpow_right₀ (by norm_num) (exponent_ofPosition_succ p)
  rw [upper_eq (Binary.ofPosition (p + 1))]
  cases hb : (Binary.ofPosition (p + 1)).narrowBelow with
  | false =>
    rw [lower_eq hsig hb] at hlower
    linarith
  | true =>
    obtain ⟨hleast, hgreat⟩ := hnarrow.mp hb
    have hexponent : (Binary.ofPosition p).exponent + 1 = (Binary.ofPosition (p + 1)).exponent := by
      clear hlower hmono hnarrow hsig hb
      unfold Binary.ofPosition at hleast hgreat ⊢
      split_ifs at hleast hgreat ⊢
      all_goals
        simp only [Int.ofNat_eq_natCast] at hleast hgreat ⊢
        omega
    have hunit : (2 : ℚ) ^ (Binary.ofPosition (p + 1)).exponent =
        2 * 2 ^ (Binary.ofPosition p).exponent := by
      rw [← hexponent, zpow_add_one₀ (by norm_num)]
      ring
    have hpos : (0 : ℚ) < 2 ^ (Binary.ofPosition p).exponent := by positivity
    rw [lower_eq_of_narrow hsig hb] at hlower
    rw [hunit] at hlower ⊢
    linarith

theorem exponent_ofPosition_le_add (p n : Nat) :
    (Binary.ofPosition p).exponent ≤ (Binary.ofPosition (p + n)).exponent := by
  induction n with
  | zero => exact le_rfl
  | succ n ih => exact ih.trans (exponent_ofPosition_succ (p + n))

theorem upper_ofPosition_add (p n : Nat) :
    (Binary.ofPosition p).upper + n * 2 ^ (Binary.ofPosition p).exponent ≤
      (Binary.ofPosition (p + n)).upper := by
  induction n with
  | zero => simp
  | succ n ih =>
    have hnext := upper_ofPosition_succ (p + n)
    have hmono : (2 : ℚ) ^ (Binary.ofPosition p).exponent ≤ 2 ^ (Binary.ofPosition (p + n)).exponent :=
      zpow_le_zpow_right₀ (by norm_num) (exponent_ofPosition_le_add p n)
    push_cast
    rw [← add_assoc]
    linarith

/-- A number that is greater by a factor rounds to a double that is few places above. -/
theorem position_le_add {p p' n : Nat} {c v w : ℚ} (hp : (Binary.ofPosition p).RoundsTo v)
    (hp' : (Binary.ofPosition p').RoundsTo w) (hw : w ≤ c * v) (hc : 1 ≤ c)
    (hn : ((Binary.ofPosition p).significand + 1 / 2) * (c - 1) < n) : p' ≤ p + n := by
  by_contra hgt
  obtain ⟨k, rfl⟩ := Nat.exists_eq_add_of_lt (Nat.lt_of_not_le hgt)
  have hpos : (0 : ℚ) < 2 ^ (Binary.ofPosition p).exponent := by positivity
  have hfar : (Binary.ofPosition p).upper + n * 2 ^ (Binary.ofPosition p).exponent ≤ w :=
    calc _ ≤ (Binary.ofPosition (p + n)).upper := upper_ofPosition_add p n
      _ ≤ (Binary.ofPosition (p + n + k)).upper :=
          Binary.strictMono_upper_ofPosition.monotone (Nat.le_add_right _ k)
      _ = (Binary.ofPosition (p + n + k + 1)).lower := (Binary.lower_ofPosition_succ _).symm
      _ ≤ w := hp'.bounds.1
  have hnear : w ≤ c * (Binary.ofPosition p).upper :=
    hw.trans (mul_le_mul_of_nonneg_left hp.bounds.2 (zero_le_one.trans hc))
  have hfew : (c - 1) * (Binary.ofPosition p).upper < n * 2 ^ (Binary.ofPosition p).exponent := by
    rw [upper_eq, ← mul_assoc, mul_comm (c - 1)]
    exact mul_lt_mul_of_pos_right hn hpos
  linarith

/-- The double stands at most so many places from the given one. Places above the largest double are
infinities. -/
def IsNear (n p : Nat) (y : Float) : Prop :=
  ∃ p', p' ≤ p + n ∧ p ≤ p' + n ∧ position y = min p' infinitePosition

/-- Numbers within a factor round to doubles that are few places apart. -/
theorem IsNearest.isNear {y : Float} {p n : Nat} {c v w : ℚ} (h : IsNearest y w)
    (hp : (Binary.ofPosition p).RoundsTo v) (hwithin : Within c v w) (hc : 1 ≤ c)
    (hn : (2 ^ 53 - 1 / 2) * (c - 1) < n) : IsNear n p y := by
  obtain ⟨p', hp', hposition⟩ := h
  have hfew (p : Nat) : ((Binary.ofPosition p).significand + 1 / 2) * (c - 1) < n := by
    have hlt : ((Binary.ofPosition p).significand : ℚ) + 1 ≤ 2 ^ 53 := by
      exact_mod_cast significand_ofPosition_lt p
    exact (mul_le_mul_of_nonneg_right (by linarith) (by linarith)).trans_lt hn
  exact ⟨p', position_le_add hp hp' hwithin.1 hc (hfew p), position_le_add hp' hp hwithin.2 hc (hfew p'),
    hposition⟩

end Decimal
end ScoreTree
