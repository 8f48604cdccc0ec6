import ScoreTree.Proofs.Decimal.Naturals
import ScoreTree.Proofs.Decimal.Order

/-!
# Sums, differences and order

A finite double stands for a rational (`rational`). Sums and differences of finite doubles are the
exact ones, rounded (`isRounded_add`, `isRounded_sub`), with a sign of their own unlike products and
quotients of positive doubles. Rounding keeps the order (`IsRounded.place_le`), so what is known of
exact numbers is known of rounded ones.
-/

namespace ScoreTree
namespace Binary

/-- Rounding keeps the order of rationals. -/
theorem RoundsTo.position_le {m n : ℕ} {q r : ℚ} (hm : (ofPosition m).RoundsTo q)
    (hn : (ofPosition n).RoundsTo r) (h : q ≤ r) : m ≤ n := by
  by_contra hgt
  obtain ⟨k, rfl⟩ : ∃ k, m = k + 1 := ⟨m - 1, by omega⟩
  have hle : (ofPosition n).upper ≤ (ofPosition k).upper :=
    strictMono_upper_ofPosition.monotone (by omega)
  have hlower := hm.bounds.1
  rw [lower_ofPosition_succ] at hlower
  obtain rfl : q = r := le_antisymm h (hn.bounds.2.trans (hle.trans hlower))
  exact hgt (position_eq_of_roundsTo hm hn).le

end Binary

namespace Decimal

open Float.Model (Format UnpackedFloat)
open Float.Model.UnpackedFloat

/-! ## Rationals with a sign -/

/-- The rational of a given sign and position. -/
def signed (s : Sign) (p : ℕ) : ℚ := (s.apply 1 : ℤ) * (Binary.ofPosition p).value

/-- The number that a finite double stands for. -/
def rational (x : Float) : ℚ := signed (sign x) (position x)

theorem value_nonneg (b : Binary) : 0 ≤ b.value := by
  unfold Binary.value
  positivity

theorem value_ofPosition_zero : (Binary.ofPosition 0).value = 0 := by
  simp [Binary.ofPosition, Binary.value]

theorem signed_zero (s : Sign) : signed s 0 = 0 := by
  rw [signed, value_ofPosition_zero, mul_zero]

theorem signed_neg (s : Sign) (p : ℕ) : signed (-s) p = -signed s p := by
  cases s
  · change signed .positive p = _
    simp [signed, Sign.apply]
  · change signed .negative p = _
    simp [signed, Sign.apply]

theorem roundsTo_value (p : ℕ) : (Binary.ofPosition p).RoundsTo (Binary.ofPosition p).value := by
  rcases Nat.eq_zero_or_pos p with rfl | hp
  · rw [value_ofPosition_zero]
    exact Binary.roundsTo_zero rfl
  · exact Binary.roundsTo_value (significand_pos hp)

/-- The double is the one that the rational rounds to, an infinity if that is beyond all doubles, and it
stands on the side of zero where the rational is. -/
structure IsRounded (x : Float) (q : ℚ) : Prop where
  nearest : IsNearest x |q|
  of_nonneg : 0 ≤ q → place x = position x
  of_nonpos : q ≤ 0 → place x = -position x

theorem isNegative_eq (x : Float) : isNegative x = ((sign x).toBitVec.toNat == 1) := by
  rw [sign, Sign.toBitVec_ofBitVec, toNat_unpackSign]
  rfl

theorem sign_eq_of_isNegative {x : Float} {s : Sign}
    (h : isNegative x = (s.toBitVec.toNat == 1)) : sign x = s := by
  rw [isNegative_eq] at h
  cases hx : sign x <;> cases s <;> rw [hx] at h <;> first | rfl | cases h

theorem position_eq_zero {x : Float} (h : IsNearest x 0) : position x = 0 := by
  obtain ⟨p, hrounds, hposition⟩ := h
  obtain rfl := Binary.position_eq_of_roundsTo hrounds (Binary.roundsTo_zero (b := .ofPosition 0) rfl)
  rw [hposition, Nat.zero_min]

theorem isRounded_of_sign {x : Float} {q : ℚ} (s : Sign) (hnearest : IsNearest x q) (hq : 0 ≤ q)
    (hsign : isNegative x = (s.toBitVec.toNat == 1)) : IsRounded x ((s.apply 1 : ℤ) * q) := by
  have hplace : place x = s.apply (position x) := by rw [place, sign_eq_of_isNegative hsign]
  have hzero (h : q ≤ 0) : position x = 0 := by
    obtain rfl : q = 0 := le_antisymm h hq
    exact position_eq_zero hnearest
  cases s with
  | positive =>
    simp only [Sign.apply, Int.cast_one, one_mul] at hplace ⊢
    refine ⟨by rwa [abs_of_nonneg hq], fun _ => hplace, fun h => ?_⟩
    rw [hplace, hzero h]
    rfl
  | negative =>
    simp only [Sign.apply, Int.cast_neg, Int.cast_one, neg_one_mul] at hplace ⊢
    refine ⟨by rwa [abs_neg, abs_of_nonneg hq], fun h => ?_, fun _ => hplace⟩
    rw [hplace, hzero (neg_nonneg.mp h)]
    rfl

namespace IsRounded

variable {x y : Float} {q r : ℚ}

/-- Rounding keeps the order. -/
theorem place_le (hx : IsRounded x q) (hy : IsRounded y r) (h : q ≤ r) : place x ≤ place y := by
  obtain ⟨p, hp, hxposition⟩ := hx.nearest
  obtain ⟨p', hp', hyposition⟩ := hy.nearest
  rcases le_total 0 q with hq | hq
  · rw [hx.of_nonneg hq, hy.of_nonneg (hq.trans h), Int.ofNat_le, hxposition, hyposition]
    apply min_le_min_right
    exact hp.position_le hp' (abs_le_abs_of_nonneg hq h)
  · rcases le_total 0 r with hr | hr
    · rw [hx.of_nonpos hq, hy.of_nonneg hr]
      omega
    · rw [hx.of_nonpos hq, hy.of_nonpos hr, neg_le_neg_iff, Int.ofNat_le, hxposition, hyposition]
      apply min_le_min_right
      exact hp'.position_le hp (abs_le_abs_of_nonpos hr h)

theorem known (hx : IsRounded x q) : x.isNaN = false := by
  obtain ⟨p, -, hposition⟩ := hx.nearest
  have hle : position x ≤ infinitePosition := hposition ▸ min_le_right _ _
  have hfraction : Binary.fraction x.toBits < 2 ^ 52 := Nat.mod_lt _ (by decide)
  rw [Bool.eq_false_iff, Ne, isNaN_eq_true_iff]
  rintro ⟨hfield, hne⟩
  rw [position, hfield, infinitePosition] at hle
  omega

theorem le (hx : IsRounded x q) (hy : IsRounded y r) (h : q ≤ r) : x ≤ y :=
  (le_iff_place_le hx.known hy.known).mpr (hx.place_le hy h)

end IsRounded

/-! ## Finite doubles -/

theorem known_of_isFinite {x : Float} (hx : isFinite x = true) : x.isNaN = false := by
  rw [isFinite, bne_iff_ne] at hx
  rw [Bool.eq_false_iff, Ne, isNaN_eq_true_iff]
  exact fun h => hx h.1

/-- A finite double is its own rounding. -/
theorem isRounded_rational {x : Float} (hx : isFinite x = true) : IsRounded x (rational x) := by
  refine isRounded_of_sign (sign x) ⟨position x, roundsTo_value _, ?_⟩ (value_nonneg _)
    (isNegative_eq x)
  rw [min_eq_left (isFinite_iff.mp hx).le]

theorem rational_eq_of_place_eq {x y : Float} (h : place x = place y) : rational x = rational y := by
  rw [place, place] at h
  rw [rational, rational]
  rcases eq_or_ne (sign x) (sign y) with hsign | hsign
  · rw [hsign] at h ⊢
    obtain heq : position x = position y := by
      cases hy : sign y <;> rw [hy] at h <;> simp only [Sign.apply] at h <;> omega
    rw [heq]
  · -- Opposite sides of zero meet in zero only.
    obtain ⟨hx, hy⟩ : position x = 0 ∧ position y = 0 := by
      cases hx : sign x <;> cases hy : sign y <;> rw [hx, hy] at h hsign <;>
        first | exact absurd rfl hsign | (simp only [Sign.apply] at h; omega)
    rw [hx, hy, signed_zero, signed_zero]

theorem rational_le_of_le {x y : Float} (hx : isFinite x = true) (hy : isFinite y = true)
    (h : x ≤ y) : rational x ≤ rational y := by
  by_contra hlt
  have hplace := (isRounded_rational hy).place_le (isRounded_rational hx) (not_le.mp hlt).le
  have hsame := ((le_iff_place_le (known_of_isFinite hx) (known_of_isFinite hy)).mp h).antisymm hplace
  exact hlt (rational_eq_of_place_eq hsame).le

/-! ## Exact sums -/

theorem isRounded_round (s : Sign) {m : ℕ} (hm : 0 < m) (e : ℤ) :
    IsRounded (packed (UnpackedFloat.round Format.binary64 s m e))
      ((s.apply 1 : ℤ) * (m * 2 ^ e)) := by
  obtain ⟨hnearest, hsign⟩ := isNearest_round_exact s hm e
  exact isRounded_of_sign s hnearest (by positivity) hsign

theorem isRounded_zero (s : Sign) : IsRounded (packed (.zero s)) 0 := by
  obtain ⟨hposition, hsign⟩ := packed_zero s
  have hzero := isRounded_of_sign s (q := 0) ⟨0, Binary.roundsTo_zero rfl, hposition⟩ le_rfl hsign
  rwa [mul_zero] at hzero

/-- A whole number of units is rounded on the side of zero where it is. -/
theorem isRounded_normalize (m e : ℤ) :
    IsRounded (packed (UnpackedFloat.normalize Format.binary64 m e .positive)) (m * 2 ^ e) := by
  unfold UnpackedFloat.normalize
  rcases lt_trichotomy m 0 with h | rfl | h
  · rw [Int.compare_eq_lt.mpr h]
    have hround := isRounded_round .negative (m := (-m).toNat) (by omega) e
    have hcast : (((-m).toNat : ℕ) : ℚ) = -m := by
      rw [← Int.cast_natCast, Int.toNat_of_nonneg (by omega), Int.cast_neg]
    simpa [hcast, Sign.apply] using hround
  · rw [Int.cast_zero, zero_mul]
    exact isRounded_zero .positive
  · rw [Int.compare_eq_gt.mpr h]
    have hround := isRounded_round .positive (m := m.toNat) (by omega) e
    have hcast : ((m.toNat : ℕ) : ℚ) = m := by
      rw [← Int.cast_natCast, Int.toNat_of_nonneg h.le]
    simpa [hcast, Sign.apply] using hround

/-- Digits that are written to a lower exponent. -/
theorem shifted_value (s : Sign) (m : ℕ) {e f : ℤ} (h : f ≤ e) :
    ((s.apply ((decreaseExponent m e f).1 : ℤ) : ℤ) : ℚ) * 2 ^ f =
      (s.apply 1 : ℤ) * (m * 2 ^ e) := by
  have hvalue : ((m <<< (e - f).toNat : ℕ) : ℚ) * 2 ^ f = m * 2 ^ e := by
    rw [Nat.shiftLeft_eq]
    push_cast
    rw [← zpow_natCast, mul_assoc, ← zpow_add₀ (by norm_num)]
    congr 2
    omega
  rw [decreaseExponent, ← hvalue]
  dsimp only
  cases s <;> simp only [Sign.apply, Int.cast_neg, Int.cast_one, Int.cast_natCast] <;> ring

/-- Two numbers that are written to the lower one of their exponents, added, and rounded. -/
theorem isRounded_aligned (s t : Sign) (m n : ℕ) (e f : ℤ) :
    IsRounded (packed (UnpackedFloat.normalize Format.binary64
        (s.apply (decreaseExponent m e (min e f)).1 + t.apply (decreaseExponent n f (min e f)).1)
        (min e f) .positive))
      ((s.apply 1 : ℤ) * (m * 2 ^ e) + (t.apply 1 : ℤ) * (n * 2 ^ f)) := by
  rw [← shifted_value s m (min_le_left e f), ← shifted_value t n (min_le_right e f), ← add_mul,
    ← Int.cast_add]
  exact isRounded_normalize _ _

/-- The position of a double, from its digits. -/
theorem position_digits (p : ℕ) :
    ((Binary.ofPosition p).exponent + 1074).toNat * 2 ^ 52 + (Binary.ofPosition p).significand = p := by
  unfold Binary.ofPosition
  split
  · dsimp only
    omega
  · dsimp only [Int.ofNat_eq_natCast]
    omega

/-- A finite number is packed as the double that it is. -/
theorem Known.isRounded_packed {s : Sign} {p : ℕ} {u : UnpackedFloat} (hu : Known s p u)
    (hp : p < infinitePosition) : IsRounded (packed u) (signed s p) := by
  cases hu with
  | zero hzero =>
    subst hzero
    rw [signed_zero]
    exact isRounded_zero s
  | finite hpos _ =>
    obtain ⟨hleast, hnormal⟩ := digits_ofPosition p
    obtain ⟨hposition, hsign⟩ := packed_finite s (significand_pos hpos)
      (significand_ofPosition_lt p) hleast (fun hne => hnormal.resolve_right hne)
    rw [position_digits] at hposition
    exact isRounded_of_sign s ⟨p, roundsTo_value p, hposition⟩ (value_nonneg _) hsign
  | infinity hlast => exact absurd hlast hp.ne

theorem Known.isRounded_add {s t : Sign} {p q : ℕ} {u w : UnpackedFloat} (hu : Known s p u)
    (hw : Known t q w) (hp : p < infinitePosition) (hq : q < infinitePosition) :
    IsRounded (packed (add Format.binary64 u w)) (signed s p + signed t q) := by
  have hupacked := hu.isRounded_packed hp
  have hwpacked := hw.isRounded_packed hq
  cases hu with
  | zero hpzero =>
    subst hpzero
    rw [signed_zero, zero_add]
    cases hw with
    | zero hqzero =>
      subst hqzero
      rw [signed_zero]
      cases s <;> cases t <;> exact isRounded_zero _
    | finite _ _ => exact hwpacked
    | infinity hlast => exact absurd hlast hq.ne
  | finite _ _ =>
    cases hw with
    | zero hqzero =>
      subst hqzero
      rw [signed_zero, add_zero]
      exact hupacked
    | finite _ _ => exact isRounded_aligned s t _ _ _ _
    | infinity hlast => exact absurd hlast hq.ne
  | infinity hlast => exact absurd hlast hp.ne

theorem isRounded_add {x y : Float} (hx : isFinite x = true) (hy : isFinite y = true) :
    IsRounded (x + y) (rational x + rational y) :=
  (known_unpack (known_of_isFinite hx)).isRounded_add (known_unpack (known_of_isFinite hy))
    (isFinite_iff.mp hx) (isFinite_iff.mp hy)

/-! ## Differences -/

theorem Known.neg {s : Sign} {p : ℕ} {u : UnpackedFloat} (hu : Known s p u) :
    Known (-s) p u.neg := by
  cases hu with
  | zero hzero => exact .zero hzero
  | finite hpos hlt => exact .finite hpos hlt
  | infinity hlast => exact .infinity hlast

theorem sub_eq_add_opposite (u w : UnpackedFloat) :
    sub Format.binary64 u w = add Format.binary64 u w.neg := by
  have happly (s : Sign) (n : ℤ) : (-s).apply n = -s.apply n := by
    cases s
    · exact (neg_neg n).symm
    · rfl
  cases u <;> cases w <;> simp [sub, add, UnpackedFloat.neg, happly, Int.sub_eq_add_neg]

theorem isRounded_sub {x y : Float} (hx : isFinite x = true) (hy : isFinite y = true) :
    IsRounded (x - y) (rational x - rational y) := by
  have hsub : x - y = packed (add Format.binary64 (unpack Format.binary64 (word x))
      (unpack Format.binary64 (word y)).neg) := congrArg packed (sub_eq_add_opposite _ _)
  rw [hsub, rational, rational, sub_eq_add_neg, ← signed_neg]
  exact (known_unpack (known_of_isFinite hx)).isRounded_add (known_unpack (known_of_isFinite hy)).neg
    (isFinite_iff.mp hx) (isFinite_iff.mp hy)

theorem Known.sub_self {s : Sign} {p : ℕ} {u : UnpackedFloat} (hu : Known s p u)
    (hp : p < infinitePosition) : sub Format.binary64 u u = .zero .positive := by
  cases hu with
  | zero _ => cases s <;> rfl
  | finite hpos _ =>
    simp only [sub, Int.sub_self]
    rfl
  | infinity hlast => exact absurd hlast hp.ne

theorem sub_self_eq_zero {x : Float} (hx : isFinite x = true) : x - x = 0 :=
  congrArg packed ((known_unpack (known_of_isFinite hx)).sub_self (isFinite_iff.mp hx))

/-- An infinity that is diminished by a finite number stays. -/
theorem Known.infinity_sub {s : Sign} {p : ℕ} {u : UnpackedFloat} (hu : Known s p u)
    (hp : p < infinitePosition) (t : Sign) :
    sub Format.binary64 (.infinity t) u = .infinity t := by
  cases hu with
  | zero _ => rfl
  | finite _ _ => rfl
  | infinity hlast => exact absurd hlast hp.ne

end Decimal
end ScoreTree
