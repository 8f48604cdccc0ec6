import ScoreTree.Proofs.Decimal.Sums

/-!
# Doubles between zero and one

What a sum of doubles between zero and one does under rounding: each addition keeps what is there
(`le_add_left`, `le_add_right`), and no number of additions leads beyond `2 ^ 53`, where a summand of
one is lost (`add_le_sumLimit`). Quotients by such a sum keep the order and stay between zero and one
(`div_le_div_double`, `inUnitInterval_div`).
-/

namespace ScoreTree
namespace Decimal

open Float.Model (Format UnpackedFloat)
open Float.Model.UnpackedFloat

variable {x y z : Float}

/-! ## Order -/

theorem le_refl_of_known (hx : x.isNaN = false) : x ≤ x :=
  (le_iff_place_le hx hx).mpr le_rfl

theorem le_trans_double (hxy : x ≤ y) (hyz : y ≤ z) : x ≤ z := by
  obtain ⟨hx, hy⟩ := known_of_le hxy
  obtain ⟨-, hz⟩ := known_of_le hyz
  rw [le_iff_place_le hx hz]
  exact ((le_iff_place_le hx hy).mp hxy).trans ((le_iff_place_le hy hz).mp hyz)

theorem lt_of_lt_of_le_double (hxy : x < y) (hyz : y ≤ z) : x < z := by
  obtain ⟨hx, hy⟩ := known_of_lt hxy
  obtain ⟨-, hz⟩ := known_of_le hyz
  rw [lt_iff_place_lt hx hz]
  exact ((lt_iff_place_lt hx hy).mp hxy).trans_le ((le_iff_place_le hy hz).mp hyz)

theorem place_bounds (x : Float) :
    place x = position x ∧ sign x = .positive ∨ place x = -position x ∧ sign x = .negative := by
  rw [place]
  cases sign x
  · exact .inr ⟨rfl, rfl⟩
  · exact .inl ⟨rfl, rfl⟩

theorem isFinite_of_le_of_le (hx : isFinite x = true) (hz : isFinite z = true) (hxy : x ≤ y)
    (hyz : y ≤ z) : isFinite y = true := by
  obtain ⟨hxknown, hyknown⟩ := known_of_le hxy
  have hlower := (le_iff_place_le hxknown hyknown).mp hxy
  have hupper := (le_iff_place_le hyknown (known_of_le hyz).2).mp hyz
  rw [isFinite_iff] at hx hz ⊢
  have hxplace := place_bounds x
  have hyplace := place_bounds y
  have hzplace := place_bounds z
  omega

/-- Positive infinity. -/
def infinity : Float := 1 / 0

/-- Above a finite double there are finite ones and infinity. -/
theorem isFinite_of_le (hx : isFinite x = true) (hxy : x ≤ y) (hy : y ≠ infinity) :
    isFinite y = true := by
  obtain ⟨hxknown, hyknown⟩ := known_of_le hxy
  have hlower := (le_iff_place_le hxknown hyknown).mp hxy
  rw [isFinite_iff] at hx ⊢
  refine lt_of_le_of_ne (position_le_infinite hyknown) fun hlast => hy ?_
  have hxplace := place_bounds x
  rcases place_bounds y with ⟨-, hsign⟩ | ⟨hplace, -⟩
  · apply eq_of_position
    · rw [isNegative_eq, hsign]
      decide +kernel
    · rw [hlast]
      decide +kernel
  · omega

/-! ## Differences -/

theorem isRounded_ofNat (k : ℕ) : IsRounded (Float.ofNat k) k := by
  rcases Nat.eq_zero_or_pos k with rfl | hpos
  · rw [Nat.cast_zero]
    exact isRounded_zero .positive
  · obtain ⟨hnearest, hsign⟩ := isNearest_ofNat hpos
    have hround := isRounded_of_sign .positive hnearest (Nat.cast_nonneg k) hsign
    simpa only [Sign.apply, Int.cast_one, one_mul] using hround

theorem rational_ofNat {k : ℕ} (h : k ≤ 2 ^ 53) : rational (Float.ofNat k) = k := by
  obtain ⟨-, hsign, hsize⟩ := isExactly_ofNat h
  have hpositive : sign (Float.ofNat k) = .positive := sign_eq_of_isNegative hsign
  rw [size] at hsize
  rw [rational, hpositive, signed, hsize]
  simp [Sign.apply]

/-- A difference to a finite number that is not smaller is not positive, also where it is beyond all
finite ones. -/
theorem sub_nonpos_double (hxy : x ≤ y) (hy : isFinite y = true) : x - y ≤ 0 := by
  obtain ⟨hxknown, hyknown⟩ := known_of_le hxy
  by_cases hx : isFinite x = true
  · refine (isRounded_sub hx hy).le (isRounded_ofNat 0) ?_
    rw [Nat.cast_zero, sub_nonpos]
    exact rational_le_of_le hx hy hxy
  · -- The smaller one is negative infinity, and so is the difference.
    have hupper := (le_iff_place_le hxknown hyknown).mp hxy
    have hlast := position_le_infinite hxknown
    rw [isFinite_iff] at hx hy
    have hyplace := place_bounds y
    obtain hsign : sign x = .negative := by
      rcases place_bounds x with ⟨hplace, -⟩ | ⟨-, hsign⟩
      · omega
      · exact hsign
    have hdifference : x - y = packed (.infinity .negative) := by
      refine congrArg packed ?_
      rw [← (known_unpack hyknown).infinity_sub hy .negative, ← hsign,
        ← unpack_of_position_eq_infinite (by omega)]
      rfl
    rw [hdifference]
    decide +kernel

/-! ## Sums -/

/-- A double between zero and one. -/
structure InUnitInterval (x : Float) : Prop where
  nonneg : 0 ≤ x
  le_one : x ≤ 1

/-- Where sums of doubles between zero and one end: from here on a summand of one is lost. -/
def sumLimit : Float := Float.ofNat (2 ^ 53)

theorem isFinite_ofNat {k : ℕ} (h : k ≤ 2 ^ 53) : isFinite (Float.ofNat k) = true :=
  (isExactly_ofNat h).finite

theorem rational_nonneg (hx : isFinite x = true) (h : 0 ≤ x) : 0 ≤ rational x := by
  have hle := rational_le_of_le (isFinite_ofNat (Nat.zero_le _)) hx h
  rwa [rational_ofNat (Nat.zero_le _), Nat.cast_zero] at hle

theorem rational_le_ofNat {k : ℕ} (hk : k ≤ 2 ^ 53) (hx : isFinite x = true)
    (h : x ≤ Float.ofNat k) : rational x ≤ k := by
  have hle := rational_le_of_le hx (isFinite_ofNat hk) h
  rwa [rational_ofNat hk] at hle

theorem InUnitInterval.isFinite (hx : InUnitInterval x) : isFinite x = true :=
  isFinite_of_le_of_le (isFinite_ofNat (Nat.zero_le _)) (isFinite_ofNat (k := 1) (by norm_num))
    hx.nonneg hx.le_one

/-- A partial sum of doubles between zero and one. -/
structure IsPartialSum (x : Float) : Prop where
  nonneg : 0 ≤ x
  le_limit : x ≤ sumLimit

theorem IsPartialSum.isFinite (hx : IsPartialSum x) : Decimal.isFinite x = true :=
  isFinite_of_le_of_le (isFinite_ofNat (Nat.zero_le _)) (isFinite_ofNat le_rfl) hx.nonneg hx.le_limit

theorem isPartialSum_zero : IsPartialSum 0 := by
  constructor <;> decide +kernel

section Addition

variable (hx : IsPartialSum x) (hy : InUnitInterval y)

include hx hy

theorem le_add_left : x ≤ x + y := by
  refine (isRounded_rational hx.isFinite).le (isRounded_add hx.isFinite hy.isFinite) ?_
  have hnonneg := rational_nonneg hy.isFinite hy.nonneg
  linarith

theorem le_add_right : y ≤ x + y := by
  refine (isRounded_rational hy.isFinite).le (isRounded_add hx.isFinite hy.isFinite) ?_
  have hnonneg := rational_nonneg hx.isFinite hx.nonneg
  linarith

/-- The sum may be greater than the limit by one, and such a number is rounded to the limit. -/
theorem add_le_sumLimit : x + y ≤ sumLimit := by
  have hlimit : Float.ofNat (2 ^ 53 + 1) = sumLimit :=
    eq_of_position (by decide +kernel) (by decide +kernel)
  rw [← hlimit]
  refine (isRounded_add hx.isFinite hy.isFinite).le (isRounded_ofNat _) ?_
  have hxle := rational_le_ofNat le_rfl hx.isFinite hx.le_limit
  have hyle := rational_le_ofNat (k := 1) (by norm_num) hy.isFinite hy.le_one
  rw [Nat.cast_add]
  exact add_le_add hxle hyle

theorem IsPartialSum.add : IsPartialSum (x + y) where
  nonneg := le_trans_double hx.nonneg (le_add_left hx hy)
  le_limit := add_le_sumLimit hx hy

end Addition

/-! ## Quotients -/

theorem isPositive_of_nonneg (hx : isFinite x = true) (h : 0 ≤ x) (hne : position x ≠ 0) :
    IsPositive x := by
  obtain ⟨hzero, hknown⟩ := known_of_le h
  have hplace := (le_iff_place_le hzero hknown).mp h
  have hplaceZero : place 0 = 0 := by decide +kernel
  refine ⟨?_, Nat.pos_of_ne_zero hne, isFinite_iff.mp hx⟩
  rcases place_bounds x with ⟨-, hsign⟩ | ⟨hnegative, -⟩
  · rw [isNegative_eq, hsign]
    rfl
  · omega

theorem rational_of_isPositive (hx : IsPositive x) : rational x = size x := by
  have hsign : sign x = .positive := ofBitVec_unpackSign hx.sign
  rw [rational, hsign, signed, size]
  simp [Sign.apply]

theorem rational_of_position_eq_zero (hx : position x = 0) : rational x = 0 := by
  rw [rational, hx, signed_zero]

theorem isRounded_div (hx : isFinite x = true) (hnonneg : 0 ≤ x) (hy : IsPositive y) :
    IsRounded (x / y) (rational x / rational y) := by
  by_cases hzero : position x = 0
  · have hdiv : x / y = packed (.zero (sign x / .positive)) := by
      refine congrArg packed ?_
      change div Format.binary64 (unpack Format.binary64 (word x))
        (unpack Format.binary64 (word y)) = _
      rw [unpack_of_position_eq_zero hzero, unpack_of_isPositive hy]
      rfl
    rw [hdiv, rational_of_position_eq_zero hzero, zero_div]
    exact isRounded_zero _
  · have hpositive := isPositive_of_nonneg hx hnonneg hzero
    obtain ⟨hnearest, hsign⟩ := isNearest_div hpositive hy
    have hquotient : 0 ≤ size x / size y := div_nonneg (size_pos hpositive).le (size_pos hy).le
    have hround := isRounded_of_sign .positive hnearest hquotient hsign
    rw [rational_of_isPositive hpositive, rational_of_isPositive hy]
    simpa only [Sign.apply, Int.cast_one, one_mul] using hround

theorem one_le_rational (hx : isFinite x = true) (h : 1 ≤ x) : 1 ≤ rational x := by
  have hle := rational_le_of_le (isFinite_ofNat (k := 1) (by norm_num)) hx h
  rwa [rational_ofNat (by norm_num), Nat.cast_one] at hle

theorem isPositive_of_one_le (hx : isFinite x = true) (h : 1 ≤ x) : IsPositive x := by
  have hnonneg : 0 ≤ x := le_trans_double (by decide +kernel) h
  refine isPositive_of_nonneg hx hnonneg fun hzero => ?_
  have hone := one_le_rational hx h
  rw [rational_of_position_eq_zero hzero] at hone
  linarith

section Division

variable (hz : isFinite z = true) (hone : 1 ≤ z) (hx : InUnitInterval x)

include hz hone hx

/-- Division by one number keeps the order. -/
theorem div_le_div_double (hy : InUnitInterval y) (hxy : x ≤ y) : x / z ≤ y / z := by
  have hpositive := isPositive_of_one_le hz hone
  refine (isRounded_div hx.isFinite hx.nonneg hpositive).le
    (isRounded_div hy.isFinite hy.nonneg hpositive) ?_
  have hrational := one_le_rational hz hone
  exact div_le_div_of_nonneg_right (rational_le_of_le hx.isFinite hy.isFinite hxy) (by linarith)

theorem inUnitInterval_div (hxz : x ≤ z) : InUnitInterval (x / z) := by
  have hround := isRounded_div hx.isFinite hx.nonneg (isPositive_of_one_le hz hone)
  have hrational := one_le_rational hz hone
  have hnonneg := rational_nonneg hx.isFinite hx.nonneg
  constructor
  · refine (isRounded_ofNat 0).le hround ?_
    rw [Nat.cast_zero]
    exact div_nonneg hnonneg (by linarith)
  · refine hround.le (isRounded_ofNat 1) ?_
    rw [Nat.cast_one]
    exact div_le_one_of_le₀ (rational_le_of_le hx.isFinite hz hxz) (by linarith)

end Division

end Decimal
end ScoreTree
