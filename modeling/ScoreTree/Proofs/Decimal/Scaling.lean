import ScoreTree.Proofs.Decimal.Drift

/-!
# Scaling by powers of ten

The reader multiplies the digits of a number with a power of ten, or divides them by it, and rounds at each
step. Each rounding before the last one may move the double that it gets by one place from the one that the
number rounds to, two places in all (`isNear_scale`). Few digits and a small power are exact, so that
the double of these is the nearest one.
-/

namespace ScoreTree
namespace Decimal

open Float.Model (Format)
open Float.Model.UnpackedFloat (mul unpack unpackExponent)
open Json.Number (tenPower shrink scale)

/-! ## Powers of ten -/

theorem tenPower_le {k : Nat} (hk : k ≤ 307) : (10 : ℚ) ^ k < 2 ^ 1023 := by
  have hgreat : ((10 ^ 307 : ℕ) : ℚ) < (2 ^ 1023 : ℕ) := Nat.cast_lt.mpr (by decide +kernel)
  simp only [Nat.cast_pow, Nat.cast_ofNat] at hgreat
  exact (pow_le_pow_right₀ (by norm_num) hk).trans_lt hgreat

/-- The greatest power of ten that is a double. -/
theorem position_tenPower_greatest :
    position (tenPower 308) = 2046 * 2 ^ 52 + 506821272651936 := by decide +kernel

theorem isPositive_tenPower {k : Nat} (hk : k ≤ 308) : IsPositive (tenPower k) := by
  obtain ⟨hnearest, hsign⟩ := isNearest_tenPower hk
  rcases hk.lt_or_eq with hlt | rfl
  · refine hnearest.isPositive hsign ?_ (tenPower_le (by omega))
    calc (2 : ℚ) ^ (-1075 : ℤ) < 1 := zpow_lt_one_of_neg₀ (by norm_num) (by norm_num)
      _ ≤ 10 ^ k := one_le_pow₀ (by norm_num)
  · refine ⟨hsign, ?_, ?_⟩
    · rw [position_tenPower_greatest]
      decide
    · rw [position_tenPower_greatest]
      decide

/-- A small power of ten is exact, since its odd part has few digits. -/
theorem size_tenPower {k : Nat} (hk : k ≤ 22) : size (tenPower k) = 10 ^ k := by
  have hodd : (10 : ℚ) ^ k = (5 ^ k : ℕ) * 2 ^ (k : ℤ) := by
    rw [zpow_natCast]
    push_cast
    rw [← mul_pow]
    norm_num
  have hfew : 5 ^ k < 2 ^ 53 :=
    calc 5 ^ k ≤ 5 ^ 22 := Nat.pow_le_pow_right (by decide) hk
      _ < 2 ^ 53 := by norm_num
  have hnearest := (isNearest_tenPower (show k ≤ 308 by omega)).1
  rw [hodd] at hnearest ⊢
  exact hnearest.size_eq (isPositive_tenPower (by omega)) (by positivity) hfew (by omega)

/-- The number of roundings that a power of ten takes. -/
def powerRoundings (k : Nat) : Nat := if k ≤ 22 then 0 else 1

theorem within_tenPower {k : Nat} (hk : k ≤ 308) :
    Within (roundoff ^ powerRoundings k) (10 ^ k) (size (tenPower k)) := by
  unfold powerRoundings
  split_ifs with hsmall
  · rw [pow_zero, size_tenPower hsmall]
    exact .refl le_rfl (by positivity)
  · rw [pow_one]
    refine (isNearest_tenPower hk).1.within (isPositive_tenPower hk) ?_
    calc (2 : ℚ) ^ (-1022 : ℤ) ≤ 1 := zpow_le_one_of_nonpos₀ (by norm_num) (by norm_num)
      _ ≤ 10 ^ k := one_le_pow₀ (by norm_num)

/-- The greatest power of ten, and the number that it stands for. -/
theorem size_tenPower_greatest :
    (10 : ℚ) ^ 308 ≤ size (tenPower 308) ∧
      size (tenPower 308) ≤ (1 + 1 / 10 * 2 ^ (-53 : ℤ)) * 10 ^ 308 ∧
      1.1125 * 2 ^ (1023 : ℤ) ≤ size (tenPower 308) ∧ (10 : ℚ) ^ 308 ≤ 1.1126 * 2 ^ (1023 : ℤ) := by
  have hsize : size (tenPower 308) = 5010420900022432 * 2 ^ 971 := by
    rw [size, position_tenPower_greatest, Binary.ofPosition_of_lt (by decide), if_neg (by decide),
      Binary.value]
    dsimp only
    rw [show Int.ofNat 2046 - 1075 = ((971 : ℕ) : ℤ) from rfl, zpow_natCast]
    norm_num
  have hlower : ((10 ^ 308 : ℕ) : ℚ) ≤ (5010420900022432 * 2 ^ 971 : ℕ) :=
    Nat.cast_le.mpr (by decide +kernel)
  have hupper : ((5010420900022432 * 2 ^ 971 * (10 * 2 ^ 53) : ℕ) : ℚ) ≤
      ((10 * 2 ^ 53 + 1) * 10 ^ 308 : ℕ) := Nat.cast_le.mpr (by decide +kernel)
  have hbinary : ((11125 * 2 ^ 1023 : ℕ) : ℚ) ≤ (10000 * (5010420900022432 * 2 ^ 971) : ℕ) :=
    Nat.cast_le.mpr (by decide +kernel)
  have hdecimal : ((10000 * 10 ^ 308 : ℕ) : ℚ) ≤ (11126 * 2 ^ 1023 : ℕ) :=
    Nat.cast_le.mpr (by decide +kernel)
  simp only [Nat.cast_mul, Nat.cast_add, Nat.cast_one, Nat.cast_pow, Nat.cast_ofNat]
    at hlower hupper hbinary hdecimal
  have hpow : (2 : ℚ) ^ (1023 : ℤ) = 2 ^ 1023 := zpow_natCast 2 1023
  rw [hsize, hpow]
  generalize (10 : ℚ) ^ 308 = D at *
  generalize (2 : ℚ) ^ 971 = t at *
  generalize (2 : ℚ) ^ 1023 = b at *
  refine ⟨hlower, ?_, ?_, ?_⟩
  · norm_num at hupper ⊢
    linarith
  · norm_num
    linarith
  · norm_num
    linarith

theorem size_tenPower_greatest_le : size (tenPower 308) ≤ 1.2 * 2 ^ (1023 : ℤ) := by
  obtain ⟨-, hfar, -, hdecimal⟩ := size_tenPower_greatest
  have hbinary : (0 : ℚ) < 2 ^ (1023 : ℤ) := by positivity
  generalize (10 : ℚ) ^ 308 = D at hfar hdecimal
  generalize (2 : ℚ) ^ (1023 : ℤ) = b at hdecimal hbinary ⊢
  norm_num at hfar hdecimal ⊢
  linarith

/-- A multiple of the greatest power of ten lies between two multiples of a power of two. -/
theorem zpow_mul_tenPower_greatest (e : ℤ) {h : ℚ} (hh : 0 ≤ h) :
    2 ^ e * h * 10 ^ 308 ≤ 2 ^ (e + 1023) * (1.1126 * h) ∧
      2 ^ (e + 1023) * (1.1125 * h) ≤ 2 ^ e * h * size (tenPower 308) := by
  obtain ⟨-, -, hbinary, hdecimal⟩ := size_tenPower_greatest
  have hshift : (2 : ℚ) ^ (e + 1023) = 2 ^ e * 2 ^ (1023 : ℤ) := zpow_add₀ (by norm_num) e 1023
  rw [hshift]
  constructor
  · calc 2 ^ e * h * 10 ^ 308 ≤ 2 ^ e * h * (1.1126 * 2 ^ (1023 : ℤ)) :=
          mul_le_mul_of_nonneg_left hdecimal (by positivity)
      _ = 2 ^ e * 2 ^ (1023 : ℤ) * (1.1126 * h) := by ring
  · calc 2 ^ e * 2 ^ (1023 : ℤ) * (1.1125 * h) = 2 ^ e * h * (1.1125 * 2 ^ (1023 : ℤ)) := by ring
      _ ≤ 2 ^ e * h * size (tenPower 308) := mul_le_mul_of_nonneg_left hbinary (by positivity)

/-! ## Digits -/

section Steps

variable {s : Nat}

theorem isPositive_ofNat (hs : 0 < s) (hmany : s < 2 ^ 64) : IsPositive (Float.ofNat s) := by
  obtain ⟨hnearest, hsign⟩ := isNearest_ofNat hs
  have hone : (1 : ℚ) ≤ s := Nat.one_le_cast.mpr hs
  have hlt : (s : ℚ) < (2 ^ 64 : ℕ) := Nat.cast_lt.mpr hmany
  refine hnearest.isPositive hsign ?_ ?_
  · exact (zpow_lt_one_of_neg₀ (by norm_num) (by norm_num)).trans_le hone
  · rw [Nat.cast_pow, Nat.cast_ofNat] at hlt
    exact hlt.trans (pow_lt_pow_right₀ (by norm_num) (by norm_num))

/-- Few digits are exact. -/
theorem size_ofNat (hs : 0 < s) (hfew : s < 2 ^ 53) : size (Float.ofNat s) = s := by
  have hnearest := (isNearest_ofNat hs).1
  have hs' : (s : ℚ) = s * 2 ^ (0 : ℤ) := by simp
  rw [hs'] at hnearest ⊢
  exact hnearest.size_eq (isPositive_ofNat hs (by omega)) hs hfew (by norm_num)

/-- The number of roundings that digits take. -/
def digitRoundings (s : Nat) : Nat := if s < 2 ^ 53 then 0 else 1

theorem within_ofNat (hs : 0 < s) (hmany : s < 2 ^ 64) :
    Within (roundoff ^ digitRoundings s) s (size (Float.ofNat s)) := by
  unfold digitRoundings
  split_ifs with hfew
  · rw [pow_zero, size_ofNat hs hfew]
    exact .refl le_rfl (Nat.cast_nonneg s)
  · rw [pow_one]
    refine (isNearest_ofNat hs).1.within (isPositive_ofNat hs hmany) ?_
    calc (2 : ℚ) ^ (-1022 : ℤ) ≤ 1 := zpow_le_one_of_nonpos₀ (by norm_num) (by norm_num)
      _ ≤ s := Nat.one_le_cast.mpr hs

theorem within_ofNat_roundoff (hs : 0 < s) (hmany : s < 2 ^ 64) :
    Within roundoff s (size (Float.ofNat s)) := by
  refine (within_ofNat hs hmany).mono ?_ (Nat.cast_nonneg s) (size_pos (isPositive_ofNat hs hmany)).le
  unfold digitRoundings
  split_ifs
  · exact (pow_zero roundoff).trans_le one_le_roundoff
  · exact (pow_one roundoff).le

/-! ## One step -/

/-- Each of two roundings before the last one moves a number by less than one place. -/
theorem IsNearest.isNear_of_roundings {y : Float} {p n : Nat} {v w : ℚ} (h : IsNearest y w)
    (hp : (Binary.ofPosition p).RoundsTo v) (hwithin : Within (roundoff ^ n) v w) (hn : n ≤ 2) :
    IsNear n p y := by
  match n, hn with
  | 0, _ =>
    obtain ⟨p', hp', hposition⟩ := h
    rw [pow_zero] at hwithin
    obtain rfl : v = w := le_antisymm (by linarith [hwithin.2]) (by linarith [hwithin.1])
    obtain rfl := Binary.position_eq_of_roundsTo hp hp'
    exact ⟨p, le_rfl, le_rfl, hposition⟩
  | 1, _ => exact h.isNear hp hwithin (one_le_pow₀ one_le_roundoff) (by norm_num [roundoff_eq])
  | 2, _ => exact h.isNear hp hwithin (one_le_pow₀ one_le_roundoff) (by norm_num [roundoff_eq])

theorem roundings_le (s k : Nat) : digitRoundings s + powerRoundings k ≤ 2 := by
  unfold digitRoundings powerRoundings
  split_ifs <;> omega

theorem within_product {k : Nat} (hs : 0 < s) (hmany : s < 2 ^ 64) (hk : k ≤ 308) :
    Within (roundoff ^ (digitRoundings s + powerRoundings k)) (s * 10 ^ k)
      (size (Float.ofNat s) * size (tenPower k)) := by
  have hpos (n : Nat) : 0 ≤ roundoff ^ n := pow_nonneg (zero_le_one.trans one_le_roundoff) n
  rw [pow_add]
  exact (within_ofNat hs hmany).mul (within_tenPower hk) (hpos _) (hpos _)
    (size_pos (isPositive_ofNat hs hmany)).le (by positivity)

theorem isNear_product {k p : Nat} (hs : 0 < s) (hmany : s < 2 ^ 64) (hk : k ≤ 308)
    (hp : (Binary.ofPosition p).RoundsTo (s * 10 ^ k)) :
    IsNear (digitRoundings s + powerRoundings k) p (Float.ofNat s * tenPower k) ∧
      isNegative (Float.ofNat s * tenPower k) = false := by
  obtain ⟨hnearest, hsign⟩ := isNearest_mul (isPositive_ofNat hs hmany) (isPositive_tenPower hk)
  exact ⟨hnearest.isNear_of_roundings hp (within_product hs hmany hk) (roundings_le s k), hsign⟩

/-- Digits and a power of ten are rounded up by two roundings at most before they are multiplied, so that
their product is finite a little below the largest double. -/
theorem position_product_lt {k : Nat} (hmany : s < 2 ^ 64) (hk : k ≤ 308)
    (hle : (s : ℚ) * 10 ^ k ≤ (2 ^ 53 - 3) * 2 ^ (971 : ℤ)) :
    position (Float.ofNat s * tenPower k) < infinitePosition := by
  have ht := isPositive_tenPower hk
  rcases Nat.eq_zero_or_pos s with rfl | hs
  · have hzero : unpack Format.binary64 (word (Float.ofNat 0)) = .zero .positive := rfl
    have hproduct : Float.ofNat 0 * tenPower k = packed (.zero (.positive * .positive)) := by
      refine congrArg packed ?_
      change mul Format.binary64 (unpack Format.binary64 (word (Float.ofNat 0)))
        (unpack Format.binary64 (word (tenPower k))) = _
      rw [hzero, unpack_of_isPositive ht]
      rfl
    rw [hproduct, (packed_zero _).1]
    decide
  have hx := isPositive_ofNat hs hmany
  have hroundoff : roundoff ^ (digitRoundings s + powerRoundings k) ≤ roundoff ^ 2 :=
    pow_le_pow_right₀ one_le_roundoff (roundings_le s k)
  refine (isNearest_mul hx ht).1.finite ?_
  calc size (Float.ofNat s) * size (tenPower k)
      ≤ roundoff ^ 2 * (s * 10 ^ k) := (within_product hs hmany hk).1.trans
        (mul_le_mul_of_nonneg_right hroundoff (by positivity))
    _ ≤ roundoff ^ 2 * ((2 ^ 53 - 3) * 2 ^ (971 : ℤ)) :=
        mul_le_mul_of_nonneg_left hle (sq_nonneg roundoff)
    _ = 2 * (roundoff ^ 2 * (2 ^ 53 - 3)) * 2 ^ (970 : ℤ) := by
        rw [show (971 : ℤ) = 1 + 970 by norm_num, zpow_add₀ (by norm_num), zpow_one]
        ring
    _ < (2 ^ 54 - 1) * 2 ^ (970 : ℤ) :=
        mul_lt_mul_of_pos_right (by norm_num [roundoff_eq]) (by positivity)

theorem isNear_quotient {k p : Nat} (hs : 0 < s) (hmany : s < 2 ^ 64) (hk : k ≤ 308)
    (hp : (Binary.ofPosition p).RoundsTo (s / 10 ^ k)) :
    IsNear (digitRoundings s + powerRoundings k) p (Float.ofNat s / tenPower k) ∧
      isNegative (Float.ofNat s / tenPower k) = false := by
  have hx := isPositive_ofNat hs hmany
  have ht := isPositive_tenPower hk
  obtain ⟨hnearest, hsign⟩ := isNearest_div hx ht
  have hpos (n : Nat) : 0 ≤ roundoff ^ n := pow_nonneg (zero_le_one.trans one_le_roundoff) n
  have hnumerator := (within_ofNat hs hmany).div_right (z := 10 ^ k) (by positivity)
  have hdenominator := (within_tenPower hk).div_left (size_pos hx).le (by positivity) (size_pos ht)
  have hwithin := hnumerator.trans hdenominator (hpos _) (hpos _)
  rw [← pow_add] at hwithin
  exact ⟨hnearest.isNear_of_roundings hp hwithin (roundings_le s k), hsign⟩

/-! ## Two steps -/

/-- The factor of a first division by the greatest power of ten. That power is closer to its double than
to most others, so that the factor is less than that of two roundings. -/
def firstFactor : ℚ := 1 + 1.9999 * 2 ^ (-53 : ℤ)

theorem firstFactor_few : (2 ^ 53 - 1 / 2) * (firstFactor - 1) < ((2 : ℕ) : ℚ) := by
  norm_num [firstFactor]

theorem one_le_firstFactor : 1 ≤ firstFactor := by norm_num [firstFactor]

theorem isPositive_firstQuotient (hs : 0 < s) (hmany : s < 2 ^ 64) :
    IsPositive (Float.ofNat s / tenPower 308) := by
  have hx := isPositive_ofNat hs hmany
  have ht := isPositive_tenPower (le_refl 308)
  obtain ⟨hnearest, hsign⟩ := isNearest_div hx ht
  obtain ⟨hlarge, hsmall⟩ := within_ofNat_roundoff hs hmany
  have hgreat := size_tenPower_greatest.1
  have hle := size_tenPower_greatest_le
  have hone : (1 : ℚ) ≤ s := Nat.one_le_cast.mpr hs
  have hlt : (s : ℚ) < (2 ^ 64 : ℕ) := Nat.cast_lt.mpr hmany
  rw [Nat.cast_pow, Nat.cast_ofNat] at hlt
  rw [roundoff_eq] at hlarge hsmall
  refine hnearest.isPositive hsign ?_ ?_
  · have hpow : (2 : ℚ) ^ (-1075 : ℤ) = 1 / (2 ^ 52 * 2 ^ (1023 : ℤ)) := by
      rw [← zpow_natCast, ← zpow_add₀ (by norm_num), one_div, ← zpow_neg]
      congr 1
    have hbinary : (0 : ℚ) < 2 ^ (1023 : ℤ) := by positivity
    rw [hpow, lt_div_iff₀ (size_pos ht), div_mul_eq_mul_div, div_lt_iff₀ (by positivity)]
    generalize (2 : ℚ) ^ (1023 : ℤ) = b at hle hbinary ⊢
    have hhalf : (1 / 2 : ℚ) * (2 ^ 52 * b) ≤ size (Float.ofNat s) * (2 ^ 52 * b) :=
      mul_le_mul_of_nonneg_right (by linarith only [hone, hsmall]) (by positivity)
    linarith only [hhalf, hle, hbinary]
  · have hten : (1 : ℚ) ≤ size (tenPower 308) := (one_le_pow₀ (by norm_num)).trans hgreat
    calc size (Float.ofNat s) / size (tenPower 308) ≤ size (Float.ofNat s) :=
          div_le_self (size_pos hx).le hten
      _ ≤ 2 ^ 65 := by linarith
      _ < 2 ^ 1023 := pow_lt_pow_right₀ (by norm_num) (by norm_num)

/-- A rounded quotient by the greatest power of ten, with the error of the rounding. -/
theorem within_of_error {v x y e c : ℚ} (hc : 0 ≤ c) (hx : 0 ≤ x)
    (hupper : y ≤ x / size (tenPower 308) + e) (hlower : x / size (tenPower 308) ≤ y + e)
    (hlarge : x + e * 10 ^ 308 ≤ c * v)
    (hsmall : (1 + 1 / 10 * 2 ^ (-53 : ℤ)) * (v + c * (e * 10 ^ 308)) ≤ c * x) :
    Within c (v / 10 ^ 308) y := by
  obtain ⟨hgreat, hfar, -, -⟩ := size_tenPower_greatest
  have hten : (0 : ℚ) < 10 ^ 308 := by positivity
  generalize (10 : ℚ) ^ 308 = D at *
  generalize size (tenPower 308) = t at *
  have ht : 0 < t := hten.trans_le hgreat
  constructor
  · rw [← mul_div_assoc, le_div_iff₀ hten]
    calc y * D ≤ (x / t + e) * D := mul_le_mul_of_nonneg_right hupper hten.le
      _ = x * (D / t) + e * D := by ring
      _ ≤ x * 1 + e * D := by
          have hle := mul_le_mul_of_nonneg_left ((div_le_one ht).mpr hgreat) hx
          linarith
      _ ≤ c * v := by linarith
  · rw [div_le_iff₀ hten]
    have hfactor : (0 : ℚ) < 1 + 1 / 10 * 2 ^ (-53 : ℤ) := by positivity
    generalize 1 + 1 / 10 * (2 : ℚ) ^ (-53 : ℤ) = r at hfar hsmall hfactor
    have hback : x ≤ r * ((y + e) * D) := by
      have hye : 0 ≤ y + e := (div_nonneg hx ht.le).trans hlower
      calc x = x / t * t := (div_mul_cancel₀ x ht.ne').symm
        _ ≤ (y + e) * (r * D) := mul_le_mul hlower hfar ht.le hye
        _ = r * ((y + e) * D) := by ring
    have hscaled : r * (v + c * (e * D)) ≤ r * (c * ((y + e) * D)) := by
      calc _ ≤ c * x := hsmall
        _ ≤ c * (r * ((y + e) * D)) := mul_le_mul_of_nonneg_left hback hc
        _ = r * (c * ((y + e) * D)) := by ring
    have hle := le_of_mul_le_mul_left hscaled hfactor
    linarith

/-- The quotient of few digits, of which all are kept. -/
theorem within_firstQuotient_few (hs : 3 ≤ s) (hfew : s < 2 ^ 53) :
    Within firstFactor (s / 10 ^ 308) (size (Float.ofNat s / tenPower 308)) := by
  have hx := isPositive_ofNat (by omega) (show s < 2 ^ 64 by omega)
  have ht := isPositive_tenPower (le_refl 308)
  have hy := isPositive_firstQuotient (by omega) (show s < 2 ^ 64 by omega)
  obtain ⟨hnearest, -⟩ := isNearest_div hx ht
  obtain ⟨hgreat, hfar, -, -⟩ := size_tenPower_greatest
  have hle := size_tenPower_greatest_le
  have hthree : (3 : ℚ) ≤ s := by exact_mod_cast hs
  rw [size_ofNat (by omega) hfew] at hnearest
  have hnormal : (2 : ℚ) ^ (-1022 : ℤ) ≤ s / size (tenPower 308) := by
    have hpow : (2 : ℚ) ^ (-1022 : ℤ) = 2 / 2 ^ (1023 : ℤ) := by
      rw [div_eq_mul_inv, ← zpow_neg, ← zpow_one_add₀ (by norm_num)]
      congr 1
    have hbinary : (0 : ℚ) < 2 ^ (1023 : ℤ) := by positivity
    rw [hpow, div_le_div_iff₀ hbinary (size_pos ht)]
    generalize (2 : ℚ) ^ (1023 : ℤ) = b at hle hbinary ⊢
    have hmul := mul_le_mul_of_nonneg_right hthree hbinary.le
    linarith only [hmul, hle, hbinary]
  have hlast := hnearest.within hy hnormal
  have hdivisor : Within (1 + 1 / 10 * 2 ^ (-53 : ℤ)) ((10 : ℚ) ^ 308) (size (tenPower 308)) := by
    refine ⟨hfar, hgreat.trans (le_mul_of_one_le_left (size_pos ht).le ?_)⟩
    exact le_add_of_nonneg_right (by positivity)
  have hfirst := hdivisor.div_left (Nat.cast_nonneg s) (by positivity) (size_pos ht)
  refine (hfirst.trans hlast (by positivity) (zero_le_one.trans one_le_roundoff)).mono ?_
    (by positivity) (size_pos hy).le
  norm_num [roundoff_eq, firstFactor]

/-- The bounds of a quotient by the greatest power of ten, where the digits were cut by `h` and the quotient
by `e`. -/
theorem within_of_errors {v x y h e : ℚ} (hv : 2 ^ 53 * h ≤ v) (hh : 0 < h) (he : 0 ≤ e)
    (hxupper : x ≤ v + h) (hxlower : v ≤ x + h) (hupper : y ≤ x / size (tenPower 308) + e)
    (hlower : x / size (tenPower 308) ≤ y + e)
    (hcut : e * 10 ^ 308 ≤ 0.5563 * h ∨ e * 10 ^ 308 ≤ 1.1126 * h ∧ 1.1125 * 2 ^ 53 * h ≤ x) :
    Within firstFactor (v / 10 ^ 308) y := by
  have hpos : 0 ≤ e * 10 ^ 308 := by positivity
  have hx : 0 ≤ x := by linarith only [hv, hh, hxlower]
  refine within_of_error (by norm_num [firstFactor]) hx hupper hlower ?_ ?_
  · generalize e * 10 ^ 308 = d at hcut hpos ⊢
    norm_num [firstFactor] at hcut hv ⊢
    rcases hcut with hcut | ⟨hcut, hmany⟩
    · linarith only [hxupper, hv, hcut, hh]
    · linarith only [hxupper, hv, hcut, hmany, hh]
  · generalize e * 10 ^ 308 = d at hcut hpos ⊢
    norm_num [firstFactor] at hcut hv ⊢
    rcases hcut with hcut | ⟨hcut, hmany⟩
    · linarith only [hxlower, hv, hcut, hh]
    · linarith only [hxlower, hxupper, hv, hcut, hmany, hh]

/-- Half of the unit that more digits than a double has are cut to. -/
def halfUnit (s : Nat) : ℚ := 2 ^ ((s.log2 : ℤ) - 53)

theorem halfUnit_pos (s : Nat) : 0 < halfUnit s := zpow_pos (by norm_num) _

/-- Powers of two near the digits, by their half unit. -/
theorem zpow_eq_halfUnit {e f : ℤ} (hf : f = s.log2 + e) : (2 : ℚ) ^ f = 2 ^ (53 + e) * halfUnit s := by
  rw [halfUnit, hf, ← zpow_add₀ (by norm_num)]
  congr 1
  ring

theorem halfUnit_mul_le (hs : 0 < s) : 2 ^ 53 * halfUnit s ≤ s := by
  have hself : ((2 ^ s.log2 : ℕ) : ℚ) ≤ s := Nat.cast_le.mpr (Nat.log2_self_le hs.ne')
  rwa [Nat.cast_pow, Nat.cast_ofNat, ← zpow_natCast, zpow_eq_halfUnit (add_zero _).symm] at hself

theorem le_halfUnit_mul (s : Nat) : (s : ℚ) ≤ 2 ^ (53 + 1 : ℤ) * halfUnit s := by
  have hself : (s : ℚ) ≤ (2 ^ (s.log2 + 1) : ℕ) := Nat.cast_le.mpr Nat.lt_log2_self.le
  rwa [Nat.cast_pow, Nat.cast_ofNat, ← zpow_natCast, zpow_eq_halfUnit (Nat.cast_succ s.log2)] at hself

/-- More digits than a double has are cut by half of their unit at most. -/
theorem size_ofNat_error (hs : 2 ^ 53 ≤ s) (hmany : s < 2 ^ 64) :
    size (Float.ofNat s) ≤ s + halfUnit s ∧ s ≤ size (Float.ofNat s) + halfUnit s := by
  have hpos : 0 < s := by omega
  have hlog : 53 ≤ s.log2 := (Nat.le_log2 hpos.ne').2 hs
  have hhigh := le_halfUnit_mul s
  rw [← zpow_eq_halfUnit (f := (s.log2 : ℤ) - 52 + 53) (by ring)] at hhigh
  have herror := (isNearest_ofNat hpos).1.error_le (isPositive_ofNat hpos hmany) (by omega) hhigh
  rwa [show (s.log2 : ℤ) - 52 - 1 = s.log2 - 53 by ring] at herror

/-- The quotient of more digits than a double has. Where the digits of the quotient are cut by much, those of
the dividend are cut by little. -/
theorem within_firstQuotient_many (hs : 2 ^ 53 ≤ s) (hmany : s < 2 ^ 64) :
    Within firstFactor (s / 10 ^ 308) (size (Float.ofNat s / tenPower 308)) := by
  have hpos : 0 < s := by omega
  have hx := isPositive_ofNat hpos hmany
  have ht := isPositive_tenPower (le_refl 308)
  have hy := isPositive_firstQuotient hpos hmany
  obtain ⟨hquotient, -⟩ := isNearest_div hx ht
  have hlog : 53 ≤ s.log2 := (Nat.le_log2 hpos.ne').2 hs
  have hlow := halfUnit_mul_le hpos
  have hhigh := le_halfUnit_mul s
  have hhalf := halfUnit_pos s
  obtain ⟨hxupper, hxlower⟩ := size_ofNat_error hs hmany
  have hscale (e : ℤ) := zpow_mul_tenPower_greatest e hhalf.le
  -- The quotient has one of two lengths, and the longer one is cut by twice as much.
  by_cases hshort : size (Float.ofNat s) / size (tenPower 308) ≤ 2 ^ ((s.log2 : ℤ) - 1076 + 53)
  · obtain ⟨hupper, hlower⟩ := hquotient.error_le hy (by omega) hshort
    rw [zpow_eq_halfUnit (e := -1077) (by ring)] at hupper hlower
    refine within_of_errors hlow hhalf (by positivity) hxupper hxlower hupper hlower (.inl ?_)
    refine (hscale (53 + -1077)).1.trans_eq ?_
    norm_num
    ring
  · rw [not_le, zpow_eq_halfUnit (e := -1023) (by ring), lt_div_iff₀ (size_pos ht)] at hshort
    have hfits : size (Float.ofNat s) / size (tenPower 308) ≤ 2 ^ ((s.log2 : ℤ) - 1075 + 53) := by
      rw [zpow_eq_halfUnit (e := -1022) (by ring), div_le_iff₀ (size_pos ht)]
      refine le_trans ?_ (hscale (53 + -1022)).2
      norm_num at hhigh ⊢
      linarith only [hhigh, hxupper, hhalf]
    obtain ⟨hupper, hlower⟩ := hquotient.error_le hy (by omega) hfits
    rw [zpow_eq_halfUnit (e := -1076) (by ring)] at hupper hlower
    refine within_of_errors hlow hhalf (by positivity) hxupper hxlower hupper hlower (.inr ⟨?_, ?_⟩)
    · refine (hscale (53 + -1076)).1.trans_eq ?_
      norm_num
    · refine le_trans (le_of_eq ?_) ((hscale (53 + -1023)).2.trans hshort.le)
      norm_num
      ring

/-- The quotient of one, which has fewer digits than a double and is close all the same. -/
theorem within_firstQuotient_one :
    Within firstFactor (1 / 10 ^ 308) (2024022533073106 * 2 ^ (-1074 : ℤ)) := by
  have hlarge : ((2024022533073106 * 10 ^ 308 * (10000 * 2 ^ 53) : ℕ) : ℚ) ≤
      ((10000 * 2 ^ 53 + 19999) * 2 ^ 1074 : ℕ) := Nat.cast_le.mpr (by decide +kernel)
  have hsmall : ((2 ^ 1074 * (10000 * 2 ^ 53) : ℕ) : ℚ) ≤
      ((10000 * 2 ^ 53 + 19999) * (2024022533073106 * 10 ^ 308) : ℕ) :=
    Nat.cast_le.mpr (by decide +kernel)
  simp only [Nat.cast_mul, Nat.cast_add, Nat.cast_pow, Nat.cast_ofNat] at hlarge hsmall
  have hten : (0 : ℚ) < 10 ^ 308 := by positivity
  have htwo : (0 : ℚ) < 2 ^ 1074 := by positivity
  have hpow : (2 : ℚ) ^ (-1074 : ℤ) = 1 / 2 ^ 1074 := by
    rw [one_div, ← zpow_natCast, ← zpow_neg]
    congr 1
  rw [hpow]
  generalize (10 : ℚ) ^ 308 = D at *
  generalize (2 : ℚ) ^ 1074 = b at *
  constructor
  · rw [mul_one_div, mul_one_div, div_le_div_iff₀ htwo hten]
    norm_num [firstFactor] at hlarge ⊢
    linarith
  · rw [mul_one_div, ← mul_div_assoc, div_le_div_iff₀ hten htwo]
    norm_num [firstFactor] at hsmall ⊢
    linarith

/-- The quotients of one and two are multiples of one double. -/
theorem within_firstQuotient_least (hs : 0 < s) (hlt : s < 3) :
    Within firstFactor (s / 10 ^ 308) (size (Float.ofNat s / tenPower 308)) := by
  have hposition : position (Float.ofNat s / tenPower 308) = s * 2024022533073106 := by
    have hcases : ∀ s < 3, 0 < s →
        position (Float.ofNat s / tenPower 308) = s * 2024022533073106 := by decide +kernel
    exact hcases s hlt hs
  have hsize : size (Float.ofNat s / tenPower 308) = 2024022533073106 * 2 ^ (-1074 : ℤ) * s := by
    have hfew : s * 2024022533073106 < 2 ^ 52 := by omega
    have hofPosition := Binary.ofPosition_of_lt (k := 0) hfew
    rw [zero_mul, zero_add, if_pos rfl] at hofPosition
    rw [size, hposition, hofPosition, Binary.value, Nat.cast_mul, Nat.cast_ofNat, mul_assoc,
      mul_comm]
  have hscaled := within_firstQuotient_one.mul_right (Nat.cast_nonneg (α := ℚ) s)
  rwa [div_mul_eq_mul_div, one_mul, ← hsize] at hscaled

/-- A first division by the greatest power of ten. -/
theorem within_firstQuotient (hs : 0 < s) (hmany : s < 2 ^ 64) :
    Within firstFactor (s / 10 ^ 308) (size (Float.ofNat s / tenPower 308)) := by
  rcases Nat.lt_or_ge s 3 with hlt | hge
  · exact within_firstQuotient_least hs hlt
  · rcases Nat.lt_or_ge s (2 ^ 53) with hfew | hge'
    · exact within_firstQuotient_few hge hfew
    · exact within_firstQuotient_many hge' hmany

theorem isNear_twoQuotients {k p : Nat} (hs : 0 < s) (hmany : s < 2 ^ 64) (hk : k ≤ 22)
    (hp : (Binary.ofPosition p).RoundsTo (s / 10 ^ (308 + k))) :
    IsNear 2 p (Float.ofNat s / tenPower 308 / tenPower k) ∧
      isNegative (Float.ofNat s / tenPower 308 / tenPower k) = false := by
  have ht := isPositive_tenPower (show k ≤ 308 by omega)
  obtain ⟨hnearest, hsign⟩ := isNearest_div (isPositive_firstQuotient hs hmany) ht
  rw [size_tenPower hk] at hnearest
  rw [pow_add, ← div_div] at hp
  have hwithin := (within_firstQuotient hs hmany).div_right (z := 10 ^ k) (by positivity)
  exact ⟨hnearest.isNear hp hwithin one_le_firstFactor firstFactor_few, hsign⟩

/-! ## All steps -/

theorem isInf_eq_false {y : Float} (hy : position y < infinitePosition) : y.isInf = false := by
  have hfield : Binary.exponentField y.toBits ≠ 2047 := by
    rw [position, infinitePosition] at hy
    omega
  rw [← toNat_unpackExponent] at hfield
  have hfinite : unpackExponent (word y) ≠ -1#11 := by
    intro h
    rw [h] at hfield
    exact hfield rfl
  change (unpack Format.binary64 (word y)).isInf = false
  unfold unpack
  dsimp only
  rw [if_neg hfinite]
  split
  · split <;> rfl
  · rfl

theorem beq_zero_eq_false {x : Float} (hx : IsPositive x) : (x == 0.0) = false := by
  change (unpack Format.binary64 (word x)).beq (unpack Format.binary64 (word 0.0)) = false
  have hzero : word 0.0 = 0#64 := by decide +kernel
  rw [unpack_of_isPositive hx, hzero]
  rfl

/-- The number of places that scaling may move a number. -/
def places (s : Nat) (e : ℤ) : Nat :=
  if e.natAbs ≤ 308 then digitRoundings s + powerRoundings e.natAbs else 2

theorem places_le (s : Nat) (e : ℤ) : places s e ≤ 2 := by
  unfold places
  split_ifs
  · exact roundings_le s _
  · exact le_rfl

/-- Digits and an exponent are read as a double that is few places from the one they round to, unless this
is too great. -/
theorem isNear_scale {e : ℤ} {p : Nat} (hs : 0 < s) (hmany : s < 2 ^ 64) (hleast : -330 ≤ e)
    (hgreat : e ≤ 308) (hp : (Binary.ofPosition p).RoundsTo (s * 10 ^ e)) :
    ∃ y, IsNear (places s e) p y ∧ isNegative y = false ∧
      (isFinite y = true → scale s e = .ok y) := by
  rcases lt_or_ge e 0 with hneg | hnonneg
  · have hpow : (10 : ℚ) ^ e = (10 ^ e.natAbs)⁻¹ := by
      rw [← zpow_natCast, ← zpow_neg]
      congr 1
      omega
    rw [hpow, ← div_eq_mul_inv] at hp
    unfold scale places
    dsimp only
    rw [if_pos hneg]
    generalize hk : e.natAbs = k at hp ⊢
    rcases Nat.lt_or_ge 308 k with htwo | hone
    · obtain ⟨j, rfl⟩ := Nat.exists_eq_add_of_le htwo.le
      have hsteps : (308 + j) / 308 + 1 = 2 := by omega
      obtain ⟨hnear, hsign⟩ := isNear_twoQuotients hs hmany (by omega) hp
      have hx := isPositive_ofNat hs hmany
      rw [if_neg (by omega), hsteps, shrink, if_neg (by omega), beq_zero_eq_false hx,
        if_neg Bool.false_ne_true, shrink, if_pos (by omega), Nat.add_sub_cancel_left]
      exact ⟨_, hnear, hsign, fun _ => rfl⟩
    · obtain ⟨hnear, hsign⟩ := isNear_quotient hs hmany hone hp
      rw [if_pos hone, shrink, if_pos hone]
      exact ⟨_, hnear, hsign, fun _ => rfl⟩
  · have hpow : (10 : ℚ) ^ e = 10 ^ e.natAbs := by
      rw [← zpow_natCast]
      congr 1
      omega
    rw [hpow] at hp
    obtain ⟨hnear, hsign⟩ := isNear_product hs hmany (show e.natAbs ≤ 308 by omega) hp
    refine ⟨_, ?_, hsign, fun hfinite => ?_⟩
    · rw [places, if_pos (by omega)]
      exact hnear
    · unfold scale
      dsimp only
      rw [if_neg (by omega), if_pos hgreat, isInf_eq_false (isFinite_iff.mp hfinite),
        if_neg Bool.false_ne_true]

end Steps

end Decimal
end ScoreTree
