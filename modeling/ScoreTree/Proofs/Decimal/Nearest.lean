import ScoreTree.Proofs.Decimal.Doubles

/-!
# Nearest doubles

Arithmetic on doubles cuts an exact result to the digits of a double, with two bits that tell what was
cut off (`Cuts`), rounds what is left (`IsNearestNat`) and packs it. The double that comes out is
the one that the exact result rounds to, or an infinity where there is none (`IsNearest`).
-/

namespace ScoreTree
namespace Decimal

open Float.Model (Format totalExponent)
open Float.Model.UnpackedFloat

/-! ## Cut mantissas -/

/-- The number has the mantissa as its whole part, and the two bits tell its fraction. -/
def Cuts (em : ExtendedMantissa) (t : ℚ) : Prop :=
  match em with
  | ⟨m, false, false⟩ => t = m
  | ⟨m, false, true⟩ => m < t ∧ t < m + 1 / 2
  | ⟨m, true, false⟩ => t = m + 1 / 2
  | ⟨m, true, true⟩ => m + 1 / 2 < t ∧ t < m + 1

theorem cuts_exact (m : Nat) : Cuts (.ofMantissaAndAccuracy m .exact) m := rfl

theorem Cuts.shiftRightOne {em : ExtendedMantissa} {t : ℚ} (h : Cuts em t) :
    Cuts em.shiftRightOne (t / 2) := by
  obtain ⟨m, r, s⟩ := em
  have hm : (m : ℚ) = 2 * (m / 2 : ℕ) + (m % 2 : ℕ) := by exact_mod_cast (Nat.div_add_mod m 2).symm
  rcases Nat.mod_two_eq_zero_or_one m with hmod | hmod
  · have hshift : ExtendedMantissa.shiftRightOne ⟨m, r, s⟩ = ⟨m / 2, false, r || s⟩ := by
      rw [ExtendedMantissa.shiftRightOne, hmod]
      rfl
    rw [hmod, Nat.cast_zero, add_zero] at hm
    rw [hshift]
    cases r <;> cases s <;> simp only [Cuts, hm, Bool.or_false, Bool.or_true] at h ⊢
    · linarith
    · constructor <;> linarith
    · constructor <;> linarith
    · constructor <;> linarith
  · have hshift : ExtendedMantissa.shiftRightOne ⟨m, r, s⟩ = ⟨m / 2, true, r || s⟩ := by
      rw [ExtendedMantissa.shiftRightOne, hmod]
      rfl
    rw [hmod, Nat.cast_one] at hm
    rw [hshift]
    cases r <;> cases s <;> simp only [Cuts, hm, Bool.or_false, Bool.or_true] at h ⊢
    · linarith
    · constructor <;> linarith
    · constructor <;> linarith
    · constructor <;> linarith

theorem Cuts.shiftRight {em : ExtendedMantissa} {t : ℚ} (h : Cuts em t) (n : Nat) :
    Cuts (em >>> n) (t / 2 ^ n) := by
  change Cuts (n.repeat ExtendedMantissa.shiftRightOne em) _
  induction n with
  | zero => simpa [Nat.repeat] using h
  | succ n ih =>
    rw [pow_succ, ← div_div]
    exact ih.shiftRightOne

/-- The natural number is the nearest one; ties go to the even number. -/
def IsNearestNat (n : Nat) (t : ℚ) : Prop :=
  if n % 2 = 0 then n - 1 / 2 ≤ t ∧ t ≤ n + 1 / 2 else n - 1 / 2 < t ∧ t < n + 1 / 2

theorem IsNearestNat.bounds {n : Nat} {t : ℚ} (h : IsNearestNat n t) :
    n - 1 / 2 ≤ t ∧ t ≤ n + 1 / 2 := by
  unfold IsNearestNat at h
  split at h
  · exact h
  · exact ⟨h.1.le, h.2.le⟩

theorem isNearestNat_of_lt {n : Nat} {t : ℚ} (hlower : n - 1 / 2 < t) (hupper : t < n + 1 / 2) :
    IsNearestNat n t := by
  unfold IsNearestNat
  split
  · exact ⟨hlower.le, hupper.le⟩
  · exact ⟨hlower, hupper⟩

theorem Cuts.isNearestNat {em : ExtendedMantissa} {t : ℚ} (h : Cuts em t) :
    IsNearestNat em.roundedMantissa t := by
  obtain ⟨m, r, s⟩ := em
  cases r <;> cases s <;> simp only [Cuts] at h
  · change IsNearestNat m t
    apply isNearestNat_of_lt <;> linarith
  · change IsNearestNat m t
    apply isNearestNat_of_lt <;> linarith
  · change IsNearestNat (m + m % 2) t
    have heven : (m + m % 2) % 2 = 0 := by omega
    rw [IsNearestNat, if_pos heven, h]
    rcases Nat.mod_two_eq_zero_or_one m with hmod | hmod <;> rw [hmod] <;> push_cast
    · constructor <;> linarith
    · constructor <;> linarith
  · change IsNearestNat (m + 1) t
    apply isNearestNat_of_lt <;> push_cast <;> linarith

/-! ## Rounding to a double -/

/-- The exponent of the last digit of a double that a number is rounded to. -/
def lastExponent (m : Nat) (e : ℤ) : ℤ := max (m.log2 + 1 + e - 53) (-1074)

theorem targetExponent_eq (m : Nat) (e : ℤ) :
    Format.binary64.targetExponent (totalExponent m e) = lastExponent m e := rfl

/-- The mantissa that a number is rounded to. -/
def lastMantissa (m : Nat) (e : ℤ) (accuracy : Accuracy) : Nat :=
  (ExtendedMantissa.ofMantissaAndAccuracy m accuracy >>>
    (lastExponent m e - e).toNat).roundedMantissa

/-- Where the number is exact so far, with its accuracy. -/
theorem cuts_last {m : Nat} {e : ℤ} {accuracy : Accuracy} {t : ℚ}
    (h : Cuts (.ofMantissaAndAccuracy m accuracy) t) (he : e ≤ lastExponent m e) :
    IsNearestNat (lastMantissa m e accuracy) (t * 2 ^ (e - lastExponent m e)) := by
  have hnat : ((lastExponent m e - e).toNat : ℤ) = lastExponent m e - e := by omega
  have hpow : t * 2 ^ (e - lastExponent m e) = t / 2 ^ (lastExponent m e - e).toNat := by
    rw [← zpow_natCast, hnat, div_eq_mul_inv, ← zpow_neg, neg_sub]
  rw [hpow]
  exact (h.shiftRight _).isNearestNat

theorem Cuts.bounds {m : Nat} {accuracy : Accuracy} {t : ℚ}
    (h : Cuts (.ofMantissaAndAccuracy m accuracy) t) : m ≤ t ∧ t < m + 1 := by
  match accuracy with
  | .exact =>
    have h : t = m := h
    constructor <;> linarith
  | .inexact .lt =>
    have h : m < t ∧ t < m + 1 / 2 := h
    constructor <;> linarith
  | .inexact .eq =>
    have h : t = m + 1 / 2 := h
    constructor <;> linarith
  | .inexact .gt =>
    have h : m + 1 / 2 < t ∧ t < m + 1 := h
    constructor <;> linarith

/-- What is rounded has 53 digits at most, and no fewer where the exponent is not the least. -/
theorem scaled_bounds {m : Nat} {e : ℤ} {accuracy : Accuracy} {t : ℚ}
    (h : Cuts (.ofMantissaAndAccuracy m accuracy) t) (he : e ≤ lastExponent m e) :
    0 ≤ t * 2 ^ (e - lastExponent m e) ∧ t * 2 ^ (e - lastExponent m e) < 2 ^ 53 ∧
      (lastExponent m e ≠ -1074 → 2 ^ 52 ≤ t * 2 ^ (e - lastExponent m e)) := by
  obtain ⟨hlower, hupper⟩ := h.bounds
  have hm : (0 : ℚ) ≤ m := Nat.cast_nonneg m
  have hpos : (0 : ℚ) < 2 ^ (e - lastExponent m e) := by positivity
  have hlast : (m.log2 : ℤ) + 1 + e - 53 ≤ lastExponent m e := le_max_left _ _
  refine ⟨by nlinarith, ?_, fun hne => ?_⟩
  · have hlog : m + 1 ≤ 2 ^ (m.log2 + 1) := Nat.lt_log2_self
    have ht : t < 2 ^ ((m.log2 : ℤ) + 1) := by
      have hcast : ((m + 1 : ℕ) : ℚ) ≤ (2 ^ (m.log2 + 1) : ℕ) := by exact_mod_cast hlog
      push_cast at hcast
      calc t < m + 1 := hupper
        _ ≤ 2 ^ (m.log2 + 1) := hcast
        _ = 2 ^ ((m.log2 : ℤ) + 1) := by rw [← zpow_natCast]; rfl
    calc t * 2 ^ (e - lastExponent m e)
        < 2 ^ ((m.log2 : ℤ) + 1) * 2 ^ (e - lastExponent m e) := mul_lt_mul_of_pos_right ht hpos
      _ = 2 ^ ((m.log2 : ℤ) + 1 + (e - lastExponent m e)) := (zpow_add₀ (by norm_num) _ _).symm
      _ ≤ 2 ^ (53 : ℤ) := zpow_le_zpow_right₀ (by norm_num) (by omega)
      _ = 2 ^ 53 := by norm_num
  · have hlast : lastExponent m e = m.log2 + 1 + e - 53 :=
      (max_choice _ _).resolve_right hne
    have hm0 : m ≠ 0 := by
      rintro rfl
      rw [Nat.log2_zero, Nat.cast_zero] at hlast
      omega
    have ht : (2 : ℚ) ^ (m.log2 : ℤ) ≤ t := by
      have hlog : 2 ^ m.log2 ≤ m := Nat.log2_self_le hm0
      rw [zpow_natCast]
      exact le_trans (by exact_mod_cast hlog) hlower
    calc (2 : ℚ) ^ 52 = 2 ^ ((m.log2 : ℤ) + (e - lastExponent m e)) := by
          rw [hlast, ← zpow_natCast]
          congr 1
          push_cast
          ring
      _ = 2 ^ (m.log2 : ℤ) * 2 ^ (e - lastExponent m e) := zpow_add₀ (by norm_num) _ _
      _ ≤ t * 2 ^ (e - lastExponent m e) := mul_le_mul_of_nonneg_right ht hpos.le

/-! ## Packing -/

/-- The low 63 bits of a double, which are its position among the doubles that are not negative. -/
def position (x : Float) : Nat := Binary.exponentField x.toBits * 2 ^ 52 + Binary.fraction x.toBits

/-- The position of an infinity. -/
def infinitePosition : Nat := 2047 * 2 ^ 52

theorem isFinite_iff {x : Float} : isFinite x = true ↔ position x < infinitePosition := by
  have hfield : Binary.exponentField x.toBits < 2 ^ 11 := Nat.mod_lt _ (by decide)
  have hfraction : Binary.fraction x.toBits < 2 ^ 52 := Nat.mod_lt _ (by decide)
  rw [isFinite, bne_iff_ne, position, infinitePosition]
  omega

theorem ofBits_toBits (x : Float) : Binary.ofBits x.toBits = Binary.ofPosition (position x) :=
  Binary.ofBits_eq_ofPosition x.toBits

theorem eq_of_position {x y : Float} (hsign : isNegative x = isNegative y)
    (h : position x = position y) : x = y := by
  have hx : Binary.fraction x.toBits < 2 ^ 52 := Nat.mod_lt _ (by decide)
  have hy : Binary.fraction y.toBits < 2 ^ 52 := Nat.mod_lt _ (by decide)
  rw [position, position] at h
  exact eq_of_fields hsign (by omega) (by omega)

/-- The double that is packed. -/
def packed (u : Float.Model.UnpackedFloat) : Float := .ofModel (.pack u)

theorem word_packed (u : Float.Model.UnpackedFloat) :
    word (packed u) = pack Format.binary64 u := rfl

/-- The fields of packed components. -/
theorem fields_of_components {x : Float} {sign : Sign} {e : BitVec 11} {f : BitVec 52}
    (h : word x = packComponents Format.binary64 sign e f) :
    position x = e.toNat * 2 ^ 52 + f.toNat ∧ isNegative x = (sign.toBitVec.toNat == 1) := by
  have hsign : isNegative x = ((unpackSign (word x)).toNat == 1) := by
    rw [toNat_unpackSign]
    rfl
  rw [position, ← toNat_unpackExponent, ← toNat_unpackMantissa, hsign, h,
    unpackExponent_packComponents, unpackMantissa_packComponents, unpackSign_packComponents]
  exact ⟨rfl, rfl⟩

/-- Digits of a double and their exponent, packed. An exponent that is too great makes an infinity. -/
theorem packed_finite (sign : Sign) {m : Nat} {e : ℤ} (hm : 0 < m) (hlt : m < 2 ^ 53)
    (he : -1074 ≤ e) (hnormal : e ≠ -1074 → 2 ^ 52 ≤ m) :
    position (packed (.finite sign m e hm)) =
        min ((e + 1074).toNat * 2 ^ 52 + m) infinitePosition ∧
      isNegative (packed (.finite sign m e hm)) = (sign.toBitVec.toNat == 1) := by
  have hbiased : (e + Format.binary64.exponentBias +
      Format.binary64.mantissaBitsWithoutImplicit).toNat = (e + 1075).toNat := by
    change (e + 1023 + 52).toNat = _
    omega
  have hword := word_packed (.finite sign m e hm)
  simp only [pack] at hword
  rw [hbiased] at hword
  by_cases hinfinite : 2 ^ Format.binary64.exponentBits ≤ (e + 1075).toNat + 1
  · rw [if_pos hinfinite] at hword
    have hfields := fields_of_components hword
    refine ⟨?_, hfields.2⟩
    rw [hfields.1, infinitePosition]
    change 2048 ≤ _ at hinfinite
    change 2047 * 2 ^ 52 + 0 = _
    have hm := hnormal (by omega)
    omega
  · rw [if_neg hinfinite] at hword
    change ¬ 2048 ≤ _ at hinfinite
    by_cases hlog : m.log2 + 1 = Format.binary64.mantissaBits
    · rw [if_pos hlog] at hword
      have hfields := fields_of_components hword
      refine ⟨?_, hfields.2⟩
      have hlower : 2 ^ 52 ≤ m := by
        have hself := Nat.log2_self_le hm.ne'
        change m.log2 + 1 = 53 at hlog
        rwa [show m.log2 = 52 by omega] at hself
      clear hlog hbiased
      rw [hfields.1, infinitePosition, BitVec.toNat_ofNat, BitVec.toNat_ofNat]
      change (e + 1075).toNat % 2 ^ 11 * 2 ^ 52 + m % 2 ^ 52 = _
      omega
    · rw [if_neg hlog] at hword
      have hfields := fields_of_components hword
      refine ⟨?_, hfields.2⟩
      have hupper : m < 2 ^ 52 := by
        by_contra hge
        have hlower : 52 ≤ m.log2 := (Nat.le_log2 hm.ne').2 (by omega)
        have hupper : m.log2 < 53 := (Nat.log2_lt hm.ne').2 hlt
        exact hlog (show m.log2 + 1 = 53 by omega)
      have he : e = -1074 := by
        by_contra hne
        exact absurd (hnormal hne) (by omega)
      rw [hfields.1, infinitePosition, BitVec.toNat_ofNat, he]
      change 0 * 2 ^ 52 + m % 2 ^ 52 = _
      omega

theorem packed_zero (sign : Sign) : position (packed (.zero sign)) = 0 ∧
    isNegative (packed (.zero sign)) = (sign.toBitVec.toNat == 1) :=
  fields_of_components (word_packed (.zero sign))

/-! ## Rounded results -/

/-- The ends of a rounding interval in units of the significand. -/
theorem roundsTo_mul_iff (b : Binary) (t : ℚ) :
    b.RoundsTo (t * 2 ^ b.exponent) ↔
      if b.significand % 2 = 0 then b.lowerQuarters ≤ 4 * t ∧ 4 * t ≤ b.upperQuarters
      else b.lowerQuarters < 4 * t ∧ 4 * t < b.upperQuarters := by
  have hpos : (0 : ℚ) < 2 ^ (b.exponent - 2) := by positivity
  have hpow : t * 2 ^ b.exponent = 4 * t * 2 ^ (b.exponent - 2) := by
    rw [zpow_sub₀ (by norm_num)]
    norm_num
    ring
  rw [Binary.RoundsTo, Binary.lower, Binary.upper, hpow]
  simp only [mul_le_mul_iff_left₀ hpos, mul_lt_mul_iff_left₀ hpos]

/-- A nearest mantissa, where no less is rounded up to the least mantissa of an exponent. -/
theorem roundsTo_of_isNearestNat {b : Binary} {t : ℚ} (hr : IsNearestNat b.significand t)
    (hpos : 0 ≤ t) (hnarrow : b.narrowBelow = true → b.significand ≤ t) :
    b.RoundsTo (t * 2 ^ b.exponent) := by
  have hupper : (b.upperQuarters : ℚ) = 4 * b.significand + 2 := by
    rw [Binary.upperQuarters]
    push_cast
    rfl
  rw [roundsTo_mul_iff, hupper]
  unfold IsNearestNat at hr
  rcases Nat.eq_zero_or_pos b.significand with hzero | hsig
  · have hlower : b.lowerQuarters = 0 := by
      rw [Binary.lowerQuarters, hzero]
      split <;> rfl
    rw [hzero] at hr ⊢
    rw [if_pos rfl] at hr ⊢
    rw [hlower]
    push_cast at hr ⊢
    constructor <;> linarith
  · cases hb : b.narrowBelow with
    | false =>
      have hlower : (b.lowerQuarters : ℚ) = 4 * b.significand - 2 := by
        rw [Binary.lowerQuarters, hb, Nat.cast_sub (by simp; omega)]
        push_cast
        rfl
      rw [hlower]
      split_ifs at hr ⊢
      · constructor <;> linarith
      · constructor <;> linarith
    | true =>
      have hlower : (b.lowerQuarters : ℚ) = 4 * b.significand - 1 := by
        rw [Binary.lowerQuarters, hb, Nat.cast_sub (by simp; omega)]
        push_cast
        rfl
      have hge := hnarrow hb
      rw [hlower]
      split_ifs at hr ⊢
      · constructor <;> linarith
      · constructor <;> linarith

/-- A mantissa in front of its exponent is a position. -/
theorem roundsTo_ofPosition {k r : Nat} {t : ℚ} (hr : IsNearestNat r t) (hpos : 0 ≤ t)
    (hlt : t < 2 ^ 53) (hnormal : k ≠ 0 → 2 ^ 52 ≤ t) :
    (Binary.ofPosition (k * 2 ^ 52 + r)).RoundsTo (t * 2 ^ ((k : ℤ) - 1074)) := by
  have hbounds := hr.bounds
  have hle : r ≤ 2 ^ 53 := by
    have hcast : (r : ℚ) < 2 ^ 53 + 1 := by linarith [hbounds.1]
    exact_mod_cast Nat.lt_succ_iff.mp (by exact_mod_cast hcast)
  rcases Nat.lt_or_ge r (2 ^ 52) with hsmall | hlarge
  · -- Fewer digits stand at the least exponent only.
    have hk : k = 0 := by
      by_contra hk
      have hge := hnormal hk
      have hcast : (r : ℚ) + 1 ≤ 2 ^ 52 := by exact_mod_cast hsmall
      linarith [hbounds.2]
    subst hk
    rw [Binary.ofPosition_of_lt hsmall, if_pos rfl]
    exact roundsTo_of_isNearestNat (b := ⟨r, -1074, false⟩) hr hpos (fun h => by cases h)
  · rcases hle.lt_or_eq with hlt' | rfl
    · obtain ⟨f, rfl⟩ := Nat.exists_eq_add_of_le hlarge
      have hposition : k * 2 ^ 52 + (2 ^ 52 + f) = (k + 1) * 2 ^ 52 + f := by ring
      have hexponent : (k : ℤ) - 1074 = Int.ofNat (k + 1) - 1075 := by
        simp only [Int.ofNat_eq_natCast]
        omega
      rw [hposition, Binary.ofPosition_of_lt (by omega), if_neg (Nat.succ_ne_zero k), hexponent]
      refine roundsTo_of_isNearestNat
        (b := ⟨2 ^ 52 + f, Int.ofNat (k + 1) - 1075, f == 0 && 1 < k + 1⟩) hr hpos fun h => ?_
      obtain ⟨hf, hk⟩ : f = 0 ∧ 1 < k + 1 := by simpa using h
      subst hf
      exact_mod_cast hnormal (by omega)
    · -- One more digit makes the least mantissa of the next exponent.
      have hposition : k * 2 ^ 52 + 2 ^ 53 = (k + 2) * 2 ^ 52 + 0 := by ring
      have hscale : t * 2 ^ ((k : ℤ) - 1074) = t / 2 * 2 ^ (Int.ofNat (k + 2) - 1075) := by
        have hexponent : Int.ofNat (k + 2) - 1075 = (k : ℤ) - 1074 + 1 := by
          simp only [Int.ofNat_eq_natCast]
          omega
        rw [hexponent, zpow_add_one₀ (by norm_num)]
        ring
      rw [hposition, Binary.ofPosition_of_lt (by decide), if_neg (by omega), hscale]
      refine (roundsTo_mul_iff
        ⟨2 ^ 52 + 0, Int.ofNat (k + 2) - 1075, (0 : ℕ) == 0 && 1 < k + 2⟩ (t / 2)).mpr ?_
      have hnarrow : ((0 : ℕ) == 0 && decide (1 < k + 2)) = true := by simp
      rw [if_pos (show (2 ^ 52 + 0) % 2 = 0 by norm_num), hnarrow]
      norm_num [Binary.lowerQuarters, Binary.upperQuarters] at hbounds ⊢
      constructor <;> linarith

/-- The double is the one that the number rounds to, or an infinity if that is beyond all doubles. -/
def IsNearest (x : Float) (q : ℚ) : Prop :=
  ∃ p, (Binary.ofPosition p).RoundsTo q ∧ position x = min p infinitePosition

/-- A mantissa that was rounded up to 53 digits and one more is shifted once. -/
theorem shiftToTargetExponent_exact {r : Nat} {e : ℤ} (hr : r ≤ 2 ^ 53) (he : -1074 ≤ e) :
    shiftToTargetExponent Format.binary64 r e .exact =
      if r = 2 ^ 53 then (⟨2 ^ 52, false, false⟩, e + 1) else (⟨r, false, false⟩, e) := by
  rw [shiftToTargetExponent, targetExponent_eq, shiftToExponent]
  split_ifs with htop
  · subst htop
    have hlast : lastExponent (2 ^ 53) e = e + 1 := by
      rw [lastExponent, Nat.log2_two_pow]
      omega
    have hshift : (lastExponent (2 ^ 53) e - e).toNat = 1 := by omega
    rw [hshift]
    rfl
  · have hlog : r.log2 ≤ 52 := by
      rcases Nat.eq_zero_or_pos r with rfl | hpos
      · simp
      · have hlt := (Nat.log2_lt hpos.ne').2 (show r < 2 ^ 53 by omega)
        omega
    have hshift : (lastExponent r e - e).toNat = 0 := by
      rw [lastExponent]
      omega
    rw [hshift, Nat.cast_zero, add_zero]
    rfl

variable {m : Nat} {e : ℤ} {accuracy : Accuracy} (sign : Sign)

/-- Where the packed double stands, if its digits are not too many. -/
theorem packed_round (he : e ≤ lastExponent m e) (hle : lastMantissa m e accuracy ≤ 2 ^ 53)
    (hnormal : lastExponent m e ≠ -1074 → 2 ^ 52 ≤ lastMantissa m e accuracy) :
    position (packed (roundWithAccuracy Format.binary64 sign m e accuracy)) =
        min ((lastExponent m e + 1074).toNat * 2 ^ 52 + lastMantissa m e accuracy)
          infinitePosition ∧
      isNegative (packed (roundWithAccuracy Format.binary64 sign m e accuracy)) =
        (sign.toBitVec.toNat == 1) := by
  have hleast : -1074 ≤ lastExponent m e := le_max_right _ _
  have hfirst : shiftToTargetExponent Format.binary64 m e accuracy =
      (ExtendedMantissa.ofMantissaAndAccuracy m accuracy >>> (lastExponent m e - e).toNat,
        lastExponent m e) := by
    rw [shiftToTargetExponent, targetExponent_eq, shiftToExponent]
    congr 1
    omega
  have hround : roundWithAccuracy Format.binary64 sign m e accuracy =
      if h : (shiftToTargetExponent Format.binary64 (lastMantissa m e accuracy)
          (lastExponent m e) .exact).1.mantissa = 0 then .zero sign
      else .finite sign _ (shiftToTargetExponent Format.binary64 (lastMantissa m e accuracy)
          (lastExponent m e) .exact).2 (Nat.pos_of_ne_zero h) := by
    rw [roundWithAccuracy, hfirst]
    rfl
  rw [hround, shiftToTargetExponent_exact hle hleast]
  generalize lastMantissa m e accuracy = r at hle hnormal ⊢
  generalize lastExponent m e = last at hleast hnormal ⊢
  by_cases htop : r = 2 ^ 53
  · subst htop
    simp only [if_true]
    rw [dif_neg (by decide)]
    obtain ⟨hposition, hsign⟩ := packed_finite sign (e := last + 1)
      (show 0 < 2 ^ 52 by decide) (by decide) (by omega) (fun _ => le_rfl)
    have hsame : (last + 1 + 1074).toNat * 2 ^ 52 + 2 ^ 52 =
        (last + 1074).toNat * 2 ^ 52 + 2 ^ 53 := by omega
    rw [hsame] at hposition
    exact ⟨hposition, hsign⟩
  · simp only [if_neg htop]
    split_ifs with hzero
    · have hlast : last = -1074 := by
        by_contra hne
        exact absurd (hnormal hne) (by omega)
      obtain ⟨hposition, hsign⟩ := packed_zero sign
      refine ⟨?_, hsign⟩
      rw [hposition, hzero, hlast]
      simp
    · exact packed_finite sign (Nat.pos_of_ne_zero hzero) (by omega) hleast hnormal

/-- Cut digits are packed as the double that the exact number rounds to. -/
theorem isNearest_round {t : ℚ} (h : Cuts (.ofMantissaAndAccuracy m accuracy) t)
    (he : e ≤ lastExponent m e) :
    IsNearest (packed (roundWithAccuracy Format.binary64 sign m e accuracy)) (t * 2 ^ e) ∧
      isNegative (packed (roundWithAccuracy Format.binary64 sign m e accuracy)) =
        (sign.toBitVec.toNat == 1) := by
  obtain ⟨hpos, hlt, hnormal⟩ := scaled_bounds h he
  have hnearest := cuts_last h he
  have hbounds := hnearest.bounds
  have hleast : -1074 ≤ lastExponent m e := le_max_right _ _
  have hle : lastMantissa m e accuracy ≤ 2 ^ 53 := by
    have hcast : (lastMantissa m e accuracy : ℚ) < 2 ^ 53 + 1 := by linarith [hbounds.1]
    exact_mod_cast Nat.lt_succ_iff.mp (by exact_mod_cast hcast)
  have hdigits : lastExponent m e ≠ -1074 → 2 ^ 52 ≤ lastMantissa m e accuracy := by
    intro hne
    have hge := hnormal hne
    have hcast : (2 : ℚ) ^ 52 < lastMantissa m e accuracy + 1 := by linarith [hbounds.2]
    exact_mod_cast Nat.lt_succ_iff.mp (by exact_mod_cast hcast)
  obtain ⟨hposition, hsign⟩ := packed_round sign he hle hdigits
  refine ⟨⟨_, ?_, hposition⟩, hsign⟩
  have hrounds := roundsTo_ofPosition (k := (lastExponent m e + 1074).toNat) hnearest hpos hlt
    (fun hk => hnormal (by omega))
  have hpow : t * 2 ^ (e - lastExponent m e) * 2 ^ (((lastExponent m e + 1074).toNat : ℤ) - 1074) =
      t * 2 ^ e := by
    rw [mul_assoc, ← zpow_add₀ (by norm_num)]
    congr 2
    omega
  rwa [hpow] at hrounds

end Decimal
end ScoreTree
