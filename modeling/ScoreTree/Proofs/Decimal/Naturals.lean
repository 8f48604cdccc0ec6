import ScoreTree.Proofs.Decimal.Scaling

/-!
# Natural numbers as doubles

Up to `2 ^ 53` every natural number is a double exactly (`isExactly_ofNat`), and such a double is read
back as the number that it is (`IsExactly.toNat_toUInt64`). Beyond, neighbours share a double.
-/

namespace ScoreTree
namespace Decimal

open Float.Model (Format)
open Float.Model.UnpackedFloat

/-- The double is the natural number, without a rounding: finite, with a positive sign, and of its
size. -/
structure IsExactly (x : Float) (k : Nat) : Prop where
  finite : isFinite x = true
  sign : isNegative x = false
  size_eq : size x = k

theorem size_eq_zero_iff {x : Float} : size x = 0 ↔ position x = 0 := by
  constructor
  · intro hsize
    by_contra hne
    have hsig := significand_pos (Nat.pos_of_ne_zero hne)
    have hpos : 0 < size x := by
      unfold size Binary.value
      positivity
    exact hpos.ne' hsize
  · intro hposition
    simp [size, hposition, Binary.ofPosition, Binary.value]

theorem isExactly_zero : IsExactly (Float.ofNat 0) 0 where
  finite := by decide +kernel
  sign := by decide +kernel
  size_eq := by
    rw [Nat.cast_zero, size_eq_zero_iff]
    decide +kernel

theorem size_ofNat_of_le {k : Nat} (hpos : 0 < k) (h : k ≤ 2 ^ 53) : size (Float.ofNat k) = k := by
  rcases h.lt_or_eq with hlt | rfl
  · exact size_ofNat hpos hlt
  · -- The first number of 54 digits is a power of two, and has a single digit as such.
    have hnearest := (isNearest_ofNat hpos).1
    have hpower : ((2 ^ 53 : ℕ) : ℚ) = (1 : ℕ) * 2 ^ (53 : ℤ) := by norm_num
    rw [hpower] at hnearest ⊢
    exact hnearest.size_eq (isPositive_ofNat hpos (by norm_num)) one_pos (by norm_num) (by norm_num)

theorem isExactly_ofNat {k : Nat} (h : k ≤ 2 ^ 53) : IsExactly (Float.ofNat k) k := by
  rcases Nat.eq_zero_or_pos k with rfl | hpos
  · exact isExactly_zero
  · have hpositive := isPositive_ofNat hpos (h.trans_lt (by norm_num))
    exact ⟨isFinite_iff.mpr hpositive.finite, hpositive.sign, size_ofNat_of_le hpos h⟩

/-- The next number has no double of its own. -/
example : (Float.ofNat (2 ^ 53 + 1)).toBits = (Float.ofNat (2 ^ 53)).toBits := by decide +kernel

/-! ## Reading back -/

/-- What is cut off from a number that is whole is nothing. -/
theorem Cuts.mantissa_eq {em : ExtendedMantissa} {k : Nat} (h : Cuts em k) : em.mantissa = k := by
  obtain ⟨m, r, s⟩ := em
  have hbounds : (m : ℚ) ≤ k ∧ (k : ℚ) < m + 1 := by
    cases r <;> cases s <;> simp only [Cuts] at h <;> constructor <;> linarith
  have hle : m ≤ k := by exact_mod_cast hbounds.1
  have hlt : k < m + 1 := by exact_mod_cast hbounds.2
  change m = k
  omega

theorem roundToInt_of_eq {m k : Nat} {e : ℤ} (h : (m : ℚ) * 2 ^ e = k) :
    roundToInt .positive m e = k := by
  unfold roundToInt decreaseExponent shiftToExponent
  rcases le_total 0 e with he | he
  · -- Digits to the left of the point are appended as zeros.
    obtain ⟨n, rfl⟩ := Int.eq_ofNat_of_zero_le he
    have hk : m * 2 ^ n = k := by exact_mod_cast h
    simp [Sign.apply, Nat.shiftLeft_eq, hk, ExtendedMantissa.ofMantissaAndAccuracy,
      HShiftRight.hShiftRight, Nat.repeat]
  · obtain ⟨n, hn⟩ := Int.eq_ofNat_of_zero_le (neg_nonneg.mpr he)
    obtain rfl : e = -(n : ℤ) := by omega
    have hcut : Cuts (ExtendedMantissa.ofMantissaAndAccuracy m .exact >>> n) k := by
      rw [← h, zpow_neg, zpow_natCast, ← div_eq_mul_inv]
      exact (cuts_exact m).shiftRight n
    have hmantissa := hcut.mantissa_eq
    simp [Sign.apply, hmantissa]

theorem IsExactly.toInt_unpack {x : Float} {k : Nat} (h : IsExactly x k) (low high : ℤ) :
    toInt low high (unpack Format.binary64 (word x)) = k := by
  rcases Nat.eq_zero_or_pos k with rfl | hpos
  · have hposition : position x = 0 := size_eq_zero_iff.mp (by rw [h.size_eq, Nat.cast_zero])
    have hzero : x = Float.ofNat 0 := eq_of_position (by rw [h.sign]; decide +kernel)
      (by rw [hposition]; decide +kernel)
    rw [hzero]
    rfl
  · have hposition : 0 < position x := by
      refine Nat.pos_of_ne_zero fun hzero => ?_
      rw [← size_eq_zero_iff, h.size_eq, Nat.cast_eq_zero] at hzero
      exact hpos.ne' hzero
    rw [unpack_of_isPositive ⟨h.sign, hposition, isFinite_iff.mp h.finite⟩]
    exact roundToInt_of_eq h.size_eq

/-- A double that is a natural number is read back as this number. -/
theorem IsExactly.toNat_toUInt64 {x : Float} {k : Nat} (h : IsExactly x k) (hk : k < 2 ^ 64) :
    x.toUInt64.toNat = k := by
  have hread : x.toUInt64 =
      UInt64.ofNatClamp (toInt 0 (UInt64.size - 1) (unpack Format.binary64 (word x))).toNat := rfl
  have hsize : k < UInt64.size := hk
  rw [hread, h.toInt_unpack, Int.toNat_natCast, UInt64.ofNatClamp, dif_pos hsize]
  rfl

end Decimal
end ScoreTree
