import ScoreTree.Proofs.Decimal.Order
import ScoreTree.Proofs.Decimal.Scaling
import ScoreTree.Proofs.Json.Written

/-!
# Numbers in range

The digits that the reader keeps, with the power of ten that it leaves to them, never exceed the number
(`Number.kept_le`), however many digits this has. Two roundings come before their product, so that every
number is read that is not next to the largest double (`Literal.IsClear.hasValue`).
-/

namespace ScoreTree
namespace Json

/-! ## Range -/

/-- The largest double. -/
def largestDouble : Nat := (Nat.pow 2 53 - 1) * Nat.pow 2 971

/-- The double two below the largest one. -/
def thirdLargestDouble : Nat := (Nat.pow 2 53 - 3) * Nat.pow 2 971

/-- The size of the number is not above the bound. -/
def Literal.IsAtMost (l : Literal) (bound : Nat) : Prop :=
  Number.ofDigits (l.whole ++ l.fraction.getD []) * Nat.pow 10 l.lastPower.toNat ≤
    bound * Nat.pow 10 (-l.lastPower).toNat

/-- The number is within the range of doubles. -/
def Literal.InDoubleRange (l : Literal) : Prop := l.IsAtMost largestDouble

/-- The number is within the range of doubles, and not next to its end. Exponents are counted in 32
bits, so that the digits after the point must not be too many either. -/
structure Literal.IsClear (l : Literal) : Prop where
  size : l.IsAtMost thirdLargestDouble
  places : (l.fraction.getD []).length + 308 < UInt32.size / 2

theorem cast_thirdLargestDouble :
    (thirdLargestDouble : ℚ) = (2 ^ 53 - 3) * 2 ^ (971 : ℤ) := by
  have hpow : thirdLargestDouble = 9007199254740989 * 2 ^ 971 := by decide +kernel
  rw [hpow, Nat.cast_mul, Nat.cast_pow, Nat.cast_ofNat, Nat.cast_ofNat, zpow_ofNat]
  norm_num

theorem thirdLargestDouble_lt : (thirdLargestDouble : ℚ) < 10 ^ (309 : ℤ) := by
  have hlt : thirdLargestDouble < 10 ^ 309 := by decide +kernel
  rw [zpow_ofNat]
  exact_mod_cast hlt

theorem Literal.IsAtMost.value_le {l : Literal} {bound : Nat} (h : l.IsAtMost bound) :
    l.decimal.value ≤ bound := by
  have hcast : ((l.decimal.coefficient * 10 ^ l.lastPower.toNat : ℕ) : ℚ) ≤
      (bound * 10 ^ (-l.lastPower).toNat : ℕ) := Nat.cast_le.mpr h
  rw [Nat.cast_mul, Nat.cast_mul, Nat.cast_pow, Nat.cast_pow, Nat.cast_ofNat, ← zpow_natCast,
    ← zpow_natCast] at hcast
  have hsplit : l.lastPower = l.lastPower.toNat - (-l.lastPower).toNat := by omega
  change (l.decimal.coefficient : ℚ) * 10 ^ l.lastPower ≤ bound
  rw [hsplit, zpow_sub₀ (by norm_num), ← mul_div_assoc, div_le_iff₀ (by positivity)]
  exact hcast

/-! ## Digits that are kept -/

namespace Number

theorem ofDigits_cons (d : Nat) (ds : List Nat) :
    ofDigits (d :: ds) = d * 10 ^ ds.length + ofDigits ds := by
  have hfirst : ofDigits [d] = d := Nat.zero_add d
  have happend := ofDigits_append [d] ds
  rwa [List.singleton_append, hfirst] at happend

/-- Digits are taken to a number until one does not fit. -/
structure IsKept (s : Nat) (taken left : List Nat) (s' : Nat) : Prop where
  value : s' = s * 10 ^ taken.length + ofDigits taken
  fits : s < UInt64.size → s' < UInt64.size
  full : ∀ d ∈ left.head?, UInt64.size ≤ s' * 10 + d

theorem exists_isKept (s : Nat) (ds : List Nat) :
    ∃ taken left s', ds = taken ++ left ∧ absorb s ds = (s', left) ∧ IsKept s taken left s' := by
  induction ds generalizing s with
  | nil => exact ⟨[], [], s, rfl, rfl, by simp [ofDigits], id, by simp⟩
  | cons d ds ih =>
    by_cases hfits : s * 10 + d < UInt64.size
    · obtain ⟨taken, left, s', hds, habsorb, h⟩ := ih (s * 10 + d)
      refine ⟨d :: taken, left, s', by rw [hds, List.cons_append], ?_, ?_, fun _ => h.fits hfits,
        h.full⟩
      · rw [absorb, if_pos hfits, habsorb]
      · rw [h.value, ofDigits_cons, List.length_cons, pow_succ]
        ring
    · refine ⟨[], d :: ds, s, rfl, by rw [absorb, if_neg hfits], by simp [ofDigits], id, ?_⟩
      simpa using Nat.le_of_not_lt hfits

/-- The digits that are left out stand behind the ones that are kept. -/
theorem IsKept.total {s s' : Nat} {taken left : List Nat} (h : IsKept s taken left s') :
    s' * 10 ^ left.length + ofDigits left =
      s * 10 ^ (taken ++ left).length + ofDigits (taken ++ left) := by
  rw [h.value, ofDigits_append, List.length_append, pow_add]
  ring

/-- With the first digit that is left out there are too many digits. -/
theorem IsKept.overflow {s s' d : Nat} {taken rest : List Nat}
    (h : IsKept s taken (d :: rest) s') :
    UInt64.size ≤ s' * 10 + d ∧
      (s' * 10 + d) * 10 ^ rest.length ≤
        s * 10 ^ (taken ++ d :: rest).length + ofDigits (taken ++ d :: rest) := by
  refine ⟨h.full d rfl, ?_⟩
  rw [← h.total, ofDigits_cons, List.length_cons, pow_succ]
  calc (s' * 10 + d) * 10 ^ rest.length
      = s' * (10 ^ rest.length * 10) + d * 10 ^ rest.length := by ring
    _ ≤ _ := by omega

/-- Digits that fit 64 bits are kept. -/
theorem absorb_eq {ds : List Nat} {s : Nat}
    (hfits : s * 10 ^ ds.length + ofDigits ds < UInt64.size) :
    absorb s ds = (s * 10 ^ ds.length + ofDigits ds, []) := by
  obtain ⟨taken, left, s', rfl, habsorb, h⟩ := exists_isKept s ds
  cases left with
  | nil => rw [habsorb, h.value, List.append_nil]
  | cons d rest =>
    obtain ⟨hmany, hle⟩ := h.overflow
    have hge : s' * 10 + d ≤ (s' * 10 + d) * 10 ^ rest.length :=
      Nat.le_mul_of_pos_right _ (by positivity)
    omega

/-- Digits on both sides of a point are kept together. -/
theorem absorb_append {whole fraction : List Nat}
    (hfits : ofDigits (whole ++ fraction) < UInt64.size) :
    absorb 0 whole = (ofDigits whole, []) ∧
      absorb (ofDigits whole) fraction = (ofDigits (whole ++ fraction), []) := by
  rw [ofDigits_append] at hfits ⊢
  have hwhole := @absorb_eq whole 0
  rw [zero_mul, zero_add] at hwhole
  refine ⟨hwhole (lt_of_le_of_lt ?_ hfits), absorb_eq hfits⟩
  exact (Nat.le_mul_of_pos_right _ (by positivity)).trans (Nat.le_add_right _ _)

/-- The digits that are kept do not exceed the number. Digits after the point may follow where a digit
before it did not fit, but then they are smaller than that digit. -/
theorem kept_le {s s' : Nat} {whole fraction left left' : List Nat}
    (hwhole : absorb 0 whole = (s, left)) (hfraction : absorb s fraction = (s', left')) :
    s' < UInt64.size ∧ left'.length ≤ fraction.length ∧
      s' * 10 ^ (left.length + left'.length) ≤ ofDigits (whole ++ fraction) := by
  obtain ⟨taken, left₁, s₁, rfl, habsorb, h⟩ := exists_isKept 0 whole
  rw [habsorb] at hwhole
  obtain ⟨rfl, rfl⟩ := Prod.mk.inj hwhole
  obtain ⟨taken', left₂, s₂, rfl, habsorb', h'⟩ := exists_isKept s₁ fraction
  rw [habsorb'] at hfraction
  obtain ⟨rfl, rfl⟩ := Prod.mk.inj hfraction
  have hfits := h'.fits (h.fits (by decide))
  have htotal := h'.total
  refine ⟨hfits, by simp, ?_⟩
  rw [ofDigits_append]
  cases left₁ with
  | nil =>
    have hvalue : ofDigits (taken ++ []) = s₁ := by simp [h.value]
    rw [hvalue, ← htotal, List.length_nil, zero_add]
    exact Nat.le_add_right _ _
  | cons d rest =>
    obtain ⟨hmany, hle⟩ := h.overflow
    rw [zero_mul, zero_add] at hle
    have hstep : s₂ * 10 ≤ (s₁ * 10 + d) * 10 ^ taken'.length := by
      cases taken' with
      | nil =>
        have hsame : s₂ = s₁ := by simp [h'.value, ofDigits]
        simp [hsame]
      | cons e taken' =>
        rw [List.length_cons, pow_succ, ← mul_assoc]
        refine Nat.mul_le_mul_right 10 ((hfits.le.trans hmany).trans ?_)
        exact Nat.le_mul_of_pos_right _ (by positivity)
    calc s₂ * 10 ^ ((d :: rest).length + left₂.length)
        = s₂ * 10 * (10 ^ rest.length * 10 ^ left₂.length) := by
          rw [List.length_cons, pow_add, pow_succ]
          ring
      _ ≤ (s₁ * 10 + d) * 10 ^ taken'.length * (10 ^ rest.length * 10 ^ left₂.length) :=
          Nat.mul_le_mul_right _ hstep
      _ = (s₁ * 10 + d) * 10 ^ rest.length * 10 ^ (taken' ++ left₂).length := by
          rw [List.length_append, pow_add]
          ring
      _ ≤ ofDigits (taken ++ d :: rest) * 10 ^ (taken' ++ left₂).length :=
          Nat.mul_le_mul_right _ hle
      _ ≤ _ := Nat.le_add_right _ _

/-- The exponent that the reader leaves to the digits, next to a written one. -/
theorem kept_mul_le {s s' : Nat} {whole fraction left left' : List Nat}
    (hwhole : absorb 0 whole = (s, left)) (hfraction : absorb s fraction = (s', left')) (n : ℤ) :
    (s' : ℚ) * 10 ^ (Int.ofNat left.length - Int.ofNat (fraction.length - left'.length) + n) ≤
      ofDigits (whole ++ fraction) * 10 ^ (n - Int.ofNat fraction.length) := by
  obtain ⟨-, hlength, hle⟩ := kept_le hwhole hfraction
  have hexponent : Int.ofNat left.length - Int.ofNat (fraction.length - left'.length) + n =
      (left.length + left'.length : ℕ) + (n - Int.ofNat fraction.length) := by
    simp only [Int.ofNat_eq_natCast]
    omega
  have hcast : (s' : ℚ) * 10 ^ (left.length + left'.length) ≤ ofDigits (whole ++ fraction) := by
    exact_mod_cast hle
  rw [hexponent, zpow_add₀ (by norm_num), zpow_natCast, ← mul_assoc]
  exact mul_le_mul_of_nonneg_right hcast (by positivity)

/-! ## Scaling in range -/

/-- A power of ten with a multiple below the largest doubles is a double. -/
theorem power_le_of_le {s : Nat} {e : ℤ} (hs : s ≠ 0) (hle : (s : ℚ) * 10 ^ e ≤ thirdLargestDouble) :
    e ≤ 308 := by
  have hone : (1 : ℚ) ≤ s := Nat.one_le_cast.mpr (Nat.pos_of_ne_zero hs)
  have hpower : (10 : ℚ) ^ e < 10 ^ (309 : ℤ) :=
    calc (10 : ℚ) ^ e ≤ s * 10 ^ e := le_mul_of_one_le_left (by positivity) hone
      _ ≤ thirdLargestDouble := hle
      _ < 10 ^ (309 : ℤ) := thirdLargestDouble_lt
  have hlt := (zpow_lt_zpow_iff_right₀ (by norm_num)).mp hpower
  omega

/-- Digits are scaled to a double below the largest ones. -/
theorem exists_scale {s : Nat} {e : ℤ} (hmany : s < UInt64.size)
    (hle : (s : ℚ) * 10 ^ e ≤ thirdLargestDouble) : ∃ x, scale s e = .ok x := by
  unfold scale
  dsimp only
  split_ifs with hneg hgreat hinf hzero
  · exact ⟨_, rfl⟩
  · obtain ⟨k, rfl⟩ := Int.eq_ofNat_of_zero_le (not_lt.mp hneg)
    rw [zpow_natCast, cast_thirdLargestDouble] at hle
    have hfinite := Decimal.position_product_lt hmany (show k ≤ 308 by omega) hle
    rw [Int.natAbs_natCast, Decimal.isInf_eq_false hfinite] at hinf
    exact absurd hinf Bool.false_ne_true
  · exact ⟨_, rfl⟩
  · exact ⟨_, rfl⟩
  · have hs : s ≠ 0 := by
      rintro rfl
      exact hzero rfl
    exact absurd hgreat (not_not.mpr (power_le_of_le hs hle))

end Number

namespace Literal

open Number

section Kept

variable {l : Literal} {s s' : Nat} {left left' : List Nat} (hwhole : absorb 0 l.whole = (s, left))
  (hfraction : absorb s (l.fraction.getD []) = (s', left'))

include hwhole hfraction

/-- The digits that are kept are scaled, next to an exponent that fits. -/
theorem toFloat_of_fits (hpower : ∀ e ∈ l.exponent, ofDigits e.2 < UInt32.size / 2) :
    l.toFloat = (scale s' (Int.ofNat left.length -
      Int.ofNat ((l.fraction.getD []).length - left'.length) + l.writtenPower)).map
        (signed l.negative) := by
  obtain ⟨negative, whole, fraction, exponent⟩ := l
  dsimp only at hwhole hfraction hpower
  rw [toFloat, writtenPower, hwhole]
  dsimp only
  rw [hfraction]
  dsimp only
  cases exponent with
  | none =>
    dsimp only
    rw [add_zero]
    rfl
  | some e =>
    obtain ⟨sign, ds⟩ := e
    have hds := hpower _ rfl
    cases sign with
    | true =>
      dsimp only at hds ⊢
      rw [if_pos hds, if_pos rfl, sub_eq_add_neg _ (ofDigits ds : Int)]
      rfl
    | false =>
      dsimp only at hds ⊢
      rw [if_pos hds, if_neg Bool.false_ne_true]
      rfl

/-- An exponent that does not fit makes a number zero, unless it is to make it greater. -/
theorem toFloat_of_exceeds {e : Bool × List Nat} (he : l.exponent = some e)
    (hgreat : UInt32.size / 2 ≤ ofDigits e.2) (hzero : e.1 = false → s' = 0) :
    l.toFloat = .ok (signed l.negative 0.0) := by
  obtain ⟨negative, whole, fraction, exponent⟩ := l
  obtain ⟨sign, ds⟩ := e
  dsimp only at hwhole hfraction he hgreat hzero
  rw [toFloat, hwhole]
  dsimp only
  rw [hfraction, he]
  dsimp only
  rw [if_neg (not_lt_of_ge hgreat), if_neg fun h => h.1 (hzero h.2)]
  rfl

end Kept

theorem IsClear.exists_toFloat {l : Literal} (h : l.IsClear) : ∃ x, l.toFloat = .ok x := by
  rcases hwhole : absorb 0 l.whole with ⟨s, left⟩
  rcases hfraction : absorb s (l.fraction.getD []) with ⟨s', left'⟩
  obtain ⟨hmany, -, hle⟩ := kept_le hwhole hfraction
  have hvalue : (l.decimal.coefficient : ℚ) *
      10 ^ (l.writtenPower - Int.ofNat (l.fraction.getD []).length) ≤ thirdLargestDouble :=
    h.size.value_le
  by_cases hpower : ∀ e ∈ l.exponent, ofDigits e.2 < UInt32.size / 2
  · obtain ⟨x, hx⟩ :=
      exists_scale hmany ((kept_mul_le hwhole hfraction l.writtenPower).trans hvalue)
    exact ⟨signed l.negative x, by rw [toFloat_of_fits hwhole hfraction hpower, hx]; rfl⟩
  · push Not at hpower
    obtain ⟨⟨sign, ds⟩, he, hgreat⟩ := hpower
    refine ⟨_, toFloat_of_exceeds hwhole hfraction he hgreat ?_⟩
    rintro rfl
    -- So great a power is met by as many digits after the point, or by no digits at all.
    by_contra hne
    have hcoefficient : l.decimal.coefficient ≠ 0 := by
      have hpos : 0 < s' * 10 ^ (left.length + left'.length) := by positivity
      exact (hpos.trans_le hle).ne'
    have hplaces := h.places
    have hlast := power_le_of_le hcoefficient hvalue
    rw [writtenPower, he] at hlast
    simp only [Int.ofNat_eq_natCast] at hlast hgreat
    omega

/-- A number that is not next to the end of the range is read, however it is written. -/
theorem IsClear.hasValue {l : Literal} (h : l.IsClear) : l.HasValue := by
  unfold HasValue value
  dsimp only
  split_ifs
  · exact ⟨_, rfl⟩
  · exact ⟨_, rfl⟩
  · obtain ⟨x, hx⟩ := h.exists_toFloat
    exact ⟨.float x, by rw [hx]; rfl⟩

end Literal
end Json
end ScoreTree
