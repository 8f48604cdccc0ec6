import ScoreTree.Json.Number
import ScoreTree.Proofs.Decimal.Nearest

/-!
# Products and quotients of doubles

A product or quotient of positive doubles is the double nearest to the exact one (`isNearest_mul`,
`isNearest_div`), and so are the double of a natural number (`isNearest_ofNat`) and of a power of ten
(`isNearest_tenPower`).
-/

namespace ScoreTree
namespace Decimal

open Float.Model (Format totalExponent)
open Float.Model.UnpackedFloat

/-- The size of a finite double. -/
def size (x : Float) : ℚ := (Binary.ofPosition (position x)).value

/-- A positive number other than an infinity. -/
structure IsPositive (x : Float) : Prop where
  sign : isNegative x = false
  pos : 0 < position x
  finite : position x < infinitePosition

/-! ## Digits of a double -/

/-- The digits of a double are as many as there can be, unless its exponent is the least. -/
theorem digits_ofPosition (p : Nat) :
    -1074 ≤ (Binary.ofPosition p).exponent ∧
      (2 ^ 52 ≤ (Binary.ofPosition p).significand ∨ (Binary.ofPosition p).exponent = -1074) := by
  unfold Binary.ofPosition
  split
  · exact ⟨le_rfl, .inr rfl⟩
  · rename_i hfield
    refine ⟨?_, .inl (Nat.le_add_right _ _)⟩
    simp only [Int.ofNat_eq_natCast]
    omega

theorem significand_pos {p : Nat} (hp : 0 < p) : 0 < (Binary.ofPosition p).significand := by
  unfold Binary.ofPosition
  split
  · dsimp only
    omega
  · dsimp only
    omega

theorem size_pos {x : Float} (hx : IsPositive x) : 0 < size x := by
  have hsig := significand_pos hx.pos
  unfold size Binary.value
  positivity

theorem ofBitVec_unpackSign {x : Float} (hx : isNegative x = false) :
    Sign.ofBitVec (unpackSign (word x)) = .positive := by
  have hbit : (unpackSign (word x)).toNat ≠ 1 := by
    rw [toNat_unpackSign]
    simpa [isNegative] using hx
  have hzero : unpackSign (word x) = 0#1 := by
    apply BitVec.eq_of_toNat_eq
    have hlt := (unpackSign (word x)).isLt
    rw [BitVec.toNat_zero]
    omega
  rw [hzero]
  rfl

theorem finite_congr {sign : Sign} {m m' : Nat} {e e' : ℤ} {h : 0 < m} {h' : 0 < m'} (hm : m = m')
    (he : e = e') : Float.Model.UnpackedFloat.finite sign m e h = .finite sign m' e' h' := by
  subst hm he
  rfl

theorem unpack_of_finite {x : Float} (hpos : 0 < position x)
    (hlast : position x < infinitePosition) :
    unpack Format.binary64 (word x) =
      .finite (.ofBitVec (unpackSign (word x))) (Binary.ofPosition (position x)).significand
        (Binary.ofPosition (position x)).exponent (significand_pos hpos) := by
  have hfield : (unpackExponent (word x)).toNat = Binary.exponentField x.toBits :=
    toNat_unpackExponent x
  have hfraction : (unpackMantissa (word x)).toNat = Binary.fraction x.toBits :=
    toNat_unpackMantissa x
  have hlt : Binary.fraction x.toBits < 2 ^ 52 := Nat.mod_lt _ (by decide)
  have hfinite : Binary.exponentField x.toBits ≠ 2047 := by
    rw [position, infinitePosition] at hlast
    omega
  have hofPosition := Binary.ofPosition_of_lt (k := Binary.exponentField x.toBits) hlt
  change Binary.ofPosition (position x) = _ at hofPosition
  unfold unpack
  dsimp only
  have hknown : unpackExponent (word x) ≠ -1#11 := by
    intro h
    rw [h] at hfield
    exact hfinite hfield.symm
  rw [if_neg hknown]
  by_cases hzero : Binary.exponentField x.toBits = 0
  · have hexponent : unpackExponent (word x) = 0#11 := BitVec.eq_of_toNat_eq (hfield.trans hzero)
    have hmantissa : unpackMantissa (word x) ≠ 0#52 := by
      intro h
      rw [h] at hfraction
      rw [position, hzero, ← hfraction] at hpos
      exact absurd hpos (by decide)
    rw [if_pos hexponent, dif_neg hmantissa]
    rw [if_pos hzero] at hofPosition
    apply finite_congr
    · rw [hfraction, hofPosition]
    · rw [hofPosition, hexponent]
      rfl
  · have hexponent : unpackExponent (word x) ≠ 0#11 := by
      intro h
      rw [h] at hfield
      exact hzero hfield.symm
    have happend : (1#1 ++ unpackMantissa (word x)).toNat =
        2 ^ 52 + (unpackMantissa (word x)).toNat := by
      rw [BitVec.toNat_append, ← Nat.shiftLeft_add_eq_or_of_lt (unpackMantissa (word x)).isLt]
      rfl
    rw [if_neg hexponent]
    rw [if_neg hzero] at hofPosition
    apply finite_congr
    · rw [hofPosition, happend, hfraction]
    · rw [hofPosition, hfield]
      rfl

theorem unpack_of_isPositive {x : Float} (hx : IsPositive x) :
    unpack Format.binary64 (word x) =
      .finite .positive (Binary.ofPosition (position x)).significand
        (Binary.ofPosition (position x)).exponent (significand_pos hx.pos) := by
  rw [unpack_of_finite hx.pos hx.finite, ofBitVec_unpackSign hx.sign]

/-! ## Products -/

section Product

variable {m n : Nat} {e f : ℤ}

/-- The digits of a product are enough if there are as many as a double has, or the exponent is the
least. -/
theorem add_le_lastExponent (h : 2 ^ 52 ≤ m * n ∨ e + f ≤ -1074) :
    e + f ≤ lastExponent (m * n) (e + f) := by
  rw [lastExponent]
  rcases h with hmany | hleast
  · have hpos := Nat.lt_of_lt_of_le (show 0 < 2 ^ 52 by decide) hmany
    have hlog := (Nat.le_log2 hpos.ne').2 hmany
    omega
  · omega

theorem isNearest_product (hm : 0 < m) (hn : 0 < n) (h : 2 ^ 52 ≤ m * n ∨ e + f ≤ -1074) :
    IsNearest (packed (mul Format.binary64 (.finite .positive m e hm) (.finite .positive n f hn)))
        (m * 2 ^ e * (n * 2 ^ f)) ∧
      isNegative (packed (mul Format.binary64 (.finite .positive m e hm)
        (.finite .positive n f hn))) = false := by
  have hvalue : (m : ℚ) * 2 ^ e * (n * 2 ^ f) = (m * n : ℕ) * 2 ^ (e + f) := by
    rw [zpow_add₀ (by norm_num)]
    push_cast
    ring
  rw [hvalue]
  exact isNearest_round .positive (cuts_exact (m * n)) (add_le_lastExponent h)

end Product

theorem isNearest_mul {x y : Float} (hx : IsPositive x) (hy : IsPositive y) :
    IsNearest (x * y) (size x * size y) ∧ isNegative (x * y) = false := by
  have hmul : x * y = packed (mul Format.binary64 (unpack Format.binary64 (word x))
      (unpack Format.binary64 (word y))) := rfl
  have hxpos := significand_pos hx.pos
  have hypos := significand_pos hy.pos
  rw [hmul, unpack_of_isPositive hx, unpack_of_isPositive hy]
  apply isNearest_product hxpos hypos
  rcases (digits_ofPosition (position x)).2 with hmany | hxleast
  · exact .inl (hmany.trans (Nat.le_mul_of_pos_right _ hypos))
  · rcases (digits_ofPosition (position y)).2 with hmany | hyleast
    · exact .inl (hmany.trans (Nat.le_mul_of_pos_left _ hxpos))
    · exact .inr (by rw [hxleast, hyleast]; decide)

/-! ## Quotients -/

theorem cuts_quotient (m n : Nat) (hn : 0 < n) :
    Cuts (.ofMantissaAndAccuracy (m / n) (accuracyOfFraction (m % n) n)) (m / n) := by
  have hn' : (0 : ℚ) < n := by exact_mod_cast hn
  have hm : (m : ℚ) / n = (m / n : ℕ) + (m % n : ℕ) / n := by
    have hdiv : ((n * (m / n) + m % n : ℕ) : ℚ) = m := by exact_mod_cast Nat.div_add_mod m n
    rw [← hdiv]
    push_cast
    field_simp
  have hlt : ((m % n : ℕ) : ℚ) < n := by exact_mod_cast Nat.mod_lt m hn
  rw [hm, accuracyOfFraction]
  split_ifs with hzero
  · rw [hzero]
    simp [Cuts, ExtendedMantissa.ofMantissaAndAccuracy]
  · have hpos : (0 : ℚ) < (m % n : ℕ) := by exact_mod_cast Nat.pos_of_ne_zero hzero
    have hfraction : 0 < ((m % n : ℕ) : ℚ) / n ∧ ((m % n : ℕ) : ℚ) / n < 1 :=
      ⟨div_pos hpos hn', (div_lt_one hn').mpr hlt⟩
    cases hcompare : compare (2 * (m % n)) n with
    | lt =>
      have hhalf : ((2 * (m % n) : ℕ) : ℚ) < n := by exact_mod_cast Nat.compare_eq_lt.mp hcompare
      push_cast at hhalf
      have hlow : ((m % n : ℕ) : ℚ) / n < 1 / 2 := by
        rw [div_lt_div_iff₀ hn' (by norm_num)]
        linarith
      simp only [Cuts, ExtendedMantissa.ofMantissaAndAccuracy]
      constructor <;> linarith
    | eq =>
      have hhalf : ((2 * (m % n) : ℕ) : ℚ) = n := by exact_mod_cast Nat.compare_eq_eq.mp hcompare
      push_cast at hhalf
      have hmiddle : ((m % n : ℕ) : ℚ) / n = 1 / 2 := by
        rw [div_eq_div_iff hn'.ne' (by norm_num)]
        linarith
      simp only [Cuts, ExtendedMantissa.ofMantissaAndAccuracy]
      linarith
    | gt =>
      have hhalf : (n : ℚ) < (2 * (m % n) : ℕ) := by exact_mod_cast Nat.compare_eq_gt.mp hcompare
      push_cast at hhalf
      have hhigh : 1 / 2 < ((m % n : ℕ) : ℚ) / n := by
        rw [div_lt_div_iff₀ (by norm_num) hn']
        linarith
      simp only [Cuts, ExtendedMantissa.ofMantissaAndAccuracy]
      constructor <;> linarith

section Quotient

variable {m n : Nat} {e f : ℤ}

/-- The exponent of a quotient before it is rounded. -/
def quotientExponent (m : Nat) (e : ℤ) (n : Nat) (f : ℤ) : ℤ :=
  min (e - f) (max (m.log2 + 1 + e - (n.log2 + 1 + f) - 53) (-1074))

/-- The digits of the dividend before the division. -/
def dividend (m : Nat) (e : ℤ) (n : Nat) (f : ℤ) : Nat :=
  m <<< (e - f - quotientExponent m e n f).toNat

theorem dividend_eq (m : Nat) (e : ℤ) (n : Nat) (f : ℤ) :
    (dividend m e n f : ℚ) * 2 ^ quotientExponent m e n f = m * 2 ^ (e - f) := by
  have hle : quotientExponent m e n f ≤ e - f := min_le_left _ _
  rw [dividend, Nat.shiftLeft_eq]
  push_cast
  rw [← zpow_natCast, mul_assoc, ← zpow_add₀ (by norm_num)]
  congr 2
  omega

/-- The digits of a quotient are enough. -/
theorem quotientExponent_le (hm : 0 < m) (hn : 0 < n) :
    quotientExponent m e n f ≤
      lastExponent (dividend m e n f / n) (quotientExponent m e n f) := by
  rcases le_or_gt (quotientExponent m e n f) (-1074) with hleast | hgt
  · exact hleast.trans (le_max_right _ _)
  · have hle : quotientExponent m e n f ≤ m.log2 + 1 + e - (n.log2 + 1 + f) - 53 := by
      rw [quotientExponent] at hgt ⊢
      omega
    have hshift : ((e - f - quotientExponent m e n f).toNat : ℤ) =
        e - f - quotientExponent m e n f := by
      have hmin : quotientExponent m e n f ≤ e - f := min_le_left _ _
      omega
    have hmany : 2 ^ 52 ≤ dividend m e n f / n := by
      rw [Nat.le_div_iff_mul_le hn, dividend, Nat.shiftLeft_eq]
      calc 2 ^ 52 * n ≤ 2 ^ 52 * 2 ^ (n.log2 + 1) := Nat.mul_le_mul_left _ Nat.lt_log2_self.le
        _ = 2 ^ (52 + (n.log2 + 1)) := (pow_add ..).symm
        _ ≤ 2 ^ (m.log2 + (e - f - quotientExponent m e n f).toNat) :=
            Nat.pow_le_pow_right (by decide) (by omega)
        _ = 2 ^ m.log2 * 2 ^ (e - f - quotientExponent m e n f).toNat := pow_add ..
        _ ≤ m * 2 ^ (e - f - quotientExponent m e n f).toNat :=
            Nat.mul_le_mul_right _ (Nat.log2_self_le hm.ne')
    have hpos := Nat.lt_of_lt_of_le (show 0 < 2 ^ 52 by decide) hmany
    have hlog := (Nat.le_log2 hpos.ne').2 hmany
    rw [lastExponent]
    omega

theorem isNearest_quotient (hm : 0 < m) (hn : 0 < n) :
    IsNearest (packed (div Format.binary64 (.finite .positive m e hm) (.finite .positive n f hn)))
        (m * 2 ^ e / (n * 2 ^ f)) ∧
      isNegative (packed (div Format.binary64 (.finite .positive m e hm)
        (.finite .positive n f hn))) = false := by
  have hn' : (n : ℚ) ≠ 0 := by exact_mod_cast hn.ne'
  have hvalue : (m : ℚ) * 2 ^ e / (n * 2 ^ f) =
      (dividend m e n f : ℚ) / n * 2 ^ quotientExponent m e n f := by
    rw [div_mul_eq_mul_div, dividend_eq, zpow_sub₀ (by norm_num)]
    field_simp
  rw [hvalue]
  exact isNearest_round .positive (cuts_quotient (dividend m e n f) n hn)
    (quotientExponent_le hm hn)

end Quotient

theorem isNearest_div {x y : Float} (hx : IsPositive x) (hy : IsPositive y) :
    IsNearest (x / y) (size x / size y) ∧ isNegative (x / y) = false := by
  have hdiv : x / y = packed (div Format.binary64 (unpack Format.binary64 (word x))
      (unpack Format.binary64 (word y))) := rfl
  rw [hdiv, unpack_of_isPositive hx, unpack_of_isPositive hy]
  exact isNearest_quotient (significand_pos hx.pos) (significand_pos hy.pos)

/-! ## Exact results -/

theorem value_ofPosition {k r : Nat} (hlt : r < 2 ^ 53) (hnormal : k ≠ 0 → 2 ^ 52 ≤ r) :
    (Binary.ofPosition (k * 2 ^ 52 + r)).value = r * 2 ^ ((k : ℤ) - 1074) := by
  rcases Nat.lt_or_ge r (2 ^ 52) with hsmall | hlarge
  · have hk : k = 0 := by
      by_contra hk
      exact absurd (hnormal hk) (by omega)
    subst hk
    rw [Binary.ofPosition_of_lt hsmall, if_pos rfl]
    rfl
  · obtain ⟨f, rfl⟩ := Nat.exists_eq_add_of_le hlarge
    have hposition : k * 2 ^ 52 + (2 ^ 52 + f) = (k + 1) * 2 ^ 52 + f := by ring
    have hexponent : Int.ofNat (k + 1) - 1075 = (k : ℤ) - 1074 := by
      simp only [Int.ofNat_eq_natCast]
      omega
    rw [hposition, Binary.ofPosition_of_lt (by omega), if_neg (Nat.succ_ne_zero k), Binary.value]
    dsimp only
    rw [hexponent]

/-- A number of 53 digits is the value of a position. -/
theorem exists_position {m : Nat} {e : ℤ} (hpos : 0 < m) (hlt : m < 2 ^ 53) (he : -1074 ≤ e) :
    ∃ p, 0 < p ∧ (Binary.ofPosition p).value = m * 2 ^ e := by
  have hlog : m.log2 < 53 := (Nat.log2_lt hpos.ne').2 hlt
  have hlast : lastExponent m e ≤ e := by
    rw [lastExponent]
    omega
  have hleast : -1074 ≤ lastExponent m e := le_max_right _ _
  have hself : m < 2 ^ (m.log2 + 1) := Nat.lt_log2_self
  have hdigits : m * 2 ^ (e - lastExponent m e).toNat < 2 ^ 53 := by
    have hle : m.log2 + 1 + (e - lastExponent m e).toNat ≤ 53 := by
      rw [lastExponent]
      omega
    calc m * 2 ^ (e - lastExponent m e).toNat
        < 2 ^ (m.log2 + 1) * 2 ^ (e - lastExponent m e).toNat :=
          Nat.mul_lt_mul_of_pos_right hself (by positivity)
      _ = 2 ^ (m.log2 + 1 + (e - lastExponent m e).toNat) := (pow_add ..).symm
      _ ≤ 2 ^ 53 := Nat.pow_le_pow_right (by decide) hle
  have hnormal : (lastExponent m e + 1074).toNat ≠ 0 →
      2 ^ 52 ≤ m * 2 ^ (e - lastExponent m e).toNat := by
    intro hk
    have hge : 52 ≤ m.log2 + (e - lastExponent m e).toNat := by
      rw [lastExponent] at hk ⊢
      omega
    calc 2 ^ 52 ≤ 2 ^ (m.log2 + (e - lastExponent m e).toNat) :=
          Nat.pow_le_pow_right (by decide) hge
      _ = 2 ^ m.log2 * 2 ^ (e - lastExponent m e).toNat := pow_add ..
      _ ≤ m * 2 ^ (e - lastExponent m e).toNat :=
          Nat.mul_le_mul_right _ (Nat.log2_self_le hpos.ne')
  refine ⟨_, ?_, (value_ofPosition hdigits hnormal).trans ?_⟩
  · have hpos := Nat.mul_pos hpos (show 0 < 2 ^ (e - lastExponent m e).toNat by positivity)
    omega
  · push_cast
    rw [← zpow_natCast, mul_assoc, ← zpow_add₀ (by norm_num)]
    congr 2
    omega

theorem lower_mono {p p' : Nat} (h : p ≤ p') :
    (Binary.ofPosition p).lower ≤ (Binary.ofPosition p').lower := by
  rcases h.lt_or_eq with hlt | rfl
  · obtain ⟨n, rfl⟩ := Nat.exists_eq_add_of_lt hlt
    rw [show p + n + 1 = (p + n) + 1 from rfl, Binary.lower_ofPosition_succ]
    exact (Binary.lower_lt_upper _).le.trans
      (Binary.strictMono_upper_ofPosition.monotone (Nat.le_add_right p n))
  · exact le_rfl

/-- Where infinity begins: halfway from the largest double to the power of two that comes next. -/
theorem lower_infinitePosition :
    (Binary.ofPosition infinitePosition).lower = (2 ^ 54 - 1) * 2 ^ (970 : ℤ) := by
  have hofPosition := Binary.ofPosition_of_lt (k := 2047) (f := 0) (by decide)
  rw [infinitePosition, ← add_zero (2047 * 2 ^ 52), hofPosition, if_neg (by decide)]
  change ((4 * (2 ^ 52 + 0) - 1 : ℕ) : ℚ) * 2 ^ (970 : ℤ) = _
  norm_num

theorem IsNearest.finite {x : Float} {q : ℚ} (h : IsNearest x q)
    (hupper : q < (2 ^ 54 - 1) * 2 ^ (970 : ℤ)) : position x < infinitePosition := by
  obtain ⟨p, hrounds, hposition⟩ := h
  rw [hposition]
  refine (min_le_left _ _).trans_lt (lt_of_not_ge fun hge => ?_)
  have hend := (lower_mono hge).trans hrounds.bounds.1
  rw [lower_infinitePosition] at hend
  exact absurd hupper (not_lt_of_ge hend)

/-- Between the halved least double and the largest ones there is a double to round to. -/
theorem IsNearest.isPositive {x : Float} {q : ℚ} (h : IsNearest x q) (hsign : isNegative x = false)
    (hlower : 2 ^ (-1075 : ℤ) < q) (hupper : q < 2 ^ 1023) : IsPositive x := by
  have hfinite : position x < infinitePosition := by
    refine h.finite (hupper.trans_le ?_)
    calc (2 : ℚ) ^ 1023 = 2 ^ 53 * 2 ^ (970 : ℤ) := by
          rw [zpow_ofNat, ← pow_add]
      _ ≤ (2 ^ 54 - 1) * 2 ^ (970 : ℤ) :=
          mul_le_mul_of_nonneg_right (by norm_num) (by positivity)
  obtain ⟨p, hrounds, hposition⟩ := h
  have hpos : 0 < p := by
    rcases Nat.eq_zero_or_pos p with rfl | hpos
    · have hend : (Binary.ofPosition 0).upper = 2 ^ (-1075 : ℤ) := by
        rw [show (-1075 : ℤ) = 1 + (-1074 - 2) by norm_num, zpow_add₀ (by norm_num), zpow_one]
        rfl
      linarith [hrounds.bounds.2]
    · exact hpos
  exact ⟨hsign, by rw [hposition]; exact lt_min hpos (by decide), hfinite⟩

/-- A number of 53 digits is rounded to itself. -/
theorem IsNearest.size_eq {x : Float} {m : Nat} {e : ℤ} (h : IsNearest x (m * 2 ^ e))
    (hx : IsPositive x) (hpos : 0 < m) (hlt : m < 2 ^ 53) (he : -1074 ≤ e) :
    size x = m * 2 ^ e := by
  obtain ⟨p, hp, hvalue⟩ := exists_position hpos hlt he
  obtain ⟨p', hrounds, hposition⟩ := h
  rw [← hvalue] at hrounds
  obtain rfl := Binary.position_eq_of_roundsTo hrounds
    (Binary.roundsTo_value (significand_pos hp))
  have hfinite := hx.finite
  rw [size, ← hvalue, hposition, min_eq_left]
  rw [hposition] at hfinite
  omega

/-! ## Natural numbers and powers of ten -/

theorem log2_shiftLeft {m : Nat} (hm : 0 < m) (n : Nat) : (m <<< n).log2 = m.log2 + n := by
  induction n with
  | zero => rfl
  | succ n ih =>
    have hne : m <<< n ≠ 0 := by
      rw [Nat.shiftLeft_eq]
      positivity
    rw [Nat.shiftLeft_succ, Nat.log2_two_mul hne, ih]
    rfl

/-- A number is rounded from its exact digits. -/
theorem isNearest_round_exact (sign : Sign) {m : Nat} (hm : 0 < m) (e : ℤ) :
    IsNearest (packed (Float.Model.UnpackedFloat.round Format.binary64 sign m e)) (m * 2 ^ e) ∧
      isNegative (packed (Float.Model.UnpackedFloat.round Format.binary64 sign m e)) =
        (sign.toBitVec.toNat == 1) := by
  rw [Float.Model.UnpackedFloat.round, targetExponent_eq, decreaseExponent]
  dsimp only
  generalize hshift : (e - lastExponent m e).toNat = shift
  have hlast : lastExponent (m <<< shift) (e - shift) = lastExponent m e := by
    rw [lastExponent, lastExponent, log2_shiftLeft hm]
    push_cast
    congr 1
    ring
  have hvalue : (m : ℚ) * 2 ^ e = (m <<< shift : ℕ) * 2 ^ (e - shift) := by
    rw [Nat.shiftLeft_eq]
    push_cast
    rw [← zpow_natCast, mul_assoc, ← zpow_add₀ (by norm_num)]
    congr 2
    ring
  rw [hvalue]
  exact isNearest_round sign (cuts_exact (m <<< shift)) (by omega)

theorem isNearest_ofUInt64 {u : UInt64} (hpos : 0 < u.toNat) :
    IsNearest u.toFloat u.toNat ∧ isNegative u.toFloat = false := by
  have hcompare : compare (u.toNat : ℤ) 0 = .gt := by
    rw [Int.compare_eq_gt]
    exact_mod_cast hpos
  have hfloat : u.toFloat =
      packed (normalize Format.binary64 (u.toNat : ℤ) 0 .positive) := rfl
  have hnormalize : normalize Format.binary64 (u.toNat : ℤ) 0 .positive =
      Float.Model.UnpackedFloat.round Format.binary64 .positive u.toNat 0 := by
    unfold Float.Model.UnpackedFloat.normalize
    rw [hcompare]
    rfl
  have hround := isNearest_round_exact .positive hpos 0
  rw [zpow_zero, mul_one] at hround
  rw [hfloat, hnormalize]
  exact hround

/-- The digits of a decimal with a great enough exponent, multiplied with a power of ten. -/
theorem isNearest_ofScientific {m k : Nat} (hm : 0 < m) (hk : k ≤ 2048) :
    IsNearest (packed (ofScientific Format.binary64 m k)) (m * 10 ^ k) ∧
      isNegative (packed (ofScientific Format.binary64 m k)) = false := by
  have hgreat : ¬ (k : ℤ) > 2 ^ Format.binary64.exponentBits := by
    change ¬ (k : ℤ) > 2048
    omega
  have hsmall : ¬ (k : ℤ) < -((2 ^ Format.binary64.exponentBits : ℤ) + m.log2) := by
    change ¬ (k : ℤ) < -(2048 + m.log2)
    omega
  have hmany : 2 ^ 52 ≤ m <<< 53 * 10 ^ k := by
    rw [Nat.shiftLeft_eq]
    have hten : 0 < 10 ^ k := by positivity
    calc 2 ^ 52 ≤ 1 * 2 ^ 53 * 1 := by norm_num
      _ ≤ m * 2 ^ 53 * 10 ^ k := Nat.mul_le_mul (Nat.mul_le_mul_right _ hm) hten
  have hproduct := isNearest_product (e := -53) (f := 0)
    (show 0 < m <<< 53 by rw [Nat.shiftLeft_eq]; positivity) (show 0 < 10 ^ k by positivity)
    (.inl hmany)
  have hvalue : ((m <<< 53 : ℕ) : ℚ) * 2 ^ (-53 : ℤ) * ((10 ^ k : ℕ) * 2 ^ (0 : ℤ)) =
      m * 10 ^ k := by
    rw [Nat.shiftLeft_eq]
    push_cast
    norm_num
    ring
  rw [hvalue] at hproduct
  rw [ofScientific, dif_neg hm.ne', if_neg hgreat, if_neg hsmall, if_pos (Nat.cast_nonneg k)]
  exact hproduct

/-- A power of ten from the table is exact. -/
theorem isPositive_table {k : Nat} (hk : k < 23) :
    IsPositive (Float.exactlyRepresentablePowersOfTen[k]) ∧
      size (Float.exactlyRepresentablePowersOfTen[k]) = 10 ^ k := by
  have htable : ∀ k : Fin 23, isNegative Float.exactlyRepresentablePowersOfTen[k] = false ∧
      0 < position Float.exactlyRepresentablePowersOfTen[k] ∧
      position Float.exactlyRepresentablePowersOfTen[k] < infinitePosition ∧
      -52 ≤ (Binary.ofPosition (position Float.exactlyRepresentablePowersOfTen[k])).exponent ∧
      (Binary.ofPosition (position Float.exactlyRepresentablePowersOfTen[k])).significand *
        Nat.pow 2 ((Binary.ofPosition
          (position Float.exactlyRepresentablePowersOfTen[k])).exponent + 52).toNat =
        Nat.pow 10 k * Nat.pow 2 52 := by
    decide +kernel
  obtain ⟨hsign, hpos, hfinite, hleast, hvalue⟩ := htable ⟨k, hk⟩
  refine ⟨⟨hsign, hpos, hfinite⟩, ?_⟩
  change (Binary.ofPosition _).value = _
  rw [Binary.value]
  simp only [Fin.getElem_fin, Nat.pow_eq] at hleast hvalue ⊢
  generalize Binary.ofPosition (position (Float.exactlyRepresentablePowersOfTen[k])) = b
    at hleast hvalue ⊢
  have hcast : (b.significand : ℚ) * 2 ^ (b.exponent + 52).toNat = 10 ^ k * 2 ^ 52 := by
    exact_mod_cast hvalue
  have hpow : (2 : ℚ) ^ (b.exponent + 52).toNat = 2 ^ b.exponent * 2 ^ 52 := by
    rw [← zpow_natCast, Int.toNat_of_nonneg (by omega), zpow_add₀ (by norm_num)]
    norm_num
  rw [hpow, ← mul_assoc] at hcast
  exact mul_right_cancel₀ (by positivity) hcast

/-- A natural number with few digits is converted exactly. -/
theorem isPositive_ofUInt64 {n : Nat} (hpos : 0 < n) (hlt : n < 2 ^ 53) :
    IsPositive n.toUInt64.toFloat ∧ size n.toUInt64.toFloat = n := by
  have hn : n.toUInt64.toNat = n := by
    change n % 2 ^ 64 = n
    omega
  obtain ⟨hnearest, hsign⟩ := isNearest_ofUInt64 (u := n.toUInt64) (by omega)
  rw [hn] at hnearest
  have hone : (1 : ℚ) ≤ n := by exact_mod_cast hpos
  have hmany : (n : ℚ) < 2 ^ 53 := by exact_mod_cast hlt
  have hpositive : IsPositive n.toUInt64.toFloat := by
    refine hnearest.isPositive hsign ?_ ?_
    · exact (zpow_lt_one_of_neg₀ (by norm_num) (by norm_num)).trans_le hone
    · exact hmany.trans (pow_lt_pow_right₀ (by norm_num) (by norm_num))
  refine ⟨hpositive, ?_⟩
  have hsize := IsNearest.size_eq (m := n) (e := 0) (by simpa using hnearest) hpositive hpos hlt
    (by norm_num)
  simpa using hsize

theorem isNearest_scientific {m k : Nat} (hm : 0 < m) (hk : k ≤ 2048) :
    IsNearest (Float.ofScientific m false k) (m * 10 ^ k) ∧
      isNegative (Float.ofScientific m false k) = false := by
  by_cases hfast : m < 2 ^ 53 ∧ k ≤ 22
  · have htable : k < 23 := Nat.lt_succ_of_le hfast.2
    have hfloat : Float.ofScientific m false k =
        m.toUInt64.toFloat * Float.exactlyRepresentablePowersOfTen[k] := by
      unfold Float.ofScientific
      rw [dif_pos hfast]
      rfl
    obtain ⟨hmpositive, hmsize⟩ := isPositive_ofUInt64 hm hfast.1
    obtain ⟨htpositive, htsize⟩ := isPositive_table htable
    have hproduct := isNearest_mul hmpositive htpositive
    rw [hmsize, htsize] at hproduct
    rw [hfloat]
    exact hproduct
  · have hfloat : Float.ofScientific m false k = packed (ofScientific Format.binary64 m k) := by
      unfold Float.ofScientific
      rw [dif_neg hfast]
      rfl
    rw [hfloat]
    exact isNearest_ofScientific hm hk

theorem isNearest_ofNat {n : Nat} (hpos : 0 < n) :
    IsNearest (Float.ofNat n) n ∧ isNegative (Float.ofNat n) = false := by
  have hscientific := isNearest_scientific (k := 0) hpos (by norm_num)
  rw [pow_zero, mul_one] at hscientific
  exact hscientific

theorem isNearest_tenPower {k : Nat} (hk : k ≤ 308) :
    IsNearest (Json.Number.tenPower k) (10 ^ k) ∧ isNegative (Json.Number.tenPower k) = false := by
  have hscientific := isNearest_scientific (m := 1) (k := k) one_pos (by omega)
  rw [Nat.cast_one, one_mul] at hscientific
  exact hscientific

end Decimal
end ScoreTree
