import ScoreTree.Proofs.Decimal.Operations

/-!
# The order of doubles

Doubles other than the incomparable one lie on a line. `place` counts them from zero, where both zeros
are, and a comparison of doubles is one of their places (`lt_iff_place_lt`). The incomparable double
is above no other, as if its place was below all of them (`lt_iff_level_lt`).
-/

namespace ScoreTree
namespace Decimal

open Float.Model (Format UnpackedFloat)
open Float.Model.UnpackedFloat

/-- The sign of a double as it is packed. -/
def sign (x : Float) : Sign := .ofBitVec (unpackSign (word x))

/-- The place of a double on the line, counted from zero. -/
def place (x : Float) : ℤ := (sign x).apply (position x)

/-! ## Parts of a known double -/

theorem unpack_of_position_eq_zero {x : Float} (h : position x = 0) :
    unpack Format.binary64 (word x) = .zero (sign x) := by
  have hzero : Binary.exponentField x.toBits = 0 ∧ Binary.fraction x.toBits = 0 := by
    unfold position at h
    omega
  have hexponent : unpackExponent (word x) = 0#11 :=
    BitVec.eq_of_toNat_eq ((toNat_unpackExponent x).trans hzero.1)
  have hmantissa : unpackMantissa (word x) = 0#52 :=
    BitVec.eq_of_toNat_eq ((toNat_unpackMantissa x).trans hzero.2)
  unfold unpack
  dsimp only
  rw [if_neg (by rw [hexponent]; decide), if_pos hexponent, dif_pos hmantissa, sign]

theorem unpack_of_position_eq_infinite {x : Float} (h : position x = infinitePosition) :
    unpack Format.binary64 (word x) = .infinity (sign x) := by
  have hlt : Binary.fraction x.toBits < 2 ^ 52 := Nat.mod_lt _ (by decide)
  have hlast : Binary.exponentField x.toBits = 2047 ∧ Binary.fraction x.toBits = 0 := by
    rw [position, infinitePosition] at h
    omega
  have hexponent : unpackExponent (word x) = -1#11 :=
    BitVec.eq_of_toNat_eq ((toNat_unpackExponent x).trans hlast.1)
  have hmantissa : unpackMantissa (word x) = 0#52 :=
    BitVec.eq_of_toNat_eq ((toNat_unpackMantissa x).trans hlast.2)
  unfold unpack
  dsimp only
  rw [if_pos hexponent, if_pos hmantissa, sign]

theorem position_le_infinite {x : Float} (hx : x.isNaN = false) :
    position x ≤ infinitePosition := by
  rw [Bool.eq_false_iff, Ne, isNaN_eq_true_iff] at hx
  have hlt : Binary.fraction x.toBits < 2 ^ 52 := Nat.mod_lt _ (by decide)
  have hfield : Binary.exponentField x.toBits ≤ 2047 := by
    have hbits := x.toBits.toNat_lt
    simp only [Binary.exponentField, Binary.fractions, Nat.pow_eq]
    omega
  unfold position infinitePosition
  omega

/-- A known number of a given sign and position, as it is compared: between zero and infinity by its
digits. -/
inductive Known (s : Sign) (p : ℕ) : UnpackedFloat → Prop
  | zero : p = 0 → Known s p (.zero s)
  | finite (hpos : 0 < p) : p < infinitePosition →
      Known s p (.finite s (Binary.ofPosition p).significand (Binary.ofPosition p).exponent
        (significand_pos hpos))
  | infinity : p = infinitePosition → Known s p (.infinity s)

theorem known_unpack {x : Float} (hx : x.isNaN = false) :
    Known (sign x) (position x) (unpack Format.binary64 (word x)) := by
  rcases Nat.eq_zero_or_pos (position x) with hzero | hpos
  · rw [unpack_of_position_eq_zero hzero]
    exact .zero hzero
  · rcases (position_le_infinite hx).lt_or_eq with hlt | heq
    · rw [unpack_of_finite hpos hlt]
      exact .finite hpos hlt
    · rw [unpack_of_position_eq_infinite heq]
      exact .infinity heq

/-! ## Comparison -/

theorem digits_lt {p q : ℕ} (h : p < q) :
    (Binary.ofPosition p).exponent < (Binary.ofPosition q).exponent ∨
      (Binary.ofPosition p).exponent = (Binary.ofPosition q).exponent ∧
        (Binary.ofPosition p).significand < (Binary.ofPosition q).significand := by
  unfold Binary.ofPosition
  split_ifs
  · dsimp only
    omega
  · dsimp only [Int.ofNat_eq_natCast]
    omega
  · dsimp only [Int.ofNat_eq_natCast]
    omega
  · dsimp only [Int.ofNat_eq_natCast]
    omega

/-- Digits are ordered as positions are. -/
theorem compare_digits (p q : ℕ) :
    (compare (Binary.ofPosition p).exponent (Binary.ofPosition q).exponent).then
      (compare (Binary.ofPosition p).significand (Binary.ofPosition q).significand) =
        compare (p : ℤ) q := by
  rcases lt_trichotomy p q with h | rfl | h
  · rw [(Int.compare_eq_lt (a := (p : ℤ))).mpr (Int.ofNat_lt.mpr h), Ordering.then_eq_lt]
    rcases digits_lt h with he | ⟨he, hs⟩
    · exact .inl (Int.compare_eq_lt.mpr he)
    · exact .inr ⟨Int.compare_eq_eq.mpr he, Nat.compare_eq_lt.mpr hs⟩
  · simp
  · rw [(Int.compare_eq_gt (a := (p : ℤ))).mpr (Int.ofNat_lt.mpr h), Ordering.then_eq_gt]
    rcases digits_lt h with he | ⟨he, hs⟩
    · exact .inl (Int.compare_eq_gt.mpr he)
    · exact .inr ⟨Int.compare_eq_eq.mpr he.symm, Nat.compare_eq_gt.mpr hs⟩

theorem swap_compare (a b : ℤ) : (compare a b).swap = compare (-a) (-b) := by
  rcases lt_trichotomy a b with h | rfl | h
  · rw [Int.compare_eq_lt.mpr h, Int.compare_eq_gt.mpr (neg_lt_neg h)]
    rfl
  · simp
  · rw [Int.compare_eq_gt.mpr h, Int.compare_eq_lt.mpr (neg_lt_neg h)]
    rfl

/-- Numbers are compared by sign first, and by digits within a sign. -/
theorem Known.compare_eq {s t : Sign} {p q : ℕ} {u w : UnpackedFloat} (hu : Known s p u)
    (hw : Known t q w) : u.compare w = some (compare (s.apply p) (t.apply q)) := by
  have hinfinite : 0 < infinitePosition := by decide
  have hsame (s : Sign) : compare s s = .eq := by cases s <;> rfl
  have hbelow : compare Sign.negative Sign.positive = .lt := rfl
  have habove : compare Sign.positive Sign.negative = .gt := rfl
  have hlt (a b : ℤ) : .lt = compare a b ↔ a < b := by rw [eq_comm, Int.compare_eq_lt]
  have heq (a b : ℤ) : .eq = compare a b ↔ a = b := by rw [eq_comm, Int.compare_eq_eq]
  have hgt (a b : ℤ) : .gt = compare a b ↔ b < a := by rw [eq_comm, Int.compare_eq_gt]
  cases s <;> cases t <;> cases hu <;> cases hw <;>
    simp [UnpackedFloat.compare, Sign.apply, compare_digits, swap_compare, hsame, hbelow, habove,
      hlt, heq, hgt] <;>
    omega

theorem compare_eq_none {u w : UnpackedFloat} (h : u = .notANumber ∨ w = .notANumber) :
    u.compare w = none := by
  rcases h with rfl | rfl
  · rfl
  · cases u <;> rfl

theorem unpack_of_isNaN {x : Float} (hx : x.isNaN = true) :
    unpack Format.binary64 (word x) = .notANumber := by
  have hunpack : (unpack Format.binary64 (word x)).isNaN = true := hx
  cases hword : unpack Format.binary64 (word x) with
  | notANumber => rfl
  | infinity => simp [hword, UnpackedFloat.isNaN] at hunpack
  | zero => simp [hword, UnpackedFloat.isNaN] at hunpack
  | finite => simp [hword, UnpackedFloat.isNaN] at hunpack

/-- What a comparison of two doubles looks at, if both have a place. -/
theorem known_of_compare {x y : Float} (h : ((unpack Format.binary64 (word x)).compare
    (unpack Format.binary64 (word y))) ≠ none) : x.isNaN = false ∧ y.isNaN = false := by
  constructor <;> by_contra hnan <;> rw [Bool.not_eq_false] at hnan
  · exact h (compare_eq_none (.inl (unpack_of_isNaN hnan)))
  · exact h (compare_eq_none (.inr (unpack_of_isNaN hnan)))

theorem lt_iff_compare (x y : Float) :
    x < y ↔ (unpack Format.binary64 (word x)).compare (unpack Format.binary64 (word y)) =
      some .lt := by
  change Float.lt x y = true ↔ _
  rw [Float.lt, decide_eq_true_iff]
  change UnpackedFloat.lt _ _ = true ↔ _
  rw [UnpackedFloat.lt, beq_iff_eq]
  rfl

theorem le_iff_compare (x y : Float) :
    x ≤ y ↔ ((unpack Format.binary64 (word x)).compare
      (unpack Format.binary64 (word y))).any Ordering.isLE = true := by
  change Float.le x y = true ↔ _
  rw [Float.le, decide_eq_true_iff]
  rfl

/-- Only doubles that have a place are below or above others. -/
theorem known_of_lt {x y : Float} (h : x < y) : x.isNaN = false ∧ y.isNaN = false := by
  apply known_of_compare
  rw [(lt_iff_compare x y).mp h]
  exact Option.some_ne_none _

theorem known_of_le {x y : Float} (h : x ≤ y) : x.isNaN = false ∧ y.isNaN = false := by
  apply known_of_compare
  intro hnone
  rw [le_iff_compare, hnone] at h
  cases h

/-- Doubles are compared by their places. Both zeros have one place. -/
theorem lt_iff_place_lt {x y : Float} (hx : x.isNaN = false) (hy : y.isNaN = false) :
    x < y ↔ place x < place y := by
  rw [lt_iff_compare, (known_unpack hx).compare_eq (known_unpack hy), Option.some_inj,
    Int.compare_eq_lt]
  rfl

theorem le_iff_place_le {x y : Float} (hx : x.isNaN = false) (hy : y.isNaN = false) :
    x ≤ y ↔ place x ≤ place y := by
  rw [le_iff_compare, (known_unpack hx).compare_eq (known_unpack hy), Option.any_some,
    Int.isLE_compare]
  rfl

theorem not_lt_of_isNaN (x : Float) {y : Float} (hy : y.isNaN = true) : ¬ x < y := by
  intro h
  rw [(known_of_lt h).2] at hy
  cases hy

/-- The place of a double, below all places if it has none. -/
def level (x : Float) : WithBot ℤ := if x.isNaN = true then ⊥ else (place x : ℤ)

theorem level_of_known {x : Float} (hx : x.isNaN = false) : level x = (place x : ℤ) := by
  rw [level, if_neg (by rw [hx]; decide)]

theorem level_of_isNaN {x : Float} (hx : x.isNaN = true) : level x = ⊥ := by
  rw [level, if_pos hx]

/-- A double that has a place is below the doubles of a higher level, and below no others. -/
theorem lt_iff_level_lt {x : Float} (hx : x.isNaN = false) (y : Float) :
    x < y ↔ level x < level y := by
  cases hy : y.isNaN with
  | true => simp only [level_of_isNaN hy, not_lt_of_isNaN x hy, not_lt_bot]
  | false =>
    rw [level_of_known hx, level_of_known hy, WithBot.coe_lt_coe, lt_iff_place_lt hx hy]

end Decimal
end ScoreTree
