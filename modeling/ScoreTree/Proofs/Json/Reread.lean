import ScoreTree.Proofs.Decimal.FewDigits
import ScoreTree.Proofs.Json.Range
import ScoreTree.Proofs.RoundTrip

/-!
# Doubles that are read back

The text of a double has few digits, so that the reader keeps them all and scales them. Every finite double
is read as a finite one with its sign that stands few places away, and as itself where its digits and its
power of ten are exact (`exists_readsBack`).
-/

namespace ScoreTree
namespace Json

open Decimal (isFinite isNegative position infinitePosition IsNear places)

/-! ## Digits that are kept -/

/-- A number whose digits are kept is scaled. -/
theorem Literal.toFloat_eq {l : Literal} {x : Float} (hfew : l.decimal.coefficient < UInt64.size)
    (hpower : ∀ e ∈ l.exponent, Number.ofDigits e.2 < UInt32.size / 2)
    (hscale : Number.scale l.decimal.coefficient l.decimal.exponent = .ok x) :
    l.toFloat = .ok (Number.signed l.negative x) := by
  obtain ⟨hwhole, hfraction⟩ := Number.absorb_append hfew
  rw [toFloat_of_fits hwhole hfraction hpower]
  have hexponent : Int.ofNat ([] : List Nat).length -
      Int.ofNat ((l.fraction.getD []).length - ([] : List Nat).length) + l.writtenPower =
        l.decimal.exponent := by
    rw [decimal, lastPower, List.length_nil, Nat.sub_zero]
    simp only [Int.ofNat_eq_natCast]
    omega
  rw [hexponent]
  exact congrArg (Except.map (Number.signed l.negative)) hscale

/-! ## Digits that are written -/

theorem value_writtenDecimal (d : Decimal) : (writtenDecimal d).value = d.value := by
  unfold writtenDecimal
  dsimp only
  split_ifs with hplain
  · have hpow : (10 : ℚ) ^ d.exponent = 10 ^ d.exponent.toNat := by
      rw [← zpow_natCast]
      congr 1
      omega
    rw [Decimal.value, Decimal.value, hpow, Nat.pow_eq, pow_succ]
    push_cast
    rw [zpow_neg_one]
    ring
  · rfl

theorem writtenDecimal_bounds {d : Decimal} (hpos : 0 < d.coefficient)
    (hfew : d.coefficient < 10 ^ 18) (hleast : -325 ≤ d.exponent) (hgreat : d.exponent ≤ 308) :
    0 < (writtenDecimal d).coefficient ∧ (writtenDecimal d).coefficient < 2 ^ 64 ∧
      -330 ≤ (writtenDecimal d).exponent ∧ (writtenDecimal d).exponent ≤ 308 := by
  have hlength : (Nat.toDigits 10 d.coefficient).length ≠ 0 :=
    fun h => Nat.toDigits_ne_nil (List.length_eq_zero_iff.mp h)
  have hlt : d.coefficient < 10 ^ (Nat.toDigits 10 d.coefficient).length :=
    (Nat.length_toDigits_le_iff (by decide) (Nat.pos_of_ne_zero hlength)).mp le_rfl
  unfold writtenDecimal
  dsimp only
  split_ifs with hplain
  · obtain ⟨⟨-, hshort⟩, hwhole⟩ := hplain
    have hshort : d.exponent + (Nat.toDigits 10 d.coefficient).length - 1 ≤ 15 := hshort
    refine ⟨Nat.mul_pos hpos (Nat.pow_pos (by decide)), ?_, by norm_num, by norm_num⟩
    calc d.coefficient * 10 ^ (d.exponent.toNat + 1)
        < 10 ^ (Nat.toDigits 10 d.coefficient).length * 10 ^ (d.exponent.toNat + 1) :=
          Nat.mul_lt_mul_of_pos_right hlt (by positivity)
      _ = 10 ^ ((Nat.toDigits 10 d.coefficient).length + (d.exponent.toNat + 1)) := (pow_add ..).symm
      _ ≤ 10 ^ 17 := Nat.pow_le_pow_right (by decide) (by omega)
      _ < 2 ^ 64 := by norm_num
  · exact ⟨hpos, hfew.trans (by norm_num), by omega, hgreat⟩

/-- The digits of a finite double other than a zero, and what they stand for. -/
theorem writtenDigits_of_pos {x : Float} (hx : isFinite x = true) (hpos : 0 < position x) :
    (Binary.ofPosition (position x)).RoundsTo
        ((writtenDigits x).coefficient * 10 ^ (writtenDigits x).exponent) ∧
      (0 < (writtenDigits x).coefficient ∧ (writtenDigits x).coefficient < 2 ^ 64 ∧
        -330 ≤ (writtenDigits x).exponent ∧ (writtenDigits x).exponent ≤ 308) ∧
      writtenExponent x < UInt32.size / 2 := by
  have hsig := Decimal.significand_pos hpos
  have hcoefficient := coefficient_pos hsig numberStyle.tie
  have hfew := Binary.coefficient_shortest_lt hsig (Decimal.significand_ofPosition_lt _)
    numberStyle.tie
  have hleast := Binary.exponent_shortest_ge hsig (Decimal.digits_ofPosition _).1 numberStyle.tie
  have hgreat := Binary.exponent_shortest_le (Decimal.isFinite_iff.mp hx) hsig numberStyle.tie
    hcoefficient
  have hrounds : (Binary.ofPosition (position x)).RoundsTo
      ((Binary.ofPosition (position x)).shortest numberStyle.tie).value :=
    Binary.roundsTo_shortest hsig
  rw [writtenDigits, writtenExponent, Decimal.ofBits_toBits]
  rw [if_neg hsig.ne']
  generalize (Binary.ofPosition (position x)).shortest numberStyle.tie = d
    at hcoefficient hfew hleast hgreat hrounds ⊢
  rw [← value_writtenDecimal] at hrounds
  refine ⟨hrounds, writtenDecimal_bounds hcoefficient hfew hleast hgreat, ?_⟩
  have hlength : (Nat.toDigits 10 d.coefficient).length ≤ 18 :=
    (Nat.length_toDigits_le_iff (by decide) (by decide)).mpr hfew
  have hlimit : UInt32.size / 2 = 2147483648 := rfl
  omega

/-! ## Reading back -/

/-- A double is read back as its scaled digits. -/
theorem readsBack_of_scale {x y : Float} (hx : isFinite x = true)
    (hfew : (writtenDigits x).coefficient < 2 ^ 64) (hpower : writtenExponent x < UInt32.size / 2)
    (hscale : Number.scale (writtenDigits x).coefficient (writtenDigits x).exponent = .ok y) :
    ReadsBack x (Number.signed (isNegative x) y) := by
  obtain ⟨l, hnegative, hl, htext⟩ := exists_isText_floatChars hx
  rw [← hl.decimal] at hfew hscale
  have hfloat := Literal.toFloat_eq hfew (fun e he => (hl.exponent e he).trans_lt hpower) hscale
  have hvalue : (Source.number l).IsText (Json.float x).text :=
    (IsValue.number htext).isText String.toList_ofList
  rw [readsBack_iff, (Reader.readsValue_double _).toOption_run hvalue, Source.float?,
    hl.fractional.value_eq, hfloat, hnegative]
  rfl

/-- The doubles have one sign, and stand at most so many places apart. -/
structure Apart (n : Nat) (x y : Float) : Prop where
  sign : isNegative y = isNegative x
  above : position y ≤ position x + n
  below : position x ≤ position y + n

theorem Apart.eq {x y : Float} (h : Apart 0 x y) : y = x := by
  obtain ⟨hsign, habove, hbelow⟩ := h
  rw [Nat.add_zero] at habove hbelow
  exact Decimal.eq_of_position hsign (Nat.le_antisymm habove hbelow)

instance (n : Nat) (x y : Float) : Decidable (Apart n x y) :=
  decidable_of_iff (isNegative y = isNegative x ∧ position y ≤ position x + n ∧
    position x ≤ position y + n) ⟨fun h => ⟨h.1, h.2.1, h.2.2⟩, fun h => ⟨h.sign, h.above, h.below⟩⟩

/-- The number of places that reading back may move a double. -/
def drift (x : Float) : Nat := places (writtenDigits x).coefficient (writtenDigits x).exponent

theorem drift_le (x : Float) : drift x ≤ 2 := Decimal.places_le _ _

theorem fields_signed (negative : Bool) {y : Float} (hy : isFinite y = true)
    (hsign : isNegative y = false) : isNegative (Number.signed negative y) = negative ∧
      position (Number.signed negative y) = position y := by
  cases negative with
  | false => exact ⟨hsign, rfl⟩
  | true =>
    have hnumber : y.isNaN = false := by
      rw [Bool.eq_false_iff, Ne, Decimal.isNaN_eq_true_iff]
      simp_all [isFinite]
    refine ⟨?_, ?_⟩
    · rw [Number.signed, if_pos rfl, Decimal.isNegative_neg hnumber, hsign]
      rfl
    · rw [Number.signed, if_pos rfl, position, Decimal.exponentField_neg hnumber,
        Decimal.fraction_neg hnumber]
      rfl

/-- The zeros and the largest doubles, with what they are read back as. -/
def extremes : List (Float × Float) :=
  [(0.0, 0.0), (-0.0, -0.0), (1.7976931348623157e308, 1.7976931348623157e308),
    (-1.7976931348623157e308, -1.7976931348623157e308),
    (1.7976931348623155e308, 1.7976931348623157e308),
    (-1.7976931348623155e308, -1.7976931348623157e308)]

theorem readsBack_extremes : ∀ pair ∈ extremes, ReadsBack pair.1 pair.2 ∧
    isFinite pair.2 = true ∧ Apart (drift pair.1) pair.1 pair.2 := by decide +kernel

theorem exists_extreme {x : Float} (hx : isFinite x = true)
    (h : position x = 0 ∨ infinitePosition - 2 ≤ position x) : ∃ y, (x, y) ∈ extremes := by
  have hfields : ∀ p ∈ [0, infinitePosition - 2, infinitePosition - 1], ∀ negative : Bool,
      ∃ pair ∈ extremes, position pair.1 = p ∧ isNegative pair.1 = negative := by decide +kernel
  have hposition : position x ∈ [0, infinitePosition - 2, infinitePosition - 1] := by
    have hlt := Decimal.isFinite_iff.mp hx
    simp only [List.mem_cons, List.not_mem_nil, or_false]
    omega
  obtain ⟨⟨x', y⟩, hmem, hsame, hsign⟩ := hfields _ hposition (isNegative x)
  obtain rfl : x' = x := Decimal.eq_of_position hsign hsame
  exact ⟨y, hmem⟩

/-- A finite double is read back as a finite one that is few places away. -/
theorem exists_readsBack {x : Float} (hx : isFinite x = true) :
    ∃ y, ReadsBack x y ∧ isFinite y = true ∧ Apart (drift x) x y := by
  by_cases hextreme : position x = 0 ∨ infinitePosition - 2 ≤ position x
  · obtain ⟨y, hmem⟩ := exists_extreme hx hextreme
    obtain ⟨hread, hfinite, hapart⟩ := readsBack_extremes (x, y) hmem
    exact ⟨y, hread, hfinite, hapart⟩
  · rw [not_or, not_le] at hextreme
    obtain ⟨hne, hlt⟩ := hextreme
    obtain ⟨hrounds, ⟨hs, hmany, hleast, hgreat⟩, hpower⟩ :=
      writtenDigits_of_pos hx (Nat.pos_of_ne_zero hne)
    obtain ⟨z, ⟨p, habove, hbelow, hposition⟩, hsign, hscale⟩ :=
      Decimal.isNear_scale hs hmany hleast hgreat hrounds
    have hdrift := drift_le x
    change p ≤ position x + drift x at habove
    change position x ≤ p + drift x at hbelow
    -- Two places above there is still a finite double.
    have hp : p < infinitePosition := by omega
    have hfinite : isFinite z = true := by
      rw [Decimal.isFinite_iff, hposition]
      exact (min_le_left _ _).trans_lt hp
    rw [min_eq_left hp.le] at hposition
    obtain ⟨hnegative, hsame⟩ := fields_signed (isNegative x) hfinite hsign
    refine ⟨_, readsBack_of_scale hx hmany hpower (hscale hfinite), ?_, hnegative, ?_, ?_⟩
    · rw [Decimal.isFinite_iff, hsame, hposition]
      exact hp
    · rw [hsame, hposition]
      exact habove
    · rw [hsame, hposition]
      exact hbelow

/-- What a double is read back as. -/
def reread (x : Float) : Float :=
  (Reader.double.run (Json.float x).text.toUTF8.toList).toOption.getD x

theorem reread_of_isFinite {x : Float} (hx : isFinite x = true) :
    ReadsBack x (reread x) ∧ isFinite (reread x) = true ∧ Apart (drift x) x (reread x) := by
  obtain ⟨y, hread, hfinite, hapart⟩ := exists_readsBack hx
  have hy : reread x = y := by
    rw [reread, readsBack_iff.mp hread]
    rfl
  rw [hy]
  exact ⟨hread, hfinite, hapart⟩

/-- Two places are reached. -/
example : ¬ Apart 1 4.0475589227118117e-115 (reread 4.0475589227118117e-115) := by decide +kernel

theorem reread_eq {x : Float} (hx : isFinite x = true) (hexact : drift x = 0) : reread x = x := by
  have hapart := (reread_of_isFinite hx).2.2
  rw [hexact] at hapart
  exact hapart.eq

end Json
end ScoreTree
