import Mathlib
import ScoreTree.Proofs.Decimal.Layout

/-!
# Signs and texts of doubles

A double is its sign, its exponent field and its fraction. The opposite of a double has the other sign
and the same fields, and two doubles that are written alike have the same sign and position
(`write_injective`). An incomparable double is set apart: it has no sign of its own.
-/

namespace ScoreTree
namespace Decimal

open Float.Model (Format)
open Float.Model.UnpackedFloat

/-! ## Fields -/

/-- The bits of a double in the format that is packed and unpacked. -/
def word (x : Float) : BitVec Format.binary64.numBits := x.toBits.toBitVec

theorem toNat_word (x : Float) : (word x).toNat = x.toBits.toNat := rfl

theorem toNat_unpackMantissa (x : Float) :
    (unpackMantissa (word x)).toNat =
      Binary.fraction x.toBits := by
  simp [unpackMantissa, toNat_word, Binary.fraction, Binary.fractions]

theorem toNat_unpackExponent (x : Float) :
    (unpackExponent (word x)).toNat =
      Binary.exponentField x.toBits := by
  simp [unpackExponent, toNat_word, Binary.exponentField, Binary.fractions, Nat.shiftRight_eq_div_pow]

theorem toNat_unpackSign (x : Float) :
    (unpackSign (word x)).toNat = x.toBits.toNat / 2 ^ 63 := by
  have hbits := x.toBits.toNat_lt
  simp only [unpackSign, BitVec.toNat_cast, BitVec.extractLsb_toNat, Nat.shiftRight_eq_div_pow,
    toNat_word]
  omega

theorem eq_of_fields {x y : Float} (hsign : isNegative x = isNegative y)
    (hfield : Binary.exponentField x.toBits = Binary.exponentField y.toBits)
    (hfraction : Binary.fraction x.toBits = Binary.fraction y.toBits) : x = y := by
  have hx := x.toBits.toNat_lt
  have hy := y.toBits.toNat_lt
  have hbits : x.toBits = y.toBits := by
    rw [← UInt64.toNat_inj]
    simp only [isNegative, Binary.exponentField, Binary.fraction, Binary.fractions, Nat.pow_eq]
      at hsign hfield hfraction
    have hhigh : x.toBits.toNat / 2 ^ 63 = y.toBits.toNat / 2 ^ 63 := by
      rw [Bool.eq_iff_iff, beq_iff_eq, beq_iff_eq] at hsign
      omega
    omega
  obtain ⟨⟨xbits, xvalid⟩⟩ := x
  obtain ⟨⟨ybits, yvalid⟩⟩ := y
  change xbits = ybits at hbits
  subst hbits
  rfl

/-! ## Opposites -/

theorem unpackSign_packComponents (spec : Format) (sign : Sign) (e : BitVec spec.exponentBits)
    (m : BitVec spec.mantissaBitsWithoutImplicit) :
    unpackSign (packComponents spec sign e m) = sign.toBitVec := by
  apply BitVec.eq_of_getLsbD_eq
  intro i hi
  obtain rfl : i = 0 := by omega
  simp [unpackSign, packComponents, BitVec.getLsbD_append, BitVec.getElem_append]

theorem pack_subnormal (sign : Sign) {m : BitVec 52} (hm : 0 < m.toNat) :
    pack Format.binary64 (.finite sign m.toNat (-1074) hm) =
      packComponents Format.binary64 sign 0#11 m := by
  have hlog : m.toNat.log2 < 52 := (Nat.log2_lt (by omega)).2 m.isLt
  have hnormal : ¬ m.toNat.log2 + 1 = Format.binary64.mantissaBits := by
    change ¬ m.toNat.log2 + 1 = 53
    omega
  simp only [pack]
  rw [if_neg (by decide), if_neg hnormal, BitVec.ofNat_toNat, BitVec.setWidth_eq]

theorem pack_normal (sign : Sign) {e : BitVec 11} (m : BitVec 52) (he : e ≠ -1#11)
    (hpos : 0 < (1#1 ++ m).toNat) :
    pack Format.binary64 (.finite sign (1#1 ++ m).toNat (e.toNat - 1075) hpos) =
      packComponents Format.binary64 sign e m := by
  have hfield : e.toNat ≠ 2047 := fun h => he (BitVec.toNat_inj.1 h)
  have hlt := e.isLt
  have hm := m.isLt
  have happend : (1#1 ++ m).toNat = 2 ^ 52 + m.toNat := by
    rw [BitVec.toNat_append, ← Nat.shiftLeft_add_eq_or_of_lt hm]
    rfl
  have hlog : (1#1 ++ m).toNat.log2 + 1 = Format.binary64.mantissaBits := by
    have hlower : 52 ≤ (1#1 ++ m).toNat.log2 := (Nat.le_log2 (by omega)).2 (by omega)
    have hupper : (1#1 ++ m).toNat.log2 < 53 := (Nat.log2_lt (by omega)).2 (by omega)
    change _ = 53
    omega
  have hbiased : ((e.toNat - 1075 : ℤ) + Format.binary64.exponentBias +
      Format.binary64.mantissaBitsWithoutImplicit).toNat = e.toNat := by
    change ((e.toNat - 1075 : ℤ) + 1023 + 52).toNat = e.toNat
    omega
  have hinfinite : ¬ 2 ^ Format.binary64.exponentBits ≤ e.toNat + 1 := by
    change ¬ 2048 ≤ e.toNat + 1
    omega
  have hmantissa : BitVec.ofNat 52 (1#1 ++ m).toNat = m := by
    rw [← BitVec.toNat_inj, BitVec.toNat_ofNat, happend]
    omega
  simp only [pack]
  rw [hbiased, if_neg hinfinite, if_pos hlog, BitVec.ofNat_toNat, BitVec.setWidth_eq, hmantissa]

/-- A number that is packed with the opposite sign keeps its fields. -/
theorem pack_neg_unpack {b : BitVec Format.binary64.numBits}
    (hb : (unpack Format.binary64 b).isNaN = false) :
    pack Format.binary64 (unpack Format.binary64 b).neg =
      packComponents Format.binary64 (-Sign.ofBitVec (unpackSign b)) (unpackExponent b)
        (unpackMantissa b) := by
  unfold unpack at hb ⊢
  dsimp only at hb ⊢
  split at hb
  · rename_i hinfinite
    split at hb
    · rename_i hfraction
      rw [if_pos hinfinite, if_pos hfraction, hinfinite, hfraction]
      rfl
    · cases hb
  · rename_i hfinite
    rw [if_neg hfinite]
    split
    · rename_i hsubnormal
      split
      · rename_i hfraction
        rw [hsubnormal, hfraction]
        rfl
      · rw [hsubnormal]
        exact pack_subnormal _ _
    · exact pack_normal _ _ hfinite _

theorem word_neg {x : Float} (hx : x.isNaN = false) :
    word (-x) = packComponents Format.binary64 (-Sign.ofBitVec (unpackSign (word x)))
      (unpackExponent (word x)) (unpackMantissa (word x)) := by
  have hunpack : (unpack Format.binary64 (word x)).isNaN = false := hx
  rw [← pack_neg_unpack hunpack]
  rfl

theorem exponentField_neg {x : Float} (hx : x.isNaN = false) :
    Binary.exponentField (-x).toBits = Binary.exponentField x.toBits := by
  rw [← toNat_unpackExponent, ← toNat_unpackExponent, word_neg hx,
    unpackExponent_packComponents]

theorem fraction_neg {x : Float} (hx : x.isNaN = false) :
    Binary.fraction (-x).toBits = Binary.fraction x.toBits := by
  rw [← toNat_unpackMantissa, ← toNat_unpackMantissa, word_neg hx,
    unpackMantissa_packComponents]

theorem isNegative_neg {x : Float} (hx : x.isNaN = false) : isNegative (-x) = !isNegative x := by
  have hflip : ∀ s : BitVec 1, ((-Sign.ofBitVec s).toBitVec.toNat == 1) = !(s.toNat == 1) := by
    decide
  have hsign (y : Float) : isNegative y = ((unpackSign (word y)).toNat == 1) := by
    rw [toNat_unpackSign]
    rfl
  rw [hsign, hsign, word_neg hx, unpackSign_packComponents, hflip]

theorem isNaN_eq_true_iff (x : Float) :
    x.isNaN = true ↔ Binary.exponentField x.toBits = 2047 ∧ Binary.fraction x.toBits ≠ 0 := by
  rw [← toNat_unpackExponent, ← toNat_unpackMantissa]
  have hexponent : (unpackExponent (word x)).toNat = 2047 ↔ unpackExponent (word x) = -1#11 :=
    BitVec.toNat_inj (y := -1#11)
  have hmantissa : (unpackMantissa (word x)).toNat = 0 ↔ unpackMantissa (word x) = 0#52 :=
    BitVec.toNat_inj (y := 0#52)
  rw [hexponent, Ne, hmantissa]
  change (unpack Format.binary64 (word x)).isNaN = true ↔ _
  unfold unpack
  dsimp only
  split
  · rename_i hinfinite
    split
    · rename_i hfraction
      exact iff_of_false Bool.false_ne_true (fun h => h.2 hfraction)
    · rename_i hfraction
      exact iff_of_true rfl ⟨hinfinite, hfraction⟩
  · rename_i hfinite
    refine iff_of_false ?_ (fun h => hfinite h.1)
    split
    · split <;> exact Bool.false_ne_true
    · exact Bool.false_ne_true

theorem isNaN_neg {x : Float} (hx : x.isNaN = false) : (-x).isNaN = false := by
  have hfield := exponentField_neg hx
  have hfraction := fraction_neg hx
  rw [Bool.eq_false_iff, Ne, isNaN_eq_true_iff] at hx ⊢
  rwa [hfield, hfraction]

theorem neg_neg_of_known {x : Float} (hx : x.isNaN = false) : - -x = x := by
  have hneg := isNaN_neg hx
  refine eq_of_fields ?_ ?_ ?_
  · rw [isNegative_neg hneg, isNegative_neg hx, Bool.not_not]
  · rw [exponentField_neg hneg, exponentField_neg hx]
  · rw [fraction_neg hneg, fraction_neg hx]

/-! ## Texts -/

section Texts

variable {style : Style} {x y : Float}

/-- The text of a known double without its sign. -/
def unsignedChars (style : Style) (x : Float) : List Char :=
  if isFinite x then style.magnitude x.toBits else ['i', 'n', 'f']

theorem fields_of_infinite (hx : x.isNaN = false) (hfinite : isFinite x = false) :
    Binary.exponentField x.toBits = 2047 ∧ Binary.fraction x.toBits = 0 := by
  have hfield : Binary.exponentField x.toBits = 2047 := by
    simpa [isFinite] using hfinite
  rw [Bool.eq_false_iff, Ne, isNaN_eq_true_iff] at hx
  refine ⟨hfield, ?_⟩
  by_contra hfraction
  exact hx ⟨hfield, hfraction⟩

theorem write_eq (style : Style) (hx : x.isNaN = false) :
    style.write x = (if isNegative x then ['-'] else []) ++ unsignedChars style x := by
  unfold Style.write unsignedChars
  dsimp only
  split
  · rfl
  · rename_i hfinite
    rw [if_pos (fields_of_infinite hx (Bool.eq_false_iff.2 hfinite)).2]

theorem isMagnitude_magnitude (hsign : style.exponentSign = [] ∨ style.exponentSign = ['+'])
    (bits : UInt64) : IsMagnitude (style.magnitude bits) := by
  unfold Style.magnitude
  dsimp only
  split
  · exact ⟨'0', ['.', '0'], rfl, by decide, by simp⟩
  · exact isMagnitude_layout hsign _

/-- The text of a finite double has a value that rounds to it. -/
theorem roundsTo_magnitude (hsign : style.exponentSign = [] ∨ style.exponentSign = ['+'])
    (bits : UInt64) : (Binary.ofBits bits).RoundsTo (numeralValue (style.magnitude bits)) := by
  unfold Style.magnitude
  dsimp only
  split
  · rename_i hzero
    have hmantissa : IsMantissa ['0', '.', '0'] 0 :=
      ⟨['0'], ['0'], .inl rfl, by decide, by simp, by simp [Nat.ofDigitChars]⟩
    rw [hmantissa.numeralValue_eq]
    exact Binary.roundsTo_zero hzero
  · rename_i hpos
    rw [numeralValue_layout hsign]
    exact Binary.roundsTo_shortest (Nat.pos_of_ne_zero hpos)

theorem head_unsignedChars (hsign : style.exponentSign = [] ∨ style.exponentSign = ['+'])
    (x : Float) : ∀ c ∈ (unsignedChars style x).head?, c.isDigit = isFinite x ∧ c ≠ '-' := by
  intro c hc
  unfold unsignedChars at hc
  split at hc
  · rename_i hfinite
    obtain ⟨digit, rest, hchars, hdigit, -⟩ := isMagnitude_magnitude hsign x.toBits
    rw [hchars] at hc
    obtain rfl : digit = c := Option.some.inj hc
    refine ⟨by rw [hdigit, hfinite], ?_⟩
    rintro rfl
    exact absurd hdigit (by decide)
  · rename_i hfinite
    obtain rfl : 'i' = c := Option.some.inj hc
    refine ⟨?_, by decide⟩
    rw [Bool.eq_false_iff.2 hfinite]
    decide

theorem exists_cons_unsignedChars
    (hsign : style.exponentSign = [] ∨ style.exponentSign = ['+']) (x : Float) :
    ∃ c rest, unsignedChars style x = c :: rest := by
  unfold unsignedChars
  split
  · obtain ⟨digit, rest, hchars, -⟩ := isMagnitude_magnitude hsign x.toBits
    exact ⟨digit, rest, hchars⟩
  · exact ⟨'i', ['n', 'f'], rfl⟩

/-- The minus sign can be told from the rest of the text. -/
theorem sign_eq_of_write_eq (hsign : style.exponentSign = [] ∨ style.exponentSign = ['+'])
    (hx : x.isNaN = false) (hy : y.isNaN = false) (h : style.write x = style.write y) :
    isNegative x = isNegative y ∧ unsignedChars style x = unsignedChars style y := by
  have hminus (z : Float) : ∀ rest, unsignedChars style z ≠ '-' :: rest := by
    intro rest hchars
    have hhead := head_unsignedChars hsign z '-'
    rw [hchars] at hhead
    exact (hhead rfl).2 rfl
  rw [write_eq style hx, write_eq style hy] at h
  cases hxneg : isNegative x <;> cases hyneg : isNegative y
  · rw [hxneg, hyneg] at h
    exact ⟨rfl, h⟩
  · rw [hxneg, hyneg] at h
    exact absurd h (hminus x _)
  · rw [hxneg, hyneg] at h
    exact absurd h.symm (hminus y _)
  · rw [hxneg, hyneg] at h
    exact ⟨rfl, List.append_cancel_left h⟩

theorem isFinite_eq_of_unsignedChars_eq
    (hsign : style.exponentSign = [] ∨ style.exponentSign = ['+'])
    (h : unsignedChars style x = unsignedChars style y) : isFinite x = isFinite y := by
  obtain ⟨c, rest, hchars⟩ := exists_cons_unsignedChars hsign x
  have hx := head_unsignedChars hsign x c
  have hy := head_unsignedChars hsign y c
  rw [hchars] at hx
  rw [← h, hchars] at hy
  rw [← (hx rfl).1, ← (hy rfl).1]

/-- Known doubles that are written alike are one. -/
theorem write_injective (hsign : style.exponentSign = [] ∨ style.exponentSign = ['+'])
    (hx : x.isNaN = false) (hy : y.isNaN = false) (h : style.write x = style.write y) : x = y := by
  obtain ⟨hnegative, hchars⟩ := sign_eq_of_write_eq hsign hx hy h
  have hfinite := isFinite_eq_of_unsignedChars_eq hsign hchars
  have hfields : Binary.exponentField x.toBits = Binary.exponentField y.toBits ∧
      Binary.fraction x.toBits = Binary.fraction y.toBits := by
    cases hxfinite : isFinite x
    · rw [hxfinite] at hfinite
      obtain ⟨hxfield, hxfraction⟩ := fields_of_infinite hx hxfinite
      obtain ⟨hyfield, hyfraction⟩ := fields_of_infinite hy hfinite.symm
      rw [hxfield, hyfield, hxfraction, hyfraction]
      exact ⟨rfl, rfl⟩
    · rw [hxfinite] at hfinite
      rw [unsignedChars, unsignedChars, hxfinite, ← hfinite, if_pos rfl, if_pos rfl] at hchars
      have hxrounds := roundsTo_magnitude hsign x.toBits
      have hyrounds := roundsTo_magnitude hsign y.toBits
      rw [hchars] at hxrounds
      rw [Binary.ofBits_eq_ofPosition] at hxrounds hyrounds
      have hposition := Binary.position_eq_of_roundsTo hxrounds hyrounds
      have hxlt : Binary.fraction x.toBits < 2 ^ 52 := Nat.mod_lt _ (by decide)
      have hylt : Binary.fraction y.toBits < 2 ^ 52 := Nat.mod_lt _ (by decide)
      omega
  exact eq_of_fields hnegative hfields.1 hfields.2

end Texts

end Decimal
end ScoreTree
