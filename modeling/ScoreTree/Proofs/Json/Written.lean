import ScoreTree.Json.Number
import ScoreTree.Proofs.Decimal.Rounding
import ScoreTree.Proofs.Json.Forms

/-!
# What is written

The text of a value is a text of the grammar: an integer is written as its digits, a finite double
with a point or an exponent (`exists_isText_floatChars`), and any string is spelled between quotes.
-/

namespace ScoreTree
namespace Json

/-! ## Digits -/

/-- The digits of a number, none of which is a zero in front. -/
structure IsNumeralOf (ds : List Nat) (n : Nat) : Prop where
  digits : IsDigits ds
  leading : ds.head? = some 0 → ds = [0]
  value : Number.ofDigits ds = n

theorem exists_isNumeralOf (n : Nat) :
    ∃ ds, Nat.toDigits 10 n = digitChars ds ∧ IsNumeralOf ds n := by
  induction n using Nat.strongRecOn with
  | ind n ih =>
    by_cases hn : n < 10
    · refine ⟨[n], Nat.toDigits_of_lt_base hn, ⟨List.cons_ne_nil _ _, ?_⟩, ?_, ?_⟩
      · intro d hd
        rw [List.mem_singleton.mp hd]
        exact hn
      · intro hzero
        rw [Option.some.inj hzero]
      · exact Nat.zero_add n
    · obtain ⟨ds, hchars, ⟨hne, hdigits⟩, hleading, hvalue⟩ := ih (n / 10) (by omega)
      refine ⟨ds ++ [n % 10], ?_, ⟨by simp, ?_⟩, ?_, ?_⟩
      · rw [Nat.toDigits_of_base_le (by decide) (Nat.le_of_not_lt hn), hchars, digitChars,
          digitChars, List.map_append]
        rfl
      · intro d hd
        rcases List.mem_append.mp hd with hd | hd
        · exact hdigits d hd
        · rw [List.mem_singleton.mp hd]
          exact Nat.mod_lt n (by decide)
      · -- A zero in front would be all of the number without its last digit.
        intro hzero
        rw [List.head?_append_of_ne_nil _ hne] at hzero
        rw [hleading hzero] at hvalue
        have hquotient : n / 10 = 0 := hvalue.symm
        omega
      · rw [Number.ofDigits, List.foldl_append]
        change Number.ofDigits ds * 10 + n % 10 = n
        rw [hvalue]
        omega

theorem ofDigits_append (ds es : List Nat) :
    Number.ofDigits (ds ++ es) = Number.ofDigits ds * 10 ^ es.length + Number.ofDigits es := by
  induction es using List.reverseRecOn with
  | nil => simp [Number.ofDigits]
  | append_singleton es e ih =>
    have hlast (ds : List Nat) : Number.ofDigits (ds ++ [e]) = Number.ofDigits ds * 10 + e := by
      rw [Number.ofDigits, List.foldl_append]
      rfl
    rw [← List.append_assoc, hlast, hlast, ih, List.length_append, List.length_singleton, pow_succ]
    ring

theorem ofDigits_zeros (k : Nat) : Number.ofDigits (List.replicate k 0) = 0 := by
  induction k with
  | zero => rfl
  | succ k ih => rwa [List.replicate_succ]

theorem IsNumeralOf.head_ne_zero {ds : List Nat} {n : Nat} (h : IsNumeralOf ds n) (hn : 0 < n) :
    ds.head? ≠ some 0 := by
  intro hzero
  have hvalue := h.value
  rw [h.leading hzero] at hvalue
  exact absurd hvalue (Nat.ne_of_lt hn)

/-! ## Integers -/

/-- The digits of an integer. -/
def IsIntegerLiteral (l : Literal) (n : Int) : Prop :=
  l.negative = decide (n < 0) ∧ IsNumeralOf l.whole n.natAbs ∧ l.fraction = none ∧ l.exponent = none

theorem exists_isText_integerChars (n : Int) :
    ∃ l : Literal, l.IsText (integerChars n) ∧ IsIntegerLiteral l n := by
  obtain ⟨ds, hchars, hds⟩ := exists_isNumeralOf n.natAbs
  have hwell : Literal.WellFormed ⟨decide (n < 0), ds, none, none⟩ :=
    ⟨hds.digits, hds.leading, by simp, by simp⟩
  have htext := Literal.IsText.digits hwell .absent
  have heq : integerChars n = (if decide (n < 0) = true then ['-'] else []) ++
      (digitChars ds ++ (fractionChars none ++ [])) := by
    rw [integerChars, hchars, fractionChars, List.append_nil, List.append_nil]
    by_cases hn : n < 0
    · simp [hn]
    · simp [hn]
  rw [heq]
  exact ⟨_, htext, rfl, hds, rfl, rfl⟩

/-- An integer of 64 bits, with or without a sign. -/
def IsWord (n : Int) : Prop := -((UInt64.size / 2 : Nat) : Int) ≤ n ∧ n < (UInt64.size : Nat)

theorem IsIntegerLiteral.value_eq {l : Literal} {n : Int} (h : IsIntegerLiteral l n)
    (hn : IsWord n) : l.value = .ok (.integer n) := by
  obtain ⟨hnegative, hwhole, hfraction, hexponent⟩ := h
  obtain ⟨hmin, hmax⟩ := hn
  rw [Literal.value, hwhole.value, hfraction, hexponent, hnegative]
  by_cases hn : n < 0
  · have hrange : 0 < n.natAbs ∧ n.natAbs ≤ UInt64.size / 2 := by omega
    have habs : -(n.natAbs : Int) = n := by omega
    have hbranch : decide (n < 0) = true := by simpa using hn
    rw [if_neg (by simp [hbranch]), if_pos ⟨rfl, rfl, hbranch, hrange⟩, habs]
  · have hrange : n.natAbs < UInt64.size := by omega
    have habs : (n.natAbs : Int) = n := by omega
    have hbranch : decide (n < 0) = false := by simpa using hn
    rw [if_pos ⟨rfl, rfl, hbranch, hrange⟩, habs]

/-! ## Doubles -/

/-- The digits of a number that is not written as an integer. -/
def Literal.IsFractional (l : Literal) : Prop := l.fraction.isSome ∨ l.exponent.isSome

theorem Literal.IsFractional.value_eq {l : Literal} (h : l.IsFractional) :
    l.value = l.toFloat.map .float := by
  have hnone : ¬ (l.fraction.isNone = true ∧ l.exponent.isNone = true) := by
    rintro ⟨hfraction, hexponent⟩
    rcases h with h | h
    · simp_all
    · simp_all
  rw [Literal.value, if_neg fun h => hnone ⟨h.1, h.2.1⟩, if_neg fun h => hnone ⟨h.1, h.2.1⟩]

/-- The digits of a number without the point, and the power of ten of the last one. -/
def Literal.decimal (l : Literal) : Decimal :=
  ⟨Number.ofDigits (l.whole ++ l.fraction.getD []), l.lastPower⟩

/-- The digits of a decimal that is not written as an integer, with an exponent that is not too great. -/
structure Literal.Writes (l : Literal) (d : Decimal) (bound : Nat) : Prop where
  fractional : l.IsFractional
  decimal : l.decimal = d
  exponent : ∀ e ∈ l.exponent, Number.ofDigits e.2 ≤ bound

/-- A text of a decimal without a sign. -/
def IsUnsigned (cs : List Char) (d : Decimal) (bound : Nat) : Prop :=
  ∃ l : Literal, l.negative = false ∧ l.Writes d bound ∧ l.IsText cs

theorem IsUnsigned.exists_isText {cs : List Char} {d : Decimal} {bound : Nat}
    (h : IsUnsigned cs d bound) (negative : Bool) :
    ∃ l : Literal, l.negative = negative ∧ l.Writes d bound ∧
      l.IsText ((if negative then ['-'] else []) ++ cs) := by
  obtain ⟨⟨_, whole, fraction, exponent⟩, rfl, hl, htext⟩ := h
  cases htext with
  | digits h hexponent =>
    refine ⟨⟨negative, whole, fraction, exponent⟩, rfl,
      ⟨hl.fractional, hl.decimal, hl.exponent⟩, ?_⟩
    exact Literal.IsText.digits (l := ⟨negative, whole, fraction, exponent⟩)
      ⟨h.whole, h.leading, h.fraction, h.exponent⟩ hexponent

theorem isUnsigned_point {whole fraction : List Nat} (hwhole : IsDigits whole)
    (hleading : whole.head? = some 0 → whole = [0]) (hfraction : IsDigits fraction) (bound : Nat) :
    IsUnsigned (digitChars whole ++ '.' :: digitChars fraction)
      ⟨Number.ofDigits (whole ++ fraction), -fraction.length⟩ bound := by
  have htext := Literal.IsText.digits (l := ⟨false, whole, some fraction, none⟩)
    ⟨hwhole, hleading, by simpa using hfraction, by simp⟩ .absent
  simp only [fractionChars, List.append_nil] at htext
  refine ⟨_, rfl, ⟨.inl rfl, ?_, by simp⟩, htext⟩
  simp [Literal.decimal, Literal.lastPower, Literal.writtenPower]

theorem isUnsigned_exponent {whole : List Nat} (hwhole : IsDigits whole)
    (hleading : whole.head? = some 0 → whole = [0]) {fraction : Option (List Nat)}
    (hfraction : ∀ ds ∈ fraction, IsDigits ds) {power : Int} {es : List Nat} (hes : IsDigits es)
    (hvalue : Number.ofDigits es = power.natAbs) {exponent : List Char}
    (hexponent : IsExponent (some (decide (power < 0), es)) exponent) :
    IsUnsigned (digitChars whole ++ (fractionChars fraction ++ exponent))
      ⟨Number.ofDigits (whole ++ fraction.getD []), power - (fraction.getD []).length⟩
      power.natAbs := by
  have htext := Literal.IsText.digits
    (l := ⟨false, whole, fraction, some (decide (power < 0), es)⟩)
    ⟨hwhole, hleading, hfraction, by simpa using hes⟩ hexponent
  refine ⟨_, rfl, ⟨.inr rfl, ?_, by simp [hvalue]⟩, htext⟩
  rw [Literal.decimal, Literal.lastPower, Literal.writtenPower]
  by_cases hpower : power < 0
  · simp only [hpower, decide_true, hvalue, Int.ofNat_eq_natCast]
    congr 1
    omega
  · simp only [hpower, decide_false, hvalue, Int.ofNat_eq_natCast]
    congr 1
    omega

theorem digitChars_append (ds es : List Nat) :
    digitChars (ds ++ es) = digitChars ds ++ digitChars es := List.map_append

theorem zeros_eq_digitChars (k : Nat) : Decimal.zeros k = digitChars (List.replicate k 0) := by
  rw [digitChars, List.map_replicate]
  rfl

theorem length_digitChars (ds : List Nat) : (digitChars ds).length = ds.length := List.length_map _

theorem IsDigits.append_zeros {ds : List Nat} (h : IsDigits ds) (k : Nat) :
    IsDigits (ds ++ List.replicate k 0) ∧ IsDigits (List.replicate k 0 ++ ds) := by
  have hzero : ∀ d ∈ List.replicate k 0, d < 10 := by
    intro d hd
    rw [List.eq_of_mem_replicate hd]
    decide
  exact ⟨⟨by simp [h.1], List.forall_mem_append.mpr ⟨h.2, hzero⟩⟩,
    ⟨by simp [h.1], List.forall_mem_append.mpr ⟨hzero, h.2⟩⟩⟩

section Layout

variable {ds : List Nat} {n : Nat}

theorem isDigits_zero : IsDigits [0] := ⟨List.cons_ne_nil _ _, by simp⟩

/-- Digits around a point. Behind a whole number there is a zero. -/
theorem isUnsigned_plain (hds : IsNumeralOf ds n) (hn : 0 < n) (power : Int) (bound : Nat) :
    IsUnsigned (Decimal.plain (digitChars ds) power)
      (if 0 ≤ power + 1 - ds.length then
        ⟨n * Nat.pow 10 ((power + 1 - ds.length).toNat + 1), -1⟩
      else ⟨n, power + 1 - ds.length⟩) bound := by
  have hhead := hds.head_ne_zero hn
  obtain ⟨hne, hdigits⟩ := hds.digits
  have hlength : 0 < ds.length := List.length_pos_iff.mpr hne
  unfold Decimal.plain
  dsimp only
  rw [length_digitChars]
  by_cases hpower : power < 0
  · have hplaces : -((List.replicate (-power - 1).toNat 0 ++ ds).length : Int) =
        power + 1 - ds.length := by
      rw [List.length_append, List.length_replicate]
      omega
    have hvalue : Number.ofDigits ([0] ++ (List.replicate (-power - 1).toNat 0 ++ ds)) = n := by
      rw [ofDigits_append, ofDigits_append, ofDigits_zeros, hds.value]
      simp [Number.ofDigits]
    have htext := isUnsigned_point isDigits_zero (fun _ => rfl)
      (hds.digits.append_zeros (-power - 1).toNat).2 bound
    rw [hplaces, hvalue] at htext
    rw [if_pos hpower, if_neg (by omega), zeros_eq_digitChars, List.append_assoc,
      ← digitChars_append]
    exact htext
  · rw [if_neg hpower]
    split_ifs with hwhole hzeros hzeros
    · have hvalue : Number.ofDigits (ds ++ List.replicate (power.toNat + 1 - ds.length) 0 ++ [0]) =
          n * Nat.pow 10 ((power + 1 - ds.length).toNat + 1) := by
        have hcount : (power + 1 - ds.length).toNat = power.toNat + 1 - ds.length := by omega
        rw [ofDigits_append, ofDigits_append, ofDigits_zeros, hds.value, hcount]
        simp [Number.ofDigits, pow_succ, mul_assoc]
      have htext := isUnsigned_point (hds.digits.append_zeros (power.toNat + 1 - ds.length)).1 (by
        intro hzero
        rw [List.head?_append_of_ne_nil _ hne] at hzero
        exact absurd hzero hhead) isDigits_zero bound
      rw [hvalue] at htext
      rw [zeros_eq_digitChars, ← digitChars_append]
      exact htext
    · omega
    · omega
    · have htake : IsDigits (ds.take (power.toNat + 1)) :=
        ⟨by simp [hne], fun d hd => hdigits d (List.mem_of_mem_take hd)⟩
      have hdrop : IsDigits (ds.drop (power.toNat + 1)) :=
        ⟨by simpa using hwhole, fun d hd => hdigits d (List.mem_of_mem_drop hd)⟩
      have hplaces : -((ds.drop (power.toNat + 1)).length : Int) = power + 1 - ds.length := by
        rw [List.length_drop]
        omega
      have htext := isUnsigned_point htake (by
        intro hzero
        rw [List.head?_take] at hzero
        exact absurd hzero hhead) hdrop bound
      rw [List.take_append_drop, hds.value, hplaces] at htext
      rw [List.append_assoc, digitChars, ← List.map_take, ← List.map_drop]
      exact htext

/-- One digit, or digits around a point, and an exponent. -/
theorem isUnsigned_scientific (hds : IsNumeralOf ds n) (power : Int) :
    IsUnsigned (Decimal.scientific ['+'] (digitChars ds) power) ⟨n, power + 1 - ds.length⟩
      power.natAbs := by
  obtain ⟨es, hes, hexponent, -, hvalue⟩ := exists_isNumeralOf power.natAbs
  have hchars : IsExponent (some (decide (power < 0), es))
      ('e' :: ((if power < 0 then ['-'] else ['+']) ++ digitChars es)) := by
    split_ifs with hpower
    · rw [decide_eq_true hpower]
      exact .minus (.inl rfl) es
    · rw [decide_eq_false hpower]
      exact .plus (.inl rfl) es
  have hn := hds.value
  obtain ⟨hne, hdigits⟩ := hds.digits
  unfold Decimal.scientific
  rw [hes]
  match ds, hds, hdigits, hn with
  | [d], hds, _, hn =>
    have hfraction : ∀ ds ∈ (none : Option (List Nat)), IsDigits ds := by simp
    have htext := isUnsigned_exponent hds.digits hds.leading hfraction hexponent hvalue hchars
    have hplaces : power + 1 - [d].length = power - ([] : List Nat).length := by simp
    rw [Option.getD_none, List.append_nil, hn] at htext
    rw [hplaces]
    exact htext
  | d :: d' :: ds, _, hdigits, hn =>
    have hwhole : IsDigits [d] := ⟨List.cons_ne_nil _ _, fun c hc => hdigits c (by simp_all)⟩
    have hleading : [d].head? = some 0 → [d] = [0] := fun hzero => by rw [Option.some.inj hzero]
    have hfraction : ∀ ds' ∈ some (d' :: ds), IsDigits ds' := by
      rintro _ ⟨rfl⟩
      exact ⟨List.cons_ne_nil _ _, fun c hc => hdigits c (List.mem_cons_of_mem d hc)⟩
    have htext := isUnsigned_exponent hwhole hleading hfraction hexponent hvalue hchars
    have hplaces : power + 1 - (d :: d' :: ds).length = power - (d' :: ds).length := by
      simp only [List.length_cons]
      omega
    rw [hplaces]
    simpa [digitChars, fractionChars, hn] using htext

end Layout

theorem coefficient_pos {b : Binary} (hb : 0 < b.significand) (tie : Decimal.Tie) :
    0 < (b.shortest tie).coefficient := by
  have hbound : b.lower ≤ (b.shortest tie).value := (b.roundsTo_shortest hb).bounds.1
  have hlower : 0 < b.lower := by
    have hquarters : 0 < b.lowerQuarters := by
      unfold Binary.lowerQuarters
      split_ifs <;> omega
    unfold Binary.lower
    positivity
  apply Nat.pos_of_ne_zero
  intro hzero
  rw [Decimal.value, hzero, Nat.cast_zero, zero_mul] at hbound
  exact absurd hbound (not_le.mpr hlower)

/-- The digits that are written for a decimal. A whole number that is written without an exponent ends in a
zero behind the point. -/
def writtenDecimal (d : Decimal) : Decimal :=
  let power := d.exponent + (Nat.toDigits 10 d.coefficient).length - 1
  if (numberStyle.leastPlain ≤ power ∧ power ≤ numberStyle.greatestPlain) ∧ 0 ≤ d.exponent then
    ⟨d.coefficient * Nat.pow 10 (d.exponent.toNat + 1), -1⟩
  else d

theorem isUnsigned_layout {d : Decimal} (hd : 0 < d.coefficient) :
    IsUnsigned (numberStyle.layout d) (writtenDecimal d)
      (d.exponent + (Nat.toDigits 10 d.coefficient).length - 1).natAbs := by
  obtain ⟨ds, hchars, hds⟩ := exists_isNumeralOf d.coefficient
  have hexponent : d.exponent + ds.length - 1 + 1 - ds.length = d.exponent := by omega
  rw [Decimal.Style.layout, writtenDecimal, hchars, length_digitChars]
  by_cases hplain : numberStyle.leastPlain ≤ d.exponent + ds.length - 1 ∧
      d.exponent + ds.length - 1 ≤ numberStyle.greatestPlain
  · have htext := isUnsigned_plain hds hd (d.exponent + ds.length - 1)
      (d.exponent + ds.length - 1).natAbs
    rw [hexponent] at htext
    rw [if_pos hplain]
    simpa only [hplain, true_and] using htext
  · have htext := isUnsigned_scientific hds (d.exponent + ds.length - 1)
    rw [hexponent] at htext
    rw [if_neg hplain, if_neg (fun h => hplain h.1)]
    exact htext

/-- The digits that are written for a double. -/
def writtenDigits (x : Float) : Decimal :=
  let b := Binary.ofBits x.toBits
  if b.significand = 0 then ⟨0, -1⟩ else writtenDecimal (b.shortest numberStyle.tie)

/-- A bound of the exponents that are written for a double. -/
def writtenExponent (x : Float) : Nat :=
  let d := (Binary.ofBits x.toBits).shortest numberStyle.tie
  (d.exponent + (Nat.toDigits 10 d.coefficient).length - 1).natAbs

theorem isUnsigned_magnitude (x : Float) :
    IsUnsigned (numberStyle.magnitude x.toBits) (writtenDigits x) (writtenExponent x) := by
  rw [Decimal.Style.magnitude, writtenDigits]
  split_ifs with hzero
  · exact isUnsigned_point isDigits_zero (fun _ => rfl) isDigits_zero _
  · exact isUnsigned_layout (coefficient_pos (Nat.pos_of_ne_zero hzero) numberStyle.tie)

/-- The text of a finite double has a point or an exponent, so that it is no integer. -/
theorem exists_isText_floatChars {x : Float} (hx : Decimal.isFinite x = true) :
    ∃ l : Literal, l.negative = Decimal.isNegative x ∧
      l.Writes (writtenDigits x) (writtenExponent x) ∧ l.IsText (floatChars x) := by
  rw [floatChars, if_pos hx, Decimal.Style.write, if_pos hx]
  exact (isUnsigned_magnitude x).exists_isText (Decimal.isNegative x)

/-! ## Strings -/

theorem mem_shortEscapes {c e : Char} (h : shortEscape? c = some e) : (e, c) ∈ shortEscapes := by
  unfold shortEscape? at h
  split at h
  case h_8 => cases h
  all_goals
    cases h
    decide

theorem isHexDigit_digitChar {n : Nat} (h : n < 16) : IsHexDigit (Nat.digitChar n) n :=
  ⟨h, .inl rfl⟩

/-- Escaped characters spell what they were. -/
theorem spells_escaped (text : List Char) : Spells (text.flatMap escapeChar) text := by
  induction text with
  | nil => exact .nil
  | cons c text ih =>
    rw [List.flatMap_cons, escapeChar]
    cases hshort : shortEscape? c with
    | some e => exact .short (mem_shortEscapes hshort) ih
    | none =>
      dsimp only
      split_ifs with hcontrol
      · have hcode := IsCode.digits (isHexDigit_digitChar (by decide : 0 < 16))
          (isHexDigit_digitChar (by decide : 0 < 16))
          (isHexDigit_digitChar (by omega : c.toNat / 16 < 16))
          (isHexDigit_digitChar (by omega : c.toNat % 16 < 16))
        have hvalue : ((0 * 16 + 0) * 16 + c.toNat / 16) * 16 + c.toNat % 16 = c.toNat := by omega
        rw [hvalue] at hcode
        have hspells := Spells.code hcode (by omega) ih
        rw [Char.ofNat_toNat] at hspells
        exact hspells
      · have hquote : c ≠ '"' := by
          rintro rfl
          cases hshort
        have hslash : c ≠ '\\' := by
          rintro rfl
          cases hshort
        exact .plain hquote hslash (Nat.le_of_not_lt hcontrol) ih

theorem isString_stringChars (text : String) : IsString (stringChars text) text :=
  .quoted (spells_escaped text.toList)

end Json
end ScoreTree
