import Mathlib.Algebra.Order.Field.Power
import Mathlib.Tactic.Positivity
import Mathlib.Tactic.Ring
import ScoreTree.Decimal.Style
import ScoreTree.Proofs.Decimal.Rounding

/-!
# The value of a numeral

`numeralValue` reads digits around a point and an exponent behind an `e`. Whatever layout a style
chooses for a decimal, the text has the value of the decimal (`numeralValue_layout`), so the texts of
two decimals differ unless their values agree.
-/

namespace ScoreTree
namespace Decimal

/-- The digits as they stand, and the number of those behind the point. -/
def mantissaValue (cs : List Char) : ℚ :=
  Nat.ofDigitChars 10 (cs.filter Char.isDigit) 0 *
    10 ^ (-((cs.dropWhile (· != '.')).drop 1).length : ℤ)

def exponentValue : List Char → ℤ
  | '-' :: cs => -Nat.ofDigitChars 10 cs 0
  | cs => Nat.ofDigitChars 10 (cs.filter Char.isDigit) 0

def numeralValue (cs : List Char) : ℚ :=
  mantissaValue (cs.takeWhile (· != 'e')) *
    10 ^ exponentValue ((cs.dropWhile (· != 'e')).drop 1)

/-- Digits with a point among them, or none, of a given value. -/
def IsMantissa (cs : List Char) (q : ℚ) : Prop :=
  ∃ whole fraction : List Char, (cs = whole ++ '.' :: fraction ∨ cs = whole ∧ fraction = []) ∧
    whole ≠ [] ∧ (∀ c ∈ whole ++ fraction, c.isDigit = true) ∧
    q = Nat.ofDigitChars 10 (whole ++ fraction) 0 * 10 ^ (-fraction.length : ℤ)

namespace IsMantissa

variable {cs : List Char} {q : ℚ}

theorem mantissaValue_eq (h : IsMantissa cs q) : mantissaValue cs = q := by
  obtain ⟨whole, fraction, hcs, -, hdigits, rfl⟩ := h
  have hfilter : (whole ++ fraction).filter Char.isDigit = whole ++ fraction :=
    List.filter_eq_self.2 hdigits
  have hpoint : ∀ c ∈ whole, (c != '.') = true := by
    intro c hc
    have hdigit := hdigits c (List.mem_append_left _ hc)
    rw [bne_iff_ne]
    rintro rfl
    exact absurd hdigit (by decide)
  rw [mantissaValue]
  rcases hcs with rfl | ⟨rfl, rfl⟩
  · rw [List.dropWhile_append_of_pos hpoint]
    rw [List.filter_append] at hfilter ⊢
    simp [hfilter]
  · rw [List.append_nil] at hfilter
    have hdrop : cs.dropWhile (· != '.') = [] := by
      rw [← List.append_nil cs, List.dropWhile_append_of_pos hpoint, List.dropWhile_nil]
    rw [hfilter, List.append_nil, hdrop]
    rfl

theorem isDigit_or_point (h : IsMantissa cs q) : ∀ c ∈ cs, c.isDigit = true ∨ c = '.' := by
  obtain ⟨whole, fraction, hcs, -, hdigits, rfl⟩ := h
  intro c hc
  rcases hcs with rfl | ⟨rfl, rfl⟩
  · rcases List.mem_append.1 hc with hc | hc
    · exact .inl (hdigits c (List.mem_append_left _ hc))
    · rcases List.mem_cons.1 hc with hc | hc
      · exact .inr hc
      · exact .inl (hdigits c (List.mem_append_right _ hc))
  · exact .inl (hdigits c (List.mem_append_left _ hc))

theorem exists_digit (h : IsMantissa cs q) : ∃ digit rest, cs = digit :: rest ∧ digit.isDigit = true := by
  obtain ⟨whole, fraction, hcs, hne, hdigits, rfl⟩ := h
  obtain ⟨digit, rest, rfl⟩ := List.exists_cons_of_ne_nil hne
  have hdigit : digit.isDigit = true := hdigits digit (by simp)
  rcases hcs with rfl | ⟨rfl, rfl⟩
  · exact ⟨digit, _, rfl, hdigit⟩
  · exact ⟨digit, _, rfl, hdigit⟩

end IsMantissa

/-- Zeros behind the digits of a number move it to a higher power of ten. -/
theorem ofDigitChars_append_zeros (digits : List Char) (n : Nat) :
    Nat.ofDigitChars 10 (digits ++ zeros n) 0 = Nat.ofDigitChars 10 digits 0 * 10 ^ n := by
  rw [Nat.ofDigitChars_append, zeros, Nat.ofDigitChars_replicate_zero, mul_comm]

theorem isDigit_of_mem_zeros {n : Nat} : ∀ c ∈ zeros n, c.isDigit = true := by
  intro c hc
  rw [List.eq_of_mem_replicate hc]
  decide

theorem isMantissa_plain {digits : List Char} (hdigits : ∀ c ∈ digits, c.isDigit = true)
    (hne : digits ≠ []) (power : ℤ) :
    IsMantissa (plain digits power)
      (Nat.ofDigitChars 10 digits 0 * 10 ^ (power + 1 - digits.length)) := by
  have hlength : 0 < digits.length := List.length_pos_iff.2 hne
  unfold plain
  split
  · -- Zeros between the point and the digits.
    refine ⟨['0'], zeros (-power - 1).toNat ++ digits, .inl (by simp), by simp, ?_, ?_⟩
    · exact List.forall_mem_append.2
        ⟨isDigit_of_mem_zeros (n := 1), List.forall_mem_append.2 ⟨isDigit_of_mem_zeros, hdigits⟩⟩
    · have hplaces : -((zeros (-power - 1).toNat ++ digits).length : ℤ) =
          power + 1 - digits.length := by
        simp only [zeros, List.length_append, List.length_replicate]
        omega
      have hcoefficient : Nat.ofDigitChars 10 (['0'] ++ (zeros (-power - 1).toNat ++ digits)) 0 =
          Nat.ofDigitChars 10 digits 0 := by
        rw [← List.append_assoc, Nat.ofDigitChars_append, ofDigitChars_append_zeros]
        simp [Nat.ofDigitChars]
      rw [hplaces, hcoefficient]
  · dsimp only
    split
    · -- Zeros between the digits and the point.
      refine ⟨digits ++ zeros (power.toNat + 1 - digits.length), ['0'], .inl (by simp),
        by simp [hne], ?_, ?_⟩
      · exact List.forall_mem_append.2
          ⟨List.forall_mem_append.2 ⟨hdigits, isDigit_of_mem_zeros⟩, isDigit_of_mem_zeros (n := 1)⟩
      · have hzeros : ((power.toNat + 1 - digits.length : ℕ) : ℤ) =
            power + 1 - digits.length := by omega
        have hcoefficient : Nat.ofDigitChars 10
            (digits ++ zeros (power.toNat + 1 - digits.length) ++ ['0']) 0 =
              Nat.ofDigitChars 10 digits 0 * 10 ^ (power.toNat + 1 - digits.length) * 10 := by
          rw [Nat.ofDigitChars_append, ofDigitChars_append_zeros]
          simp [Nat.ofDigitChars, mul_comm]
        rw [hcoefficient, ← hzeros, zpow_natCast]
        push_cast
        simp
    · -- The point among the digits.
      refine ⟨digits.take (power.toNat + 1), digits.drop (power.toNat + 1), .inl (by simp), ?_, ?_, ?_⟩
      · simp [hne]
      · rwa [List.take_append_drop]
      · have hplaces : -((digits.drop (power.toNat + 1)).length : ℤ) =
            power + 1 - digits.length := by
          rw [List.length_drop]
          omega
        rw [List.take_append_drop, hplaces]

theorem isMantissa_scientific {digits : List Char} (hdigits : ∀ c ∈ digits, c.isDigit = true)
    (hne : digits ≠ []) (sign : List Char) (power : ℤ) :
    ∃ mantissa,
      IsMantissa mantissa (Nat.ofDigitChars 10 digits 0 * 10 ^ (1 - digits.length : ℤ)) ∧
        scientific sign digits power = mantissa ++ 'e' ::
          ((if power < 0 then ['-'] else sign) ++ Nat.toDigits 10 power.natAbs) := by
  cases digits with
  | nil => exact absurd rfl hne
  | cons first rest =>
    cases rest with
    | nil =>
      refine ⟨[first], ⟨[first], [], .inr ⟨rfl, rfl⟩, by simp, hdigits, by simp⟩, ?_⟩
      simp [scientific]
    | cons next rest =>
      refine ⟨first :: '.' :: next :: rest,
        ⟨[first], next :: rest, .inl rfl, by simp, hdigits, ?_⟩, ?_⟩
      · simp
      · simp [scientific]

theorem IsMantissa.ne_exponent {cs : List Char} {q : ℚ} (h : IsMantissa cs q) :
    ∀ c ∈ cs, (c != 'e') = true := by
  intro c hc
  rcases h.isDigit_or_point c hc with hdigit | rfl
  · rw [bne_iff_ne]
    rintro rfl
    exact absurd hdigit (by decide)
  · decide

theorem IsMantissa.numeralValue_eq {cs : List Char} {q : ℚ} (h : IsMantissa cs q) :
    numeralValue cs = q := by
  have hmantissa := h.ne_exponent
  have htake : cs.takeWhile (· != 'e') = cs := by
    rw [← List.append_nil cs, List.takeWhile_append_of_pos hmantissa, List.takeWhile_nil]
  have hdrop : cs.dropWhile (· != 'e') = [] := by
    rw [← List.append_nil cs, List.dropWhile_append_of_pos hmantissa, List.dropWhile_nil]
  rw [numeralValue, htake, hdrop, h.mantissaValue_eq]
  simp [exponentValue]

theorem IsMantissa.numeralValue_exponent {cs : List Char} {q : ℚ} (h : IsMantissa cs q)
    (exponent : List Char) :
    numeralValue (cs ++ 'e' :: exponent) = q * 10 ^ exponentValue exponent := by
  have hmantissa := h.ne_exponent
  rw [numeralValue, List.takeWhile_append_of_pos hmantissa,
    List.dropWhile_append_of_pos hmantissa]
  simp [h.mantissaValue_eq]

theorem exponentValue_of_ne_minus {cs : List Char} (h : ∀ c ∈ cs.head?, c ≠ '-') :
    exponentValue cs = Nat.ofDigitChars 10 (cs.filter Char.isDigit) 0 := by
  unfold exponentValue
  split
  · exact absurd rfl (h '-' rfl)
  · rfl

theorem exponentValue_toDigits {sign : List Char} (hsign : sign = [] ∨ sign = ['+'])
    (power : ℤ) :
    exponentValue ((if power < 0 then ['-'] else sign) ++ Nat.toDigits 10 power.natAbs) =
      power := by
  have hdigits : ∀ c ∈ Nat.toDigits 10 power.natAbs, c.isDigit = true := by
    intro c hc
    exact Nat.isDigit_of_mem_toDigits (by decide) (by decide) hc
  have hfilter := List.filter_eq_self.2 hdigits
  split
  · simp only [List.cons_append, List.nil_append, exponentValue, Nat.ofDigitChars_ten_toDigits]
    omega
  · have hhead : ∀ c ∈ (sign ++ Nat.toDigits 10 power.natAbs).head?, c ≠ '-' := by
      intro c hc hminus
      subst hminus
      rcases hsign with rfl | rfl
      · exact absurd (hdigits '-' (List.mem_of_mem_head? hc)) (by decide)
      · exact absurd (Option.some.inj hc) (by decide)
    have hsignless : (sign ++ Nat.toDigits 10 power.natAbs).filter Char.isDigit =
        Nat.toDigits 10 power.natAbs := by
      rw [List.filter_append, hfilter]
      rcases hsign with rfl | rfl <;> rfl
    rw [exponentValue_of_ne_minus hhead, hsignless, Nat.ofDigitChars_ten_toDigits]
    omega

theorem numeralValue_layout {style : Style}
    (hsign : style.exponentSign = [] ∨ style.exponentSign = ['+']) (d : Decimal) :
    numeralValue (style.layout d) = d.value := by
  have hdigits : ∀ c ∈ Nat.toDigits 10 d.coefficient, c.isDigit = true := by
    intro c hc
    exact Nat.isDigit_of_mem_toDigits (by decide) (by decide) hc
  have hne : Nat.toDigits 10 d.coefficient ≠ [] := Nat.toDigits_ne_nil
  unfold Style.layout
  dsimp only
  generalize hpower : d.exponent + (Nat.toDigits 10 d.coefficient).length - 1 = power
  have hexponent : power + 1 - (Nat.toDigits 10 d.coefficient).length = d.exponent := by omega
  split
  · rw [(isMantissa_plain hdigits hne power).numeralValue_eq, hexponent,
      Nat.ofDigitChars_ten_toDigits]
    rfl
  · obtain ⟨mantissa, hmantissa, hchars⟩ :=
      isMantissa_scientific hdigits hne style.exponentSign power
    rw [hchars, hmantissa.numeralValue_exponent, exponentValue_toDigits hsign, mul_assoc,
      ← zpow_add₀ (by norm_num), Nat.ofDigitChars_ten_toDigits, Decimal.value]
    congr 2
    omega

/-- A digit, and then characters of numerals. -/
def IsMagnitude (cs : List Char) : Prop :=
  ∃ digit rest, cs = digit :: rest ∧ digit.isDigit = true ∧
    ∀ c ∈ rest, c.isDigit = true ∨ c = '.' ∨ c = 'e' ∨ c = 'E' ∨ c = '-' ∨ c = '+'

theorem IsMantissa.isMagnitude_append {cs : List Char} {q : ℚ} (h : IsMantissa cs q)
    {exponent : List Char} (hexponent : ∀ c ∈ exponent,
      c.isDigit = true ∨ c = '.' ∨ c = 'e' ∨ c = 'E' ∨ c = '-' ∨ c = '+') :
    IsMagnitude (cs ++ exponent) := by
  have hchars := h.isDigit_or_point
  obtain ⟨digit, rest, rfl, hdigit⟩ := h.exists_digit
  refine ⟨digit, rest ++ exponent, rfl, hdigit, ?_⟩
  intro c hc
  rcases List.mem_append.1 hc with hc | hc
  · rcases hchars c (List.mem_cons_of_mem _ hc) with hc | hc
    · exact .inl hc
    · exact .inr (.inl hc)
  · exact hexponent c hc

theorem isMagnitude_layout {style : Style}
    (hsign : style.exponentSign = [] ∨ style.exponentSign = ['+']) (d : Decimal) :
    IsMagnitude (style.layout d) := by
  have hdigits : ∀ c ∈ Nat.toDigits 10 d.coefficient, c.isDigit = true := by
    intro c hc
    exact Nat.isDigit_of_mem_toDigits (by decide) (by decide) hc
  have hne : Nat.toDigits 10 d.coefficient ≠ [] := Nat.toDigits_ne_nil
  unfold Style.layout
  dsimp only
  generalize d.exponent + (Nat.toDigits 10 d.coefficient).length - 1 = power
  split
  · rw [← List.append_nil (plain _ _)]
    exact (isMantissa_plain hdigits hne power).isMagnitude_append (by simp)
  · obtain ⟨mantissa, hmantissa, hchars⟩ :=
      isMantissa_scientific hdigits hne style.exponentSign power
    rw [hchars]
    refine hmantissa.isMagnitude_append ?_
    intro c hc
    rcases List.mem_cons.1 hc with rfl | hc
    · decide
    · rcases List.mem_append.1 hc with hc | hc
      · split at hc
        · rw [List.mem_singleton.1 hc]
          decide
        · rcases hsign with hsign | hsign
          · rw [hsign] at hc
            exact absurd hc List.not_mem_nil
          · rw [hsign] at hc
            rw [List.mem_singleton.1 hc]
            decide
      · exact .inl (Nat.isDigit_of_mem_toDigits (by decide) (by decide) hc)

end Decimal
end ScoreTree
