import ScoreTree.Proofs.Formula.Reader

/-!
# Numerals of formulas

What is asked of the texts of numbers so that formulas can be read back: a numeral is an infinity or
starts with a digit after an optional minus sign, and numbers that are known have texts of their own.
Numbers that are not known, such as an incomparable one, may share a text.
-/

namespace ScoreTree
namespace Formula

universe u

/-- An infinity, or digits with an optional minus sign, point and exponent. -/
def IsNumeral (cs : List Char) : Prop :=
  cs = ['i', 'n', 'f'] ∨ cs = ['-', 'i', 'n', 'f'] ∨
    ∃ sign digit rest, cs = sign ++ digit :: rest ∧ (sign = [] ∨ sign = ['-']) ∧
      digit.isDigit = true ∧
      ∀ c ∈ rest, c.isDigit = true ∨ c = '.' ∨ c = 'e' ∨ c = 'E' ∨ c = '-' ∨ c = '+'

/-- The texts and the opposites of the numbers that are known. -/
structure NumeralLaws (α : Type u) [Numeral α] [Neg α] (known : α → Prop) : Prop where
  isNumeral : ∀ {x : α}, known x → IsNumeral (Numeral.chars x)
  injective : ∀ {x y : α}, known x → known y → Numeral.chars x = Numeral.chars y → x = y
  known_neg : ∀ {x : α}, known x → known (-x)
  neg_neg : ∀ {x : α}, known x → - -x = x

namespace IsNumeral

variable {cs : List Char}

theorem isNumeralChar (h : IsNumeral cs) : ∀ c ∈ cs, isNumeralChar c = true := by
  rcases h with rfl | rfl | ⟨sign, digit, rest, rfl, hsign, hdigit, hrest⟩
  · simp [Formula.isNumeralChar]
  · simp [Formula.isNumeralChar]
  · intro c hc
    rcases List.mem_append.mp hc with hc | hc
    · rcases hsign with rfl | rfl
      · simp at hc
      · rw [List.mem_singleton.mp hc]
        decide
    · rcases List.mem_cons.mp hc with rfl | hc
      · simp [Formula.isNumeralChar, Char.isAlphanum, hdigit]
      · rcases hrest c hc with hc | rfl | rfl | rfl | rfl | rfl
        · simp [Formula.isNumeralChar, Char.isAlphanum, hc]
        all_goals decide

theorem isDigit_or_minus (h : IsNumeral cs) :
    cs = ['i', 'n', 'f'] ∨ ∃ c rest, cs = c :: rest ∧ (c.isDigit = true ∨ c = '-') := by
  rcases h with h | rfl | ⟨sign, digit, rest, rfl, hsign, hdigit, -⟩
  · exact .inl h
  · exact .inr ⟨'-', _, rfl, .inr rfl⟩
  · rcases hsign with rfl | rfl
    · exact .inr ⟨digit, rest, rfl, .inl hdigit⟩
    · exact .inr ⟨'-', _, rfl, .inr rfl⟩

end IsNumeral

variable {α : Type u} [Numeral α]

open Classical in
/-- The known number that is written as the given text. -/
noncomputable def ofChars? (known : α → Prop) (cs : List Char) : Option α :=
  if h : ∃ x, known x ∧ Numeral.chars x = cs then some h.choose else none

theorem NumeralLaws.ofChars?_chars [Neg α] {known : α → Prop} (laws : NumeralLaws α known)
    {x : α} (h : known x) : ofChars? known (Numeral.chars x) = some x := by
  have hexists : ∃ y, known y ∧ Numeral.chars y = Numeral.chars x := ⟨x, h, rfl⟩
  obtain ⟨hknown, hchars⟩ := hexists.choose_spec
  rw [ofChars?, dif_pos hexists, laws.injective hknown h hchars]

end Formula
end ScoreTree
