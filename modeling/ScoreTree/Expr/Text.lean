import ScoreTree.Decimal.Style
import ScoreTree.Expr.Basic

/-!
# The text of a tree

A tree is written as a formula. An operator is written as a call, an affine map as the sum of its
terms `c*I[i]` and its intercept, with the rows of a matrix between brackets and separated by
semicolons, and an output mark is not written. A negative term after the first one is subtracted, so
`- 2.0*x[1]` has the coefficient `-2.0`.
-/

namespace ScoreTree

universe u

/-- How numbers of a type are written. `isNegative` says whether the text carries a minus sign, which
also negative zero does. -/
class Numeral (α : Type u) where
  chars : α → List Char
  isNegative : α → Bool

/-- Formulas write numbers from `10 ^ -4` to below `10 ^ 16` without an exponent, and an exponent
without a plus sign. A tie between two shortest decimals goes up. -/
def formulaStyle : Decimal.Style where
  tie := .up
  leastPlain := -4
  greatestPlain := 15
  exponentSign := []

instance : Numeral Float where
  chars := formulaStyle.write
  isNegative := Decimal.isNegative

variable {α : Type u} [Numeral α]

/-- Texts with a separator between any two. -/
def joinChars (separator : List Char) : List (List Char) → List Char
  | [] => []
  | [text] => text
  | text :: rest => text ++ separator ++ joinChars separator rest

def Value.chars : Value α → List Char
  | scalar x => Numeral.chars x
  | vector row => ['['] ++ joinChars [',', ' '] (row.entries.map Numeral.chars) ++ [']']

section Affine

variable [Neg α]

/-- A number that is added to what stands before it; a negative one is subtracted. -/
def signedChars (x : α) : List Char :=
  if Numeral.isNegative x then [' ', '-', ' '] ++ Numeral.chars (-x)
  else [' ', '+', ' '] ++ Numeral.chars x

/-- The multiplication by component `i` of the argument. -/
def componentChars (arg : List Char) (i : Nat) : List Char :=
  ['*'] ++ arg ++ ['['] ++ Nat.toDigits 10 i ++ [']']

/-- The terms of the components from `i` on. -/
def furtherTerms (arg : List Char) (i : Nat) : List α → List Char
  | [] => []
  | c :: cs => signedChars c ++ componentChars arg i ++ furtherTerms arg (i + 1) cs

/-- A row of coefficients, applied to an argument with the given text. -/
def rowChars (arg : List Char) (intercept : α) : List α → List Char
  | [] => signedChars intercept
  | c :: cs =>
    Numeral.chars c ++ componentChars arg 0 ++ furtherTerms arg 1 cs ++ signedChars intercept

/-- An affine map of an argument with the given text. -/
def Weights.chars (arg : List Char) : Weights α → List Char
  | row coef intercept => rowChars arg intercept coef.entries
  | matrix coef intercept =>
    ['['] ++ joinChars [';', ' ']
      (List.zipWith (fun row b => rowChars arg b row) coef.rows intercept) ++ [']']

namespace Expr

/-- The formula as a list of characters. The argument of an affine map stands in parentheses unless
it is an input. -/
def chars : Expr α → List Char
  | input name => name.toList
  | const v => v.chars
  | linear weights (input name) => weights.chars name.toList
  | linear weights arg => weights.chars (['('] ++ arg.chars ++ [')'])
  | unary op arg => op.name.toList ++ ['('] ++ arg.chars ++ [')']
  | classifier _ arg => arg.chars

/-- The formula. -/
def text (e : Expr α) : String := String.ofList e.chars

end Expr
end Affine
end ScoreTree
