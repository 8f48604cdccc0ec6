import ScoreTree.Expr.Text
import ScoreTree.Settings

/-!
# Reading formulas

A reader of the texts that expressions are written as. `c*I[i]` is the coefficient `c` of component
`i` of the argument `I`, which is written the same way in every term. A further term with a plus sign
has the coefficient after the sign, one with a minus sign its opposite, and the number without a
component at the end is the intercept. Rows of a matrix are separated by semicolons and the numbers of
a vector by commas. A name is an operator if a parenthesis follows, and an input otherwise.

How a single numeral is read is a parameter.
-/

namespace ScoreTree
namespace Formula

universe u

/-- Takes something off the front of a text, and leaves the rest. -/
abbrev Reader (β : Type u) := List Char → Option (β × List Char)

/-- The characters of numerals, among which are the letters of `inf` and of an exponent. -/
def isNumeralChar (c : Char) : Bool := c.isAlphanum || c == '.' || c == '-' || c == '+'

def isNameChar (c : Char) : Bool := c.isAlphanum || c == '_'

/-- The rest after a fixed text. -/
def literal? (text cs : List Char) : Option (List Char) :=
  if text.isPrefixOf cs then some (cs.drop text.length) else none

variable {α : Type u} (number? : List Char → Option α)

def number : Reader α := fun cs =>
  (number? (cs.takeWhile isNumeralChar)).map fun x => (x, cs.dropWhile isNumeralChar)

/-- The numbers of a vector after the first one. -/
def furtherNumbers : Nat → Reader (List α)
  | 0, _ => none
  | fuel + 1, cs =>
    match cs with
    | ']' :: rest => some ([], rest)
    | ',' :: ' ' :: rest => do
      let (x, rest) ← number number? rest
      let (xs, rest) ← furtherNumbers fuel rest
      some (x :: xs, rest)
    | _ => none

section Affine

variable [Neg α]

/-- A number that is added or subtracted. -/
def signed : Reader α
  | ' ' :: '+' :: ' ' :: rest => number number? rest
  | ' ' :: '-' :: ' ' :: rest => (number number? rest).map fun (x, rest) => (-x, rest)
  | _ => none

/-- The coefficients from component `i` on and the intercept, where every component is one of the
argument with the given text. -/
def furtherTerms (arg : List Char) : Nat → Nat → Reader (List α × α)
  | 0, _, _ => none
  | fuel + 1, i, cs => do
    let (c, rest) ← signed number? cs
    match literal? (componentChars arg i) rest with
    | some rest =>
      let ((coef, intercept), rest) ← furtherTerms arg fuel (i + 1) rest
      some ((c :: coef, intercept), rest)
    | none => some (([], c), rest)

/-- The coefficients and the intercept of a row. -/
def row (arg : List Char) : Reader (List α × α) := fun cs => do
  let (c, rest) ← number number? cs
  (literal? (componentChars arg 0) rest).bind fun rest => do
    let ((coef, intercept), rest) ← furtherTerms number? arg rest.length 1 rest
    some ((c :: coef, intercept), rest)

/-- The rows of a matrix after the first one. -/
def furtherRows (arg : List Char) : Nat → Reader (List (List α × α))
  | 0, _ => none
  | fuel + 1, cs =>
    match cs with
    | ']' :: rest => some ([], rest)
    | ';' :: ' ' :: rest => do
      let (first, rest) ← row number? arg rest
      let (others, rest) ← furtherRows arg fuel rest
      some (first :: others, rest)
    | _ => none

variable (inner : Reader (Expr α))

/-- The argument of an affine map: an input, or an expression in parentheses. -/
def argument : Reader (Expr α)
  | '(' :: cs => do
    let (arg, rest) ← inner cs
    (literal? [')'] rest).map fun rest => (arg, rest)
  | cs => some (.input (String.ofList (cs.takeWhile isNameChar)), cs.dropWhile isNameChar)

/-- An argument, and the text that it is written as. -/
def argumentWithText (cs : List Char) : Option (Expr α × List Char) :=
  (argument inner cs).map fun (arg, rest) => (arg, cs.take (cs.length - rest.length))

/-- An affine map of one row. The argument is first read behind the first coefficient. -/
def affineRow (cs afterCoefficient : List Char) : Option (Expr α × List Char) := do
  let (arg, text) ← argumentWithText inner afterCoefficient
  let ((coef, intercept), rest) ← row number? text cs
  some (.linear (.row coef intercept) arg, rest)

/-- An affine map of several rows. -/
def affineMatrix (cs afterCoefficient : List Char) : Option (Expr α × List Char) := do
  let (arg, text) ← argumentWithText inner afterCoefficient
  let (first, rest) ← row number? text cs
  let (others, rest) ← furtherRows number? text rest.length rest
  let coef ← (Matrix.ofRows ((first :: others).map Prod.fst)).toOption
  some (.linear (.matrix coef ((first :: others).map Prod.snd)) arg, rest)

/-- What follows an opening bracket: a vector, or the rows of a matrix. -/
def bracketed : Reader (Expr α)
  | ']' :: rest => some (.const (.vector (.ofList [])), rest)
  | cs => do
    let (x, after) ← number number? cs
    match after with
    | '*' :: afterCoefficient => affineMatrix number? inner cs afterCoefficient
    | _ =>
      let (xs, rest) ← furtherNumbers number? after.length after
      some (.const (.vector (x :: xs)), rest)

/-- What starts with a name: an operator, or an input. -/
def named (name : List Char) : Reader (Expr α)
  | '(' :: cs =>
    (Operator.ofName? (String.ofList name)).bind fun op => do
      let (arg, rest) ← inner cs
      (literal? [')'] rest).map fun rest => (.unary op arg, rest)
  | rest => some (.input (String.ofList name), rest)

/-- What starts with a numeral: a number, or an affine map of one row. -/
def numeric : Reader (Expr α) := fun cs => do
  let (x, after) ← number number? cs
  match after with
  | '*' :: afterCoefficient => affineRow number? inner cs afterCoefficient
  | _ => some (.const (.scalar x), after)

/-- Whether a run of name characters is a name and no numeral. -/
def isName (text : List Char) : Bool :=
  isInputName (String.ofList text) && text != ['i', 'n', 'f']

/-- An expression, given how the expressions inside it are read. -/
def exprStep : Reader (Expr α)
  | '[' :: cs => bracketed number? inner cs
  | cs =>
    if isName (cs.takeWhile isNameChar) then
      named inner (cs.takeWhile isNameChar) (cs.dropWhile isNameChar)
    else numeric number? inner cs

/-- An expression with less than the given number of nodes above its leaf. -/
def expr : Nat → Reader (Expr α)
  | 0 => fun _ => none
  | fuel + 1 => exprStep number? (expr fuel)

/-- The expression that a text is, as a whole. -/
def read? (text : String) : Option (Expr α) :=
  match expr number? (text.length + 1) text.toList with
  | some (e, []) => some e
  | _ => none

end Affine
end Formula
end ScoreTree
