import ScoreTree.Decimal.Shortest

/-!
# Written doubles

How the shortest decimal of a double is laid out. A `Style` holds the decisions that differ between
two texts of one number: which sizes are written without an exponent, whether an exponent has a plus
sign, and which of two equally near decimals is taken.
-/

namespace ScoreTree
namespace Decimal

/-- Decisions on the layout of a number. -/
structure Style where
  tie : Tie
  /-- The least power of ten of a leading digit that is written without an exponent. -/
  leastPlain : Int
  /-- The greatest such power. -/
  greatestPlain : Int
  /-- The sign before an exponent that is not negative. -/
  exponentSign : List Char

/-- Whether the sign bit is set. -/
def isNegative (x : Float) : Bool :=
  x.toBits.toNat / Nat.pow 2 63 == 1

/-- Whether a double is a number other than an infinity. -/
def isFinite (x : Float) : Bool :=
  Binary.exponentField x.toBits != 2047

def zeros (n : Nat) : List Char := List.replicate n '0'

/-- Digits around a point. There is at least one digit on each side; `power` is the power of ten of
the leading digit. -/
def plain (digits : List Char) (power : Int) : List Char :=
  if power < 0 then ['0', '.'] ++ zeros (-power - 1).toNat ++ digits
  else
    let whole := power.toNat + 1
    if digits.length ≤ whole then digits ++ zeros (whole - digits.length) ++ ['.', '0']
    else digits.take whole ++ ['.'] ++ digits.drop whole

/-- One digit before the point, no point without further digits, and a power of ten. -/
def scientific (exponentSign digits : List Char) (power : Int) : List Char :=
  let mantissa :=
    match digits with
    | first :: rest@(_ :: _) => first :: '.' :: rest
    | _ => digits
  let sign := if power < 0 then ['-'] else exponentSign
  mantissa ++ ['e'] ++ sign ++ Nat.toDigits 10 power.natAbs

namespace Style

/-- The layout of a positive decimal. -/
def layout (style : Style) (d : Decimal) : List Char :=
  let digits := Nat.toDigits 10 d.coefficient
  let power := d.exponent + digits.length - 1
  if style.leastPlain ≤ power ∧ power ≤ style.greatestPlain then plain digits power
  else scientific style.exponentSign digits power

/-- The text of a double that is finite, without its sign. -/
def magnitude (style : Style) (bits : UInt64) : List Char :=
  let b := Binary.ofBits bits
  if b.significand = 0 then ['0', '.', '0'] else style.layout (b.shortest style.tie)

/-- The text of a double. -/
def write (style : Style) (x : Float) : List Char :=
  let bits := x.toBits
  let sign := if isNegative x then ['-'] else []
  if isFinite x then sign ++ style.magnitude bits
  else if Binary.fraction bits = 0 then sign ++ ['i', 'n', 'f']
  else ['N', 'a', 'N']

end Style
end Decimal
end ScoreTree
