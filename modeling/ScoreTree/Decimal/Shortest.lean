/-!
# Shortest decimals

A binary number stands for all reals that round to it. Of the decimals among these,
`Binary.shortest` takes one on the coarsest grid of multiples of a power of ten, that is one with
the fewest digits, and of two such neighbours the one that is nearer to the number. All arithmetic
is exact: number, ends of the interval and grid are brought to one denominator first.
-/

namespace ScoreTree

/-- The number `coefficient * 10 ^ exponent`. -/
structure Decimal where
  coefficient : Nat
  exponent : Int
  deriving DecidableEq

/-- Which of two equally near decimals is taken. -/
inductive Decimal.Tie where
  /-- The one with an even last digit. -/
  | even
  /-- The larger one. -/
  | up
  deriving DecidableEq

/-- The positive number `significand * 2 ^ exponent` of a binary format. The next number above is one
unit of the significand away, and so is the next one below, unless `narrowBelow`: then it is half a
unit away, because the number is the least with its exponent. -/
structure Binary where
  significand : Nat
  exponent : Int
  narrowBelow : Bool
  deriving DecidableEq

namespace Binary

/-- The number of fractions that a double can have: they take 52 bits. -/
def fractions : Nat := Nat.pow 2 52

/-- The low 52 bits of a double. -/
def fraction (bits : UInt64) : Nat := bits.toNat % fractions

/-- The eleven bits of a double above its fraction. -/
def exponentField (bits : UInt64) : Nat := bits.toNat / fractions % Nat.pow 2 11

/-- The number in the low 63 bits of a double that is finite. A fraction counts on top of an implicit
leading bit, unless the exponent field is zero. -/
def ofBits (bits : UInt64) : Binary :=
  let field := exponentField bits
  if field = 0 then ⟨fraction bits, -1074, false⟩
  else ⟨fractions + fraction bits, Int.ofNat field - 1075, fraction bits == 0 && 1 < field⟩

/-- A quarter of a unit of the significand, over the common denominator with `10 ^ e`. -/
def quarter (b : Binary) (e : Int) : Nat :=
  Nat.pow 2 (b.exponent - 2).toNat * Nat.pow 10 (-e).toNat

/-- The power `10 ^ e` over the common denominator. -/
def gridUnit (b : Binary) (e : Int) : Nat :=
  Nat.pow 2 (2 - b.exponent).toNat * Nat.pow 10 e.toNat

/-- Whether `d * 10 ^ e` rounds to the number: it lies at most half a unit off, and the ends belong to
the numbers with an even significand. -/
def admits (b : Binary) (e : Int) (d : Nat) : Bool :=
  let q := b.quarter e
  let x := d * b.gridUnit e
  let lower := (4 * b.significand - (if b.narrowBelow then 1 else 2)) * q
  let upper := (4 * b.significand + 2) * q
  if b.significand % 2 = 0 then lower ≤ x && x ≤ upper else lower < x && x < upper

/-- The multiple of `10 ^ e` that is nearest to the number, among those that round to it. -/
def onGrid? (tie : Decimal.Tie) (b : Binary) (e : Int) : Option Nat :=
  let value := 4 * b.significand * b.quarter e
  let unit := b.gridUnit e
  let d := value / unit
  match b.admits e d, b.admits e (d + 1) with
  | false, false => none
  | true, false => some d
  | false, true => some (d + 1)
  | true, true =>
    let down := value - d * unit
    let up := (d + 1) * unit - value
    if down < up then some d
    else if up < down then some (d + 1)
    else match tie with
      | .up => some (d + 1)
      | .even => if d % 2 = 0 then some d else some (d + 1)

/-- The exponent of the grid that holds the number itself. -/
def finest (b : Binary) : Int := if b.exponent < 0 then b.exponent else 0

/-- The number itself as a decimal. -/
def exact (b : Binary) : Decimal :=
  ⟨b.significand * Nat.pow 2 b.exponent.toNat * Nat.pow 5 (-b.exponent).toNat, b.finest⟩

/-- The first hit on the grids of `10 ^ e`, `10 ^ (e - 1)` and so on. -/
def searchFrom (tie : Decimal.Tie) (b : Binary) (e : Int) : Nat → Decimal
  | 0 => b.exact
  | n + 1 =>
    match b.onGrid? tie e with
    | some d => ⟨d, e⟩
    | none => b.searchFrom tie (e - 1) n

/-- An exponent whose power of ten is above all reals that round to the number, since they are below
`2 ^ k`, and `8 < 10 < 16`. -/
def coarsest (b : Binary) : Int :=
  let k : Int := b.exponent + (Nat.log2 b.significand : Int) + 2
  if 0 ≤ k then k / 3 + 1 else -(-k / 4)

/-- The decimal with the fewest digits that rounds to the number. -/
def shortest (tie : Decimal.Tie) (b : Binary) : Decimal :=
  b.searchFrom tie b.coarsest (b.coarsest - b.finest).toNat

end Binary
end ScoreTree
