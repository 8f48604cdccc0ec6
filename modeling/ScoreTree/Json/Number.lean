import ScoreTree.Json.Reader

/-!
# Numbers

A number is read in two steps: its digits (`Literal`), then its value. An integer that fits 64 bits
stays an integer. Any other number becomes a double by a multiplication or division of its leading
digits by a power of ten, which rounds twice and so is not always the nearest double.
-/

namespace ScoreTree
namespace Json

/-- The digits of a number. -/
structure Literal where
  negative : Bool
  whole : List Nat
  fraction : Option (List Nat)
  /-- Whether the exponent is negative, and its digits. -/
  exponent : Option (Bool × List Nat)

/-- The value of a number. -/
inductive Number where
  | integer (n : Int)
  | float (x : Float)

namespace Number

def toFloat : Number → Float
  | integer n => Float.ofInt n
  | float x => x

def toJson : Number → Json
  | integer n => .integer n
  | float x => .float x

def found : Number → Found
  | integer n => .integer n
  | float x => .float x

/-- The double nearest to a power of ten. -/
def tenPower (k : Nat) : Float := Float.ofScientific 1 false k

/-- Divides by `10 ^ k` in steps of `10 ^ 308`, until nothing is left of `x`. -/
def shrink (x : Float) (k : Nat) : Nat → Float
  | 0 => x
  | n + 1 =>
    if k ≤ 308 then x / tenPower k
    else if x == 0.0 then x
    else shrink (x / tenPower 308) (k - 308) n

/-- The double for `s * 10 ^ e`: a single product or quotient where the power of ten is a double. -/
def scale (s : Nat) (e : Int) : Except ReadError Float :=
  let x := Float.ofNat s
  if e < 0 then .ok (shrink x e.natAbs (e.natAbs / 308 + 1))
  else if e ≤ 308 then
    let y := x * tenPower e.natAbs
    if y.isInf then .error .numberOutOfRange else .ok y
  else if x == 0.0 then .ok x
  else .error .numberOutOfRange

/-- Appends digits to a number as long as it fits 64 bits, and gives the digits that are left. -/
def absorb (s : Nat) : List Nat → Nat × List Nat
  | [] => (s, [])
  | d :: ds => if s * 10 + d < UInt64.size then absorb (s * 10 + d) ds else (s, d :: ds)

/-- The number with the given digits. -/
def ofDigits (ds : List Nat) : Nat :=
  ds.foldl (fun n d => n * 10 + d) 0

def signed (negative : Bool) (x : Float) : Float :=
  if negative then -x else x

end Number

namespace Literal

open Number

/-- The double of a number that is no integer. Digits of the whole part that are left out count in the
exponent, and those of the fraction do not. -/
def toFloat (l : Literal) : Except ReadError Float := do
  let (s, left) := absorb 0 l.whole
  let fraction := l.fraction.getD []
  let (s, leftFraction) := absorb s fraction
  let taken := fraction.length - leftFraction.length
  let e : Int := Int.ofNat left.length - Int.ofNat taken
  match l.exponent with
  | none => return signed l.negative (← scale s e)
  | some (negative, digits) =>
    let n := ofDigits digits
    if n < UInt32.size / 2 then
      return signed l.negative (← scale s (if negative then e - n else e + n))
    else if s ≠ 0 ∧ negative = false then throw .numberOutOfRange
    else return signed l.negative 0.0

/-- The value of a number. Integers range from `-2 ^ 63` to `2 ^ 64 - 1`, without a negative zero. -/
def value (l : Literal) : Except ReadError Number :=
  let n := ofDigits l.whole
  if l.fraction.isNone ∧ l.exponent.isNone ∧ l.negative = false ∧ n < UInt64.size then
    .ok (.integer n)
  else if l.fraction.isNone ∧ l.exponent.isNone ∧ l.negative = true ∧ 0 < n ∧
      n ≤ UInt64.size / 2 then
    .ok (.integer (-n))
  else l.toFloat.map .float

end Literal

namespace Reader

def isDigit (b : UInt8) : Bool := 0x30 ≤ b && b ≤ 0x39

/-- The digits at the front, as many as there are. -/
def digits : Reader (List Nat) := do
  let octets ← get
  set (octets.dropWhile isDigit)
  return (octets.takeWhile isDigit).map fun b => b.toNat - 0x30

/-- The digits at the front, of which there must be one. `atEnd` is the failure at the end of the
text. -/
def someDigits (atEnd : ReadError) : Reader (List Nat) := do
  match ← digits with
  | [] => throw (if (← peek).isNone then atEnd else .invalidNumber)
  | ds => return ds

/-- The digits before the point. A zero stands alone. -/
def wholeDigits (atEnd : ReadError) : Reader (List Nat) := do
  match ← someDigits atEnd with
  | 0 :: _ :: _ => throw .invalidNumber
  | ds => return ds

def fractionDigits (atEnd : ReadError) : Reader (Option (List Nat)) := do
  if ← accept '.' then some <$> someDigits atEnd else return none

def exponentDigits (atEnd : ReadError) : Reader (Option (Bool × List Nat)) := do
  match ← peek with
  | some 'e' | some 'E' =>
    advance
    let negative ← accept '-'
    unless negative do
      discard (accept '+')
    return some (negative, ← someDigits atEnd)
  | _ => return none

/-- The digits of a number. `atEnd` is the failure where the text ends before a digit. -/
def literal (atEnd : ReadError) : Reader Literal := do
  let negative ← accept '-'
  let whole ← wholeDigits atEnd
  let fraction ← fractionDigits atEnd
  let exponent ← exponentDigits atEnd
  return ⟨negative, whole, fraction, exponent⟩

/-- A number. -/
def number : Reader Number := do
  let l ← literal .endInValue
  match l.value with
  | .ok n => return n
  | .error e => throw e

end Reader
end Json
end ScoreTree
