import ScoreTree.Decimal.Style
import ScoreTree.Json.Basic

/-!
# Compact JSON text

The text of a value without any blanks. Characters are written as they are where JSON allows it.
-/

namespace ScoreTree
namespace Json

/-- Numbers from `10 ^ -5` to below `10 ^ 16` have no exponent, and an exponent has a sign. A tie
between two shortest decimals goes to the even digit. -/
def numberStyle : Decimal.Style where
  tie := .even
  leastPlain := -5
  greatestPlain := 15
  exponentSign := ['+']

/-- The text of a double. JSON has none for those that are not finite. -/
def floatChars (x : Float) : List Char :=
  if Decimal.isFinite x then numberStyle.write x else ['n', 'u', 'l', 'l']

def integerChars (n : Int) : List Char :=
  if n < 0 then '-' :: Nat.toDigits 10 n.natAbs else Nat.toDigits 10 n.natAbs

/-- The escapes of two characters. -/
def shortEscape? : Char → Option Char
  | '"' => some '"'
  | '\\' => some '\\'
  | '\x08' => some 'b'
  | '\x0c' => some 'f'
  | '\n' => some 'n'
  | '\r' => some 'r'
  | '\t' => some 't'
  | _ => none

/-- One character inside quotes. Control characters without a short escape are written by code. -/
def escapeChar (c : Char) : List Char :=
  match shortEscape? c with
  | some e => ['\\', e]
  | none =>
    if c.toNat < 0x20 then
      ['\\', 'u', '0', '0', Nat.digitChar (c.toNat / 16), Nat.digitChar (c.toNat % 16)]
    else [c]

def stringChars (text : String) : List Char :=
  '"' :: (text.toList.flatMap escapeChar ++ ['"'])

mutual

/-- The text of a value. -/
def chars : Json → List Char
  | null => ['n', 'u', 'l', 'l']
  | bool true => ['t', 'r', 'u', 'e']
  | bool false => ['f', 'a', 'l', 's', 'e']
  | integer n => integerChars n
  | float x => floatChars x
  | string text => stringChars text
  | array [] => ['[', ']']
  | array (item :: rest) => '[' :: (item.chars ++ furtherItems rest)
  | object [] => ['\x7b', '\x7d']
  | object ((key, value) :: rest) =>
    '\x7b' :: (stringChars key ++ ':' :: (value.chars ++ furtherMembers rest))

/-- The items of an array after the first, and its end. -/
def furtherItems : List Json → List Char
  | [] => [']']
  | item :: rest => ',' :: (item.chars ++ furtherItems rest)

/-- The members of an object after the first, and its end. -/
def furtherMembers : List (String × Json) → List Char
  | [] => ['\x7d']
  | (key, value) :: rest =>
    ',' :: (stringChars key ++ ':' :: (value.chars ++ furtherMembers rest))

end

def text (v : Json) : String := String.ofList v.chars

end Json
end ScoreTree
