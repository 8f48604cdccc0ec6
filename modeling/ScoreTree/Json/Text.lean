import ScoreTree.Json.Reader

/-!
# Strings

A string is read as octets, with escapes replaced by the octets of their characters. Whether the
octets are UTF-8 is decided at the closing quote.
-/

namespace ScoreTree
namespace Json
namespace Reader

/-- The value of a hexadecimal digit. -/
def hexDigit? (b : UInt8) : Option Nat :=
  if 0x30 ≤ b ∧ b ≤ 0x39 then some (b.toNat - 0x30)
  else if 0x41 ≤ b ∧ b ≤ 0x46 then some (b.toNat - 0x37)
  else if 0x61 ≤ b ∧ b ≤ 0x66 then some (b.toNat - 0x57)
  else none

/-- The number that four octets are the hexadecimal digits of. -/
def hexValue? (a b c d : UInt8) : Option Nat := do
  return (((← hexDigit? a) * 16 + (← hexDigit? b)) * 16 + (← hexDigit? c)) * 16 + (← hexDigit? d)

/-- Four hexadecimal digits. -/
def fourHex : Reader Nat := do
  match ← get with
  | a :: b :: c :: d :: rest =>
    set rest
    match hexValue? a b c d with
    | some n => return n
    | none => throw .invalidEscape
  | _ => throw .endInString

/-- One character that continues an escape of a surrogate pair. -/
def pairMark (c : Char) : Reader Unit := do
  match ← peek with
  | none => throw .endInString
  | some d => if d = c then advance else throw .unfinishedSurrogate

/-- The character of an escape by code. A character beyond 16 bits takes two escapes, whose codes are
the halves of a surrogate pair. -/
def codeEscape : Reader Char := do
  let n ← fourHex
  if 0xdc00 ≤ n ∧ n ≤ 0xdfff then throw .loneSurrogate
  else if 0xd800 ≤ n ∧ n ≤ 0xdbff then
    pairMark '\\'
    pairMark 'u'
    let m ← fourHex
    if 0xdc00 ≤ m ∧ m ≤ 0xdfff then
      return Char.ofNat (0x10000 + (n - 0xd800) * 0x400 + (m - 0xdc00))
    else throw .loneSurrogate
  else return Char.ofNat n

/-- The character of a short escape. -/
def shortEscaped? : Char → Option Char
  | '"' => some '"'
  | '\\' => some '\\'
  | '/' => some '/'
  | 'b' => some '\x08'
  | 'f' => some '\x0c'
  | 'n' => some '\n'
  | 'r' => some '\r'
  | 't' => some '\t'
  | _ => none

/-- The character of an escape whose backslash has been read. -/
def escape : Reader Char := do
  match ← peek with
  | none => throw .endInString
  | some 'u' =>
    advance
    codeEscape
  | some c =>
    match shortEscaped? c with
    | some d =>
      advance
      return d
    | none => throw .invalidEscape

/-- The octets up to the closing quote. -/
def stringLoop : Nat → Reader (List UInt8)
  | 0 => throw .endInString
  | n + 1 => do
    match ← get with
    | [] => throw .endInString
    | b :: rest =>
      if b = 0x22 then
        set rest
        return []
      else if b = 0x5c then
        set rest
        let c ← escape
        return String.utf8EncodeChar c ++ (← stringLoop n)
      else if b < 0x20 then throw .controlCharacter
      else
        set rest
        return b :: (← stringLoop n)

/-- The text that octets encode. -/
def decode? (octets : List UInt8) : Option String :=
  String.fromUTF8? ⟨octets.toArray⟩

/-- A string whose opening quote has been read. -/
def string : Reader String := do
  match decode? (← bounded stringLoop) with
  | some text => return text
  | none => throw .invalidUtf8

end Reader
end Json
end ScoreTree
