import ScoreTree.Json.Value

/-!
# Skipped values

A value whose content does not matter is only checked for its form, and less strictly than one that
is read: numbers may have any size, escapes any code, strings any octets, and there is no limit on
the depth.
-/

namespace ScoreTree
namespace Json
namespace Reader

def skipCommaErrors : CommaErrors where
  listClose := .expectedValue
  objectClose := .keyNotString
  objectEnd := .endInObject

/-- Passes over an escape whose backslash has been read. -/
def skipEscape : Reader Unit := do
  match ← peek with
  | none => throw .endInString
  | some 'u' =>
    advance
    discard fourHex
  | some c =>
    if (shortEscaped? c).isSome then advance else throw .invalidEscape

/-- Passes over the octets up to the closing quote. -/
def skipStringLoop : Nat → Reader Unit
  | 0 => throw .endInString
  | n + 1 => do
    match ← get with
    | [] => throw .endInString
    | b :: rest =>
      if b = 0x22 then set rest
      else if b = 0x5c then
        set rest
        skipEscape
        skipStringLoop n
      else if b < 0x20 then throw .controlCharacter
      else
        set rest
        skipStringLoop n

/-- Passes over a string whose opening quote has been read. -/
def skipString : Reader Unit := bounded skipStringLoop

/-- Passes over a value. At most `depth` arrays and objects stand inside each other. -/
def skipWithin (depth : Nat) : Reader Unit :=
  dispatch fun c =>
    match c with
    | 'n' => do advance; word ['u', 'l', 'l']
    | 't' => do advance; word ['r', 'u', 'e']
    | 'f' => do advance; word ['a', 'l', 's', 'e']
    | '"' => do advance; skipString
    | '[' =>
      match depth with
      | 0 => throw .tooDeep
      | d + 1 => do
        advance
        discard (items skipCommaErrors (skipWithin d))
    | '\x7b' =>
      match depth with
      | 0 => throw .tooDeep
      | d + 1 => do
        advance
        members skipCommaErrors (do skipString; return "") (fun _ _ => do colon; skipWithin d) ()
    | _ =>
      if c.isDigit || c = '-' then discard (literal .invalidNumber)
      else throw .expectedValue

/-- Passes over a value. It cannot be deeper than there are octets left. -/
def skip : Reader Unit := bounded skipWithin

end Reader
end Json
end ScoreTree
