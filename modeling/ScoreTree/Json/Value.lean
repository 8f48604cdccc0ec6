import ScoreTree.Json.Number
import ScoreTree.Json.Text

/-!
# Values

The reader of any value, and the parts of readers that want a value of a certain form. A value of
another form is a failure that tells what was found: a scalar is read first, so that a scalar that
is no JSON fails as such, while an array or object is not looked into.
-/

namespace ScoreTree
namespace Json
namespace Reader

/-- How many arrays and objects may stand inside each other. -/
def maxDepth : Nat := 127

def commaErrors : CommaErrors where
  listClose := .trailingComma
  objectClose := .trailingComma
  objectEnd := .endInValue

/-- The failure of a value that is not of the wanted form. It starts with the character `c`, which has
not been passed over. -/
def mismatch {β : Type} (wanted : Wanted) (c : Char) : Reader β := do
  let found : Found ← match c with
    | 'n' => do advance; word ['u', 'l', 'l']; pure .null
    | 't' => do advance; word ['r', 'u', 'e']; pure (.bool true)
    | 'f' => do advance; word ['a', 'l', 's', 'e']; pure (.bool false)
    | '"' => do advance; pure (.string (← string))
    | '[' => pure .sequence
    | '\x7b' => pure .map
    | _ =>
      if c.isDigit || c = '-' then do pure (← number).found
      else throw .expectedValue
  throw (.wrongType found wanted)

/-- Reads a value by its first character. -/
def dispatch {β : Type} (branch : Char → Reader β) : Reader β := do
  match ← token with
  | none => throw .endInValue
  | some c => branch c

/-- A number as a double. -/
def double : Reader Float :=
  dispatch fun c =>
    if c.isDigit || c = '-' then Number.toFloat <$> number else mismatch .number c

/-- A string. -/
def text : Reader String :=
  dispatch fun c =>
    if c = '"' then do
      advance
      string
    else mismatch .string c

/-- An array of items. -/
def list {β : Type} (item : Reader β) : Reader (List β) :=
  dispatch fun c =>
    if c = '[' then do
      advance
      items commaErrors item
    else mismatch .sequence c

/-- Nothing, written as null, or something. -/
def nullable {β : Type} (r : Reader β) : Reader (Option β) := do
  if (← token) = some 'n' then
    advance
    word ['u', 'l', 'l']
    return none
  else some <$> r

/-- Any value. At most `depth` arrays and objects stand inside each other. -/
def value (depth : Nat) : Reader Json :=
  dispatch fun c =>
    match c with
    | 'n' => do advance; word ['u', 'l', 'l']; return .null
    | 't' => do advance; word ['r', 'u', 'e']; return .bool true
    | 'f' => do advance; word ['a', 'l', 's', 'e']; return .bool false
    | '"' => do advance; return .string (← string)
    | '[' =>
      match depth with
      | 0 => throw .tooDeep
      | d + 1 => do
        advance
        return .array (← items commaErrors (value d))
    | '\x7b' =>
      match depth with
      | 0 => throw .tooDeep
      | d + 1 => do
        advance
        let member := fun ms key => do
          colon
          let v ← value d
          return insertMember key v ms
        return .object (← members commaErrors string member [])
    | _ =>
      if c.isDigit || c = '-' then return (← number).toJson
      else throw .expectedValue

end Reader

/-- Reads a value from the octets of a text. -/
def read (octets : List UInt8) : Except ReadError Json :=
  (Reader.value Reader.maxDepth).run octets

end Json
end ScoreTree
