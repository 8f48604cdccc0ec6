import ScoreTree.Json.Printer
import ScoreTree.Text.Quoted

/-!
# Failures of reading

Why a text is not read. A cause belongs to one of three categories: the text ends too early, it is
no JSON, or it is JSON of another form than wanted.
-/

namespace ScoreTree
namespace Json

/-- What stands in a text where something else is wanted. -/
inductive Found where
  | null
  | bool (b : Bool)
  | integer (n : Int)
  | float (x : Float)
  | string (text : String)
  | sequence
  | map

def Found.describe : Found → String
  | null => "null"
  | bool b => s!"boolean `{b}`"
  | integer n => s!"integer `{n}`"
  | float x => s!"floating point `{String.ofList (floatChars x)}`"
  | string text => s!"string {Text.quoted text}"
  | sequence => "sequence"
  | map => "map"

/-- What is wanted. -/
inductive Wanted where
  | number
  | string
  | sequence
  | unit
  /-- A record of the given name. -/
  | record (name : String)
  deriving DecidableEq

def Wanted.describe : Wanted → String
  | number => "f64"
  | string => "a string"
  | sequence => "a sequence"
  | unit => "unit"
  | record name => s!"struct {name}"

/-- Names as a choice: two are joined by a word, more are listed. -/
def describeChoice : List String → String
  | [a] => s!"`{a}`"
  | [a, b] => s!"`{a}` or `{b}`"
  | names => "one of " ++ String.intercalate ", " (names.map fun name => s!"`{name}`")

inductive ReadError where
  -- the text ends
  | endInValue
  | endInList
  | endInObject
  | endInString
  -- the text is no JSON
  | expectedValue
  | expectedIdent
  | expectedListSeparator
  | expectedObjectSeparator
  | expectedColon
  | keyNotString
  | trailingComma
  | trailingCharacters
  | invalidNumber
  | numberOutOfRange
  | controlCharacter
  | invalidEscape
  /-- Half of a surrogate pair. -/
  | loneSurrogate
  /-- The first half of a surrogate pair that no second escape follows. -/
  | unfinishedSurrogate
  | invalidUtf8
  /-- Too many arrays and objects inside each other. -/
  | tooDeep
  -- the text has another form
  | wrongType (found : Found) (wanted : Wanted)
  /-- A record, given as a list of its fields, lacks required ones. -/
  | wrongLength (found : Nat) (record : String) (wanted : Nat)
  | missingField (name : String)
  | duplicateField (name : String)
  | unknownName (found : String) (known : List String)

namespace ReadError

inductive Category where
  | ending
  | malformed
  | data
  deriving DecidableEq

def category : ReadError → Category
  | endInValue | endInList | endInObject | endInString => .ending
  | wrongType .. | wrongLength .. | missingField _ | duplicateField _ | unknownName .. => .data
  | _ => .malformed

def message : ReadError → String
  | endInValue => "EOF while parsing a value"
  | endInList => "EOF while parsing a list"
  | endInObject => "EOF while parsing an object"
  | endInString => "EOF while parsing a string"
  | expectedValue => "expected value"
  | expectedIdent => "expected ident"
  | expectedListSeparator => "expected `,` or `]`"
  | expectedObjectSeparator => "expected `,` or `\x7d`"
  | expectedColon => "expected `:`"
  | keyNotString => "key must be a string"
  | trailingComma => "trailing comma"
  | trailingCharacters => "trailing characters"
  | invalidNumber => "invalid number"
  | numberOutOfRange => "number out of range"
  | controlCharacter => "control character (\\u0000-\\u001F) found while parsing a string"
  | invalidEscape => "invalid escape"
  | loneSurrogate => "lone leading surrogate in hex escape"
  | unfinishedSurrogate => "unexpected end of hex escape"
  | invalidUtf8 => "invalid unicode code point"
  | tooDeep => "recursion limit exceeded"
  | wrongType found wanted =>
    s!"invalid type: {found.describe}, expected {wanted.describe}"
  | wrongLength found record wanted =>
    s!"invalid length {found}, expected struct {record} with {wanted} elements"
  | missingField name => s!"missing field `{name}`"
  | duplicateField name => s!"duplicate field `{name}`"
  | unknownName found known => s!"unknown variant `{found}`, expected {describeChoice known}"

end ReadError
end Json
end ScoreTree
