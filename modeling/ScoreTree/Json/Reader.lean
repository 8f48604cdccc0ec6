import ScoreTree.Json.ReadError

/-!
# Readers

A reader takes octets from the front of a text and gives a result and the rest, or the first
failure. This module holds the readers of single characters and of what arrays and objects share.
A loop is bounded by the number of octets that are left, of which every round takes at least one.
-/

namespace ScoreTree
namespace Json

/-- Reads from the front of the octets that are left. -/
abbrev Reader := StateT (List UInt8) (Except ReadError)

namespace Reader

def isBlank (b : UInt8) : Bool :=
  b == 0x20 || b == 0x09 || b == 0x0a || b == 0x0d

/-- The next octet as a character. All that JSON itself consists of is ASCII; other octets give other
characters. -/
def peek : Reader (Option Char) := do
  return (← get).head?.map Char.ofUInt8

/-- Passes over one octet. -/
def advance : Reader Unit := modify List.tail

/-- Passes over blanks, and gives the character after them. -/
def token : Reader (Option Char) := do
  modify (List.dropWhile isBlank)
  peek

/-- Passes over the next character if it is the given one. -/
def accept (c : Char) : Reader Bool := do
  if (← peek) = some c then
    advance
    return true
  else return false

/-- Reads the given characters. -/
def word : List Char → Reader Unit
  | [] => return
  | c :: cs => do
    match ← peek with
    | none => throw .endInValue
    | some d =>
      if d = c then
        advance
        word cs
      else throw .expectedIdent

/-- Runs a loop with a bound on the number of its rounds. -/
def bounded {β : Type} (loop : Nat → Reader β) : Reader β := do
  loop ((← get).length + 1)

/-- What follows a wrong comma. -/
structure CommaErrors where
  /-- The end of the array. -/
  listClose : ReadError
  /-- The end of the object. -/
  objectClose : ReadError
  /-- The end of the text, inside an object. -/
  objectEnd : ReadError

/-- Whether another item follows in an array. The end of the array is not passed over. -/
def moreItems (errors : CommaErrors) (isFirst : Bool) : Reader Bool := do
  match ← token with
  | none => throw .endInList
  | some ']' => return false
  | some c =>
    if isFirst then return true
    else if c = ',' then
      advance
      match ← token with
      | none => throw .endInValue
      | some ']' => throw errors.listClose
      | some _ => return true
    else throw .expectedListSeparator

/-- Whether another member follows in an object, in which case a quote comes next. -/
def moreMembers (errors : CommaErrors) (isFirst : Bool) : Reader Bool := do
  match ← token with
  | none => throw .endInObject
  | some '\x7d' => return false
  | some c =>
    if isFirst then
      if c = '"' then return true else throw .keyNotString
    else if c = ',' then
      advance
      match ← token with
      | none => throw errors.objectEnd
      | some '"' => return true
      | some '\x7d' => throw errors.objectClose
      | some _ => throw .keyNotString
    else throw .expectedObjectSeparator

/-- The colon after a key. -/
def colon : Reader Unit := do
  match ← token with
  | none => throw .endInObject
  | some ':' => advance
  | some _ => throw .expectedColon

/-- The items up to and including the end of an array. -/
def itemsLoop {β : Type} (errors : CommaErrors) (item : Reader β) :
    Nat → Bool → Reader (List β)
  | 0, _ => throw .endInList
  | n + 1, isFirst => do
    if ← moreItems errors isFirst then
      let x ← item
      let xs ← itemsLoop errors item n false
      return x :: xs
    else
      advance
      return []

/-- The items of an array whose opening bracket has been read. -/
def items {β : Type} (errors : CommaErrors) (item : Reader β) : Reader (List β) :=
  bounded fun n => itemsLoop errors item n true

/-- The members up to and including the end of an object. Each is passed with its key to `member`,
which starts at the colon. -/
def membersLoop {σ : Type} (errors : CommaErrors) (key : Reader String)
    (member : σ → String → Reader σ) : Nat → Bool → σ → Reader σ
  | 0, _, _ => throw .endInObject
  | n + 1, isFirst, s => do
    if ← moreMembers errors isFirst then
      advance
      let k ← key
      let s ← member s k
      membersLoop errors key member n false s
    else
      advance
      return s

/-- The members of an object whose opening brace has been read. `key` reads the rest of a key after
its opening quote. -/
def members {σ : Type} (errors : CommaErrors) (key : Reader String)
    (member : σ → String → Reader σ) (start : σ) : Reader σ :=
  bounded fun n => membersLoop errors key member n true start

/-- Reads a whole text. Only blanks may follow. -/
def run {β : Type} (r : Reader β) (octets : List UInt8) : Except ReadError β := do
  let (x, rest) ← StateT.run r octets
  if (rest.dropWhile isBlank).isEmpty then return x else throw .trailingCharacters

end Reader
end Json
end ScoreTree
