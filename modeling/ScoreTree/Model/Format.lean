import ScoreTree.Json.Skip
import ScoreTree.Model.Basic

/-!
# The JSON form of a model

A model is written as an object of five fields in a fixed order. It is read from such an object with
its fields in any order, where the last three may be missing and other fields are passed over, or
from an array of the fields in order, where the last three may be missing. A row of coefficients
is an array of numbers, and any number will do.
-/

namespace ScoreTree
namespace FittedModel

open Json (Reader ReadError)

def recordName : String := "LogisticRegression"

def defaultStrategyName : String := "auto"

def defaultSolver : String := "lbfgs"

/-- The fields of a model that have been read. -/
structure Draft where
  coef : Option (List (List Float)) := none
  intercept : Option (List Float) := none
  classes : Option (Option (List Json)) := none
  strategyName : Option String := none
  solver : Option String := none

namespace Draft

/-- The model with the fields that have been read. -/
def toModel (d : Draft) : Except ReadError (FittedModel Float) :=
  match d.coef, d.intercept with
  | none, _ => .error (.missingField "coef")
  | some _, none => .error (.missingField "intercept")
  | some coef, some intercept =>
    .ok {
      coef
      intercept
      classes := d.classes.getD none
      strategyName := d.strategyName.getD defaultStrategyName
      solver := d.solver.getD defaultSolver }

def rows : Reader (List (List Float)) := Reader.list (Reader.list Reader.double)

def numbers : Reader (List Float) := Reader.list Reader.double

/-- Labels of classes. They stand inside two arrays or objects, the model and the list of labels. -/
def labels : Reader (Option (List Json)) :=
  Reader.nullable (Reader.list (Reader.value (Reader.maxDepth - 2)))

/-- A field that must not have been read before. The reader of its value starts at the colon. -/
def once {β : Type} (name : String) (old : Option β) (r : Reader β) : Reader β := do
  if old.isSome then throw (.duplicateField name)
  else
    Reader.colon
    r

/-- Reads the field of a given key. -/
def field (d : Draft) (key : String) : Reader Draft := do
  if key = "coef" then return { d with coef := some (← once key d.coef rows) }
  else if key = "intercept" then
    return { d with intercept := some (← once key d.intercept numbers) }
  else if key = "classes" then return { d with classes := some (← once key d.classes labels) }
  else if key = "multi_class" then
    return { d with strategyName := some (← once key d.strategyName Reader.text) }
  else if key = "solver" then
    return { d with solver := some (← once key d.solver Reader.text) }
  else
    Reader.colon
    Reader.skip
    return d

/-- An item of the array form, if there is one. -/
def item? {β : Type} (isFirst : Bool) (r : Reader β) : Reader (Option β) := do
  if ← Reader.moreItems Reader.commaErrors isFirst then some <$> r else return none

/-- The fields in order. Without the first two there is no model. -/
def inOrder : Reader Draft := do
  match ← item? true rows with
  | none => throw (.wrongLength 0 recordName 5)
  | some coef =>
    match ← item? false numbers with
    | none => throw (.wrongLength 1 recordName 5)
    | some intercept =>
      return {
        coef := some coef
        intercept := some intercept
        classes := ← item? false labels
        strategyName := ← item? false Reader.text
        solver := ← item? false Reader.text }

end Draft

/-- The end of the array form. -/
def closeList : Reader Unit := do
  match ← Reader.token with
  | none => throw .endInList
  | some ']' => Reader.advance
  | some ',' =>
    Reader.advance
    if (← Reader.token) = some ']' then throw .trailingComma else throw .trailingCharacters
  | some _ => throw .trailingCharacters

def ofExcept {β : Type} : Except ReadError β → Reader β
  | .ok x => return x
  | .error e => throw e

/-- A model in one of its forms. -/
def reader : Reader (FittedModel Float) :=
  Reader.dispatch fun c =>
    if c = '[' then do
      Reader.advance
      let d ← Draft.inOrder
      closeList
      ofExcept d.toModel
    else if c = '\x7b' then do
      Reader.advance
      let d ← Reader.members Reader.commaErrors Reader.string Draft.field {}
      ofExcept d.toModel
    else Reader.mismatch (.record recordName) c

/-- Reads a model from the octets of a text. -/
def ofOctets (octets : List UInt8) : Except ReadError (FittedModel Float) :=
  reader.run octets

/-- Reads a model from a text. -/
def ofText (text : String) : Except ReadError (FittedModel Float) :=
  ofOctets text.toUTF8.toList

/-- What is said of a text that is not read. -/
def loadMessage (e : ReadError) : String :=
  (ModelDefect.unreadable e.message).message

/-- The object of the fields in their order. -/
def toJson (m : FittedModel Float) : Json :=
  .object [
    ("coef", .array (m.coef.map fun row => .array (row.map .float))),
    ("intercept", .array (m.intercept.map .float)),
    ("classes", match m.classes with
      | none => .null
      | some labels => .array labels),
    ("multi_class", .string m.strategyName),
    ("solver", .string m.solver)]

/-- Writes a model. -/
def text (m : FittedModel Float) : String := m.toJson.text

end FittedModel
end ScoreTree
