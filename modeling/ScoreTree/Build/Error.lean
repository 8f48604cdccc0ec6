import ScoreTree.Method
import ScoreTree.Weights

/-!
# Failures of a build

Why no tree can be built for a model. Besides what the builders find, a selector may refuse with a
defect in its own words, or because of a text that it cannot read.
-/

namespace ScoreTree

/-- What is wrong with a model. -/
inductive ModelDefect where
  /-- A single row comes with exactly one intercept. -/
  | singleIntercept (intercepts : Nat)
  | noRows
  | raggedRow (row : RaggedRow)
  | interceptCount (rows intercepts : Nat)
  /-- Any other defect. -/
  | other (text : String)
  /-- A text that should hold a model is not read. -/
  | unreadable (reason : String)
  deriving DecidableEq

def ModelDefect.message : ModelDefect → String
  | singleIntercept intercepts => s!"invalid model: binary model needs 1 intercept, got {intercepts}"
  | noRows => "invalid model: model has no coefficient rows"
  | raggedRow row =>
    s!"invalid model: coefficient row {row.index} has {row.length} entries, expected {row.expected}"
  | interceptCount rows intercepts =>
    s!"invalid model: {rows} coefficient rows but {intercepts} intercepts"
  | other text => s!"invalid model: {text}"
  | unreadable reason => s!"failed to parse model JSON: {reason}"

inductive BuildError where
  | unknownStrategy (text : String)
  /-- The text names no method, or one that cannot be answered. -/
  | invalidMethod (text : String)
  | shape (error : ShapeError)
  | model (defect : ModelDefect)
  deriving DecidableEq

def BuildError.message : BuildError → String
  | unknownStrategy text => s!"invalid value of the multi_class argument: {text}"
  | invalidMethod text => s!"invalid method: {text}"
  | shape error => error.message
  | model defect => defect.message

def Method.parse (text : String) : Except BuildError Method :=
  match ofName? text with
  | some m => .ok m
  | none => .error (.invalidMethod text)

def Strategy.parse (text : String) : Except BuildError Strategy :=
  match ofName? text with
  | some s => .ok s
  | none => .error (.unknownStrategy text)

end ScoreTree
