import ScoreTree.Method
import ScoreTree.Text.Quoted

/-!
# Settings

Which output of a model a tree computes, and the name of its input. `Settings.make` accepts exactly
the names that a formula can show: an ASCII letter or underscore, then letters, digits and
underscores.
-/

namespace ScoreTree

/-- The name of an input that is given none. -/
def defaultInput : String := "x"

/-- Whether a formula can show the name. -/
def isInputName (text : String) : Bool :=
  match text.toList with
  | [] => false
  | c :: cs => (c.isAlpha || c == '_') && cs.all fun d => d.isAlphanum || d == '_'

inductive SettingsError where
  /-- The text is no name of an input. -/
  | inputName (text : String)
  deriving DecidableEq

def SettingsError.message : SettingsError → String
  | inputName text => s!"inputs must be an identifier, got {Text.quoted text}"

/-- The output of a tree and the name of its input. -/
structure Settings where
  method : Method := default
  input : String := defaultInput
  deriving DecidableEq

namespace Settings

def make (method : Method) (input : String) : Except SettingsError Settings :=
  if isInputName input then .ok ⟨method, input⟩ else .error (.inputName input)

end Settings
end ScoreTree
