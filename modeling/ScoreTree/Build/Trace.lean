import ScoreTree.Build.Error
import ScoreTree.Expr.Basic

/-!
# Builds and their log

A build gives a tree or a failure, together with the log of what happened on the way, which is kept
in both cases. The log holds events and the calls of the selector, in order. Builds form a monad: a
sequence of builds has the concatenation of the logs up to the first failure.
-/

namespace ScoreTree

universe u

variable {α : Type u}

/-- A step of a build that is worth telling. -/
inductive Event where
  /-- A model has a single row. -/
  | dispatchBinary (features : Nat)
  /-- A model has no row or several. -/
  | dispatchMulticlass (classes : Nat)
  | binary (features : Nat) (method : Method)
  | multiclass (classes features : Nat) (method : Method)
  /-- Scores become probabilities. -/
  | normalizing (strategy : Strategy)
  deriving DecidableEq

namespace Event

def message : Event → String
  | dispatchBinary _ => "dispatching to binary translator"
  | dispatchMulticlass _ => "dispatching to multiclass translator"
  | binary .. => "translating binary logistic regression"
  | multiclass .. => "translating multiclass logistic regression"
  | normalizing _ => "normalizing class scores"

/-- The names and texts of the data of an event. -/
def fields : Event → List (String × String)
  | dispatchBinary features => [("n_features", toString features)]
  | dispatchMulticlass classes => [("n_classes", toString classes)]
  | binary features method => [("n_features", toString features), ("method", method.name)]
  | multiclass classes features method =>
    [("n_classes", toString classes), ("n_features", toString features), ("method", method.name)]
  | normalizing strategy => [("multi_class", strategy.name)]

end Event

/-- An entry of the log of a build. -/
inductive Entry (α : Type u) where
  | event (event : Event)
  /-- The selector was asked for an output of the given probabilities. -/
  | call (probs : Expr α) (method : Method)

namespace Entry

def event? : Entry α → Option Event
  | event e => some e
  | call .. => none

def call? : Entry α → Option (Expr α × Method)
  | event _ => none
  | call probs method => some (probs, method)

end Entry

/-- A result or failure, and the log up to it. -/
structure Build (α β : Type u) where
  log : List (Entry α)
  result : Except BuildError β

namespace Build

variable {β γ : Type u}

def bind (a : Build α β) (f : β → Build α γ) : Build α γ :=
  match a.result with
  | .error e => ⟨a.log, .error e⟩
  | .ok b => ⟨a.log ++ (f b).log, (f b).result⟩

instance : Monad (Build α) where
  pure b := ⟨[], .ok b⟩
  bind := bind

/-- A result without a log. -/
def ofExcept (result : Except BuildError β) : Build α β := ⟨[], result⟩

def fail (e : BuildError) : Build α β := ofExcept (.error e)

/-- Logs an event. -/
def tell (e : Event) : Build α PUnit := ⟨[.event e], .ok ⟨⟩⟩

@[simp] theorem result_bind (a : Build α β) (f : β → Build α γ) :
    (a >>= f).result = a.result.bind fun b => (f b).result := by
  change (bind a f).result = _
  unfold bind
  cases h : a.result <;> simp [Except.bind]

end Build
end ScoreTree
