import ScoreTree.Build.Trace

/-!
# Selectors

A selector turns an expression of probabilities into the expression of the output that a method
asks for, or refuses the method.
-/

namespace ScoreTree

universe u

variable {α : Type u}

/-- Makes the output of a method from the expression of the probabilities. -/
abbrev Selector (α : Type u) := Expr α → Method → Except BuildError (Expr α)

namespace Selector

/-- Probabilities as they are, their logarithm, or the position of the largest. Scores are no output
of probabilities. -/
def standard : Selector α := fun probs method =>
  match method with
  | .predictProba => .ok (.classifier .probability probs)
  | .predictLogProba => .ok (.classifier .logProbability (.unary .log probs))
  | .predict => .ok (.classifier .label (.unary .argMax probs))
  | .decisionFunction => .error (.invalidMethod method.name)

/-- Probabilities as they are, and no other output. -/
def probabilityOnly : Selector α := fun probs method =>
  match method with
  | .predictProba => .ok (.classifier .probability probs)
  | _ => .error (.invalidMethod method.name)

/-- Calls the selector, and logs the call. -/
def call (select : Selector α) (probs : Expr α) (method : Method) : Build α (Expr α) :=
  ⟨[.call probs method], select probs method⟩

end Selector
end ScoreTree
