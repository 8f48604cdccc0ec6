import ScoreTree.Row

/-!
# Values

What a tree computes: one number or a vector of numbers. Equality is that of the numbers, so over
doubles it is the comparison `==`. `Value.isClose` compares up to a distance.
-/

namespace ScoreTree

universe u v

/-- A number or a vector. -/
inductive Value (α : Type u) where
  | scalar (x : α)
  | vector (row : Row α)
  deriving BEq

namespace Value

variable {α : Type u} {β : Type v}

/-- The components, of which a scalar has one. -/
def components : Value α → Row α
  | scalar x => .ofList [x]
  | vector row => row

def map (f : α → β) : Value α → Value β
  | scalar x => scalar (f x)
  | vector row => vector (row.map f)

section Distance

variable [NatCast α] [Neg α] [Sub α] [LT α] [DecidableLT α] [LE α] [DecidableLE α]

/-- Whether two numbers are at most `tolerance` apart. An incomparable distance is not close, so
neither is an infinite number to itself. -/
def closeNumbers (tolerance x y : α) : Bool :=
  let d := x - y
  decide ((if d < ((0 : Nat) : α) then -d else d) ≤ tolerance)

/-- Whether two values have one shape and components that are at most `tolerance` apart. -/
def isClose (tolerance : α) : Value α → Value α → Bool
  | scalar x, scalar y => closeNumbers tolerance x y
  | vector r, vector s =>
    r.entries.length == s.entries.length &&
      (List.zipWith (closeNumbers tolerance) r.entries s.entries).all id
  | _, _ => false

end Distance

end Value
end ScoreTree
