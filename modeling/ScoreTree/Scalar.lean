/-!
# Scalars

The numbers of a score tree are kept abstract: a tree over doubles is evaluated with rounding, the
same tree over an ordered field without. What evaluation needs beyond the four operations, casts of
naturals and comparison is an exponential and a logarithm, collected in `ExpLn`. This module holds
the functions of one number; `ScoreTree.Vector` holds those of several.
-/

namespace ScoreTree

universe u

/-- An exponential and a natural logarithm. -/
class ExpLn (α : Type u) where
  exp : α → α
  ln : α → α

/-- A natural number as a double, rounded to nearest. -/
instance natCastFloat : NatCast Float := ⟨Float.ofNat⟩

instance : ExpLn Float := ⟨Float.exp, Float.log⟩

namespace Scalar

variable {α : Type u}

section Comparison

variable [LT α] [DecidableLT α] [LE α] [DecidableLE α]

/-- The larger of two numbers, where one that is not comparable to itself counts as missing. -/
def maxKnown (a b : α) : α :=
  if a < b then b else if a ≤ a then a else b

end Comparison

section Threshold

variable [NatCast α] [LT α] [DecidableLT α]

/-- One above zero, zero elsewhere. -/
def step (x : α) : α :=
  if ((0 : Nat) : α) < x then ((1 : Nat) : α) else ((0 : Nat) : α)

/-- `x` limited to `[-500, 500]`, where the exponential neither overflows nor vanishes. An incomparable
`x` stays as it is. -/
def clamp [Neg α] (x : α) : α :=
  if x < -((500 : Nat) : α) then -((500 : Nat) : α)
  else if ((500 : Nat) : α) < x then ((500 : Nat) : α)
  else x

end Threshold

section Logistic

variable [NatCast α] [Neg α] [Add α] [Div α] [ExpLn α]
variable [LT α] [DecidableLT α] [LE α] [DecidableLE α]

/-- The logistic function `1 / (1 + exp (-x))` of the clamped argument, written so that the
exponential is always taken of a number that is not positive. -/
def logistic (x : α) : α :=
  let c := clamp x
  if ((0 : Nat) : α) ≤ c then
    ((1 : Nat) : α) / (((1 : Nat) : α) + ExpLn.exp (-c))
  else
    ExpLn.exp c / (((1 : Nat) : α) + ExpLn.exp c)

end Logistic

end Scalar
end ScoreTree
