import ScoreTree.Scalar

/-!
# Vectors

Sums, products and the two normalizations of a vector, in the exact order in which the additions
are done: rounded addition is not associative, so the order is part of the meaning.

* `laneSum` adds in eight interleaved lanes and joins the lanes at the end.
* `dot` is the lane sum of the products, `plainDot` their sum from left to right.
* `argMax` is the first position of a largest component.
* `softmax` adds from left to right.
-/

namespace ScoreTree

universe u

variable {α : Type u}

/-- Eight running sums. Component `i` of a vector goes to lane `i % 8`. -/
structure Lanes (α : Type u) where
  s0 : α
  s1 : α
  s2 : α
  s3 : α
  s4 : α
  s5 : α
  s6 : α
  s7 : α

namespace Lanes

/-- Eight lanes that hold one number each. -/
def fill (x : α) : Lanes α := ⟨x, x, x, x, x, x, x, x⟩

variable [NatCast α] [Add α]

/-- Lane `i` is joined with lane `i + 4`, and the four sums are added in order, starting from zero. -/
def total (p : Lanes α) : α :=
  ((((((0 : Nat) : α) + (p.s0 + p.s4)) + (p.s1 + p.s5)) + (p.s2 + p.s6)) + (p.s3 + p.s7))

/-- Adds full blocks of eight lane by lane, joins the lanes, and adds what remains in order. -/
def sumFrom (p : Lanes α) : List α → α
  | x0 :: x1 :: x2 :: x3 :: x4 :: x5 :: x6 :: x7 :: rest =>
    sumFrom ⟨p.s0 + x0, p.s1 + x1, p.s2 + x2, p.s3 + x3,
      p.s4 + x4, p.s5 + x5, p.s6 + x6, p.s7 + x7⟩ rest
  | rest => rest.foldl (· + ·) p.total

end Lanes

namespace Vector

section Sums

variable [NatCast α] [Add α]

/-- The sum in eight lanes. -/
def laneSum (xs : List α) : α :=
  (Lanes.fill ((0 : Nat) : α)).sumFrom xs

/-- The sum from left to right, starting from zero. -/
def plainSum (xs : List α) : α :=
  xs.foldl (· + ·) ((0 : Nat) : α)

/-- The lane sum of the products of two vectors of one length. -/
def dot [Mul α] (xs ys : List α) : α :=
  laneSum (List.zipWith (· * ·) xs ys)

/-- The sum from left to right of the products of two vectors of one length. -/
def plainDot [Mul α] (xs ys : List α) : α :=
  plainSum (List.zipWith (· * ·) xs ys)

/-- Each component divided by the lane sum of all. -/
def normalize [Div α] (xs : List α) : List α :=
  let sum := laneSum xs
  xs.map (· / sum)

end Sums

section Maximum

variable [LT α] [DecidableLT α]

/-- Position of the first largest component, where `best` at `bestAt` is the largest so far and the
remaining components start at `position`. A component replaces the best only if it is greater, so
ties and incomparable components leave it. -/
def argMaxFrom (bestAt : Nat) (best : α) (position : Nat) : List α → Nat
  | [] => bestAt
  | x :: xs =>
    if best < x then argMaxFrom position x (position + 1) xs
    else argMaxFrom bestAt best (position + 1) xs

/-- Position of the first largest component of `x :: xs`. -/
def argMax (x : α) (xs : List α) : Nat :=
  argMaxFrom 0 x 1 xs

/-- The largest component of `x :: xs`, where incomparable ones count as missing. -/
def peak [LE α] [DecidableLE α] (x : α) (xs : List α) : α :=
  xs.foldl Scalar.maxKnown x

/-- Exponentials of the differences to the largest component. -/
def powers [LE α] [DecidableLE α] [Sub α] [ExpLn α] (x : α) (xs : List α) : List α :=
  let top := peak x xs
  (x :: xs).map fun y => ExpLn.exp (y - top)

/-- The powers, divided by their sum if that is positive. An incomparable sum leaves them undivided. -/
def softmax [LE α] [DecidableLE α] [NatCast α] [Add α] [Sub α] [Div α] [ExpLn α]
    (x : α) (xs : List α) : List α :=
  let parts := powers x xs
  let sum := plainSum parts
  if ((0 : Nat) : α) < sum then parts.map (· / sum) else parts

theorem argMaxFrom_lt (xs : List α) {bestAt position : Nat} (best : α) (h : bestAt < position) :
    argMaxFrom bestAt best position xs < position + xs.length := by
  induction xs generalizing bestAt best position with
  | nil => simpa [argMaxFrom] using h
  | cons x xs ih =>
    simp only [argMaxFrom, List.length_cons]
    split
    · have := ih x (Nat.lt_add_one position)
      omega
    · have := ih best (Nat.lt_add_right 1 h)
      omega

/-- The position found is one of the vector. -/
theorem argMax_lt_length (x : α) (xs : List α) : argMax x xs < (x :: xs).length := by
  have := argMaxFrom_lt xs x Nat.zero_lt_one
  simp only [argMax, List.length_cons]
  omega

@[simp] theorem length_softmax [LE α] [DecidableLE α] [NatCast α] [Add α] [Sub α] [Div α] [ExpLn α]
    (x : α) (xs : List α) : (softmax x xs).length = xs.length + 1 := by
  unfold softmax
  dsimp only
  split <;> simp [powers]

end Maximum

end Vector
end ScoreTree
