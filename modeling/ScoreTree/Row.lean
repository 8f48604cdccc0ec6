import ScoreTree.Vector

/-!
# Rows

The entries of a vector and how they lie in memory. Equality of rows is that of their entries, but
rounded sums depend on the layout: entries without gaps are added in lanes, in the order in which
they lie, and entries with gaps one after the other. A list is a row in standard order.
-/

namespace ScoreTree

universe u v

/-- How the entries of a row lie in memory. -/
inductive Layout where
  /-- In their order, without gaps. -/
  | standard
  /-- From the last to the first, without gaps. -/
  | reversed
  /-- With gaps. -/
  | strided
  deriving DecidableEq

namespace Layout

/-- The layout of a copy, which closes the gaps and otherwise keeps the order. -/
def packed : Layout → Layout
  | strided => standard
  | layout => layout

variable {α : Type u} [NatCast α] [Add α] [Mul α]

/-- The sum of the products of two rows with the given layouts. It is a lane sum only if both rows
lie in standard order. -/
def dot (a b : Layout) (xs ys : List α) : α :=
  if a = standard ∧ b = standard then Vector.dot xs ys else Vector.plainDot xs ys

end Layout

/-- Entries and their layout. -/
structure Row (α : Type u) where
  entries : List α
  layout : Layout
  /-- A single entry always lies in standard order. -/
  short : entries.length ≤ 1 → layout = .standard

namespace Row

variable {α : Type u} {β : Type v}

@[ext] theorem ext {r s : Row α} (h : r.entries = s.entries) (h' : r.layout = s.layout) : r = s := by
  cases r; cases s; simp_all

/-- Entry by entry; the layout does not count. -/
instance [BEq α] : BEq (Row α) where
  beq r s := r.entries == s.entries

/-- The row that lies in standard order. -/
def ofList (xs : List α) : Row α := ⟨xs, .standard, fun _ => rfl⟩

instance coeOfList : Coe (List α) (Row α) := ⟨ofList⟩

/-- Where only the numbers count, a row stands for its entries. -/
instance coeEntries : CoeOut (Row α) (List α) := ⟨entries⟩

instance coeLists : Coe (List (List α)) (List (Row α)) := ⟨List.map ofList⟩

@[simp] theorem entries_ofList (xs : List α) : (ofList xs).entries = xs := rfl

@[simp] theorem layout_ofList (xs : List α) : (ofList xs).layout = .standard := rfl

/-- The row of the images, which is a copy. -/
def map (f : α → β) (r : Row α) : Row β where
  entries := r.entries.map f
  layout := r.layout.packed
  short h := by simp [r.short (by simpa using h), Layout.packed]

@[simp] theorem entries_map (f : α → β) (r : Row α) : (r.map f).entries = r.entries.map f := rfl

@[simp] theorem layout_map (f : α → β) (r : Row α) : (r.map f).layout = r.layout.packed := rfl

section Arithmetic

variable [NatCast α] [Add α]

/-- The sum of the entries. Entries without gaps are added as they lie. -/
def sum (r : Row α) : α :=
  match r.layout with
  | .standard => Vector.laneSum r.entries
  | .reversed => Vector.laneSum r.entries.reverse
  | .strided => ((0 : Nat) : α) + Vector.plainSum r.entries

def dot [Mul α] (r s : Row α) : α := r.layout.dot s.layout r.entries s.entries

/-- Each entry divided by the sum of all, in place. -/
def normalize [Div α] (r : Row α) : Row α where
  entries := let sum := r.sum; r.entries.map (· / sum)
  layout := r.layout
  short h := r.short (by simpa using h)

@[simp] theorem entries_normalize [Div α] (r : Row α) :
    r.normalize.entries = r.entries.map (· / r.sum) := rfl

@[simp] theorem layout_normalize [Div α] (r : Row α) : r.normalize.layout = r.layout := rfl

end Arithmetic

end Row
end ScoreTree
