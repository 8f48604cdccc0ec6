import ScoreTree.Row

/-!
# Matrices

A matrix is a list of rows of one length, which lie in memory alike. `Matrix.ofRows` builds one in
standard order from any rows, and otherwise names the first row that differs in length from the
first.
-/

namespace ScoreTree

universe u

variable {α : Type u}

/-- A row whose length differs from that of the first row. -/
structure RaggedRow where
  index : Nat
  length : Nat
  expected : Nat
  deriving DecidableEq

/-- Rows of one length. There are no columns if there are no rows. -/
structure Matrix (α : Type u) where
  rows : List (List α)
  rectangular : ∀ row ∈ rows, row.length = (rows.headD []).length
  /-- How the entries of each row lie in memory. -/
  layout : Layout
  /-- Single entries always lie in standard order. -/
  short : (rows.headD []).length ≤ 1 → layout = .standard

namespace Matrix

@[ext] theorem ext {a b : Matrix α} (h : a.rows = b.rows) (h' : a.layout = b.layout) : a = b := by
  cases a; cases b; simp_all

/-- The matrix whose rows lie in standard order. -/
def rowMajor (rows : List (List α))
    (h : ∀ row ∈ rows, row.length = (rows.headD []).length) : Matrix α :=
  ⟨rows, h, .standard, fun _ => rfl⟩

/-- Entry by entry; matrices of different shapes differ, and the layout does not count. -/
instance [BEq α] : BEq (Matrix α) where
  beq a b := a.rows == b.rows

def height (m : Matrix α) : Nat := m.rows.length

def width (m : Matrix α) : Nat := (m.rows.headD []).length

/-- A matrix has no entries if it has no rows or no columns. -/
def isEmpty (m : Matrix α) : Bool := m.height == 0 || m.width == 0

theorem length_of_mem_rows (m : Matrix α) {row : List α} (h : row ∈ m.rows) :
    row.length = m.width :=
  m.rectangular row h

/-- The first row that is not as long as the first one. -/
def raggedRow? (rows : List (List α)) : Option RaggedRow :=
  let expected := (rows.headD []).length
  (rows.zipIdx.find? fun entry => entry.1.length != expected).map fun entry =>
    ⟨entry.2, entry.1.length, expected⟩

theorem raggedRow?_eq_none_iff {rows : List (List α)} :
    raggedRow? rows = none ↔ ∀ row ∈ rows, row.length = (rows.headD []).length := by
  simp only [raggedRow?, Option.map_eq_none_iff, List.find?_eq_none, bne_iff_ne, ne_eq,
    Decidable.not_not]
  constructor
  · intro h row hrow
    obtain ⟨i, hi, rfl⟩ := List.getElem_of_mem hrow
    exact h (rows[i], i) (by simp [List.mk_mem_zipIdx_iff_getElem?, hi])
  · intro h entry hentry
    exact h entry.1 (List.fst_mem_of_mem_zipIdx hentry)

/-- The matrix with the given rows. -/
def ofRows (rows : List (List α)) : Except RaggedRow (Matrix α) :=
  match h : raggedRow? rows with
  | some ragged => .error ragged
  | none => .ok (rowMajor rows (raggedRow?_eq_none_iff.1 h))

theorem ofRows_eq_ok_iff {rows : List (List α)} {m : Matrix α} :
    ofRows rows = .ok m ↔ m.rows = rows ∧ m.layout = .standard := by
  unfold ofRows
  split
  · rename_i ragged h
    constructor
    · simp
    · rintro ⟨rfl, -⟩
      rw [raggedRow?_eq_none_iff.2 m.rectangular] at h
      cases h
  · constructor
    · rintro ⟨⟩
      exact ⟨rfl, rfl⟩
    · rintro ⟨hrows, hlayout⟩
      exact congrArg Except.ok (ext hrows.symm hlayout.symm)

theorem ofRows_eq_error_iff {rows : List (List α)} {ragged : RaggedRow} :
    ofRows rows = .error ragged ↔ raggedRow? rows = some ragged := by
  unfold ofRows
  split <;> simp_all

theorem ofRows_rowMajor {rows : List (List α)}
    (h : ∀ row ∈ rows, row.length = (rows.headD []).length) :
    ofRows rows = .ok (rowMajor rows h) :=
  ofRows_eq_ok_iff.2 ⟨rfl, rfl⟩

end Matrix
end ScoreTree
