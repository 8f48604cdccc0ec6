import ScoreTree.Expr.Text
import ScoreTree.Settings

/-!
# Trees with readable formulas

What a formula keeps of a tree is `Expr.bare`, the tree without its output marks, up to the layouts of
its arrays, which `Expr.inOrder` makes standard. `Expr.Readable` asks of a tree what it takes to read
its formula: weights that define maps, known numbers, and a name that is no numeral. The rest of the
module is about the text of affine maps.
-/

namespace ScoreTree

universe u

variable {α : Type u}

theorem joinChars_cons (separator text : List Char) (texts : List (List Char)) :
    joinChars separator (text :: texts) = text ++ texts.flatMap fun t => separator ++ t := by
  induction texts generalizing text with
  | nil => simp [joinChars]
  | cons next texts ih => simp [joinChars, ih]

namespace Value

/-- The value in standard order. -/
def inOrder : Value α → Value α
  | scalar x => scalar x
  | vector row => vector (.ofList row.entries)

/-- The layout of a vector. -/
def layouts : Value α → List Layout
  | scalar _ => []
  | vector row => [row.layout]

theorem eq_of_inOrder {v w : Value α} (h : v.inOrder = w.inOrder) (hlayouts : v.layouts = w.layouts) :
    v = w := by
  cases v with
  | scalar x => cases w <;> simp_all [inOrder]
  | vector row =>
    cases w with
    | scalar y => cases h
    | vector row' =>
      have hentries : row.entries = row'.entries := by simpa [inOrder, Row.ofList] using h
      have hlayout : row.layout = row'.layout := by simpa [layouts] using hlayouts
      rw [Row.ext hentries hlayout]

end Value

namespace Weights

/-- All coefficients and intercepts. -/
def numbers : Weights α → List α
  | row coef intercept => intercept :: coef.entries
  | matrix coef intercept => intercept ++ coef.rows.flatten

/-- The weights with coefficients in standard order. -/
def inOrder : Weights α → Weights α
  | row coef intercept => row (.ofList coef.entries) intercept
  | matrix coef intercept => matrix (.rowMajor coef.rows coef.rectangular) intercept

/-- The layout of the coefficients. -/
def layout : Weights α → Layout
  | row coef _ => coef.layout
  | matrix coef _ => coef.layout

theorem eq_of_inOrder {w w' : Weights α} (h : w.inOrder = w'.inOrder)
    (hlayout : w.layout = w'.layout) : w = w' := by
  cases w with
  | row coef intercept =>
    cases w' with
    | row coef' intercept' =>
      simp only [inOrder, row.injEq, Row.ofList, Row.mk.injEq, and_true] at h
      rw [Row.ext h.1 hlayout, h.2]
    | matrix coef' intercept' => cases h
  | matrix coef intercept =>
    cases w' with
    | row coef' intercept' => cases h
    | matrix coef' intercept' =>
      simp only [inOrder, matrix.injEq, Matrix.rowMajor, Matrix.mk.injEq, and_true] at h
      rw [Matrix.ext h.1 hlayout, h.2]

end Weights

namespace Expr

/-- The tree without its output marks. -/
def bare : Expr α → Expr α
  | input name => input name
  | const v => const v
  | linear weights arg => linear weights arg.bare
  | unary op arg => unary op arg.bare
  | classifier _ arg => arg.bare

/-- The tree with all its arrays in standard order. -/
def inOrder : Expr α → Expr α
  | input name => input name
  | const v => const v.inOrder
  | linear weights arg => linear weights.inOrder arg.inOrder
  | unary op arg => unary op arg.inOrder
  | classifier mode arg => classifier mode arg.inOrder

/-- The layouts of the arrays of a tree, from the root inwards. -/
def layouts : Expr α → List Layout
  | input _ => []
  | const v => v.layouts
  | linear weights arg => weights.layout :: arg.layouts
  | unary _ arg => arg.layouts
  | classifier _ arg => arg.layouts

@[simp] theorem layouts_bare (e : Expr α) : e.bare.layouts = e.layouts := by
  induction e with
  | input name => rfl
  | const v => rfl
  | linear weights arg ih => rw [bare, layouts, ih, layouts]
  | unary op arg ih => exact ih
  | classifier mode arg ih => exact ih

/-- A tree is known by its form in standard order and its layouts. -/
theorem eq_of_inOrder {e e' : Expr α} (h : e.inOrder = e'.inOrder)
    (hlayouts : e.layouts = e'.layouts) : e = e' := by
  induction e generalizing e' with
  | input name =>
    cases e' with
    | input name' => rw [input.inj h]
    | _ => cases h
  | const v =>
    cases e' with
    | const v' => rw [Value.eq_of_inOrder (const.inj h) hlayouts]
    | _ => cases h
  | linear weights arg ih =>
    cases e' with
    | linear weights' arg' =>
      obtain ⟨hweights, harg⟩ := linear.inj h
      obtain ⟨hlayout, hrest⟩ := List.cons.inj hlayouts
      rw [Weights.eq_of_inOrder hweights hlayout, ih harg hrest]
    | _ => cases h
  | unary op arg ih =>
    cases e' with
    | unary op' arg' =>
      obtain ⟨rfl, harg⟩ := unary.inj h
      rw [ih harg hlayouts]
    | _ => cases h
  | classifier mode arg ih =>
    cases e' with
    | classifier mode' arg' =>
      obtain ⟨rfl, harg⟩ := classifier.inj h
      rw [ih harg hlayouts]
    | _ => cases h

/-- There is one layout for each array, whatever the layouts are. -/
theorem length_layouts_inOrder (e : Expr α) : e.inOrder.layouts.length = e.layouts.length := by
  induction e with
  | input name => rfl
  | const v => cases v <;> rfl
  | linear weights arg ih => simp only [inOrder, layouts, List.length_cons, ih]
  | unary op arg ih => exact ih
  | classifier mode arg ih => exact ih

@[simp] theorem inOrder_inOrder (e : Expr α) : e.inOrder.inOrder = e.inOrder := by
  induction e with
  | input name => rfl
  | const v => cases v <;> rfl
  | linear weights arg ih => cases weights <;> simp only [inOrder, Weights.inOrder, ih] <;> rfl
  | unary op arg ih => rw [inOrder, inOrder, ih]
  | classifier mode arg ih => rw [inOrder, inOrder, ih]

theorem layouts_inOrder (e : Expr α) : ∀ layout ∈ e.inOrder.layouts, layout = .standard := by
  induction e with
  | input name => simp [inOrder, layouts]
  | const v => cases v <;> simp [inOrder, layouts, Value.inOrder, Value.layouts]
  | linear weights arg ih =>
    have hweights : weights.inOrder.layout = .standard := by cases weights <;> rfl
    exact List.forall_mem_cons.2 ⟨hweights, ih⟩
  | unary op arg ih => exact ih
  | classifier mode arg ih => exact ih

/-- The numbers of all affine maps and of a constant leaf. -/
def numbers : Expr α → List α
  | input _ => []
  | const v => v.components.entries
  | linear weights arg => weights.numbers ++ arg.numbers
  | unary _ arg => arg.numbers
  | classifier _ arg => arg.numbers

/-- The name of the leaf, if it is an input. -/
def inputName? : Expr α → Option String
  | input name => some name
  | const _ => none
  | linear _ arg => arg.inputName?
  | unary _ arg => arg.inputName?
  | classifier _ arg => arg.inputName?

/-- Trees with known numbers only, and an input that cannot be taken for a numeral. -/
structure Readable (known : α → Prop) (e : Expr α) : Prop where
  wellFormed : e.WellFormed
  known : ∀ x ∈ e.numbers, known x
  isInputName : ∀ name ∈ e.inputName?, isInputName name = true
  ne_numeral : ∀ name ∈ e.inputName?, name ≠ "inf" ∧ name ≠ "NaN"

namespace Readable

variable {known : α → Prop} {w : Weights α} {op : Operator} {mode : OutputMode} {arg : Expr α}

theorem of_linear (h : (linear w arg).Readable known) :
    w.WellFormed ∧ (∀ x ∈ w.numbers, known x) ∧ arg.Readable known := by
  obtain ⟨⟨hw, harg⟩, hknown, hname, hne⟩ := h
  obtain ⟨hwknown, hargknown⟩ := List.forall_mem_append.1 hknown
  exact ⟨hw, hwknown, harg, hargknown, hname, hne⟩

theorem of_unary (h : (unary op arg).Readable known) : arg.Readable known :=
  ⟨h.wellFormed, h.known, h.isInputName, h.ne_numeral⟩

theorem of_classifier (h : (classifier mode arg).Readable known) : arg.Readable known :=
  ⟨h.wellFormed, h.known, h.isInputName, h.ne_numeral⟩

end Readable

section Text

variable [Numeral α] [Neg α]

/-- The text that a tree has as the argument of an affine map. -/
def argChars : Expr α → List Char
  | input name => name.toList
  | arg => ['('] ++ arg.chars ++ [')']

theorem chars_linear (w : Weights α) (arg : Expr α) :
    (linear w arg).chars = w.chars arg.argChars := by
  cases arg <;> rfl

theorem length_chars_le_argChars (arg : Expr α) : arg.chars.length ≤ arg.argChars.length := by
  cases arg with
  | input name => exact Nat.le_refl _
  | _ =>
    simp only [argChars, List.length_append]
    omega

end Text
end Expr

theorem length_lt_length_rowChars [Numeral α] [Neg α] (arg : List Char) (b c : α) (cs : List α) :
    arg.length < (rowChars arg b (c :: cs)).length := by
  simp only [rowChars, componentChars, List.length_append, List.length_cons]
  omega

/-- Matrix weights of a map as rows with their intercepts. -/
theorem Weights.exists_rows {coef : Matrix α} {intercept : List α}
    (hw : (matrix coef intercept).WellFormed) :
    ∃ (entry : List α × α) (others : List (List α × α)),
      coef.rows = (entry :: others).map Prod.fst ∧ intercept = (entry :: others).map Prod.snd ∧
        ∀ e ∈ entry :: others, e.1 ≠ [] := by
  obtain ⟨hwidth, hheight, hlength⟩ := hw
  have hfst : (coef.rows.zip intercept).map Prod.fst = coef.rows :=
    List.map_fst_zip (Nat.le_of_eq hlength.symm)
  have hsnd : (coef.rows.zip intercept).map Prod.snd = intercept :=
    List.map_snd_zip (Nat.le_of_eq hlength)
  obtain ⟨entry, others, hentries⟩ : ∃ entry others, coef.rows.zip intercept = entry :: others := by
    refine List.exists_cons_of_length_pos ?_
    rw [List.length_zip, hlength]
    exact Nat.lt_min.2 ⟨hheight, hheight⟩
  rw [hentries] at hfst hsnd
  refine ⟨entry, others, hfst.symm, hsnd.symm, ?_⟩
  intro e he hnil
  have hmem : e.1 ∈ coef.rows := hfst ▸ List.mem_map_of_mem he
  have hrow := coef.length_of_mem_rows hmem
  rw [hnil, List.length_nil] at hrow
  omega

theorem Weights.forall_mem_rows {p : α → Prop} {coef : Matrix α} {intercept : List α}
    {entries : List (List α × α)} (h : ∀ x ∈ (matrix coef intercept).numbers, p x)
    (hcoef : coef.rows = entries.map Prod.fst) (hintercept : intercept = entries.map Prod.snd) :
    (∀ e ∈ entries, ∀ x ∈ e.1, p x) ∧ ∀ e ∈ entries, p e.2 := by
  obtain ⟨hintercepts, hcoefs⟩ := List.forall_mem_append.1 h
  constructor
  · intro e he x hx
    have hrow : e.1 ∈ coef.rows := hcoef ▸ List.mem_map_of_mem he
    exact hcoefs x (List.mem_flatten.2 ⟨e.1, hrow, hx⟩)
  · intro e he
    exact hintercepts e.2 (hintercept ▸ List.mem_map_of_mem he)

theorem Weights.chars_matrix [Numeral α] [Neg α] (arg : List Char) {coef : Matrix α}
    {intercept : List α} {entry : List α × α} {others : List (List α × α)}
    (hcoef : coef.rows = (entry :: others).map Prod.fst)
    (hintercept : intercept = (entry :: others).map Prod.snd) :
    (matrix coef intercept).chars arg = '[' :: (rowChars arg entry.2 entry.1 ++
      (others.flatMap (fun e => ';' :: ' ' :: rowChars arg e.2 e.1) ++ [']'])) := by
  simp [chars, hcoef, hintercept, joinChars_cons, List.zipWith_map, List.zipWith_self,
    List.flatMap_map]

theorem Expr.length_chars_lt_linear [Numeral α] [Neg α] {w : Weights α} (hw : w.WellFormed)
    (arg : Expr α) : arg.chars.length < (Expr.linear w arg).chars.length := by
  have harg := arg.length_chars_le_argChars
  rw [chars_linear]
  cases w with
  | row coef b =>
    obtain ⟨c, cs, hcons⟩ := List.exists_cons_of_length_pos hw
    have hrow := length_lt_length_rowChars arg.argChars b c cs
    rw [Weights.chars, hcons]
    omega
  | matrix coef intercept =>
    obtain ⟨entry, others, hcoef, hintercept, hne⟩ := Weights.exists_rows hw
    obtain ⟨c, cs, hcons⟩ := List.exists_cons_of_ne_nil (hne entry List.mem_cons_self)
    have hrow := length_lt_length_rowChars arg.argChars entry.2 c cs
    rw [← hcons] at hrow
    rw [Weights.chars_matrix arg.argChars hcoef hintercept]
    simp only [List.length_cons, List.length_append]
    omega

end ScoreTree
