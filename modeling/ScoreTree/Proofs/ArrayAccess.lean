import ScoreTree.Proofs.Evaluation
import ScoreTree.Proofs.Reachable

/-!
# Sizes of arrays

`Expr.evalStrict` evaluates a tree with operations on arrays that refuse whatever does not fit: a
product or a sum of vectors of two lengths, and a position where there is no component. On a
well-formed tree nothing is refused (`evalStrict_eq`). Likewise the rows of a model can be stored one
after the other and cut again, since they are known to have one length by then (`ofFlatRows_eq`).
-/

namespace ScoreTree

universe u

variable {α : Type u}

/-- An operation on arrays whose sizes do not fit. -/
inductive ArrayFault where
  /-- The product of a row and a vector of another length. -/
  | product (row vector : ℕ)
  /-- The sum of vectors of two lengths. None of them is repeated to the length of the other one. -/
  | sum (left right : ℕ)
  /-- A position at which a vector has no component. -/
  | position (position length : ℕ)
  deriving DecidableEq

/-- What ends a strict evaluation. -/
inductive Stop where
  | eval (error : EvalError)
  | fault (fault : ArrayFault)
  deriving DecidableEq

def Layout.dot? [NatCast α] [Add α] [Mul α] (a b : Layout) (row xs : List α) :
    Except ArrayFault α :=
  if row.length = xs.length then .ok (a.dot b row xs) else .error (.product row.length xs.length)

namespace Vector

def sum? [Add α] (xs ys : List α) : Except ArrayFault (List α) :=
  if xs.length = ys.length then .ok (List.zipWith (· + ·) xs ys)
  else .error (.sum xs.length ys.length)

section Scan

variable [LT α] [DecidableLT α]

/-- The scan for the first largest component of `xs` as a loop over what remains, components with
their positions. The best component so far is read at its position each time. -/
def scan? (xs : List α) (best : ℕ) : List (α × ℕ) → Except ArrayFault ℕ
  | [] => if best < xs.length then .ok best else .error (.position best xs.length)
  | (x, i) :: rest =>
    match xs[best]? with
    | some top => scan? xs (if top < x then i else best) rest
    | none => .error (.position best xs.length)

def argMax? (xs : List α) : Except ArrayFault ℕ := scan? xs 0 xs.zipIdx

/-- The loop finds the best position so far in the part that it has passed. -/
theorem scan?_eq (passed rest : List α) {best : ℕ} {top : α}
    (h : (passed ++ rest)[best]? = some top) :
    scan? (passed ++ rest) best (rest.zipIdx passed.length) =
      .ok (argMaxFrom best top passed.length rest) := by
  induction rest generalizing passed best top with
  | nil =>
    obtain ⟨hbest, -⟩ := List.getElem?_eq_some_iff.mp h
    simp only [List.zipIdx_nil, scan?, if_pos hbest, argMaxFrom]
  | cons x rest ih =>
    have hsplit : passed ++ x :: rest = passed ++ [x] ++ rest := by simp
    have hlength : passed.length + 1 = (passed ++ [x]).length := by simp
    rw [List.zipIdx_cons, scan?, h, argMaxFrom, hsplit, hlength]
    rw [hsplit] at h
    dsimp only
    split_ifs with hlt
    · exact ih (passed ++ [x]) (by simp)
    · exact ih (passed ++ [x]) h

/-- A vector that is not empty has a component at each position that the scan reads. -/
theorem argMax?_cons (x : α) (xs : List α) : argMax? (x :: xs) = .ok (argMax x xs) := by
  have hfirst : (x :: xs)[0]? = some x := rfl
  rw [argMax?, List.zipIdx_cons, scan?, hfirst]
  dsimp only
  rw [ite_self]
  exact scan?_eq [x] xs rfl

end Scan

end Vector

section Evaluation

variable [NatCast α] [Add α] [Mul α]

/-- The affine map of given weights. -/
def Weights.applyStrict (x : Row α) : Weights α → Except ArrayFault (Value α)
  | row coef intercept => do
    let product ← coef.layout.dot? x.layout coef.entries x.entries
    return .scalar (product + intercept)
  | matrix coef intercept => do
    let products ← coef.rows.mapM fun row => coef.layout.dot? x.layout row x.entries
    let sums ← Vector.sum? products intercept
    return .vector (.ofList sums)

theorem Layout.mapM_dot? (a b : Layout) {rows : List (List α)} {xs : List α}
    (h : ∀ row ∈ rows, row.length = xs.length) :
    (rows.mapM fun row => a.dot? b row xs) = .ok (rows.map fun row => a.dot b row xs) := by
  induction rows with
  | nil => rfl
  | cons row rows ih =>
    have hrow : a.dot? b row xs = .ok (a.dot b row xs) := if_pos (h row List.mem_cons_self)
    rw [List.mapM_cons, hrow, ih fun row' hrow' => h row' (List.mem_cons_of_mem row hrow')]
    rfl

/-- Weights that define a map take a vector with as many components as there are features. -/
theorem Weights.applyStrict_eq {w : Weights α} (h : w.WellFormed) {x : Row α}
    (hlength : x.entries.length = w.features) : w.applyStrict x = .ok (w.apply x) := by
  cases w with
  | row coef intercept =>
    have hdot : coef.layout.dot? x.layout coef.entries x.entries = .ok (coef.dot x) :=
      if_pos hlength.symm
    rw [applyStrict, hdot]
    rfl
  | matrix coef intercept =>
    obtain ⟨-, -, hintercept⟩ := h
    have hproducts : (coef.rows.mapM fun row => coef.layout.dot? x.layout row x.entries) =
        .ok (coef.rows.map fun row => coef.layout.dot x.layout row x.entries) :=
      Layout.mapM_dot? _ _ fun row hrow => (coef.length_of_mem_rows hrow).trans hlength.symm
    have hsums :
        Vector.sum? (coef.rows.map fun row => coef.layout.dot x.layout row x.entries) intercept =
          .ok (List.zipWith (fun row c => coef.layout.dot x.layout row x.entries + c) coef.rows
            intercept) := by
      rw [Vector.sum?, if_pos (by rw [List.length_map, hintercept]; rfl), List.zipWith_map_left]
    rw [applyStrict, hproducts]
    exact congrArg (fun sums => sums.map fun xs => Value.vector (.ofList xs)) hsums

variable [Sub α] [Neg α] [Div α] [ExpLn α] [LT α] [DecidableLT α] [LE α] [DecidableLE α]

/-- The value of an operator. Only the scan for the largest component reads positions. -/
def Operator.applyStrict (op : Operator) (v : Value α) : Except Stop (Value α) :=
  match op, v with
  | argMax, .vector ⟨x :: xs, _, _⟩ =>
    ((Vector.argMax? (x :: xs)).map fun k => .scalar (k : α)).mapError .fault
  | op, v => (op.apply v).mapError .eval

omit [Mul α] in
theorem Operator.applyStrict_eq (op : Operator) (v : Value α) :
    op.applyStrict v = (op.apply v).mapError .eval := by
  unfold applyStrict
  split
  · rw [Vector.argMax?_cons]
    rfl
  · rfl

/-- The value of an expression, where nothing is taken for granted about the sizes of arrays. -/
def Expr.evalStrict (b : Bindings α) : Expr α → Except Stop (Value α)
  | input name =>
    match b.get? name with
    | some v => .ok v
    | none => .error (.eval (.unbound name))
  | const v => .ok v
  | linear weights arg => do
    let x := (← arg.evalStrict b).components
    if x.entries.length = weights.features then (weights.applyStrict x).mapError .fault
    else .error (.eval (.featureCount weights.features x.entries.length))
  | unary op arg => do op.applyStrict (← arg.evalStrict b)
  | classifier _ arg => arg.evalStrict b

/-- On a well-formed tree all arrays have the sizes that their operations need. -/
theorem Expr.evalStrict_eq {e : Expr α} (h : e.WellFormed) (b : Bindings α) :
    e.evalStrict b = (e.eval b).mapError .eval := by
  induction e with
  | input name =>
    rw [evalStrict, eval]
    cases b.get? name <;> rfl
  | const v => rfl
  | linear weights arg ih =>
    rw [evalStrict, eval, ih h.2]
    cases arg.eval b with
    | error error => rfl
    | ok v =>
      change (if v.components.entries.length = weights.features then _ else _) =
        Except.mapError Stop.eval (if v.components.entries.length = weights.features then _ else _)
      by_cases hlength : v.components.entries.length = weights.features
      · rw [if_pos hlength, if_pos hlength, Weights.applyStrict_eq h.1 hlength]
        rfl
      · rw [if_neg hlength, if_neg hlength]
        rfl
  | unary op arg ih =>
    rw [evalStrict, eval, ih h]
    cases arg.eval b with
    | error error => rfl
    | ok v => exact op.applyStrict_eq v
  | classifier mode arg ih => exact ih h

end Evaluation

/-! ## Rows in one buffer -/

namespace Matrix

/-- Rows of a given width that are cut off one after the other. -/
def cut (width : ℕ) : ℕ → List α → List (List α)
  | 0, _ => []
  | height + 1, entries => entries.take width :: cut width height (entries.drop width)

theorem length_of_mem_cut {width height : ℕ} {entries : List α}
    (h : height * width ≤ entries.length) :
    ∀ row ∈ cut width height entries, row.length = width := by
  induction height generalizing entries with
  | zero => simp [cut]
  | succ height ih =>
    rw [Nat.add_mul, Nat.one_mul] at h
    have hrest : height * width ≤ (entries.drop width).length := by
      rw [List.length_drop]
      omega
    rw [cut, List.forall_mem_cons]
    refine ⟨?_, ih hrest⟩
    rw [List.length_take]
    omega

/-- Rows of one length are found again in the buffer of all their entries. -/
theorem cut_flatten {width : ℕ} {rows : List (List α)} (h : ∀ row ∈ rows, row.length = width) :
    cut width rows.length rows.flatten = rows := by
  induction rows with
  | nil => rfl
  | cons row rows ih =>
    obtain ⟨hrow, hrows⟩ := List.forall_mem_cons.mp h
    rw [List.length_cons, cut, List.flatten_cons, List.take_left' hrow, List.drop_left' hrow,
      ih hrows]

theorem cut_rectangular {width height : ℕ} {entries : List α}
    (h : height * width ≤ entries.length) :
    ∀ row ∈ cut width height entries,
      row.length = ((cut width height entries).headD []).length := by
  intro row hrow
  obtain ⟨first, rows, hcut⟩ := List.exists_cons_of_ne_nil (List.ne_nil_of_mem hrow)
  have hlength := length_of_mem_cut h
  rw [hlength row hrow, hcut, List.headD_cons, hlength first (hcut ▸ List.mem_cons_self)]

/-- The matrix of a given height and width whose entries stand in one buffer, row by row. It is
refused if the number of entries is not right, or if the sizes that are not zero have a product
beyond `limit`. -/
def ofFlat? (limit height width : ℕ) (entries : List α) : Option (Matrix α) :=
  if h : entries.length = height * width ∧ max height 1 * max width 1 ≤ limit then
    some (.rowMajor (cut width height entries) (cut_rectangular h.1.ge))
  else none

theorem length_flatten {width : ℕ} {rows : List (List α)} (h : ∀ row ∈ rows, row.length = width) :
    rows.flatten.length = rows.length * width := by
  rw [List.length_flatten, List.map_congr_left h, List.map_const', List.sum_replicate_nat]

/-- Rows of one length pass through one buffer, if a buffer may have as many entries as there are
rows and as there are entries. -/
theorem ofFlat?_flatten {m : Matrix α} (hlayout : m.layout = .standard) {limit : ℕ}
    (hpos : 0 < m.height)
    (hheight : m.height ≤ limit) (hentries : m.rows.flatten.length ≤ limit) :
    ofFlat? limit m.height m.width m.rows.flatten = some m := by
  have hlength : m.rows.flatten.length = m.height * m.width := length_flatten m.rectangular
  have hsize : max m.height 1 * max m.width 1 ≤ limit := by
    rw [max_eq_left hpos]
    rcases Nat.eq_zero_or_pos m.width with hwidth | hwidth
    · simpa [hwidth] using hheight
    · rwa [max_eq_left hwidth, ← hlength]
  rw [ofFlat?, dif_pos ⟨hlength, hsize⟩, Option.some_inj]
  exact ext (cut_flatten m.rectangular) hlayout.symm

end Matrix

namespace FittedModel

variable {m : FittedModel α} {limit : ℕ}

/-- The tree of a model with any other number of rows than one, where the rows are copied into one
buffer and cut again. A buffer that cannot be cut is `refused`. -/
def ofFlatRows (limit : ℕ) (refused : BuildError) (select : Selector α) (m : FittedModel α)
    (s : Settings) : Build α (Expr α) := do
  Build.tell (.dispatchMulticlass m.coef.length)
  if m.coef.isEmpty then Build.fail (.model .noRows)
  else
    match Matrix.raggedRow? m.coef with
    | some row => Build.fail (.model (.raggedRow row))
    | none =>
      if m.intercept.length = m.coef.length then
        match Matrix.ofFlat? limit m.coef.length m.features m.coef.flatten with
        | some coef =>
          Logistic.ofMatrixResolving select coef m.intercept (.input s.input) s.method m.strategy
        | none => Build.fail refused
      else Build.fail (.model (.interceptCount m.coef.length m.intercept.length))

/-- Whatever a buffer that cannot be cut would give, it is not given: there is none once the checks
have passed. -/
theorem ofFlatRows_eq (hrows : m.coef.length ≤ limit) (hentries : m.coef.flatten.length ≤ limit)
    (refused : BuildError) (select : Selector α) (s : Settings) :
    m.ofFlatRows limit refused select s = m.ofRows select s := by
  unfold ofFlatRows ofRows
  cases hempty : m.coef.isEmpty with
  | true => rfl
  | false =>
    have hpos : 0 < m.coef.length := List.length_pos_iff.mpr (List.isEmpty_eq_false_iff.mp hempty)
    cases hragged : Matrix.raggedRow? m.coef with
    | some row => rw [Matrix.ofRows_eq_error_iff.mpr hragged]
    | none =>
      let coef : Matrix α := .rowMajor m.coef (Matrix.raggedRow?_eq_none_iff.mp hragged)
      have hcoef : Matrix.ofRows m.coef = .ok coef := Matrix.ofRows_rowMajor _
      have hflat : Matrix.ofFlat? limit m.coef.length m.features m.coef.flatten = some coef :=
        Matrix.ofFlat?_flatten (m := coef) rfl hpos hrows hentries
      rw [hcoef, hflat]

end FittedModel

/-! ## Reachable trees -/

/-- Weights that define a map have sizes that fit. -/
theorem Weights.WellFormed.sizes {w : Weights α} (h : w.WellFormed) :
    1 ≤ w.features ∧ 1 ≤ w.outputs ∧ ∀ coef intercept, w = .matrix coef intercept →
      (∀ row ∈ coef.rows, row.length = w.features) ∧ intercept.length = coef.rows.length := by
  cases w with
  | row coef intercept =>
    refine ⟨h, le_rfl, ?_⟩
    rintro _ _ ⟨⟩
  | matrix coef intercept =>
    obtain ⟨hwidth, hheight, hintercept⟩ := h
    refine ⟨hwidth, hheight, ?_⟩
    rintro _ _ ⟨⟩
    exact ⟨coef.rectangular, hintercept⟩

variable [NatCast α] [Add α] [Mul α] [Sub α] [Neg α] [Div α] [ExpLn α]
variable [LT α] [DecidableLT α] [LE α] [DecidableLE α]

/-- Trees that can be built have affine nodes with sizes that fit, at any depth. So an evaluation of
such a tree never meets arrays of the wrong sizes, and fails only as evaluations do. Nor does a model
come to a buffer that cannot be cut into its rows, as `limit` bounds the sizes of all buffers, that of
its rows and that of its entries included. -/
theorem reachable_sizes_fit {e : Expr α} (h : e.Reachable) :
    (∀ w ∈ e.affineMaps, 1 ≤ w.features ∧ 1 ≤ w.outputs ∧
      ∀ coef intercept, w = .matrix coef intercept →
        (∀ row ∈ coef.rows, row.length = w.features) ∧ intercept.length = coef.rows.length) ∧
    (∀ b, e.evalStrict b = (e.eval b).mapError .eval ∧
      ∀ fault, e.evalStrict b ≠ .error (.fault fault)) ∧
    ∀ (m : FittedModel α) (limit : ℕ), m.coef.length ≤ limit → m.coef.flatten.length ≤ limit →
      ∀ refused select s, m.ofFlatRows limit refused select s = m.ofRows select s := by
  have hwell := Expr.reachable_iff_wellFormed.mp h
  refine ⟨?_, ?_, ?_⟩
  · intro w hw
    exact (Expr.wellFormed_iff.mp hwell w hw).sizes
  · intro b
    have hstrict := Expr.evalStrict_eq hwell b
    refine ⟨hstrict, fun fault => ?_⟩
    rw [hstrict]
    cases e.eval b with
    | error error => rintro ⟨⟩
    | ok v => rintro ⟨⟩
  · intro m limit hrows hentries refused select s
    exact FittedModel.ofFlatRows_eq hrows hentries refused select s

/-- Three classes of two features. -/
def threeRows : FittedModel Float where
  coef := [[1, 0], [0, 1], [-1, -1]]
  intercept := [0, 0.5, -0.5]
  classes := none
  strategyName := "multinomial"
  solver := "lbfgs"

/-- A classifier over the probabilities of another one. -/
theorem reachable_sizes_fit_stacked :
    ∃ probs e, (threeRows.toExprWith Selector.standard ⟨.predictProba, "x"⟩).result = .ok probs ∧
      (Logistic.ofRow Selector.standard (.ofList [1, -1, 1]) 0 probs .predictProba).result = .ok e ∧
      (∀ w ∈ e.affineMaps, 1 ≤ w.features ∧ 1 ≤ w.outputs) ∧
      (∀ b, e.evalStrict b = (e.eval b).mapError .eval) ∧
      ∀ refused, threeRows.ofFlatRows 6 refused Selector.standard ⟨.predict, "x"⟩ =
        threeRows.ofRows Selector.standard ⟨.predict, "x"⟩ := by
  obtain ⟨probs, hprobs⟩ : ∃ probs,
      (threeRows.toExprWith Selector.standard ⟨.predictProba, "x"⟩).result = .ok probs := ⟨_, rfl⟩
  have hjudged : (Logistic.ofRow Selector.standard (.ofList [1, -1, 1]) 0 probs
      .predictProba).result = .ok _ := rfl
  obtain ⟨hsizes, hstrict, hflat⟩ := reachable_sizes_fit
    (.ofRow Selector.constructs_standard (.ofModel Selector.constructs_standard hprobs) hjudged)
  refine ⟨probs, _, hprobs, hjudged, ?_, fun b => (hstrict b).1, ?_⟩
  · intro w hw
    obtain ⟨hfeatures, houtputs, -⟩ := hsizes w hw
    exact ⟨hfeatures, houtputs⟩
  · intro refused
    exact hflat threeRows 6 (by decide) (by decide) refused Selector.standard ⟨.predict, "x"⟩

/-- A sum of two components and one intercept is refused. -/
example : (Expr.linear (.matrix (.rowMajor [[1], [2]] (by decide)) [0]) (.input "x")).evalStrict
    (Bindings.empty.bind "x" (.scalar (3 : Float))) = .error (.fault (.sum 2 1)) := rfl

end ScoreTree
