import Mathlib.Tactic
import ScoreTree.Expr.Eval

/-!
# Shapes

A value is a scalar or a vector of some length and layout. The shape of an expression is computed from
the shapes of its inputs alone, by the registry entry of each operator and by the size of the weights;
a failure of this calculus is a failure of evaluation. Layouts matter for the softmax only, which
refuses a vector that does not lie in standard order. `map_shape_eval` says that evaluation follows
the calculus, whatever the numbers are.
-/

namespace ScoreTree

universe u

/-- What a value looks like without its numbers. -/
inductive Shape where
  | scalar
  | vector (length : ℕ) (layout : Layout)
  deriving DecidableEq

variable {α : Type u}

namespace Shape

/-- The number of features that a value of this shape has, which is one for a scalar. -/
def size : Shape → ℕ
  | scalar => 1
  | vector length _ => length

/-- The shape of a copy, where a vector has no gaps. -/
def packed : Shape → Shape
  | scalar => scalar
  | vector length layout => vector length layout.packed

end Shape

namespace Value

def shape : Value α → Shape
  | scalar _ => .scalar
  | vector row => .vector row.entries.length row.layout

theorem length_components (v : Value α) : v.components.entries.length = v.shape.size := by
  cases v <;> rfl

theorem shape_map (f : α → α) (v : Value α) : (v.map f).shape = v.shape.packed := by
  cases v with
  | scalar x => rfl
  | vector row => simp [map, shape, Shape.packed]

end Value

/-- What an operator does to a shape, by its kind. Of the operators that give a vector for a vector, the
softmax takes only one that lies in standard order. -/
def Operator.resultShape (op : Operator) (s : Shape) : Except EvalError Shape :=
  match op.kind, s with
  | .pointwise, s => .ok s.packed
  | _, .scalar => .error (.expectedVector op)
  | _, .vector 0 _ => .error (.emptyVector op)
  | .vectorToVector, .vector length layout =>
    if op = softmax ∧ layout ≠ .standard then .error (.expectedVector op)
    else .ok (.vector length layout)
  | .vectorToScalar, _ => .ok .scalar

/-- Scores are fresh, so a vector of scores lies in standard order. -/
def Weights.resultShape (w : Weights α) : Shape :=
  if w.isMatrix then .vector w.outputs .standard else .scalar

/-- The shape of an expression whose inputs have the given shapes, from the leaf outwards up to the
first failure. -/
def Expr.shape (shapes : String → Option Shape) : Expr α → Except EvalError Shape
  | input name =>
    match shapes name with
    | some s => .ok s
    | none => .error (.unbound name)
  | const v => .ok v.shape
  | linear weights arg => do
    let s ← arg.shape shapes
    if s.size = weights.features then .ok weights.resultShape
    else .error (.featureCount weights.features s.size)
  | unary op arg => do op.resultShape (← arg.shape shapes)
  | classifier _ arg => arg.shape shapes

def Bindings.shapes (b : Bindings α) (name : String) : Option Shape :=
  (b.get? name).map Value.shape

theorem Operator.map_shape_onComponents (op : Operator)
    {f : Row α → α → List α → Except EvalError (Value α)}
    (result : ℕ → Layout → Except EvalError Shape)
    (hf : ∀ row x xs, row.entries = x :: xs →
      (f row x xs).map Value.shape = result row.entries.length row.layout) (v : Value α) :
    (op.onComponents f v).map Value.shape = match v.shape with
      | .scalar => .error (.expectedVector op)
      | .vector 0 _ => .error (.emptyVector op)
      | .vector length layout => result length layout := by
  cases v with
  | scalar x => rfl
  | vector row =>
    have hrow := hf row
    simp only [onComponents, Value.shape]
    cases hentries : row.entries with
    | nil => rfl
    | cons x xs =>
      rw [hentries] at hrow
      exact hrow x xs rfl

section Arithmetic

variable [NatCast α] [Add α] [Mul α]

theorem Weights.shape_apply {w : Weights α} (h : w.WellFormed) (x : Row α) :
    (w.apply x).shape = w.resultShape := by
  cases w with
  | row coef intercept => rfl
  | matrix coef intercept =>
    obtain ⟨-, -, hlength⟩ := h
    simp [apply, Value.shape, resultShape, isMatrix, outputs, Matrix.height, hlength]

variable [Sub α] [Neg α] [Div α] [ExpLn α] [LT α] [DecidableLT α] [LE α] [DecidableLE α]

omit [Mul α] in
/-- The registry tells what an operator does to shapes. -/
theorem Operator.map_shape_apply (op : Operator) (v : Value α) :
    (op.apply v).map Value.shape = op.resultShape v.shape := by
  cases op with
  | step | sigmoid | log => simp [apply, Except.map, Value.shape_map, resultShape, kind]
  | argMax =>
    rw [apply, map_shape_onComponents argMax (fun _ _ => .ok .scalar) fun _ _ _ _ => rfl]
    rcases v.shape with _ | ⟨_ | n, layout⟩ <;> rfl
  | normalize =>
    have hshape (row : Row α) (x : α) (xs : List α) (_ : row.entries = x :: xs) :
        (Except.ok (.vector row.normalize) : Except EvalError (Value α)).map Value.shape =
          .ok (.vector row.entries.length row.layout) := by
      simp [Except.map, Value.shape]
    rw [apply, map_shape_onComponents normalize (fun length layout => .ok (.vector length layout))
      hshape]
    rcases v.shape with _ | ⟨_ | n, layout⟩ <;> rfl
  | softmax =>
    rw [apply, map_shape_onComponents softmax (fun length layout =>
      if layout = .standard then .ok (.vector length .standard)
      else .error (.expectedVector softmax))]
    · rcases v.shape with _ | ⟨_ | n, layout⟩
      · rfl
      · rfl
      · cases layout <;> rfl
    · intro row x xs hentries
      split_ifs
      · simp [Except.map, Value.shape, hentries]
      · rfl

theorem Expr.map_shape_eval {e : Expr α} (h : e.WellFormed) (b : Bindings α) :
    (e.eval b).map Value.shape = e.shape b.shapes := by
  induction e with
  | input name =>
    simp only [eval, shape, Bindings.shapes]
    cases b.get? name <;> rfl
  | const v => rfl
  | linear weights arg ih =>
    obtain ⟨hweights, harg⟩ := h
    have ih := ih harg
    simp only [eval, shape, ← ih]
    cases arg.eval b with
    | error error => rfl
    | ok v =>
      simp only [bind, Except.bind, Except.map, Value.length_components]
      split_ifs
      · simp [Weights.shape_apply hweights]
      · rfl
  | unary op arg ih =>
    have ih := ih h
    simp only [eval, shape, ← ih]
    cases arg.eval b with
    | error error => rfl
    | ok v => exact op.map_shape_apply v
  | classifier mode arg ih => exact ih h

theorem Expr.eval_eq_error_of_shape {e : Expr α} (h : e.WellFormed) {b : Bindings α}
    {error : EvalError} (hshape : e.shape b.shapes = .error error) : e.eval b = .error error := by
  rw [← map_shape_eval h] at hshape
  cases heval : e.eval b with
  | error error' => simpa [heval, Except.map] using hshape
  | ok v => simp [heval, Except.map] at hshape

theorem Expr.exists_eval_of_shape {e : Expr α} (h : e.WellFormed) {b : Bindings α} {s : Shape}
    (hshape : e.shape b.shapes = .ok s) : ∃ v, e.eval b = .ok v ∧ v.shape = s := by
  rw [← map_shape_eval h] at hshape
  cases heval : e.eval b with
  | error error => simp [heval, Except.map] at hshape
  | ok v => exact ⟨v, rfl, by simpa [heval, Except.map] using hshape⟩

/-- The outcome of evaluation has the shape, or the failure, that the calculus computes. So it is the
same for bindings of the same names to values of the same shapes. -/
theorem Expr.eval_shape_determined {e : Expr α} (h : e.WellFormed) {b b' : Bindings α}
    (hshapes : b.shapes = b'.shapes) :
    (e.eval b).map Value.shape = e.shape b.shapes ∧
      (e.eval b).map Value.shape = (e.eval b').map Value.shape := by
  have hleft := map_shape_eval h b
  have hright := map_shape_eval h b'
  exact ⟨hleft, by rw [hleft, hright, hshapes]⟩

end Arithmetic

/-- Probabilities of two classes with the scores `x` and `-x`. -/
def twoClasses : Expr Float :=
  .classifier .probability (.unary .softmax
    (.linear (.matrix (.rowMajor [[1], [-1]] (by decide)) [0, 0]) (.input "x")))

theorem eval_shape_determined_twoClasses :
    twoClasses.shape (Bindings.empty.bind "x" (.scalar (0 / 0 : Float))).shapes =
        .ok (.vector 2 .standard) ∧
      (twoClasses.eval (Bindings.empty.bind "x" (.scalar (0 / 0)))).map Value.shape =
        twoClasses.shape (Bindings.empty.bind "x" (.scalar (0 / 0 : Float))).shapes ∧
      (twoClasses.eval (Bindings.empty.bind "x" (.scalar (0 / 0)))).map Value.shape =
        (twoClasses.eval (Bindings.empty.bind "x" (.scalar (1 / 0)))).map Value.shape := by
  have hwell : twoClasses.WellFormed := ⟨⟨by decide, by decide, rfl⟩, trivial⟩
  refine ⟨rfl, Expr.eval_shape_determined hwell ?_⟩
  funext name
  by_cases hname : name = "x"
  · subst hname
    rfl
  · simp [Bindings.shapes, Bindings.get?_bind_of_ne _ _ hname]

/-- The softmax of two vectors of one length, of which one lies from the last component to the first. -/
theorem softmax_shape_depends_on_layout :
    let softmax : Expr Float := .unary .softmax (.input "x")
    (softmax.eval (Bindings.empty.bind "x" (.vector (.ofList [1, 2])))).map Value.shape =
        .ok (.vector 2 .standard) ∧
      softmax.eval (Bindings.empty.bind "x" (.vector ⟨[1, 2], .reversed, by simp⟩)) =
        .error (.expectedVector .softmax) := by
  intro softmax
  have hwell : softmax.WellFormed := trivial
  exact ⟨(Expr.map_shape_eval hwell _).trans rfl, rfl⟩

end ScoreTree
