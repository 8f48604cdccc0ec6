import ScoreTree.Expr.Basic
import ScoreTree.Text.Quoted
import ScoreTree.Vector

/-!
# Evaluation

The value of a tree under bindings of its input names. Operators and affine maps first look at the
shape of their argument, and every failure has a cause of its own in `EvalError`. The numbers are
arbitrary: no failure depends on them.
-/

namespace ScoreTree

universe u

variable {α : Type u}

/-- Values bound to names. A later binding of a name hides an earlier one. -/
structure Bindings (α : Type u) where
  entries : List (String × Value α) := []

namespace Bindings

def empty : Bindings α := {}

def bind (b : Bindings α) (name : String) (value : Value α) : Bindings α :=
  ⟨(name, value) :: b.entries⟩

def get? (b : Bindings α) (name : String) : Option (Value α) :=
  b.entries.lookup name

@[simp] theorem get?_bind_self (b : Bindings α) (name : String) (value : Value α) :
    (b.bind name value).get? name = some value := by
  simp [bind, get?]

theorem get?_bind_of_ne (b : Bindings α) {name other : String} (value : Value α)
    (h : other ≠ name) : (b.bind name value).get? other = b.get? other := by
  simp [bind, get?, List.lookup_cons, beq_false_of_ne h]

end Bindings

/-- Why a tree has no value. -/
inductive EvalError where
  | unbound (name : String)
  /-- The operator takes a vector, and its argument is a scalar; or it takes a vector in standard
  order, and its argument lies otherwise. -/
  | expectedVector (op : Operator)
  /-- The argument of an affine map has the wrong number of components. -/
  | featureCount (expected actual : Nat)
  | emptyVector (op : Operator)
  deriving DecidableEq

def EvalError.message : EvalError → String
  | unbound name => s!"input {Text.quoted name} is not bound"
  | expectedVector op => s!"{op.name} expects a vector argument"
  | featureCount expected actual =>
    s!"linear combination expects {expected} features, got {actual}"
  | emptyVector op => s!"{op.name} of an empty vector"

/-- Passes a vector and its components to `f`; a scalar and an empty vector are refused. -/
def Operator.onComponents (op : Operator) (f : Row α → α → List α → Except EvalError (Value α)) :
    Value α → Except EvalError (Value α)
  | .scalar _ => .error (.expectedVector op)
  | .vector row =>
    match row.entries with
    | [] => .error (.emptyVector op)
    | x :: xs => f row x xs

theorem Operator.onComponents_of_entries (op : Operator)
    (f : Row α → α → List α → Except EvalError (Value α)) {row : Row α} {x : α} {xs : List α}
    (h : row.entries = x :: xs) : op.onComponents f (.vector row) = f row x xs := by
  simp only [onComponents, h]

section Arithmetic

variable [NatCast α] [Add α] [Mul α]

/-- The affine map of given weights. A vector of scores is fresh, so it lies in standard order. -/
def Weights.apply (x : Row α) : Weights α → Value α
  | row coef intercept => .scalar (coef.dot x + intercept)
  | matrix coef intercept =>
    .vector (.ofList (List.zipWith
      (fun row b => coef.layout.dot x.layout row x.entries + b) coef.rows intercept))

variable [Sub α] [Neg α] [Div α] [ExpLn α]
variable [LT α] [DecidableLT α] [LE α] [DecidableLE α]

/-- The value of an operator. The exponentials of `softmax` are written over its argument from the
first component to the last, which takes one that lies in standard order. -/
def Operator.apply (op : Operator) (v : Value α) : Except EvalError (Value α) :=
  match op with
  | step => .ok (v.map Scalar.step)
  | sigmoid => .ok (v.map Scalar.logistic)
  | log => .ok (v.map ExpLn.ln)
  | argMax =>
    argMax.onComponents (fun _ x xs => .ok (.scalar ((Vector.argMax x xs : Nat) : α))) v
  | normalize => normalize.onComponents (fun row _ _ => .ok (.vector row.normalize)) v
  | softmax =>
    softmax.onComponents (fun row x xs =>
      if row.layout = .standard then .ok (.vector (.ofList (Vector.softmax x xs)))
      else .error (.expectedVector softmax)) v

/-- The value of an expression. An affine map takes a scalar as a vector of one component. -/
def Expr.eval (b : Bindings α) : Expr α → Except EvalError (Value α)
  | input name =>
    match b.get? name with
    | some v => .ok v
    | none => .error (.unbound name)
  | const v => .ok v
  | linear weights arg => do
    let x := (← arg.eval b).components
    if x.entries.length = weights.features then .ok (weights.apply x)
    else .error (.featureCount weights.features x.entries.length)
  | unary op arg => do op.apply (← arg.eval b)
  | classifier _ arg => arg.eval b

end Arithmetic
end ScoreTree
