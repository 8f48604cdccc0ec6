import ScoreTree.Expr.Eval
import ScoreTree.Proofs.BuiltTree

/-!
# Trees over trees

A tree is a path from its root to a leaf. Its value is what the nodes on the path make of the value of
the leaf (`Expr.eval_eq_through`), and another expression can stand in the place of the leaf
(`Expr.graft`). The builders put the expression they are given at the leaf and look at nothing in
it, so a tree over an expression is a tree over a name that is bound to the value of the expression,
and a tree over a tree computes the composition of both (`Translation.build_composes`).
-/

namespace ScoreTree

universe u

variable {α : Type u}

namespace Expr

/-- The end of the path from the root. -/
def leaf : Expr α → Expr α
  | linear _ arg => arg.leaf
  | unary _ arg => arg.leaf
  | classifier _ arg => arg.leaf
  | e => e

/-- The tree with another expression in the place of its leaf. -/
def graft (t e : Expr α) : Expr α :=
  match t with
  | linear weights arg => .linear weights (arg.graft e)
  | unary op arg => .unary op (arg.graft e)
  | classifier mode arg => .classifier mode (arg.graft e)
  | _ => e

theorem graft_leaf (t : Expr α) : t.graft t.leaf = t := by
  induction t with
  | input name => rfl
  | const v => rfl
  | linear weights arg ih => rw [leaf, graft, ih]
  | unary op arg ih => rw [leaf, graft, ih]
  | classifier mode arg ih => rw [leaf, graft, ih]

/-! ## Values along a path -/

section Arithmetic

variable [NatCast α] [Add α] [Mul α] [Sub α] [Neg α] [Div α] [ExpLn α]
variable [LT α] [DecidableLT α] [LE α] [DecidableLE α]

/-- What the nodes above the leaf make of its value. -/
def through (t : Expr α) (v : Value α) : Except EvalError (Value α) :=
  match t with
  | linear weights arg => do
    let x := (← arg.through v).components
    if x.entries.length = weights.features then .ok (weights.apply x)
    else .error (.featureCount weights.features x.entries.length)
  | unary op arg => do op.apply (← arg.through v)
  | classifier _ arg => arg.through v
  | _ => .ok v

theorem eval_graft (t e : Expr α) (b : Bindings α) :
    (t.graft e).eval b = e.eval b >>= t.through := by
  induction t with
  | input name => exact (bind_pure (e.eval b)).symm
  | const v => exact (bind_pure (e.eval b)).symm
  | linear weights arg ih =>
    rw [graft, eval, ih, bind_assoc]
    rfl
  | unary op arg ih =>
    rw [graft, eval, ih, bind_assoc]
    rfl
  | classifier mode arg ih => exact ih

/-- Bindings are looked up at the leaf only. -/
theorem eval_eq_through (t : Expr α) (b : Bindings α) :
    t.eval b = t.leaf.eval b >>= t.through := by
  conv_lhs => rw [← graft_leaf t]
  exact eval_graft t t.leaf b

theorem eval_bind_of_leaf {t : Expr α} {name : String} (h : t.leaf = .input name)
    (b : Bindings α) (v : Value α) : t.eval (b.bind name v) = t.through v := by
  have hleaf : (input name : Expr α).eval (b.bind name v) = .ok v := by
    simp only [eval, Bindings.get?_bind_self]
  rw [eval_eq_through, h, hleaf]
  rfl

end Arithmetic

theorem affine_graft (weights : Weights α) (arg e : Expr α) :
    affine weights (arg.graft e) = (affine weights arg).map fun t => t.graft e := by
  unfold affine
  cases weights.defect? <;> rfl

theorem leaf_of_affine {weights : Weights α} {arg t : Expr α} (h : affine weights arg = .ok t) :
    t.leaf = arg.leaf := by
  obtain ⟨-, rfl⟩ := affine_eq_ok_iff.mp h
  rfl

end Expr

/-! ## Builders -/

namespace Logistic

theorem ofRow_graft (coef : Row α) (intercept : α) (arg e : Expr α) (method : Method) :
    (ofRow Selector.standard coef intercept (arg.graft e) method).result =
      (ofRow Selector.standard coef intercept arg method).result.map fun t => t.graft e := by
  rw [ofRow_eq_decide, ofRow_eq_decide]
  cases coef.entries.isEmpty with
  | true => rfl
  | false => cases method <;> rfl

theorem ofMatrix_graft (coef : Matrix α) (intercept : List α) (arg e : Expr α) (method : Method)
    (strategy : Strategy) :
    (ofMatrix Selector.standard coef intercept (arg.graft e) method strategy).result =
      (ofMatrix Selector.standard coef intercept arg method strategy).result.map
        fun t => t.graft e := by
  rw [ofMatrix, ofMatrix, ofMatrixResolving, ofMatrixResolving, Build.tell_bind, Build.tell_bind,
    decision_eq, decision_eq]
  cases (Weights.matrix coef intercept).defect? with
  | some defect => rfl
  | none => cases method <;> cases strategy <;> rfl

theorem leaf_of_ofRow {coef : Row α} {intercept : α} {arg t : Expr α} {method : Method}
    (h : (ofRow Selector.standard coef intercept arg method).result = .ok t) :
    t.leaf = arg.leaf := by
  rw [eq_rowTree_of_ofRow h]
  cases method <;> rfl

theorem leaf_of_ofMatrix {coef : Matrix α} {intercept : List α} {arg t : Expr α} {method : Method}
    {strategy : Strategy}
    (h : (ofMatrix Selector.standard coef intercept arg method strategy).result = .ok t) :
    t.leaf = arg.leaf := by
  rw [eq_rowsTree_of_ofMatrix h]
  cases method <;> cases strategy <;> rfl

end Logistic

/-- Parameters of a tree over given inputs: an affine map, or an output of a logistic regression. -/
inductive Translation (α : Type u) where
  | affine (weights : Weights α)
  | row (coef : Row α) (intercept : α) (method : Method)
  | matrix (coef : Matrix α) (intercept : List α) (method : Method) (strategy : Strategy)

namespace Translation

/-- The tree over the given inputs. -/
def build (T : Translation α) (inputs : Expr α) : Except BuildError (Expr α) :=
  match T with
  | affine weights => (Expr.affine weights inputs).mapError .shape
  | row coef intercept method =>
    (Logistic.ofRow Selector.standard coef intercept inputs method).result
  | matrix coef intercept method strategy =>
    (Logistic.ofMatrix Selector.standard coef intercept inputs method strategy).result

theorem build_graft (T : Translation α) (arg e : Expr α) :
    T.build (arg.graft e) = (T.build arg).map fun t => t.graft e := by
  cases T with
  | affine weights =>
    rw [build, build, Expr.affine_graft]
    cases Expr.affine weights arg <;> rfl
  | row coef intercept method => exact Logistic.ofRow_graft coef intercept arg e method
  | matrix coef intercept method strategy =>
    exact Logistic.ofMatrix_graft coef intercept arg e method strategy

theorem leaf_of_build {T : Translation α} {arg t : Expr α} (h : T.build arg = .ok t) :
    t.leaf = arg.leaf := by
  cases T with
  | affine weights =>
    rw [build] at h
    cases haffine : Expr.affine weights arg with
    | error error =>
      rw [haffine] at h
      cases h
    | ok tree =>
      rw [haffine] at h
      cases h
      exact Expr.leaf_of_affine haffine
  | row coef intercept method => exact Logistic.leaf_of_ofRow h
  | matrix coef intercept method strategy => exact Logistic.leaf_of_ofMatrix h

variable [NatCast α] [Add α] [Mul α] [Sub α] [Neg α] [Div α] [ExpLn α]
variable [LT α] [DecidableLT α] [LE α] [DecidableLE α]

/-- Inputs given as an expression behave like a name that is bound to its value. Both fail alike to give
a tree, and otherwise the tree over the expression fails where the expression does and has the value
of the tree over the name elsewhere, failures included. In particular, of two trees one over the
other computes the composition of both as functions of their inputs. -/
theorem build_composes (T : Translation α) :
    (∀ (e : Expr α) (name : String),
      (∃ error, T.build e = .error error ∧ T.build (.input name) = .error error) ∨
      ∃ tree named, T.build e = .ok tree ∧ T.build (.input name) = .ok named ∧
        ∀ b : Bindings α,
          (∀ v, e.eval b = .ok v → tree.eval b = named.eval (b.bind name v)) ∧
          (∀ error, e.eval b = .error error → tree.eval b = .error error)) ∧
    (∀ (S : Translation α) (inner outer : String) (first second : Expr α),
      S.build (.input inner) = .ok first → T.build (.input outer) = .ok second →
      ∃ tree, T.build first = .ok tree ∧ ∀ (b : Bindings α) (x : Value α),
        tree.eval (b.bind inner x) =
          first.eval (b.bind inner x) >>= fun v => second.eval (b.bind outer v)) := by
  have hbuild (e : Expr α) (name : String) :
      T.build e = (T.build (.input name)).map fun t => t.graft e := T.build_graft (.input name) e
  have hvalue (e : Expr α) {name : String} {named : Expr α}
      (h : T.build (.input name) = .ok named) (b b' : Bindings α) :
      (named.graft e).eval b = e.eval b >>= fun v => named.eval (b'.bind name v) := by
    rw [Expr.eval_graft]
    congr 1
    funext v
    exact (Expr.eval_bind_of_leaf (leaf_of_build h) b' v).symm
  constructor
  · intro e name
    cases hnamed : T.build (.input name) with
    | error error =>
      refine .inl ⟨error, ?_, rfl⟩
      rw [hbuild e name, hnamed]
      rfl
    | ok named =>
      refine .inr ⟨named.graft e, named, ?_, rfl, fun b => ⟨?_, ?_⟩⟩
      · rw [hbuild e name, hnamed]
        rfl
      · intro v hv
        rw [hvalue e hnamed b b, hv]
        rfl
      · intro error herror
        rw [hvalue e hnamed b b, herror]
        rfl
  · intro S inner outer first second _ hsecond
    refine ⟨second.graft first, ?_, fun b x => hvalue first hsecond (b.bind inner x) b⟩
    rw [hbuild first outer, hsecond]
    rfl

/-- The probability of one feature. -/
def oneFeature : Translation Float := .row (.ofList [2]) (-1) .predictProba

/-- Two classes by the probability of another classifier. -/
def twoClasses : Translation Float := .matrix (.rowMajor [[-1], [1]] (by decide)) [0, 0] .predict .ovr

theorem build_composes_twoClasses :
    (∃ tree named, twoClasses.build (.const (.scalar 0.75)) = .ok tree ∧
      twoClasses.build (.input "p") = .ok named ∧
      ((Expr.const (.scalar (0.75 : Float))).eval Bindings.empty = .ok (.scalar 0.75) ∧
        tree.eval Bindings.empty = named.eval (Bindings.empty.bind "p" (.scalar 0.75)))) ∧
    ∃ first second, oneFeature.build (.input "x") = .ok first ∧
      twoClasses.build (.input "p") = .ok second ∧
      ∃ tree, twoClasses.build first = .ok tree ∧
        tree.eval (Bindings.empty.bind "x" (.vector (.ofList [0.5]))) =
          first.eval (Bindings.empty.bind "x" (.vector (.ofList [0.5]))) >>= fun v =>
            second.eval (Bindings.empty.bind "p" v) := by
  obtain ⟨hinputs, hcomposed⟩ := build_composes twoClasses
  constructor
  · rcases hinputs (.const (.scalar 0.75)) "p" with ⟨error, -, herror⟩ | ⟨tree, named, ht, hn, heval⟩
    · cases herror
    · exact ⟨tree, named, ht, hn, rfl, (heval Bindings.empty).1 _ rfl⟩
  · obtain ⟨tree, htree, heval⟩ := hcomposed oneFeature "x" "p" _ _ rfl rfl
    exact ⟨_, _, rfl, rfl, tree, htree, heval Bindings.empty (.vector (.ofList [0.5]))⟩

end Translation
end ScoreTree
