import ScoreTree.Proofs.Recovery

/-!
# Chains of operators over a core

`Expr.spine` passes over one output mark at the root and stops at the next node that is no operator,
while `Expr.core` passes over output marks anywhere. So the operators of the spine, applied to the core,
give back the tree without the mark at its root exactly if there is no other mark between the root
and the core (`Expr.unmarked_eq_applyAll_iff`), and then evaluation applies these operators to the
value of the core, the innermost first. Trees of classifiers are of this form, with their affine
map as the core (`Expr.decomposes_iff_unmarkedBelowRoot`).
-/

namespace ScoreTree

universe u

variable {α : Type u}

namespace Expr

/-- The nodes from the root to the core. -/
def descent : Expr α → List (Expr α)
  | unary op arg => unary op arg :: arg.descent
  | classifier mode arg => classifier mode arg :: arg.descent
  | e => [e]

theorem head?_descent (t : Expr α) : t.descent.head? = some t := by
  cases t <;> rfl

theorem getLast?_descent (t : Expr α) : t.descent.getLast? = some t.core := by
  induction t with
  | input name => rfl
  | const v => rfl
  | linear weights arg _ => rfl
  | unary op arg ih => simp [descent, core, List.getLast?_cons, ih]
  | classifier mode arg ih => simp [descent, core, List.getLast?_cons, ih]

/-- Between the root and the core, no node but the root is an output mark. -/
def UnmarkedBelowRoot (t : Expr α) : Prop := ∀ node ∈ t.descent.tail, node.mode? = none

theorem core_plain (t : Expr α) : t.core.operator? = none ∧ t.core.mode? = none := by
  induction t with
  | input name => exact ⟨rfl, rfl⟩
  | const v => exact ⟨rfl, rfl⟩
  | linear weights arg _ => exact ⟨rfl, rfl⟩
  | unary op arg ih => exact ih
  | classifier mode arg ih => exact ih

theorem core_unmarked (t : Expr α) : t.unmarked.core = t.core := by
  cases t <;> rfl

/-- A tree is its operators over its core exactly if no output mark stands on the way. -/
theorem eq_applyAll_iff (t : Expr α) :
    t = applyAll t.operators t.core ↔ ∀ node ∈ t.descent, node.mode? = none := by
  induction t with
  | input name => simp [operators, core, applyAll, descent, mode?]
  | const v => simp [operators, core, applyAll, descent, mode?]
  | linear weights arg _ => simp [operators, core, applyAll, descent, mode?]
  | unary op arg ih =>
    have hcons : unary op arg = applyAll (unary op arg).operators (unary op arg).core ↔
        arg = applyAll arg.operators arg.core := by
      simp [operators, core, applyAll]
    rw [hcons, ih]
    simp [descent, mode?]
  | classifier mode arg _ =>
    refine iff_of_false ?_ ?_
    · intro h
      have hmode : some mode = arg.core.mode? := congrArg mode? h
      rw [arg.core_plain.2] at hmode
      cases hmode
    · intro h
      cases h (classifier mode arg) List.mem_cons_self

theorem unmarkedBelowRoot_iff (t : Expr α) :
    t.UnmarkedBelowRoot ↔ ∀ node ∈ t.unmarked.descent, node.mode? = none := by
  cases t with
  | input name => simp [UnmarkedBelowRoot, unmarked, descent, mode?]
  | const v => simp [UnmarkedBelowRoot, unmarked, descent, mode?]
  | linear weights arg => simp [UnmarkedBelowRoot, unmarked, descent, mode?]
  | unary op arg => simp [UnmarkedBelowRoot, unmarked, descent, mode?]
  | classifier mode arg => rfl

theorem unmarked_eq_applyAll_iff (t : Expr α) :
    t.unmarked = applyAll t.spine t.core ↔ t.UnmarkedBelowRoot := by
  rw [unmarkedBelowRoot_iff, ← eq_applyAll_iff, spine, core_unmarked]

/-- A tree over the affine map of a named input: the map is the core, and there is no output mark
between it and the root. -/
structure IsOver (t : Expr α) (weights : Weights α) (name : String) : Prop where
  unmarkedBelowRoot : t.UnmarkedBelowRoot
  core_eq : t.core = .linear weights (.input name)

/-! ## Values -/

section Arithmetic

variable [NatCast α] [Add α] [Mul α] [Sub α] [Neg α] [Div α] [ExpLn α]
variable [LT α] [DecidableLT α] [LE α] [DecidableLE α]

theorem eval_unmarked (t : Expr α) (b : Bindings α) : t.unmarked.eval b = t.eval b := by
  cases t <;> rfl

theorem eval_applyAll (ops : List Operator) (e : Expr α) (b : Bindings α) :
    (applyAll ops e).eval b = e.eval b >>= fun v => ops.foldrM Operator.apply v := by
  induction ops with
  | nil => exact (bind_pure (e.eval b)).symm
  | cons op ops ih =>
    change (applyAll ops e).eval b >>= op.apply = _
    rw [ih, bind_assoc]
    simp only [List.foldrM_cons]

/-- The operators of the spine are applied to the value of the core, the last one first, up to the first
failure. -/
theorem UnmarkedBelowRoot.eval_eq {t : Expr α} (h : t.UnmarkedBelowRoot) (b : Bindings α) :
    t.eval b = t.core.eval b >>= fun v => t.spine.foldrM Operator.apply v := by
  rw [← eval_unmarked, t.unmarked_eq_applyAll_iff.mpr h, eval_applyAll]

end Arithmetic

end Expr

/-! ## Trees of classifiers -/

namespace Logistic

theorem isOver_rowTree (w : Weights α) (name : String) (method : Method) :
    (rowTree (.linear w (.input name)) method).IsOver w name where
  unmarkedBelowRoot := by
    cases method <;> simp [rowTree, Expr.UnmarkedBelowRoot, Expr.descent, Expr.mode?]
  core_eq := core_rowTree w (.input name) method

theorem isOver_rowsTree (w : Weights α) (name : String) (strategy : Strategy) (method : Method) :
    (rowsTree (.linear w (.input name)) strategy method).IsOver w name where
  unmarkedBelowRoot := by
    cases method <;> cases strategy <;>
      simp [rowsTree, probabilities, Expr.UnmarkedBelowRoot, Expr.descent, Expr.mode?]
  core_eq := core_rowsTree w (.input name) strategy method

end Logistic

theorem FittedModel.exists_isOver_of_toExpr [NatCast α] [Mul α] {m : FittedModel α} {s : Settings}
    {t : Expr α} (h : (m.toExpr s).result = .ok t) : ∃ w, t.IsOver w s.input := by
  obtain ⟨hm, -, rfl⟩ := toExpr_eq_ok_iff.mp h
  by_cases hrows : m.coef.length = 1
  · obtain ⟨w, hscores, -⟩ := hm.exists_weights_row s
    rw [tree, if_pos hrows, hscores]
    exact ⟨w, Logistic.isOver_rowTree w s.input s.method⟩
  · rw [hm.tree_of_rows hrows]
    exact ⟨_, Logistic.isOver_rowsTree _ s.input _ s.method⟩

namespace Expr

variable [NatCast α] [Add α] [Mul α] [Sub α] [Neg α] [Div α] [ExpLn α]
variable [LT α] [DecidableLT α] [LE α] [DecidableLE α]

/-- The descent leads from the root to the core, which is neither an operator nor an output mark. The
spine over the core is the tree without the mark at its root exactly if no other mark stands on the
descent. Such a tree has the value that the operators of the spine, the last one first, make of the
value of the core. The trees of classifiers over a named input are such trees, and their core is their
affine map. -/
theorem decomposes_iff_unmarkedBelowRoot :
    (∀ t : Expr α, t.descent.head? = some t ∧ t.descent.getLast? = some t.core ∧
      t.core.operator? = none ∧ t.core.mode? = none ∧
      (t.unmarked = applyAll t.spine t.core ↔ t.UnmarkedBelowRoot)) ∧
    (∀ t : Expr α, t.UnmarkedBelowRoot → ∀ b : Bindings α,
      t.eval b = t.core.eval b >>= fun v => t.spine.foldrM Operator.apply v) ∧
    (∀ (coef : Row α) (intercept : α) (name : String) (method : Method) (t : Expr α),
      (Logistic.ofRow Selector.standard coef intercept (.input name) method).result = .ok t →
        t.IsOver (.row coef intercept) name) ∧
    (∀ (coef : Matrix α) (intercept : List α) (name : String) (method : Method)
      (strategy : Strategy) (t : Expr α),
      (Logistic.ofMatrix Selector.standard coef intercept (.input name) method
        strategy).result = .ok t → t.IsOver (.matrix coef intercept) name) ∧
    (∀ (m : FittedModel α) (s : Settings) (t : Expr α), (m.toExpr s).result = .ok t →
      ∃ w, t.IsOver w s.input) := by
  refine ⟨?_, fun t h b => h.eval_eq b, ?_, ?_, ?_⟩
  · intro t
    exact ⟨t.head?_descent, t.getLast?_descent, t.core_plain.1, t.core_plain.2,
      t.unmarked_eq_applyAll_iff⟩
  · intro coef intercept name method t h
    rw [Logistic.eq_rowTree_of_ofRow h]
    exact Logistic.isOver_rowTree _ name method
  · intro coef intercept name method strategy t h
    rw [Logistic.eq_rowsTree_of_ofMatrix h]
    exact Logistic.isOver_rowsTree _ name strategy method
  · intro m s t h
    exact FittedModel.exists_isOver_of_toExpr h

/-- A tree with an output mark below an operator. -/
def loggedMark : Expr Float := .unary .log (.classifier .probability (.unary .sigmoid (.input "x")))

/-- The spine of `loggedMark` ends at its mark, so it does not give the tree back. The tree of one row
is given back, and computed by its operators. -/
theorem decomposes_iff_unmarkedBelowRoot_loggedMark :
    loggedMark.unmarked ≠ applyAll loggedMark.spine loggedMark.core ∧
      ∃ t : Expr Float,
        (Logistic.ofRow Selector.standard (.ofList [2]) (-1) (.input "x")
            .predictLogProba).result = .ok t ∧
          t.core = .linear (.row (.ofList [2]) (-1)) (.input "x") ∧
          t.unmarked = applyAll t.spine t.core ∧
          ∀ b, t.eval b = t.core.eval b >>= fun v => t.spine.foldrM Operator.apply v := by
  obtain ⟨hshape, hvalue, hrow, -, -⟩ := decomposes_iff_unmarkedBelowRoot (α := Float)
  constructor
  · obtain ⟨-, -, -, -, hiff⟩ := hshape loggedMark
    rw [Ne, hiff]
    intro hmarks
    cases hmarks (.classifier .probability (.unary .sigmoid (.input "x"))) List.mem_cons_self
  · have hover := hrow (.ofList [2]) (-1) "x" .predictLogProba _ rfl
    obtain ⟨-, -, -, -, hiff⟩ := hshape
      (.classifier .logProbability (.unary .log (.unary .sigmoid
        (.linear (.row (.ofList [2]) (-1)) (.input "x")))))
    exact ⟨_, rfl, hover.core_eq, hiff.mpr hover.unmarkedBelowRoot,
      hvalue _ hover.unmarkedBelowRoot⟩

end Expr
end ScoreTree
