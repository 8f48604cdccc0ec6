import ScoreTree.Proofs.Composition

/-!
# What evaluation looks up

Bindings are made in steps, and a later step hides earlier ones of its name (`Bindings.get?_ofSteps`).
Evaluation looks up one name at most, the one at the leaf, and no operator or affine map above the
leaf fails for want of a binding (`Expr.through_ne_unbound`). So the value of a tree depends on the
last value of this name only, and on no binding at all where the leaf is a constant
(`Expr.eval_depends_on_last_binding`).
-/

namespace ScoreTree

universe u

variable {α : Type u}

namespace Bindings

/-- The bindings after the given steps, from none at all. -/
def ofSteps (steps : List (String × Value α)) : Bindings α :=
  steps.foldl (fun b step => b.bind step.1 step.2) .empty

/-- The last value that the steps bind to a name, if any step binds it. -/
def lastValue? (name : String) (steps : List (String × Value α)) : Option (Value α) :=
  ((steps.filter fun step => step.1 = name).getLast?).map Prod.snd

theorem ofSteps_append_singleton (steps : List (String × Value α)) (step : String × Value α) :
    ofSteps (steps ++ [step]) = (ofSteps steps).bind step.1 step.2 := by
  rw [ofSteps, List.foldl_append]
  rfl

/-- The store after some steps holds the last value of each name. -/
theorem get?_ofSteps (steps : List (String × Value α)) (name : String) :
    (ofSteps steps).get? name = lastValue? name steps := by
  induction steps using List.reverseRecOn with
  | nil => rfl
  | append_singleton steps step ih =>
    rw [ofSteps_append_singleton, lastValue?, List.filter_append]
    by_cases hname : step.1 = name
    · subst hname
      simp
    · rw [get?_bind_of_ne _ _ (Ne.symm hname), ih, lastValue?]
      simp [hname]

theorem lastValue?_eq_none_iff {steps : List (String × Value α)} {name : String} :
    lastValue? name steps = none ↔ ∀ step ∈ steps, step.1 ≠ name := by
  simp [lastValue?]

end Bindings

theorem Expr.leaf_eq_const_or_input (t : Expr α) :
    (∃ v, t.leaf = .const v) ∨ ∃ name, t.leaf = .input name := by
  induction t with
  | input name => exact .inr ⟨name, rfl⟩
  | const v => exact .inl ⟨v, rfl⟩
  | linear weights arg ih => exact ih
  | unary op arg ih => exact ih
  | classifier mode arg ih => exact ih

section Arithmetic

theorem Operator.onComponents_ne_unbound (op : Operator)
    {f : Row α → α → List α → Except EvalError (Value α)} {name : String}
    (hf : ∀ row x xs, f row x xs ≠ .error (.unbound name)) (v : Value α) :
    op.onComponents f v ≠ .error (.unbound name) := by
  cases v with
  | scalar x => simp [onComponents]
  | vector row =>
    simp only [onComponents]
    cases row.entries with
    | nil => simp
    | cons x xs => exact hf row x xs

variable [NatCast α] [Add α] [Mul α] [Sub α] [Neg α] [Div α] [ExpLn α]
variable [LT α] [DecidableLT α] [LE α] [DecidableLE α]

omit [Mul α] in
theorem Operator.apply_ne_unbound (op : Operator) (v : Value α) (name : String) :
    op.apply v ≠ .error (.unbound name) := by
  cases op with
  | step | sigmoid | log => simp [apply]
  | argMax => exact argMax.onComponents_ne_unbound (fun _ _ _ => by simp) v
  | normalize => exact normalize.onComponents_ne_unbound (fun _ _ _ => by simp) v
  | softmax =>
    refine softmax.onComponents_ne_unbound (fun row x xs => ?_) v
    split <;> simp

namespace Expr

/-- The nodes above the leaf have no name to look up. -/
theorem through_ne_unbound (t : Expr α) (v : Value α) (name : String) :
    t.through v ≠ .error (.unbound name) := by
  induction t with
  | input other => simp [through]
  | const w => simp [through]
  | linear weights arg ih =>
    rw [through]
    cases harg : arg.through v with
    | error error =>
      rw [harg] at ih
      exact ih
    | ok w =>
      change (if _ then _ else _) ≠ _
      split_ifs <;> simp
  | unary op arg ih =>
    rw [through]
    cases harg : arg.through v with
    | error error =>
      rw [harg] at ih
      exact ih
    | ok w => exact op.apply_ne_unbound w name
  | classifier mode arg ih => exact ih

variable {t : Expr α} {b b' : Bindings α}

theorem eval_of_leaf_const {v : Value α} (h : t.leaf = .const v) : t.eval b = t.through v := by
  rw [eval_eq_through, h]
  rfl

/-- Two stores that hold the same under the name at the leaf are the same to a tree. -/
theorem eval_congr_of_leaf_input {name : String} (h : t.leaf = .input name)
    (hget : b.get? name = b'.get? name) : t.eval b = t.eval b' := by
  rw [eval_eq_through, eval_eq_through t b', h]
  simp only [eval, hget]

theorem eval_eq_unbound_iff {name : String} :
    t.eval b = .error (.unbound name) ↔ t.leaf = .input name ∧ b.get? name = none := by
  rcases t.leaf_eq_const_or_input with ⟨v, hleaf⟩ | ⟨other, hleaf⟩
  · simp [eval_of_leaf_const hleaf, through_ne_unbound, hleaf]
  · rw [eval_eq_through, hleaf]
    cases hget : b.get? other with
    | some v =>
      have hvalue : (input other : Expr α).eval b = .ok v := by simp only [eval, hget]
      rw [hvalue]
      refine iff_of_false (t.through_ne_unbound v name) ?_
      rintro ⟨hname, hnone⟩
      cases hname
      rw [hget] at hnone
      cases hnone
    | none =>
      have hvalue : (input other : Expr α).eval b = .error (.unbound other) := by
        simp only [eval, hget]
      rw [hvalue]
      constructor
      · intro h
        cases h
        exact ⟨rfl, hget⟩
      · rintro ⟨hname, -⟩
        cases hname
        rfl

/-- The value of a tree depends on the last value of one name at most. Where the leaf is a constant it is
the same after any two sequences of steps, and where the leaf is an input it is the same if the two
sequences leave the same last value of this name, or none. For want of a binding a tree fails
exactly if its leaf is an input that no step binds, and with the name of this input. -/
theorem eval_depends_on_last_binding (t : Expr α) (steps steps' : List (String × Value α)) :
    ((∃ v, t.leaf = .const v) ∨ ∃ name, t.leaf = .input name) ∧
    (∀ v, t.leaf = .const v →
      t.eval (Bindings.ofSteps steps) = t.eval (Bindings.ofSteps steps')) ∧
    (∀ name, t.leaf = .input name →
      Bindings.lastValue? name steps = Bindings.lastValue? name steps' →
      t.eval (Bindings.ofSteps steps) = t.eval (Bindings.ofSteps steps')) ∧
    (∀ name, t.eval (Bindings.ofSteps steps) = .error (.unbound name) ↔
      t.leaf = .input name ∧ ∀ step ∈ steps, step.1 ≠ name) := by
  refine ⟨t.leaf_eq_const_or_input, ?_, ?_, ?_⟩
  · intro v hleaf
    rw [eval_of_leaf_const hleaf, eval_of_leaf_const hleaf]
  · intro name hleaf hlast
    apply eval_congr_of_leaf_input hleaf
    rw [Bindings.get?_ofSteps, Bindings.get?_ofSteps, hlast]
  · intro name
    rw [eval_eq_unbound_iff, Bindings.get?_ofSteps, Bindings.lastValue?_eq_none_iff]

end Expr

end Arithmetic

namespace Expr

/-- Whether twice the input is above one. -/
def twiceAboveOne : Expr Float := .unary .step (.linear (.row (.ofList [2]) (-1)) (.input "x"))

/-- A name that is bound anew forgets its first value, and other names never matter. -/
theorem eval_depends_on_last_binding_rebound :
    twiceAboveOne.eval
          (.ofSteps [("x", .vector (.ofList [])), ("y", .scalar 1), ("x", .scalar 3)]) =
        twiceAboveOne.eval (.ofSteps [("x", .scalar 3), ("z", .scalar (0 / 0))]) ∧
      twiceAboveOne.eval (.ofSteps [("y", .scalar 3)]) = .error (.unbound "x") := by
  obtain ⟨-, -, hlast, hunbound⟩ := eval_depends_on_last_binding twiceAboveOne
    [("x", .vector (.ofList [])), ("y", .scalar 1), ("x", .scalar 3)]
    [("x", .scalar 3), ("z", .scalar (0 / 0))]
  obtain ⟨-, -, -, hnever⟩ := eval_depends_on_last_binding twiceAboveOne [("y", .scalar 3)] []
  refine ⟨hlast "x" rfl rfl, (hnever "x").mpr ⟨rfl, ?_⟩⟩
  simp

end Expr
end ScoreTree
