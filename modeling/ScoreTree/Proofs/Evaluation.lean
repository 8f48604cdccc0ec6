import ScoreTree.Expr.Eval

/-!
# Evaluation, node by node

What each kind of node does to the value of its argument.
-/

namespace ScoreTree

universe u

variable {α : Type u} [NatCast α] [Add α] [Mul α] [Sub α] [Neg α] [Div α] [ExpLn α]
variable [LT α] [DecidableLT α] [LE α] [DecidableLE α] {b : Bindings α}

namespace Expr

theorem eval_input {name : String} {v : Value α} (h : b.get? name = some v) :
    (input name : Expr α).eval b = .ok v := by
  simp only [eval, h]

theorem eval_linear {weights : Weights α} {arg : Expr α} {v : Value α}
    (h : arg.eval b = .ok v) (hlength : v.components.entries.length = weights.features) :
    (linear weights arg).eval b = .ok (weights.apply v.components) := by
  simp only [eval, h, bind, Except.bind, hlength, if_true]

theorem eval_unary {op : Operator} {arg : Expr α} {v : Value α} (h : arg.eval b = .ok v) :
    (unary op arg).eval b = op.apply v := by
  simp only [eval, h, bind, Except.bind]

end Expr

end ScoreTree
