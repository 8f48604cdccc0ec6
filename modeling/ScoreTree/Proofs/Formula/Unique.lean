import ScoreTree.Expr.Eval
import ScoreTree.Proofs.Decimal.Doubles
import ScoreTree.Proofs.Formula.Trees

/-!
# One tree for each formula

The formula of a tree over doubles gives back the tree, bit for bit, without its output marks and with its
arrays in standard order. Output marks do not change values, so trees with one formula and the same
layouts have the same values and the same failures. Layouts that differ can make a difference
(`Expr.text_hides_layout`).
-/

namespace ScoreTree

universe u

/-- An output mark passes values and failures on. -/
theorem Expr.eval_bare {α : Type u} [NatCast α] [Add α] [Mul α] [Sub α] [Neg α] [Div α] [ExpLn α]
    [LT α] [DecidableLT α] [LE α] [DecidableLE α] (b : Bindings α) (e : Expr α) :
    e.bare.eval b = e.eval b := by
  induction e with
  | input name => rfl
  | const v => rfl
  | linear w arg ih =>
    simp only [bare, eval]
    rw [ih]
  | unary op arg ih =>
    simp only [bare, eval]
    rw [ih]
  | classifier mode arg ih => exact ih

namespace Formula

/-- Every double but an incomparable one. -/
def IsComparable (x : Float) : Prop := x.isNaN = false

theorem isNumeral_write {x : Float} (hx : IsComparable x) : IsNumeral (formulaStyle.write x) := by
  have hsign : formulaStyle.exponentSign = [] ∨ formulaStyle.exponentSign = ['+'] := .inl rfl
  rw [Decimal.write_eq formulaStyle hx, Decimal.unsignedChars]
  cases Decimal.isFinite x with
  | false =>
    cases Decimal.isNegative x with
    | false => exact .inl rfl
    | true => exact .inr (.inl rfl)
  | true =>
    obtain ⟨digit, rest, hchars, hdigit, hrest⟩ := Decimal.isMagnitude_magnitude hsign x.toBits
    rw [if_pos rfl, hchars]
    refine .inr (.inr ⟨_, digit, rest, rfl, ?_, hdigit, hrest⟩)
    cases Decimal.isNegative x with
    | false => exact .inl rfl
    | true => exact .inr rfl

theorem numeralLaws_double : NumeralLaws Float IsComparable where
  isNumeral := isNumeral_write
  injective := Decimal.write_injective (.inl rfl)
  known_neg := Decimal.isNaN_neg
  neg_neg := Decimal.neg_neg_of_known

theorem reads_double : Reads IsComparable (ofChars? IsComparable) where
  toNumeralLaws := numeralLaws_double
  number?_chars := numeralLaws_double.ofChars?_chars

end Formula

namespace Expr

open Formula (IsComparable)

/-- Reading undoes writing, up to the layouts of arrays, of which there are as many as before. Trees
with one formula and the same layouts have the same values and the same failures. -/
theorem read?_text_eq_inOrder {e : Expr Float} (he : e.Readable IsComparable) :
    Formula.read? (Formula.ofChars? IsComparable) e.text = some e.bare.inOrder ∧
      ((∀ layout ∈ e.layouts, layout = .standard) → e.bare.inOrder = e.bare) ∧
      ∀ other : Expr Float, other.Readable IsComparable → other.text = e.text →
        other.layouts.length = e.layouts.length ∧
          (other.layouts = e.layouts → ∀ b : Bindings Float, other.eval b = e.eval b) := by
  have hread := Formula.reads_double.read?_text he
  refine ⟨hread, fun hlayouts => ?_, fun other hother htext => ?_⟩
  · refine eq_of_inOrder e.bare.inOrder_inOrder ?_
    rw [List.eq_replicate_of_mem e.bare.layouts_inOrder, e.bare.length_layouts_inOrder,
      layouts_bare, List.eq_replicate_of_mem hlayouts, List.length_replicate]
  · have hreadOther := Formula.reads_double.read?_text hother
    rw [htext, hread] at hreadOther
    have hbare : e.bare.inOrder = other.bare.inOrder := Option.some.inj hreadOther
    constructor
    · rw [← other.layouts_bare, ← other.bare.length_layouts_inOrder, ← hbare,
        e.bare.length_layouts_inOrder, e.layouts_bare]
    · intro hlayouts b
      have htree : other.bare = e.bare :=
        eq_of_inOrder hbare.symm (by rw [layouts_bare, layouts_bare, hlayouts])
      rw [← other.eval_bare, htree, e.eval_bare]

/-- Two scores of one component, where zeros and infinities have signs and the coefficients lie with
gaps. -/
def signedScores : Expr Float :=
  classifier .probability <| unary .softmax <|
    linear (.matrix ⟨[[1.5, -0.0], [-2.0, 0.1]], by decide, .strided, by simp⟩
      [-0.0, Float.ofBits 0xFFF0000000000000]) (unary .sigmoid (input "x"))

example : signedScores.text =
    "SKLearnSoftmax([1.5*(Sigmoid(x))[0] - 0.0*(Sigmoid(x))[1] - 0.0; " ++
      "-2.0*(Sigmoid(x))[0] + 0.1*(Sigmoid(x))[1] - inf])" := by
  decide +kernel

theorem readable_signedScores : signedScores.Readable IsComparable where
  wellFormed := by simp [signedScores, WellFormed, Weights.WellFormed, Matrix.width, Matrix.height]
  known := by
    unfold IsComparable
    decide
  isInputName := by
    intro name hname
    obtain rfl : "x" = name := Option.some.inj hname
    decide
  ne_numeral := by
    intro name hname
    obtain rfl : "x" = name := Option.some.inj hname
    decide

theorem read?_text_signedScores :
    Formula.read? (Formula.ofChars? IsComparable) signedScores.text =
        some signedScores.bare.inOrder ∧
      signedScores.bare.inOrder ≠ signedScores.bare ∧
      ∀ b : Bindings Float, signedScores.bare.eval b = signedScores.eval b := by
  obtain ⟨hread, -, heval⟩ := read?_text_eq_inOrder readable_signedScores
  have hlayouts : signedScores.bare.inOrder.layouts ≠ signedScores.bare.layouts := by decide
  refine ⟨hread, fun h => hlayouts (congrArg layouts h), ?_⟩
  refine (heval signedScores.bare ?_ rfl).2 rfl
  exact ⟨readable_signedScores.wellFormed, readable_signedScores.known,
    readable_signedScores.isInputName, readable_signedScores.ne_numeral⟩

/-- The softmax of a constant with the given layout. -/
def softmaxOf (layout : Layout) : Expr Float :=
  unary .softmax (const (.vector ⟨[2, 1], layout, by simp⟩))

/-- A formula does not show the layout of a constant, on which it depends whether its softmax is
computed at all. -/
theorem text_hides_layout :
    (softmaxOf .standard).Readable IsComparable ∧ (softmaxOf .reversed).Readable IsComparable ∧
      (softmaxOf .standard).text = (softmaxOf .reversed).text ∧
      (∃ row, (softmaxOf .standard).eval Bindings.empty = .ok (.vector row)) ∧
      (softmaxOf .reversed).eval Bindings.empty = .error (.expectedVector .softmax) := by
  have hreadable (layout : Layout) : (softmaxOf layout).Readable IsComparable := by
    refine ⟨trivial, ?_, nofun, nofun⟩
    unfold IsComparable
    change ∀ x ∈ ([2, 1] : List Float), x.isNaN = false
    decide
  exact ⟨hreadable _, hreadable _, rfl, ⟨_, rfl⟩, rfl⟩

end Expr
end ScoreTree
