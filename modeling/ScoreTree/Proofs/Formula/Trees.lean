import Mathlib
import ScoreTree.Proofs.Formula.Readable
import ScoreTree.Proofs.Formula.Rows

/-!
# Reading trees

`Reads.expr_append` reads a tree back from its formula, in front of anything that can follow a formula
inside another one, without its output marks and with its arrays in standard order. The induction is on
the tree; the fuel of the reader is bounded by the length of the formula, which exceeds that of the
formula of an argument.
-/

namespace ScoreTree

universe u

variable {α : Type u}

namespace Formula

section Names

variable {name : String} {rest : List Char}

theorem isNameChar_of_isInputName (h : isInputName name = true) :
    ∀ c ∈ name.toList, isNameChar c = true := by
  unfold isInputName at h
  split at h
  · cases h
  · rename_i c cs hname
    rw [Bool.and_eq_true, List.all_eq_true] at h
    rw [hname]
    refine List.forall_mem_cons.2 ⟨?_, h.2⟩
    have hc := h.1
    simp only [Bool.or_eq_true] at hc
    rcases hc with hc | hc <;> simp [isNameChar, Char.isAlphanum, hc]

theorem exists_cons_of_isInputName (h : isInputName name = true) :
    ∃ c cs, name.toList = c :: cs ∧ c ≠ '[' ∧ c ≠ '(' := by
  have hchars := isNameChar_of_isInputName h
  unfold isInputName at h
  split at h
  · cases h
  · rename_i c cs hname
    have hc : isNameChar c = true := hchars c (by simp [hname])
    refine ⟨c, cs, hname, ?_, ?_⟩
    · rintro rfl
      exact absurd hc (by decide)
    · rintro rfl
      exact absurd hc (by decide)

theorem isInputName_operator_name (op : Operator) :
    isInputName op.name = true ∧ op.name ≠ "inf" := by
  cases op <;> decide

end Names

/-- A digit cannot start a name. -/
theorem not_isAlpha_of_isDigit {c : Char} (h : c.isDigit = true) :
    (c.isAlpha || c == '_') = false := by
  have hdigit : 48 ≤ c.toNat ∧ c.toNat ≤ 57 := Char.isDigit_iff_toNat.1 h
  have halpha : c.isAlpha = false := by
    simp only [Char.isAlpha, Char.isUpper, Char.isLower, Bool.or_eq_false_iff,
      Bool.and_eq_false_iff, decide_eq_false_iff_not, UInt32.le_iff_toNat_le]
    change ¬ (65 ≤ c.toNat ∧ c.toNat ≤ 90) ∧ (¬ 97 ≤ c.toNat ∨ ¬ c.toNat ≤ 122)
    omega
  have hne : c ≠ '_' := by
    rintro rfl
    exact absurd h (by decide)
  simp [halpha, hne]

section Starts

variable [Neg α] {number? : List Char → Option α} {inner : Reader (Expr α)}
variable {cs rest : List Char}

theorem exprStep_cons_of_ne {c : Char} (hc : c ≠ '[') :
    exprStep number? inner (c :: cs) =
      if isName ((c :: cs).takeWhile isNameChar) then
        named inner ((c :: cs).takeWhile isNameChar) ((c :: cs).dropWhile isNameChar)
      else numeric number? inner (c :: cs) := by
  unfold exprStep
  split
  · rename_i heq
    exact absurd (List.cons.inj heq).1 hc
  · rfl

theorem bracketed_cons_of_ne {c : Char} (hc : c ≠ ']') :
    bracketed number? inner (c :: cs) = (number number? (c :: cs)).bind fun (x, after) =>
      match after with
      | '*' :: afterCoefficient => affineMatrix number? inner (c :: cs) afterCoefficient
      | _ => (furtherNumbers number? after.length after).bind fun (xs, rest) =>
        some (.const (.vector (x :: xs)), rest) := by
  unfold bracketed
  split
  · rename_i heq
    exact absurd (List.cons.inj heq).1 hc
  · rfl

theorem exprStep_name {name : String} (hname : isInputName name = true) (hinf : name ≠ "inf")
    (hrest : StopsAt isNameChar rest) :
    exprStep number? inner (name.toList ++ rest) = named inner name.toList rest := by
  have hchars := isNameChar_of_isInputName hname
  have hisName : isName name.toList = true := by
    have hne : name.toList ≠ ['i', 'n', 'f'] := by
      intro h
      exact hinf (String.toList_inj.1 h)
    simp [isName, hname, hne]
  have htake := hrest.takeWhile_append hchars
  have hdrop := hrest.dropWhile_append hchars
  obtain ⟨c, cs, hcons, hc, -⟩ := exists_cons_of_isInputName hname
  rw [hcons, List.cons_append] at htake hdrop
  rw [hcons, List.cons_append, exprStep_cons_of_ne hc, htake, hdrop, ← hcons, if_pos hisName]

/-- An infinity starts like a name, and every other numeral with no letter. -/
theorem isName_numeral (hcs : IsNumeral cs) (hrest : StopsAt isNameChar rest) :
    isName ((cs ++ rest).takeWhile isNameChar) = false := by
  rcases hcs.isDigit_or_minus with rfl | ⟨c, cs, rfl, hc | rfl⟩
  · rw [hrest.takeWhile_append (by simp [isNameChar])]
    decide
  · have hname : isNameChar c = true := by simp [isNameChar, Char.isAlphanum, hc]
    simp [hname, isName, isInputName, not_isAlpha_of_isDigit hc]
  · rw [List.cons_append, List.takeWhile_cons_of_neg (by decide)]
    decide

theorem exists_cons_of_isNumeral (hcs : IsNumeral cs) :
    ∃ c text, cs = c :: text ∧ c ≠ '[' ∧ c ≠ ']' := by
  rcases hcs.isDigit_or_minus with rfl | ⟨c, cs, rfl, hc | rfl⟩
  · exact ⟨_, _, rfl, by decide, by decide⟩
  · refine ⟨c, cs, rfl, ?_, ?_⟩
    · rintro rfl
      exact absurd hc (by decide)
    · rintro rfl
      exact absurd hc (by decide)
  · exact ⟨_, _, rfl, by decide, by decide⟩

theorem exprStep_numeral (hcs : IsNumeral cs) (hrest : StopsAt isNameChar rest) :
    exprStep number? inner (cs ++ rest) = numeric number? inner (cs ++ rest) := by
  have hisName := isName_numeral hcs hrest
  obtain ⟨c, cs, rfl, hc, -⟩ := exists_cons_of_isNumeral hcs
  rw [List.cons_append] at hisName ⊢
  rw [exprStep_cons_of_ne hc, hisName, if_neg (by decide)]

end Starts

namespace Reads

variable [Numeral α] [Neg α] {known : α → Prop} {number? : List Char → Option α}
variable {inner : Reader (Expr α)} {e arg : Expr α} {rest : List Char}

theorem argument_append (harg : arg.Readable known)
    (hinner : ∀ rest, Ends rest → inner (arg.chars ++ rest) = some (arg.bare.inOrder, rest))
    (rest : List Char) :
    argumentWithText inner (arg.argChars ++ '[' :: rest) = some (arg.bare.inOrder, arg.argChars) := by
  have hargument :
      argument inner (arg.argChars ++ '[' :: rest) = some (arg.bare.inOrder, '[' :: rest) := by
    cases arg with
    | input name =>
      have hname := harg.isInputName name rfl
      have hstop : StopsAt isNameChar ('[' :: rest) := StopsAt.cons _ rfl
      have htake := hstop.takeWhile_append (isNameChar_of_isInputName hname)
      have hdrop := hstop.dropWhile_append (isNameChar_of_isInputName hname)
      obtain ⟨c, cs, hcons, -, hc⟩ := exists_cons_of_isInputName hname
      simp only [Expr.argChars]
      unfold argument
      split
      · rename_i heq
        rw [hcons] at heq
        exact absurd (List.cons.inj heq).1 hc
      · rw [htake, hdrop, String.ofList_toList]
        rfl
    | _ =>
      have hread := hinner (')' :: '[' :: rest) (Ends.cons _ (.inl rfl))
      simp only [Expr.argChars, List.append_assoc, List.cons_append, List.nil_append, argument]
      rw [hread]
      rfl
  simp [argumentWithText, hargument]

theorem numeric_scalar (reads : Reads known number?) {x : α} (hx : known x) (hrest : Ends rest) :
    exprStep number? inner (Numeral.chars x ++ rest) = some (.const (.scalar x), rest) := by
  rw [exprStep_numeral (reads.isNumeral hx) hrest.stopsAt_name]
  have hnumber := reads.number_append hx hrest.stopsAt_numeral
  unfold numeric
  rw [hnumber, Option.bind_eq_bind, Option.bind_some]
  dsimp only
  split
  · exact absurd rfl hrest.ne_cons.1
  · rfl

theorem bracketed_vector (reads : Reads known number?) {row : Row α}
    (hrow : ∀ x ∈ row.entries, known x) (rest : List Char) :
    exprStep number? inner ((Value.vector row).chars ++ rest) =
      some (.const (.vector row.entries), rest) := by
  rw [Value.chars]
  generalize row.entries = xs at hrow ⊢
  cases xs with
  | nil => rfl
  | cons x xs =>
    obtain ⟨hx, hxs⟩ := List.forall_mem_cons.1 hrow
    have hfuel := length_lt_length_flatMap ',' (fun x => ' ' :: Numeral.chars x) xs rest
    have hfurther := reads.furtherNumbers_append rest hxs hfuel
    have hends := Ends.flatMap_append (.inr rfl) (fun x => ' ' :: Numeral.chars x) xs rest
    have hchars : ['['] ++ joinChars [',', ' '] ((x :: xs).map Numeral.chars) ++ [']'] ++ rest =
        '[' :: (Numeral.chars x ++
          (xs.flatMap (fun x => ',' :: ' ' :: Numeral.chars x) ++ ']' :: rest)) := by
      simp [joinChars_cons, List.flatMap_map]
    rw [hchars]
    generalize xs.flatMap (fun x => ',' :: ' ' :: Numeral.chars x) ++ ']' :: rest = after at *
    have hnumber := reads.number_append hx hends.stopsAt_numeral
    obtain ⟨c, text, hcons, -, hc⟩ := exists_cons_of_isNumeral (reads.isNumeral hx)
    rw [hcons, List.cons_append] at hnumber ⊢
    simp only [exprStep]
    rw [bracketed_cons_of_ne hc, hnumber, Option.bind_some]
    dsimp only
    split
    · exact absurd rfl hends.ne_cons.1
    · rw [hfurther, Option.bind_some]

/-- The argument of an affine map stands behind the first coefficient of a row. -/
theorem exists_rowChars_eq (arg : List Char) (b c : α) (cs : List α) (rest : List Char) :
    ∃ after, rowChars arg b (c :: cs) ++ rest =
      Numeral.chars c ++ '*' :: (arg ++ '[' :: after) := by
  refine ⟨Nat.toDigits 10 0 ++ ']' :: (ScoreTree.furtherTerms arg 1 cs ++
    (signedChars b ++ rest)), ?_⟩
  simp [rowChars, componentChars]

theorem numeric_row (reads : Reads known number?) (harg : arg.Readable known)
    (hinner : ∀ rest, Ends rest → inner (arg.chars ++ rest) = some (arg.bare.inOrder, rest))
    {b c : α} {cs : List α} (hc : known c) (hcs : ∀ c ∈ cs, known c) (hb : known b)
    (hrest : Ends rest) :
    exprStep number? inner (rowChars arg.argChars b (c :: cs) ++ rest) =
      some (.linear (.row (c :: cs) b) arg.bare.inOrder, rest) := by
  have hrow := reads.row_append arg.argChars hc hcs hb hrest
  obtain ⟨after, hafter⟩ := exists_rowChars_eq arg.argChars b c cs rest
  rw [hafter] at hrow ⊢
  have hstop : StopsAt isNumeralChar ('*' :: (arg.argChars ++ '[' :: after)) :=
    StopsAt.cons _ rfl
  have hnumber := reads.number_append hc hstop
  rw [exprStep_numeral (reads.isNumeral hc) (StopsAt.cons _ rfl)]
  simp [numeric, hnumber, affineRow, argument_append harg hinner, hrow]

/-- The rows of a matrix behind its opening bracket. -/
theorem bracketed_rows (reads : Reads known number?) (harg : arg.Readable known)
    (hinner : ∀ rest, Ends rest → inner (arg.chars ++ rest) = some (arg.bare.inOrder, rest))
    {c b : α} {cs : List α} {others : List (List α × α)} {coef : Matrix α}
    (hcoef : Matrix.ofRows ((c :: cs) :: others.map Prod.fst) = .ok coef)
    (hne : ∀ e ∈ others, e.1 ≠ [])
    (hrow : ∀ x ∈ c :: cs, known x) (hrows : ∀ e ∈ others, ∀ x ∈ e.1, known x)
    (hb : known b) (hbs : ∀ e ∈ others, known e.2) (rest : List Char) :
    bracketed number? inner (rowChars arg.argChars b (c :: cs) ++ (others.flatMap (fun e =>
        ';' :: ' ' :: rowChars arg.argChars e.2 e.1) ++ ']' :: rest)) =
      some (.linear (.matrix coef (b :: others.map Prod.snd)) arg.bare.inOrder, rest) := by
  obtain ⟨hc, hcs⟩ := List.forall_mem_cons.1 hrow
  have hfuel := length_lt_length_flatMap ';'
    (fun e : List α × α => ' ' :: rowChars arg.argChars e.2 e.1) others rest
  have hends := Ends.flatMap_append (.inl rfl)
    (fun e : List α × α => ' ' :: rowChars arg.argChars e.2 e.1) others rest
  have hfurther := reads.furtherRows_append arg.argChars rest
    (fun e he => ⟨hne e he, hrows e he⟩) hbs hfuel
  generalize others.flatMap (fun e => ';' :: ' ' :: rowChars arg.argChars e.2 e.1) ++
    ']' :: rest = text at hends hfurther ⊢
  have hread := reads.row_append arg.argChars hc hcs hb hends
  obtain ⟨after, hafter⟩ := exists_rowChars_eq arg.argChars b c cs text
  rw [hafter] at hread ⊢
  have hstop : StopsAt isNumeralChar ('*' :: (arg.argChars ++ '[' :: after)) :=
    StopsAt.cons _ rfl
  have hnumber := reads.number_append hc hstop
  obtain ⟨d, digits, hcons, -, hd⟩ := exists_cons_of_isNumeral (reads.isNumeral hc)
  rw [hcons, List.cons_append] at hnumber hread ⊢
  rw [bracketed_cons_of_ne hd, hnumber]
  simp [affineMatrix, argument_append harg hinner, hread, hfurther, hcoef, Except.toOption]

theorem bracketed_matrix (reads : Reads known number?) (harg : arg.Readable known)
    (hinner : ∀ rest, Ends rest → inner (arg.chars ++ rest) = some (arg.bare.inOrder, rest))
    {coef : Matrix α} {intercept : List α} (hw : (Weights.matrix coef intercept).WellFormed)
    (hknown : ∀ x ∈ (Weights.matrix coef intercept).numbers, known x) (rest : List Char) :
    exprStep number? inner ((Weights.matrix coef intercept).chars arg.argChars ++ rest) =
      some (.linear (Weights.matrix coef intercept).inOrder arg.bare.inOrder, rest) := by
  obtain ⟨⟨first, b⟩, others, hcoef, hintercept, hne⟩ := Weights.exists_rows hw
  obtain ⟨hcoefs, hintercepts⟩ := Weights.forall_mem_rows hknown hcoef hintercept
  obtain ⟨hfirst, hothers⟩ := List.forall_mem_cons.1 hne
  obtain ⟨hrow, hrows⟩ := List.forall_mem_cons.1 hcoefs
  obtain ⟨hb, hbs⟩ := List.forall_mem_cons.1 hintercepts
  obtain ⟨c, cs, rfl⟩ := List.exists_cons_of_ne_nil hfirst
  have hmatrix : Matrix.ofRows ((c :: cs) :: others.map Prod.fst) =
      .ok (.rowMajor coef.rows coef.rectangular) :=
    Matrix.ofRows_eq_ok_iff.2 ⟨hcoef, rfl⟩
  have hread := reads.bracketed_rows harg hinner hmatrix hothers hrow hrows hb hbs rest
  rw [Weights.chars_matrix arg.argChars hcoef hintercept, hintercept]
  simpa [exprStep, Weights.inOrder] using hread

omit [Numeral α] in
theorem expr_of_pos {fuel : Nat} (hfuel : 0 < fuel) :
    expr number? fuel = exprStep number? (expr number? (fuel - 1)) := by
  cases fuel with
  | zero => exact absurd hfuel (Nat.lt_irrefl 0)
  | succ fuel => rfl

/-- A tree is read back from in front of whatever can follow it. -/
theorem expr_append (reads : Reads known number?) :
    ∀ {e : Expr α} {fuel : Nat} {rest : List Char}, e.Readable known → e.chars.length < fuel →
      Ends rest → expr number? fuel (e.chars ++ rest) = some (e.bare.inOrder, rest) := by
  intro e
  induction e with
  | input name =>
    intro fuel rest he hfuel hrest
    have hname := he.isInputName name rfl
    have hne := (he.ne_numeral name rfl).1
    rw [expr_of_pos (by omega), Expr.chars, exprStep_name hname hne hrest.stopsAt_name]
    unfold named
    split
    · exact absurd rfl hrest.ne_cons.2
    · rw [String.ofList_toList]
      rfl
  | const v =>
    intro fuel rest he hfuel hrest
    rw [expr_of_pos (by omega)]
    cases v with
    | scalar x =>
      have hx : known x := he.known x (List.mem_singleton.2 rfl)
      exact reads.numeric_scalar hx hrest
    | vector row =>
      have hrow : ∀ x ∈ row.entries, known x := he.known
      exact reads.bracketed_vector hrow rest
  | linear w arg ih =>
    intro fuel rest he hfuel hrest
    obtain ⟨hw, hknown, harg⟩ := he.of_linear
    have hlength := Expr.length_chars_lt_linear hw arg
    have hinner : ∀ rest, Ends rest →
        expr number? (fuel - 1) (arg.chars ++ rest) = some (arg.bare.inOrder, rest) := by
      intro rest hrest
      exact ih harg (by omega) hrest
    rw [expr_of_pos (by omega), Expr.chars_linear]
    cases w with
    | row coef b =>
      obtain ⟨hb, hcoef⟩ := List.forall_mem_cons.1 hknown
      obtain ⟨c, cs, hcons⟩ := List.exists_cons_of_length_pos hw
      rw [hcons] at hcoef
      obtain ⟨hc, hcs⟩ := List.forall_mem_cons.1 hcoef
      have hread := reads.numeric_row harg hinner hc hcs hb hrest
      simpa only [Weights.chars, Expr.bare, Expr.inOrder, Weights.inOrder, hcons] using hread
    | matrix coef intercept => exact reads.bracketed_matrix harg hinner hw hknown rest
  | unary op arg ih =>
    intro fuel rest he hfuel hrest
    obtain ⟨hname, hne⟩ := isInputName_operator_name op
    have hlength : arg.chars.length < fuel - 1 := by
      simp only [Expr.chars, List.length_append, List.length_cons] at hfuel
      omega
    have hends : Ends (')' :: rest) := Ends.cons _ (.inl rfl)
    have hinner := ih he.of_unary hlength hends
    rw [expr_of_pos (by omega)]
    simp only [Expr.chars, List.append_assoc, List.cons_append, List.nil_append]
    rw [exprStep_name hname hne (StopsAt.cons _ rfl)]
    simp only [named, String.ofList_toList, Operator.ofName?_name]
    rw [Option.bind_some, hinner]
    rfl
  | classifier mode arg ih =>
    intro fuel rest he hfuel hrest
    exact ih he.of_classifier hfuel hrest

theorem read?_text (reads : Reads known number?) (he : e.Readable known) :
    read? number? e.text = some e.bare.inOrder := by
  have hread := reads.expr_append he (Nat.lt_succ_self e.chars.length) Ends.nil
  rw [List.append_nil] at hread
  rw [read?, Expr.text, String.toList_ofList, String.length_ofList, hread]

end Reads
end Formula
end ScoreTree
