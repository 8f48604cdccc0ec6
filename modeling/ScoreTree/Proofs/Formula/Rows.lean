import ScoreTree.Proofs.Formula.Numeral

/-!
# Reading numbers, vectors and rows

Each part of a formula is read back from in front of any text that cannot belong to it. The
hypotheses on a reader of numerals are collected in `Reads`.
-/

namespace ScoreTree
namespace Formula

universe u

/-- The text is over, or goes on with a sign that closes or separates. -/
def Ends (rest : List Char) : Prop :=
  ∀ c ∈ rest.head?, c = ')' ∨ c = ']' ∨ c = ';' ∨ c = ','

theorem Ends.nil : Ends [] := by simp [Ends]

theorem Ends.cons {c : Char} (rest : List Char) (h : c = ')' ∨ c = ']' ∨ c = ';' ∨ c = ',') :
    Ends (c :: rest) := by
  simpa [Ends] using h

/-- Items of a list in brackets, each behind a separator. -/
theorem Ends.flatMap_append {β : Type u} {c : Char} (hc : c = ';' ∨ c = ',')
    (f : β → List Char) (items : List β) (rest : List Char) :
    Ends (items.flatMap (fun x => c :: f x) ++ ']' :: rest) := by
  cases items with
  | nil => exact Ends.cons _ (.inr (.inl rfl))
  | cons x items => exact Ends.cons _ (.inr (.inr hc))

theorem length_lt_length_flatMap {β : Type u} (c : Char) (f : β → List Char) (items : List β)
    (rest : List Char) :
    items.length < (items.flatMap (fun x => c :: f x) ++ ']' :: rest).length := by
  induction items with
  | nil => simp
  | cons x items ih =>
    simp only [List.flatMap_cons, List.length_append, List.length_cons] at ih ⊢
    omega

/-- The text does not go on with a character of the given kind. -/
def StopsAt (p : Char → Bool) (rest : List Char) : Prop :=
  ∀ c ∈ rest.head?, p c = false

theorem StopsAt.cons {p : Char → Bool} {c : Char} (rest : List Char) (h : p c = false) :
    StopsAt p (c :: rest) := by
  simpa [StopsAt] using h

theorem Ends.stopsAt {rest : List Char} (h : Ends rest) {p : Char → Bool}
    (hp : p ')' = false ∧ p ']' = false ∧ p ';' = false ∧ p ',' = false) : StopsAt p rest := by
  intro c hc
  obtain ⟨hround, hsquare, hsemicolon, hcomma⟩ := hp
  rcases h c hc with rfl | rfl | rfl | rfl <;> assumption

theorem Ends.stopsAt_numeral {rest : List Char} (h : Ends rest) : StopsAt isNumeralChar rest :=
  h.stopsAt (by decide)

theorem Ends.stopsAt_name {rest : List Char} (h : Ends rest) : StopsAt isNameChar rest :=
  h.stopsAt (by decide)

/-- Neither another component nor an argument follows at an end. -/
theorem Ends.ne_cons {c : Char} {rest : List Char} (h : Ends (c :: rest)) : c ≠ '*' ∧ c ≠ '(' := by
  rcases h c rfl with rfl | rfl | rfl | rfl
  all_goals decide

theorem StopsAt.takeWhile_append {p : Char → Bool} {cs rest : List Char}
    (hrest : StopsAt p rest) (hcs : ∀ c ∈ cs, p c = true) : (cs ++ rest).takeWhile p = cs := by
  rw [List.takeWhile_append_of_pos hcs]
  cases rest with
  | nil => simp
  | cons c rest => simp [hrest c rfl]

theorem StopsAt.dropWhile_append {p : Char → Bool} {cs rest : List Char}
    (hrest : StopsAt p rest) (hcs : ∀ c ∈ cs, p c = true) : (cs ++ rest).dropWhile p = rest := by
  rw [List.dropWhile_append_of_pos hcs]
  cases rest with
  | nil => simp
  | cons c rest => simp [hrest c rfl]

theorem literal?_append (text rest : List Char) : literal? text (text ++ rest) = some rest := by
  simp [literal?]

theorem literal?_cons_eq_none {c d : Char} (text rest : List Char) (h : c ≠ d) :
    literal? (c :: text) (d :: rest) = none := by
  simp [literal?, h]

/-- The numerals of known numbers are found. -/
structure Reads {α : Type u} [Numeral α] [Neg α] (known : α → Prop)
    (number? : List Char → Option α) : Prop extends NumeralLaws α known where
  number?_chars : ∀ {x : α}, known x → number? (Numeral.chars x) = some x

variable {α : Type u} [Numeral α] [Neg α] {known : α → Prop} {number? : List Char → Option α}
variable {x b : α} {cs xs : List α} {arg rest : List Char}

theorem length_signedChars_pos (x : α) : 0 < (signedChars x).length := by
  unfold signedChars
  split <;> simp

theorem length_le_length_furtherTerms (arg : List Char) (cs : List α) (i : Nat) :
    cs.length ≤ (ScoreTree.furtherTerms arg i cs).length := by
  induction cs generalizing i with
  | nil => simp
  | cons c cs ih =>
    have hsigned := length_signedChars_pos c
    have hrec := ih (i + 1)
    simp only [ScoreTree.furtherTerms, List.length_append, List.length_cons]
    omega

namespace Reads

theorem number_append (reads : Reads known number?) (hx : known x)
    (hrest : StopsAt isNumeralChar rest) :
    number number? (Numeral.chars x ++ rest) = some (x, rest) := by
  have hchars := (reads.isNumeral hx).isNumeralChar
  rw [number, hrest.takeWhile_append hchars, hrest.dropWhile_append hchars,
    reads.number?_chars hx, Option.map_some]

theorem furtherNumbers_append (reads : Reads known number?) (rest : List Char) :
    ∀ {xs : List α} {fuel : Nat}, (∀ x ∈ xs, known x) → xs.length < fuel →
      furtherNumbers number? fuel
        (xs.flatMap (fun x => ',' :: ' ' :: Numeral.chars x) ++ ']' :: rest) = some (xs, rest) := by
  intro xs
  induction xs with
  | nil =>
    intro fuel _ hfuel
    cases fuel with
    | zero => exact absurd hfuel (Nat.not_lt_zero _)
    | succ fuel => rfl
  | cons x xs ih =>
    intro fuel hxs hfuel
    cases fuel with
    | zero => exact absurd hfuel (Nat.not_lt_zero _)
    | succ fuel =>
      obtain ⟨hx, hxs⟩ := List.forall_mem_cons.1 hxs
      have hends := Ends.flatMap_append (.inr rfl) (fun x => ' ' :: Numeral.chars x) xs rest
      have hnumber := reads.number_append hx hends.stopsAt_numeral
      have hrec := ih hxs (Nat.lt_of_succ_lt_succ hfuel)
      simp only [List.flatMap_cons, List.append_assoc, List.cons_append, furtherNumbers]
      rw [hnumber]
      simp [hrec]

theorem signed_append (reads : Reads known number?) (hx : known x)
    (hrest : StopsAt isNumeralChar rest) :
    signed number? (signedChars x ++ rest) = some (x, rest) := by
  unfold signedChars
  split
  · simp only [List.cons_append, List.nil_append, signed]
    rw [reads.number_append (reads.known_neg hx) hrest]
    simp [reads.neg_neg hx]
  · simp only [List.cons_append, List.nil_append, signed]
    exact reads.number_append hx hrest

/-- The intercept is the first number without a component. -/
theorem furtherTerms_append (reads : Reads known number?) (arg : List Char) (hb : known b)
    (hrest : Ends rest) :
    ∀ {cs : List α} {fuel : Nat} (i : Nat), (∀ c ∈ cs, known c) → cs.length < fuel →
      Formula.furtherTerms number? arg fuel i
        (ScoreTree.furtherTerms arg i cs ++ (signedChars b ++ rest)) = some ((cs, b), rest) := by
  intro cs
  induction cs with
  | nil =>
    intro fuel i _ hfuel
    cases fuel with
    | zero => exact absurd hfuel (Nat.not_lt_zero _)
    | succ fuel =>
      have hnone : literal? (componentChars arg i) rest = none := by
        cases rest with
        | nil => rfl
        | cons c rest => exact literal?_cons_eq_none _ _ hrest.ne_cons.1.symm
      have hsigned := reads.signed_append hb hrest.stopsAt_numeral
      simp [ScoreTree.furtherTerms, Formula.furtherTerms, hsigned, hnone]
  | cons c cs ih =>
    intro fuel i hcs hfuel
    cases fuel with
    | zero => exact absurd hfuel (Nat.not_lt_zero _)
    | succ fuel =>
      obtain ⟨hc, hcs⟩ := List.forall_mem_cons.1 hcs
      have hrec := ih (i + 1) hcs (Nat.lt_of_succ_lt_succ hfuel)
      have hstop : StopsAt isNumeralChar (componentChars arg i ++
          (ScoreTree.furtherTerms arg (i + 1) cs ++ (signedChars b ++ rest))) :=
        StopsAt.cons _ rfl
      have hsigned := reads.signed_append hc hstop
      simp only [ScoreTree.furtherTerms, List.append_assoc, Formula.furtherTerms]
      rw [hsigned]
      simp [literal?_append, hrec]

theorem row_append (reads : Reads known number?) (arg : List Char) {c : α} (hc : known c)
    (hcs : ∀ c ∈ cs, known c) (hb : known b) (hrest : Ends rest) :
    row number? arg (rowChars arg b (c :: cs) ++ rest) = some ((c :: cs, b), rest) := by
  have hfuel : cs.length <
      (ScoreTree.furtherTerms arg 1 cs ++ (signedChars b ++ rest)).length := by
    have hterms := length_le_length_furtherTerms arg cs 1
    have hsigned := length_signedChars_pos b
    simp only [List.length_append]
    omega
  have hfurther := reads.furtherTerms_append arg hb hrest 1 hcs hfuel
  simp only [rowChars, List.append_assoc]
  generalize ScoreTree.furtherTerms arg 1 cs ++ (signedChars b ++ rest) = further at hfurther
  have hstop : StopsAt isNumeralChar (componentChars arg 0 ++ further) :=
    StopsAt.cons _ rfl
  have hnumber := reads.number_append hc hstop
  simp [row, hnumber, literal?_append, hfurther]

/-- Rows after the first one, each behind a semicolon. -/
theorem furtherRows_append (reads : Reads known number?) (arg rest : List Char) :
    ∀ {rows : List (List α × α)} {fuel : Nat},
      (∀ entry ∈ rows, entry.1 ≠ [] ∧ ∀ c ∈ entry.1, known c) → (∀ entry ∈ rows, known entry.2) →
      rows.length < fuel →
        furtherRows number? arg fuel
          (rows.flatMap (fun entry => ';' :: ' ' :: rowChars arg entry.2 entry.1) ++
            ']' :: rest) = some (rows, rest) := by
  intro rows
  induction rows with
  | nil =>
    intro fuel _ _ hfuel
    cases fuel with
    | zero => exact absurd hfuel (Nat.not_lt_zero _)
    | succ fuel => rfl
  | cons entry rows ih =>
    intro fuel hcoefs hintercepts hfuel
    cases fuel with
    | zero => exact absurd hfuel (Nat.not_lt_zero _)
    | succ fuel =>
      obtain ⟨⟨hne, hcoef⟩, hothers⟩ := List.forall_mem_cons.1 hcoefs
      obtain ⟨hb, hbs⟩ := List.forall_mem_cons.1 hintercepts
      obtain ⟨coef, b⟩ := entry
      obtain ⟨c, cs, rfl⟩ := List.exists_cons_of_ne_nil hne
      obtain ⟨hc, hcs⟩ := List.forall_mem_cons.1 hcoef
      have hends := Ends.flatMap_append (.inl rfl)
        (fun entry => ' ' :: rowChars arg entry.2 entry.1) rows rest
      have hrow := reads.row_append arg hc hcs hb hends
      have hrec := ih hothers hbs (Nat.lt_of_succ_lt_succ hfuel)
      simp only [List.flatMap_cons, List.append_assoc, List.cons_append, furtherRows]
      rw [hrow]
      simp [hrec]

end Reads
end Formula
end ScoreTree
