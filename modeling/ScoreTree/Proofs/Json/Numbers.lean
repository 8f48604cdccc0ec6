import ScoreTree.Proofs.Json.Grammar

/-!
# Reading numbers

A number is read as the digits of its text, up to the first character that does not continue it.
-/

namespace ScoreTree
namespace Json
namespace Reader

/-! ## Digits -/

theorem run?_accept_ascii {c : Char} (h : c.toNat < 128) (cs : List Char) (s : List UInt8) :
    run? (accept c) (octets (c :: cs) ++ s) = some (true, octets cs ++ s) := by
  rw [run?_accept, octets_cons_ascii h, List.cons_append, List.head?_cons, Option.map_some,
    ofUInt8_of_ascii h, if_pos rfl, List.tail_cons]

theorem run?_accept_of_ne {c : Char} {s : List UInt8} (h : s.head?.map Char.ofUInt8 ≠ some c) :
    run? (accept c) s = some (false, s) := by
  rw [run?_accept, if_neg h]

theorem head?_octets_ascii {c : Char} (h : c.toNat < 128) (cs : List Char) (s : List UInt8) :
    (octets (c :: cs) ++ s).head?.map Char.ofUInt8 = some c := by
  rw [octets_cons_ascii h, List.cons_append, List.head?_cons, Option.map_some, ofUInt8_of_ascii h]

theorem digitChar_lt_ascii : ∀ d < 10, (Nat.digitChar d).toNat < 128 := by decide

theorem isDigit_octet : ∀ d < 10, isDigit (UInt8.ofNat (Nat.digitChar d).toNat) = true := by decide

theorem octet_sub_zero : ∀ d < 10, (UInt8.ofNat (Nat.digitChar d).toNat).toNat - 0x30 = d := by
  decide

theorem octets_digitChars {ds : List Nat} (h : ∀ d ∈ ds, d < 10) :
    octets (digitChars ds) = ds.map fun d => UInt8.ofNat (Nat.digitChar d).toNat := by
  induction ds with
  | nil => rfl
  | cons d ds ih =>
    have hd := digitChar_lt_ascii d (h d List.mem_cons_self)
    have hds := ih fun e he => h e (List.mem_cons_of_mem d he)
    rw [List.map_cons, ← hds]
    exact octets_cons_ascii hd _

theorem head?_digitChars {ds : List Nat} (h : IsDigits ds) (s : List UInt8) (c : Char)
    (hc : c.isDigit = false) : (octets (digitChars ds) ++ s).head?.map Char.ofUInt8 ≠ some c := by
  obtain ⟨d, ds, rfl⟩ := List.exists_cons_of_ne_nil h.1
  have hd := h.2 d List.mem_cons_self
  have hdigit : ∀ d < 10, (Nat.digitChar d).isDigit = true := by decide
  rw [digitChars, List.map_cons, head?_octets_ascii (digitChar_lt_ascii d hd)]
  intro heq
  rw [← Option.some.inj heq, hdigit d hd] at hc
  cases hc

theorem run?_digits {ds : List Nat} (h : ∀ d ∈ ds, d < 10) {s : List UInt8}
    (hs : ∀ b ∈ s.head?, isDigit b = false) :
    run? digits (octets (digitChars ds) ++ s) = some (ds, s) := by
  have hall : ∀ b ∈ octets (digitChars ds), isDigit b = true := by
    rw [octets_digitChars h]
    intro b hb
    obtain ⟨d, hd, rfl⟩ := List.mem_map.mp hb
    exact isDigit_octet d (h d hd)
  have htake : s.takeWhile isDigit = [] := by
    cases s with
    | nil => rfl
    | cons b s => exact List.takeWhile_cons_of_neg (by simp [hs b rfl])
  have hdrop : s.dropWhile isDigit = s := by
    cases s with
    | nil => rfl
    | cons b s => exact List.dropWhile_cons_of_neg (by simp [hs b rfl])
  have hvalues : (octets (digitChars ds)).map (fun b => b.toNat - 0x30) = ds := by
    rw [octets_digitChars h, List.map_map]
    exact (List.map_congr_left fun d hd => octet_sub_zero d (h d hd)).trans (List.map_id ds)
  simp only [digits, run?_bind, run?_get, run?_set, run?_pure, Option.bind_some,
    List.takeWhile_append_of_pos hall, List.dropWhile_append_of_pos hall, htake, hdrop,
    List.append_nil, hvalues]

theorem run?_someDigits {ds : List Nat} (h : IsDigits ds) {s : List UInt8}
    (hs : ∀ b ∈ s.head?, isDigit b = false) (atEnd : ReadError) :
    run? (someDigits atEnd) (octets (digitChars ds) ++ s) = some (ds, s) := by
  rw [someDigits, run?_bind, run?_digits h.2 hs, Option.bind_some]
  cases ds with
  | nil => exact absurd rfl h.1
  | cons d ds => rfl

theorem run?_wholeDigits {ds : List Nat} (h : IsDigits ds) (hleading : ds.head? = some 0 → ds = [0])
    {s : List UInt8} (hs : ∀ b ∈ s.head?, isDigit b = false) (atEnd : ReadError) :
    run? (wholeDigits atEnd) (octets (digitChars ds) ++ s) = some (ds, s) := by
  rw [wholeDigits, run?_bind, run?_someDigits h hs, Option.bind_some]
  split
  · rename_i heq
    change ds = _ at heq
    have hzero := hleading (by rw [heq]; rfl)
    rw [hzero] at heq
    cases heq
  · rfl

/-! ## Numbers -/

theorem run?_fractionDigits {fraction : Option (List Nat)} (h : ∀ ds ∈ fraction, IsDigits ds)
    {s : List UInt8} (hs : ∀ b ∈ s.head?, isDigit b = false)
    (hpoint : s.head?.map Char.ofUInt8 ≠ some '.') (atEnd : ReadError) :
    run? (fractionDigits atEnd) (octets (fractionChars fraction) ++ s) = some (fraction, s) := by
  cases fraction with
  | none =>
    rw [fractionDigits, run?_bind, fractionChars, octets_nil, List.nil_append,
      run?_accept_of_ne hpoint]
    rfl
  | some ds =>
    rw [fractionDigits, run?_bind, fractionChars, run?_accept_ascii (by decide), Option.bind_some,
      run?_ite, if_pos rfl, run?_map, run?_someDigits (h ds rfl) hs]
    rfl

/-- Behind its mark, an exponent is a sign and digits. -/
theorem run?_exponentDigits_mark {mark : Char} (hmark : mark = 'e' ∨ mark = 'E') (cs : List Char)
    (s : List UInt8) (atEnd : ReadError) :
    run? (exponentDigits atEnd) (octets (mark :: cs) ++ s) =
      ((run? (accept '-') (octets cs ++ s)).bind fun p =>
        (if p.1 = true then some p.2 else (run? (accept '+') p.2).map Prod.snd).bind fun t =>
          (run? (someDigits atEnd) t).map fun q => (some (p.1, q.1), q.2)) := by
  have hascii : mark.toNat < 128 := by rcases hmark with rfl | rfl <;> decide
  have hbranch : run? (exponentDigits atEnd) (octets (mark :: cs) ++ s) =
      run? (do
        let negative ← accept '-'
        unless negative do
          discard (accept '+')
        return some (negative, ← someDigits atEnd)) (octets cs ++ s) := by
    rw [exponentDigits, run?_bind, run?_peek_ascii cs s hascii, Option.bind_some]
    rcases hmark with rfl | rfl
    all_goals
      refine (run?_bind advance _ _).trans ?_
      rw [run?_advance_ascii cs s hascii]
      rfl
  rw [hbranch, run?_bind]
  congr 1
  funext p
  obtain ⟨negative, t⟩ := p
  cases negative with
  | true =>
    simp only [if_true, run?_bind, run?_pure, Option.bind_some]
    cases run? (someDigits atEnd) t <;> rfl
  | false =>
    simp only [Bool.false_eq_true, if_false, run?_bind, run?_discard, run?_pure]
    cases run? (accept '+') t with
    | none => rfl
    | some q =>
      simp only [Option.map_some, Option.bind_some]
      cases run? (someDigits atEnd) q.2 <;> rfl

/-- The digits behind an exponent mark and its sign. -/
theorem run?_exponentDigits {exponent : Option (Bool × List Nat)} {cs : List Char}
    (h : IsExponent exponent cs) (hdigits : ∀ e ∈ exponent, IsDigits e.2) {rest : List UInt8}
    (hrest : EndsNumber rest) (atEnd : ReadError) :
    run? (exponentDigits atEnd) (octets cs ++ rest) = some (exponent, rest) := by
  have hend : ∀ b ∈ rest.head?, isDigit b = false := fun b hb => (hrest b hb).1
  cases h with
  | absent =>
    have hmark : ∀ b ∈ rest.head?, Char.ofUInt8 b ≠ 'e' ∧ Char.ofUInt8 b ≠ 'E' := by
      intro b hb
      have hb := (hrest b hb).2
      simp only [List.mem_cons, not_or] at hb
      exact ⟨hb.2.1, hb.2.2.1⟩
    rw [exponentDigits, run?_bind, octets_nil, List.nil_append, run?_peek, Option.bind_some]
    cases rest with
    | nil => rfl
    | cons b rest =>
      obtain ⟨he, hE⟩ := hmark b rfl
      split
      · rename_i heq
        exact absurd (Option.some.inj heq) he
      · rename_i heq
        exact absurd (Option.some.inj heq) hE
      · rfl
  | minus hmark ds =>
    rw [run?_exponentDigits_mark hmark, run?_accept_ascii (by decide), Option.bind_some, if_pos rfl,
      Option.bind_some, run?_someDigits (hdigits _ rfl) hend]
    rfl
  | plus hmark ds =>
    rw [run?_exponentDigits_mark hmark, run?_accept_of_ne (by rw [head?_octets_ascii] <;> decide),
      Option.bind_some, if_neg Bool.false_ne_true, run?_accept_ascii (by decide), Option.map_some,
      Option.bind_some, run?_someDigits (hdigits _ rfl) hend]
    rfl
  | unsigned hmark ds =>
    have hds : IsDigits ds := hdigits _ rfl
    have hhead := head?_digitChars hds rest
    rw [run?_exponentDigits_mark hmark, run?_accept_of_ne (hhead '-' (by decide)),
      Option.bind_some, if_neg Bool.false_ne_true, run?_accept_of_ne (hhead '+' (by decide)),
      Option.map_some, Option.bind_some, run?_someDigits hds hend]
    rfl

theorem head_exponent {exponent : Option (Bool × List Nat)} {cs : List Char}
    (h : IsExponent exponent cs) {rest : List UInt8} (hrest : EndsNumber rest) :
    ∀ b ∈ (octets cs ++ rest).head?, isDigit b = false ∧ Char.ofUInt8 b ≠ '.' := by
  intro b hb
  cases h with
  | absent =>
    obtain ⟨hdigit, hmarks⟩ := hrest b hb
    rw [List.mem_cons, not_or] at hmarks
    exact ⟨hdigit, hmarks.1⟩
  | minus hmark ds | plus hmark ds | unsigned hmark ds =>
    rcases hmark with rfl | rfl
    all_goals
      rw [octets_cons_ascii (by decide)] at hb
      cases hb
      decide

theorem head_fraction (fraction : Option (List Nat)) {s : List UInt8}
    (hs : ∀ b ∈ s.head?, isDigit b = false) :
    ∀ b ∈ (octets (fractionChars fraction) ++ s).head?, isDigit b = false := by
  intro b hb
  cases fraction with
  | none => exact hs b hb
  | some ds =>
    rw [fractionChars, octets_cons_ascii (by decide)] at hb
    cases hb
    decide

theorem run?_sign (negative : Bool) {ds : List Nat} (h : IsDigits ds) (s : List UInt8) :
    run? (accept '-')
        (octets (if negative = true then ['-'] else []) ++ (octets (digitChars ds) ++ s)) =
      some (negative, octets (digitChars ds) ++ s) := by
  cases negative with
  | true => exact run?_accept_ascii (by decide) [] _
  | false => exact run?_accept_of_ne (head?_digitChars h s '-' (by decide))

/-- A number is read as its digits. -/
theorem run?_literal {l : Literal} {cs : List Char} (h : l.IsText cs) {rest : List UInt8}
    (hrest : EndsNumber rest) (atEnd : ReadError) :
    run? (literal atEnd) (octets cs ++ rest) = some (l, rest) := by
  cases h with
  | @digits exponent hl hexponent =>
    have hhead := head_exponent hexponent hrest
    have hdigit : ∀ b ∈ (octets exponent ++ rest).head?, isDigit b = false :=
      fun b hb => (hhead b hb).1
    have hpoint : (octets exponent ++ rest).head?.map Char.ofUInt8 ≠ some '.' := by
      intro heq
      obtain ⟨b, hb, hchar⟩ := Option.map_eq_some_iff.mp heq
      exact (hhead b hb).2 hchar
    simp only [octets_append, List.append_assoc]
    rw [literal, run?_bind, run?_sign l.negative hl.whole, Option.bind_some, run?_bind,
      run?_wholeDigits hl.whole hl.leading (head_fraction _ hdigit), Option.bind_some, run?_bind,
      run?_fractionDigits hl.fraction hdigit hpoint, Option.bind_some, run?_bind,
      run?_exponentDigits hexponent hl.exponent hrest, Option.bind_some]
    rfl

theorem reads_literal {l : Literal} {cs : List Char} (h : l.IsText cs) (atEnd : ReadError) :
    Reads (literal atEnd) cs (some l) :=
  fun _ hrest => run?_literal h hrest atEnd

/-- A number is read unless it is out of range. -/
theorem reads_number {l : Literal} {cs : List Char} (h : l.IsText cs) :
    Reads number cs l.value.toOption := by
  intro rest hrest
  rw [number, run?_bind, run?_literal h hrest, Option.bind_some]
  cases l.value <;> rfl

end Reader
end Json
end ScoreTree
