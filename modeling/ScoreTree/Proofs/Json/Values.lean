import ScoreTree.Proofs.Json.Nesting
import ScoreTree.Proofs.Json.Numbers
import ScoreTree.Proofs.Json.Strings

/-!
# Reading values

What each reader makes of a value depends on what is written there, and not on how. A reader that
wants a certain form gives something for that form only (`Source.float?`, `Source.list?`,
`Source.text?`); the reader of any value gives `Source.json?`, up to a depth, and a value is
always passed over.
-/

namespace ScoreTree
namespace Json

namespace Reader

variable {β σ : Type}

/-! ## Readers of values -/

/-- What the reader makes of the text, behind any blanks. -/
def ReadsPart (r : Reader β) (cs : List Char) (result : Option β) : Prop :=
  ∀ blanks, IsBlanks blanks → Reads r (blanks ++ cs) result

/-- A part behind a colon. -/
theorem ReadsPart.field {r : Reader β} {cs : List Char} {result : Option β}
    (h : ReadsPart r cs result) {blanks before : List Char} (hblanks : IsBlanks blanks)
    (hbefore : IsBlanks before) :
    Reads (do colon; r) (blanks ++ ':' :: (before ++ cs)) result := by
  intro rest hrest
  rw [run?_bind, run?_colon _ rest hblanks]
  exact h before hbefore rest hrest

/-- What the reader makes of a value, behind any blanks and in any spelling. -/
def ReadsValue (r : Reader β) (s : Source) (result : Option β) : Prop :=
  ∀ cs, IsValue cs s → ∀ blanks, IsBlanks blanks → Reads r (blanks ++ cs) result

theorem ReadsValue.reads {r : Reader β} {s : Source} {result : Option β}
    (h : ReadsValue r s result) {cs : List Char} (hcs : IsValue cs s) : Reads r cs result :=
  h cs hcs [] isBlanks_nil

theorem ReadsValue.map {γ : Type} {r : Reader β} {s : Source} {result : Option β}
    (h : ReadsValue r s result) (f : β → γ) : ReadsValue (f <$> r) s (result.map f) :=
  fun cs hcs blanks hblanks => (h cs hcs blanks hblanks).map f

theorem readsValue_dispatch {branch : Char → Reader β} {s : Source} {result : Option β}
    (h : ∀ c cs, IsValue (c :: cs) s → c ∈ s.starts → Reads (branch c) (c :: cs) result) :
    ReadsValue (dispatch branch) s result := by
  intro cs hcs blanks hblanks rest hrest
  obtain ⟨c, cs, rfl, hc⟩ := hcs.starts
  rw [run?_dispatch cs rest hblanks (Source.mark_of_mem_starts hc).1]
  exact h c cs hcs hc rest hrest

/-- What the reader makes of the items of an array, behind the opening bracket. -/
theorem exists_reads_items {r : Reader β} {f : Source → Option β} {items : List Source}
    (hitem : ∀ item ∈ items, ReadsValue r item (f item)) (errors : CommaErrors) {cs : List Char}
    (h : IsValue cs (.array items)) :
    ∃ rest, cs = '[' :: rest ∧ Reads (Reader.items errors r) rest (items.mapM f) := by
  cases h with
  | emptyArray hblanks => exact ⟨_, rfl, fun rest _ => run?_items_empty r hblanks rest⟩
  | @array first further hparts =>
    refine ⟨_, rfl, fun rest _ => run?_items ?_ rest⟩
    intro p hp
    obtain ⟨c, cs, hcore, hc⟩ := (hparts p hp).starts
    have hmark := Source.mark_of_mem_starts hc
    exact ⟨⟨c, cs, hcore, hmark.1, hmark.2⟩,
      (hitem p.content (List.mem_map_of_mem hp)).reads (hparts p hp)⟩

/-- What the reader makes of a value behind a colon, in any spelling. -/
def ReadsField (r : Reader β) (s : Source) (result : Option β) : Prop :=
  ∀ cs, IsValue cs s → ∀ blanks before, IsBlanks blanks → IsBlanks before →
    Reads r (blanks ++ ':' :: (before ++ cs)) result

theorem ReadsValue.field {r : Reader β} {s : Source} {result : Option β}
    (h : ReadsValue r s result) : ReadsField (do colon; r) s result :=
  fun cs hcs _ _ hblanks hbefore => ReadsPart.field (h cs hcs) hblanks hbefore

/-- What a reader makes of the members of an object, behind the opening brace. The key that it passes
on may be another one than is written. -/
theorem exists_reads_members {key : Reader String} (given : String → String)
    (hkey : ∀ (body : List Char) (text : String) (s : List UInt8), Spells body text.toList →
      run? key (octets (body ++ ['"']) ++ s) = some (given text, s))
    (member : σ → String → Reader σ) {step : σ → String × Source → Option σ}
    {members : List (String × Source)}
    (hmember : ∀ m ∈ members, ∀ state,
      ReadsField (member state (given m.1)) m.2 (step state m))
    (errors : CommaErrors) {cs : List Char} (h : IsValue cs (.object members)) (start : σ) :
    ∃ rest, cs = '\x7b' :: rest ∧
      Reads (Reader.members errors key member start) rest (members.foldlM step start) := by
  cases h with
  | emptyObject hblanks =>
    exact ⟨_, rfl, fun rest _ => run?_members_empty key member start hblanks rest⟩
  | @object first further hkeys hvalues =>
    have hparts : ∀ p ∈ (first :: further).map Member.padded, ReadsMember key member step p := by
      intro p hp
      obtain ⟨m, hm, rfl⟩ := List.mem_map.mp hp
      obtain ⟨body, hcore, hspells⟩ := (hkeys m hm).exists_body
      refine ⟨body ++ ['"'] ++ (m.key.after ++ ':' :: (m.value.before ++ m.value.core)), ?_, ?_⟩
      · simp [Member.padded, hcore]
      · intro state rest hrest
        have hfield := hmember m.content (List.mem_map_of_mem hm) state _ (hvalues m hm) _ _
          m.key.after_blank m.value.before_blank rest hrest
        rw [octets_append, List.append_assoc, run?_bind, hkey body _ _ hspells, Option.bind_some]
        exact hfield
    have hcontent : (first :: further).map Member.content =
        ((first :: further).map Member.padded).map Padded.content := by
      rw [List.map_map]
      rfl
    have hchars : further.map Member.chars = (further.map Member.padded).map Padded.chars := by
      rw [List.map_map]
      exact List.map_congr_left fun m _ => m.chars_padded.symm
    rw [hcontent, hchars, ← first.chars_padded]
    exact ⟨_, rfl, fun rest _ => run?_members hparts start rest⟩

/-! ## Values of a certain form -/

end Reader

namespace Source

/-- A number as a double, if it is in range. -/
def float? : Source → Option Float
  | number l => l.value.toOption.map Number.toFloat
  | _ => none

def text? : Source → Option String
  | string text => some text
  | _ => none

/-- An array whose items are all of a certain form. -/
def list? {β : Type} (f : Source → Option β) : Source → Option (List β)
  | array items => items.mapM f
  | _ => none

/-- Nothing for null, and something for any value of a certain form. -/
def nullable? {β : Type} (f : Source → Option β) : Source → Option (Option β)
  | null => some none
  | s => (f s).map some

end Source

namespace Reader

variable {β σ : Type}

/-- A value of another form than the wanted one is told by its first character. -/
theorem readsValue_mismatch {p : Char → Prop} [DecidablePred p] {s : Source}
    (h : ∀ c ∈ s.starts, ¬ p c) (r : Reader β) (wanted : Wanted) :
    ReadsValue (dispatch fun c => if p c then r else mismatch wanted c) s none := by
  apply readsValue_dispatch
  intro c cs _ hc rest _
  rw [if_neg (h c hc)]
  exact run?_mismatch wanted c _

theorem readsValue_double (s : Source) : ReadsValue double s s.float? := by
  cases s with
  | number l =>
    apply readsValue_dispatch
    intro c cs hcs hc
    have hstarts : ∀ c ∈ numberStarts, (c.isDigit || decide (c = '-')) = true :=
      forall_numberStarts (by decide)
    cases hcs with
    | number hl =>
      rw [if_pos (hstarts c hc)]
      exact (reads_number hl).map Number.toFloat
  | bool b => exact readsValue_mismatch (by cases b <;> simp [Source.starts]) _ .number
  | _ => exact readsValue_mismatch (by simp [Source.starts]) _ .number

theorem readsValue_text (s : Source) : ReadsValue text s s.text? := by
  cases s with
  | string text =>
    apply readsValue_dispatch
    intro c cs hcs hc
    cases List.mem_singleton.mp hc
    cases hcs with
    | string h =>
      obtain ⟨body, heq, hspells⟩ := h.exists_body
      cases heq
      rw [if_pos rfl]
      exact (reads_string hspells).behind (by decide)
  | bool b => exact readsValue_mismatch (by cases b <;> simp [Source.starts]) _ .string
  | number l => exact readsValue_mismatch (by simp [Source.starts, numberStarts]) _ .string
  | _ => exact readsValue_mismatch (by simp [Source.starts]) _ .string

theorem readsValue_list {r : Reader β} {f : Source → Option β} {s : Source}
    (h : ∀ items, s = .array items → ∀ item ∈ items, ReadsValue r item (f item)) :
    ReadsValue (list r) s (s.list? f) := by
  cases s with
  | array items =>
    apply readsValue_dispatch
    intro c cs hcs hc
    cases List.mem_singleton.mp hc
    obtain ⟨text, heq, hreads⟩ := exists_reads_items (h items rfl) commaErrors hcs
    cases heq
    rw [if_pos rfl]
    exact hreads.behind (by decide)
  | bool b => exact readsValue_mismatch (by cases b <;> simp [Source.starts]) _ .sequence
  | number l => exact readsValue_mismatch (by simp [Source.starts, numberStarts]) _ .sequence
  | _ => exact readsValue_mismatch (by simp [Source.starts]) _ .sequence

theorem readsValue_nullable {r : Reader β} {f : Source → Option β} {s : Source}
    (h : ReadsValue r s (f s)) : ReadsValue (nullable r) s (s.nullable? f) := by
  intro cs hcs blanks hblanks rest hrest
  obtain ⟨c, cs, rfl, hc⟩ := hcs.starts
  rw [nullable, run?_bind, run?_token_blanks cs rest hblanks (Source.mark_of_mem_starts hc).1,
    Option.bind_some]
  have hsome (hnull : c ≠ 'n') :
      run? (if some c = some 'n' then do
        advance
        word ['u', 'l', 'l']
        return none
      else some <$> r) (octets (c :: cs) ++ rest) =
        ((f s).map some).map fun x => (x, rest) := by
    rw [if_neg fun heq => hnull (Option.some.inj heq)]
    exact (h.reads hcs).map some rest hrest
  cases s with
  | null =>
    cases hcs
    rfl
  | bool b => exact hsome (by cases b <;> rintro rfl <;> simp [Source.starts] at hc)
  | number l => exact hsome (by rintro rfl; simp [Source.starts, numberStarts] at hc)
  | _ => exact hsome (by rintro rfl; simp [Source.starts] at hc)

/-! ## Any value -/

/-- A value is read if its arrays and objects do not stand too deep inside each other. -/
theorem readsValue_value (d : Nat) {s : Source} (hs : s.depth ≤ d) :
    ReadsValue (value d) s s.json? := by
  induction d using Nat.strongRecOn generalizing s with
  | ind d ih =>
    unfold value
    apply readsValue_dispatch
    intro c cs hcs hc
    cases s with
    | null =>
      cases hcs
      exact fun _ _ => rfl
    | bool b =>
      cases hcs
      all_goals exact fun _ _ => rfl
    | string text =>
      cases List.mem_singleton.mp hc
      cases hcs with
      | string h =>
        obtain ⟨body, heq, hspells⟩ := h.exists_body
        cases heq
        exact ((reads_string hspells).map Json.string).behind (by decide)
    | number l =>
      cases hcs with
      | number hl =>
        have hnumber := (reads_number hl).map Number.toJson
        simp only [Source.starts, numberStarts, List.mem_cons, List.not_mem_nil, or_false] at hc
        rcases hc with rfl | rfl | rfl | rfl | rfl | rfl | rfl | rfl | rfl | rfl | rfl
        all_goals exact hnumber
    | array items =>
      cases List.mem_singleton.mp hc
      obtain ⟨d, rfl, hitems⟩ := Source.exists_of_depth_array_le hs
      obtain ⟨text, heq, hreads⟩ := exists_reads_items
        (fun item hitem => ih d (Nat.lt_succ_self d) (hitems item hitem)) commaErrors hcs
      cases heq
      rw [Source.json?, Source.jsonItems?_eq_mapM]
      exact (hreads.map Json.array).behind (by decide)
    | object members =>
      cases List.mem_singleton.mp hc
      obtain ⟨d, rfl, hmembers⟩ := Source.exists_of_depth_object_le hs
      obtain ⟨text, heq, hreads⟩ := exists_reads_members id
        (fun _ _ s h => run?_string h s)
        (fun old key => do
          colon
          let v ← value d
          return insertMember key v old)
        (fun m hm old => ((ih d (Nat.lt_succ_self d) (hmembers m hm)).map fun v =>
          insertMember m.1 v old).field) commaErrors hcs []
      cases heq
      rw [Source.json?, Source.jsonMembers?_eq_foldlM]
      exact (hreads.map Json.object).behind (by decide)

/-! ## Skipped values -/

theorem readsValue_skipWithin (d : Nat) {s : Source} (hs : s.depth ≤ d) :
    ReadsValue (skipWithin d) s (some ()) := by
  induction d using Nat.strongRecOn generalizing s with
  | ind d ih =>
    unfold skipWithin
    apply readsValue_dispatch
    intro c cs hcs hc
    cases s with
    | null =>
      cases hcs
      exact fun _ _ => rfl
    | bool b =>
      cases hcs
      all_goals exact fun _ _ => rfl
    | string text =>
      cases List.mem_singleton.mp hc
      cases hcs with
      | string h =>
        obtain ⟨body, heq, hspells⟩ := h.exists_body
        cases heq
        exact (reads_skipString hspells).behind (by decide)
    | number l =>
      cases hcs with
      | number hl =>
        have hnumber := (reads_literal hl .invalidNumber).map fun _ => ()
        simp only [Source.starts, numberStarts, List.mem_cons, List.not_mem_nil, or_false] at hc
        rcases hc with rfl | rfl | rfl | rfl | rfl | rfl | rfl | rfl | rfl | rfl | rfl
        all_goals exact hnumber
    | array items =>
      cases List.mem_singleton.mp hc
      obtain ⟨d, rfl, hitems⟩ := Source.exists_of_depth_array_le hs
      obtain ⟨text, heq, hreads⟩ := exists_reads_items (f := fun _ => some ())
        (fun item hitem => ih d (Nat.lt_succ_self d) (hitems item hitem)) skipCommaErrors hcs
      cases heq
      rw [show items.mapM (fun _ => some ()) = some (items.map fun _ => ()) from List.mapM_pure]
        at hreads
      exact (hreads.map fun _ => ()).behind (by decide)
    | object members =>
      cases List.mem_singleton.mp hc
      obtain ⟨d, rfl, hmembers⟩ := Source.exists_of_depth_object_le hs
      have hkey (body : List Char) (text : String) (s : List UInt8) (h : Spells body text.toList) :
          run? (do skipString; return "") (octets (body ++ ['"']) ++ s) = some ("", s) := by
        rw [run?_bind, run?_skipString h]
        rfl
      obtain ⟨text, heq, hreads⟩ := exists_reads_members (fun _ => "") hkey
        (fun _ _ => do
          colon
          skipWithin d)
        (fun m hm _ => (ih d (Nat.lt_succ_self d) (hmembers m hm)).field) skipCommaErrors hcs ()
      cases heq
      rw [show members.foldlM (fun _ _ => some ()) () = some () from List.foldlM_pure] at hreads
      exact hreads.behind (by decide)

/-- A value of any depth is passed over. -/
theorem readsValue_skip (s : Source) : ReadsValue skip s (some ()) := by
  intro cs hcs blanks hblanks rest hrest
  have hdepth : s.depth ≤ (octets (blanks ++ cs) ++ rest).length + 1 := by
    have hcs := hcs.depth_le_length
    have hoctets := length_le_length_octets (blanks ++ cs)
    rw [List.length_append] at hoctets ⊢
    omega
  rw [skip, run?_bounded]
  exact readsValue_skipWithin _ hdepth cs hcs blanks hblanks rest hrest

/-! ## Whole texts -/

theorem toOption_run (r : Reader β) (s : List UInt8) :
    (r.run s).toOption =
      (run? r s).bind fun p => if (p.2.dropWhile isBlank).isEmpty then some p.1 else none := by
  unfold run run?
  cases StateT.run r s with
  | error e => rfl
  | ok p =>
    dsimp only [bind, Except.bind, Except.toOption, Option.bind]
    by_cases hrest : (p.2.dropWhile isBlank).isEmpty
    · rw [if_pos hrest, if_pos hrest]
      rfl
    · rw [if_neg hrest, if_neg hrest]
      rfl

/-- What a reader makes of a text is what it makes of the part between its blanks. -/
theorem toOption_run_of_reads {α : Type} {r : Reader β} {p : Padded α} {result : Option β}
    (h : Reads r (p.before ++ p.core) result) {text : String} (htext : text.toList = p.chars) :
    (r.run text.toUTF8.toList).toOption = result := by
  have hread := h _ (endsNumber_blanks p.after_blank endsNumber_nil)
  rw [List.append_nil] at hread
  have hblank := dropWhile_blanks p.after_blank []
  rw [List.append_nil, List.dropWhile_nil] at hblank
  rw [Reader.toOption_run, octets_toList, htext, Padded.chars, ← List.append_assoc, octets_append,
    hread]
  cases result with
  | none => rfl
  | some x =>
    dsimp only [Option.map_some, Option.bind_some]
    rw [hblank]
    rfl

theorem ReadsValue.toOption_run {r : Reader β} {s : Source} {result : Option β}
    (h : ReadsValue r s result) {text : String} (htext : s.IsText text) :
    (r.run text.toUTF8.toList).toOption = result := by
  obtain ⟨p, hvalue, hchars⟩ := htext
  exact toOption_run_of_reads (h p.core hvalue p.before p.before_blank) hchars

end Reader
end Json
end ScoreTree
