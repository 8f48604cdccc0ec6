import ScoreTree.Proofs.Json.Grammar

/-!
# Reading arrays and objects

The items of an array and the members of an object are parts between blanks and commas. If a reader
makes something of each part, the loops make the list of all (`run?_items`), or carry a state
through them in order (`run?_members`), whatever blanks are written.
-/

namespace ScoreTree
namespace Json

/-- Keys and values are read together. -/
def Member.padded (m : Member) : Padded (String × Source) where
  before := m.key.before
  core := m.key.core ++ (m.key.after ++ ':' :: (m.value.before ++ m.value.core))
  after := m.value.after
  content := m.content
  before_blank := m.key.before_blank
  after_blank := m.value.after_blank

theorem Member.chars_padded (m : Member) : m.padded.chars = m.chars := by
  simp [padded, Padded.chars, chars]

theorem length_furtherChars (close : Char) (parts : List (List Char)) :
    parts.length + 1 ≤ (furtherChars close parts).length := by
  induction parts with
  | nil => exact Nat.le_refl 1
  | cons part parts ih =>
    simp only [furtherChars, List.length_cons, List.length_append]
    omega

/-- There are fewer parts than octets. -/
theorem length_lt_octets {α : Type} (first : Padded α) (close : Char) (further : List (Padded α))
    (s : List UInt8) :
    further.length <
      (octets (first.chars ++ furtherChars close (further.map Padded.chars)) ++ s).length := by
  have hchars := length_furtherChars close (further.map Padded.chars)
  have hoctets :=
    length_le_length_octets (first.chars ++ furtherChars close (further.map Padded.chars))
  rw [List.length_map] at hchars
  rw [List.length_append] at hoctets ⊢
  omega

namespace Reader

variable {α β σ : Type}

/-- After a value and blanks there is a comma or a closing bracket, neither of which continues a
number. -/
theorem endsNumber_further {blanks : List Char} (hblanks : IsBlanks blanks) {close : Char}
    (hclose : close = ']' ∨ close = '\x7d') (parts : List (List Char)) (s : List UInt8) :
    EndsNumber (octets (blanks ++ furtherChars close parts) ++ s) := by
  rw [octets_append, List.append_assoc]
  apply endsNumber_blanks hblanks
  intro b hb
  cases parts with
  | cons part parts =>
    cases hb
    decide
  | nil =>
    rcases hclose with rfl | rfl
    all_goals
      cases hb
      decide

/-! ## Items -/

section Items

variable {errors : CommaErrors} {blanks : List Char}

theorem run?_moreItems_close (hblanks : IsBlanks blanks) (isFirst : Bool) (s : List UInt8) :
    run? (moreItems errors isFirst) (octets (blanks ++ [']']) ++ s) =
      some (false, octets [']'] ++ s) := by
  rw [moreItems, run?_bind, run?_token_blanks [] s hblanks (by decide), Option.bind_some]
  rfl

/-- A part starts with a character that does not close an array, and a reader makes something of it. -/
structure ReadsItem (item : Reader β) (f : α → Option β) (p : Padded α) : Prop where
  starts : ∃ c cs, p.core = c :: cs ∧ IsMark c ∧ c ≠ ']'
  reads : Reads item p.core (f p.content)

namespace ReadsItem

variable {item : Reader β} {f : α → Option β} {p : Padded α}

/-- The first part, in front of more. -/
theorem run?_moreItems_first (h : ReadsItem item f p) (more : List Char) (s : List UInt8) :
    run? (moreItems errors true) (octets (p.chars ++ more) ++ s) =
      some (true, octets (p.core ++ (p.after ++ more)) ++ s) := by
  obtain ⟨c, cs, hcore, hc, hne⟩ := h.starts
  rw [Padded.chars, List.append_assoc, List.append_assoc, hcore, List.cons_append, moreItems,
    run?_bind, run?_token_blanks _ s p.before_blank hc, Option.bind_some]
  split
  · rename_i heq
    cases heq
  · rename_i heq
    exact absurd (Option.some.inj heq) hne
  · rfl

/-- A part behind a comma. -/
theorem run?_moreItems_next (h : ReadsItem item f p) (hblanks : IsBlanks blanks)
    (more : List Char) (s : List UInt8) :
    run? (moreItems errors false) (octets (blanks ++ ',' :: (p.chars ++ more)) ++ s) =
      some (true, octets (p.core ++ (p.after ++ more)) ++ s) := by
  obtain ⟨c, cs, hcore, hc, hne⟩ := h.starts
  rw [moreItems, run?_bind, run?_token_blanks _ s hblanks (by decide), Option.bind_some]
  refine (run?_bind advance _ _).trans ?_
  rw [run?_advance_ascii _ s (by decide), Option.bind_some, run?_bind, Padded.chars,
    List.append_assoc, List.append_assoc, hcore, List.cons_append,
    run?_token_blanks _ s p.before_blank hc, Option.bind_some]
  split
  · rename_i heq
    cases heq
  · rename_i heq
    exact absurd (Option.some.inj heq) hne
  · rfl

/-- A round of the loop reads a part, if that is what follows, up to the blanks behind it. -/
theorem run?_itemsLoop_succ (h : ReadsItem item f p) {isFirst : Bool} {further : List (List Char)}
    {s t : List UInt8}
    (hmore : run? (moreItems errors isFirst) t =
      some (true, octets (p.core ++ (p.after ++ furtherChars ']' further)) ++ s)) (n : Nat) :
    run? (itemsLoop errors item (n + 1) isFirst) t =
      (f p.content).bind fun x =>
        (run? (itemsLoop errors item n false)
          (octets (p.after ++ furtherChars ']' further) ++ s)).map fun q => (x :: q.1, q.2) := by
  have hitem := h.reads _ (endsNumber_further p.after_blank (.inl rfl) further s)
  rw [← List.append_assoc, ← octets_append] at hitem
  rw [itemsLoop, run?_bind, hmore, Option.bind_some]
  simp only [if_true, run?_bind, hitem, run?_pure]
  cases f p.content with
  | none => rfl
  | some x =>
    simp only [Option.map_some, Option.bind_some]
    cases run? (itemsLoop errors item n false) (octets (p.after ++ furtherChars ']' further) ++ s)
    all_goals rfl

end ReadsItem

variable {item : Reader β} {f : α → Option β}

/-- The items after one that has been read. -/
theorem run?_itemsLoop {parts : List (Padded α)} (h : ∀ p ∈ parts, ReadsItem item f p)
    (hblanks : IsBlanks blanks) {n : Nat} (hn : parts.length < n) (s : List UInt8) :
    run? (itemsLoop errors item n false)
        (octets (blanks ++ furtherChars ']' (parts.map Padded.chars)) ++ s) =
      ((parts.map Padded.content).mapM f).map fun xs => (xs, s) := by
  induction parts generalizing blanks n with
  | nil =>
    obtain ⟨n, rfl⟩ := Nat.exists_eq_add_one_of_ne_zero (Nat.ne_zero_of_lt hn)
    simp only [List.map_nil, furtherChars]
    rw [itemsLoop, run?_bind, run?_moreItems_close hblanks]
    rfl
  | cons p parts ih =>
    obtain ⟨n, rfl⟩ := Nat.exists_eq_add_one_of_ne_zero (Nat.ne_zero_of_lt hn)
    have hp := h p List.mem_cons_self
    have hparts : ∀ q ∈ parts, ReadsItem item f q := fun q hq => h q (List.mem_cons_of_mem p hq)
    have hlength : parts.length < n := by simpa using hn
    simp only [List.map_cons, furtherChars]
    rw [hp.run?_itemsLoop_succ (hp.run?_moreItems_next hblanks _ s), ih hparts p.after_blank hlength,
      List.mapM_cons]
    cases f p.content with
    | none => rfl
    | some x => cases (parts.map Padded.content).mapM f <;> rfl

/-- All items of an array, behind its opening bracket. -/
theorem run?_items {first : Padded α} {further : List (Padded α)}
    (h : ∀ p ∈ first :: further, ReadsItem item f p) (s : List UInt8) :
    run? (items errors item)
        (octets (first.chars ++ furtherChars ']' (further.map Padded.chars)) ++ s) =
      (((first :: further).map Padded.content).mapM f).map fun xs => (xs, s) := by
  have hfirst := h first List.mem_cons_self
  have hfurther : ∀ p ∈ further, ReadsItem item f p := fun p hp => h p (List.mem_cons_of_mem first hp)
  have hlength := length_lt_octets first ']' further s
  rw [items, run?_bounded, hfirst.run?_itemsLoop_succ (hfirst.run?_moreItems_first _ s),
    run?_itemsLoop hfurther first.after_blank hlength, List.map_cons, List.mapM_cons]
  cases f first.content with
  | none => rfl
  | some x => cases (further.map Padded.content).mapM f <;> rfl

theorem run?_items_empty (item : Reader β) (hblanks : IsBlanks blanks) (s : List UInt8) :
    run? (items errors item) (octets (blanks ++ [']']) ++ s) = some ([], s) := by
  rw [items, run?_bounded, itemsLoop, run?_bind, run?_moreItems_close hblanks]
  rfl

end Items

/-! ## Members -/

section Members

variable {errors : CommaErrors} {blanks : List Char}

theorem run?_moreMembers_close (hblanks : IsBlanks blanks) (isFirst : Bool) (s : List UInt8) :
    run? (moreMembers errors isFirst) (octets (blanks ++ ['\x7d']) ++ s) =
      some (false, octets ['\x7d'] ++ s) := by
  rw [moreMembers, run?_bind, run?_token_blanks [] s hblanks (by decide), Option.bind_some]
  rfl

/-- A part starts with a quote, and readers of a key and of what follows it carry any state over it. -/
structure ReadsMember (key : Reader String) (member : σ → String → Reader σ)
    (step : σ → α → Option σ) (p : Padded α) : Prop where
  reads : ∃ cs, p.core = '"' :: cs ∧ ∀ state, Reads (key >>= member state) cs (step state p.content)

namespace ReadsMember

variable {key : Reader String} {member : σ → String → Reader σ} {step : σ → α → Option σ}
variable {p : Padded α}

/-- The first part, in front of more. -/
theorem run?_moreMembers_first (h : ReadsMember key member step p) (more : List Char)
    (s : List UInt8) :
    run? (moreMembers errors true) (octets (p.chars ++ more) ++ s) =
      some (true, octets (p.core ++ (p.after ++ more)) ++ s) := by
  obtain ⟨cs, hcore, -⟩ := h.reads
  rw [Padded.chars, List.append_assoc, List.append_assoc, hcore, List.cons_append, moreMembers,
    run?_bind, run?_token_blanks _ s p.before_blank (by decide)]
  rfl

/-- A part behind a comma. -/
theorem run?_moreMembers_next (h : ReadsMember key member step p) (hblanks : IsBlanks blanks)
    (more : List Char) (s : List UInt8) :
    run? (moreMembers errors false) (octets (blanks ++ ',' :: (p.chars ++ more)) ++ s) =
      some (true, octets (p.core ++ (p.after ++ more)) ++ s) := by
  obtain ⟨cs, hcore, -⟩ := h.reads
  rw [moreMembers, run?_bind, run?_token_blanks _ s hblanks (by decide), Option.bind_some]
  refine (run?_bind advance _ _).trans ?_
  rw [run?_advance_ascii _ s (by decide), Option.bind_some, run?_bind, Padded.chars,
    List.append_assoc, List.append_assoc, hcore, List.cons_append,
    run?_token_blanks _ s p.before_blank (by decide)]
  rfl

/-- A round of the loop reads a part, if that is what follows, up to the blanks behind it. -/
theorem run?_membersLoop_succ (h : ReadsMember key member step p) {isFirst : Bool}
    {further : List (List Char)} {s t : List UInt8}
    (hmore : run? (moreMembers errors isFirst) t =
      some (true, octets (p.core ++ (p.after ++ furtherChars '\x7d' further)) ++ s)) (n : Nat)
    (state : σ) :
    run? (membersLoop errors key member (n + 1) isFirst state) t =
      (step state p.content).bind fun state =>
        run? (membersLoop errors key member n false state)
          (octets (p.after ++ furtherChars '\x7d' further) ++ s) := by
  obtain ⟨cs, hcore, hreads⟩ := h.reads
  have hmember := hreads state _ (endsNumber_further p.after_blank (.inr rfl) further s)
  rw [← List.append_assoc, ← octets_append, run?_bind] at hmember
  rw [hcore, List.cons_append] at hmore
  rw [membersLoop, run?_bind, hmore, Option.bind_some]
  simp only [if_true, run?_bind, run?_advance_ascii _ s (show '"'.toNat < 128 by decide),
    Option.bind_some]
  rw [← Option.bind_assoc, hmember]
  cases step state p.content <;> rfl

end ReadsMember

variable {key : Reader String} {member : σ → String → Reader σ} {step : σ → α → Option σ}

/-- The members after one that has been read. -/
theorem run?_membersLoop {parts : List (Padded α)} (h : ∀ p ∈ parts, ReadsMember key member step p)
    (hblanks : IsBlanks blanks) {n : Nat} (hn : parts.length < n) (state : σ) (s : List UInt8) :
    run? (membersLoop errors key member n false state)
        (octets (blanks ++ furtherChars '\x7d' (parts.map Padded.chars)) ++ s) =
      ((parts.map Padded.content).foldlM step state).map fun state => (state, s) := by
  induction parts generalizing blanks n state with
  | nil =>
    obtain ⟨n, rfl⟩ := Nat.exists_eq_add_one_of_ne_zero (Nat.ne_zero_of_lt hn)
    simp only [List.map_nil, furtherChars]
    rw [membersLoop, run?_bind, run?_moreMembers_close hblanks]
    rfl
  | cons p parts ih =>
    obtain ⟨n, rfl⟩ := Nat.exists_eq_add_one_of_ne_zero (Nat.ne_zero_of_lt hn)
    have hp := h p List.mem_cons_self
    have hparts : ∀ q ∈ parts, ReadsMember key member step q :=
      fun q hq => h q (List.mem_cons_of_mem p hq)
    have hlength : parts.length < n := by simpa using hn
    simp only [List.map_cons, furtherChars]
    rw [hp.run?_membersLoop_succ (hp.run?_moreMembers_next hblanks _ s), List.foldlM_cons]
    cases step state p.content with
    | none => rfl
    | some state => exact ih hparts p.after_blank hlength state

/-- All members of an object, behind its opening brace. -/
theorem run?_members {first : Padded α} {further : List (Padded α)}
    (h : ∀ p ∈ first :: further, ReadsMember key member step p) (start : σ) (s : List UInt8) :
    run? (members errors key member start)
        (octets (first.chars ++ furtherChars '\x7d' (further.map Padded.chars)) ++ s) =
      (((first :: further).map Padded.content).foldlM step start).map fun state => (state, s) := by
  have hfirst := h first List.mem_cons_self
  have hfurther : ∀ p ∈ further, ReadsMember key member step p :=
    fun p hp => h p (List.mem_cons_of_mem first hp)
  rw [members, run?_bounded, hfirst.run?_membersLoop_succ (hfirst.run?_moreMembers_first _ s),
    List.map_cons, List.foldlM_cons]
  cases step start first.content with
  | none => rfl
  | some state =>
    exact run?_membersLoop hfurther first.after_blank (length_lt_octets first '\x7d' further s) state s

theorem run?_members_empty (key : Reader String) (member : σ → String → Reader σ) (start : σ)
    (hblanks : IsBlanks blanks) (s : List UInt8) :
    run? (members errors key member start) (octets (blanks ++ ['\x7d']) ++ s) = some (start, s) := by
  rw [members, run?_bounded, membersLoop, run?_bind, run?_moreMembers_close hblanks]
  rfl

end Members

end Reader
end Json
end ScoreTree
