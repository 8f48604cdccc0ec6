import ScoreTree.Proofs.Json.Values

/-!
# Texts that stand for nothing

An escape by code may name half of a surrogate pair, which the form of a string allows and which spells
no text. `IsForm` is the form of a value without what it stands for. A text of this form either is
the text of a value or is refused by every reader that looks into strings
(`isLegible_or_isUnreadable`).
-/

namespace ScoreTree
namespace Json

/-! ## Forms -/

/-- The inside of a string. -/
inductive IsBody : List Char → Prop
  | nil : IsBody []
  | plain {c : Char} {cs : List Char} (hquote : c ≠ '"') (hslash : c ≠ '\\')
      (hcontrol : 0x20 ≤ c.toNat) (h : IsBody cs) : IsBody (c :: cs)
  | short {e c : Char} {cs : List Char} (hescape : (e, c) ∈ shortEscapes) (h : IsBody cs) :
      IsBody ('\\' :: e :: cs)
  | code {digits cs : List Char} {n : Nat} (hcode : IsCode digits n) (h : IsBody cs) :
      IsBody ('\\' :: 'u' :: (digits ++ cs))

/-- A part of a text between blanks, of which nothing but the text is known. -/
abbrev Part := Padded Unit

/-- The text of an array of values with the given texts. -/
inductive IsArrayOf : List (List Char) → List Char → Prop
  | empty {blanks : List Char} (h : IsBlanks blanks) : IsArrayOf [] ('[' :: (blanks ++ [']']))
  | items (first : Part) (further : List Part) :
      IsArrayOf ((first :: further).map Padded.core)
        ('[' :: (first.chars ++ furtherChars ']' (further.map Padded.chars)))

/-- The text of a key and a value. -/
def memberChars (m : Part × Part) : List Char := m.1.chars ++ ':' :: m.2.chars

/-- The text of an object of keys and values with the given texts. -/
inductive IsObjectOf : List (List Char × List Char) → List Char → Prop
  | empty {blanks : List Char} (h : IsBlanks blanks) :
      IsObjectOf [] ('\x7b' :: (blanks ++ ['\x7d']))
  | members (first : Part × Part) (further : List (Part × Part)) :
      IsObjectOf ((first :: further).map fun m => (m.1.core, m.2.core))
        ('\x7b' :: (memberChars first ++ furtherChars '\x7d' (further.map memberChars)))

/-- The form of a value, where at most so many arrays and objects stand inside each other. -/
inductive IsForm : Nat → List Char → Prop
  | null {d : Nat} : IsForm d ['n', 'u', 'l', 'l']
  | true {d : Nat} : IsForm d ['t', 'r', 'u', 'e']
  | false {d : Nat} : IsForm d ['f', 'a', 'l', 's', 'e']
  | number {d : Nat} {cs : List Char} {l : Literal} (h : l.IsText cs) : IsForm d cs
  | string {d : Nat} {body : List Char} (h : IsBody body) : IsForm d ('"' :: (body ++ ['"']))
  | array {d : Nat} {values : List (List Char)} {cs : List Char} (htext : IsArrayOf values cs)
      (h : ∀ value ∈ values, IsForm d value) : IsForm (d + 1) cs
  | object {d : Nat} {members : List (List Char × List Char)} {cs : List Char}
      (htext : IsObjectOf members cs)
      (hkeys : ∀ m ∈ members, ∃ body, m.1 = '"' :: (body ++ ['"']) ∧ IsBody body)
      (h : ∀ m ∈ members, IsForm d m.2) : IsForm (d + 1) cs

theorem Spells.isBody {cs text : List Char} (h : Spells cs text) : IsBody cs := by
  induction h with
  | nil => exact .nil
  | plain hquote hslash hcontrol _ ih => exact .plain hquote hslash hcontrol ih
  | short hescape _ ih => exact .short hescape ih
  | code hcode _ _ ih => exact .code hcode ih
  | pair hhigh _ hlow _ _ ih => exact .code hhigh (.code hlow ih)

theorem IsString.exists_isBody {cs : List Char} {text : String} (h : IsString cs text) :
    ∃ body, cs = '"' :: (body ++ ['"']) ∧ IsBody body := by
  obtain ⟨body, rfl, hspells⟩ := h.exists_body
  exact ⟨body, rfl, hspells.isBody⟩

/-- The text of a value has the form of one. -/
theorem IsValue.isForm {cs : List Char} {s : Source} (h : IsValue cs s) {d : Nat}
    (hd : s.depth ≤ d) : IsForm d cs := by
  induction h generalizing d with
  | null => exact .null
  | true => exact .true
  | false => exact .false
  | number h => exact .number h
  | string h =>
    obtain ⟨body, rfl, hbody⟩ := h.exists_isBody
    exact .string hbody
  | emptyArray hblanks =>
    obtain ⟨d, rfl⟩ := Nat.exists_eq_add_one_of_ne_zero (Nat.ne_zero_of_lt hd)
    exact .array (.empty hblanks) (by simp)
  | emptyObject hblanks =>
    obtain ⟨d, rfl⟩ := Nat.exists_eq_add_one_of_ne_zero (Nat.ne_zero_of_lt hd)
    exact .object (.empty hblanks) (by simp) (by simp)
  | @array first further _ ih =>
    obtain ⟨d, rfl, hitems⟩ := Source.exists_of_depth_array_le hd
    rw [List.forall_mem_map] at hitems
    let part (p : Padded Source) : Part := { p with content := () }
    have htext := IsArrayOf.items (part first) (further.map part)
    rw [List.map_map, ← List.map_cons, List.map_map] at htext
    refine .array htext ?_
    rw [List.forall_mem_map]
    exact fun p hp => ih p hp (hitems p hp)
  | @object first further hkeys _ ih =>
    obtain ⟨d, rfl, hmembers⟩ := Source.exists_of_depth_object_le hd
    rw [List.forall_mem_map] at hmembers
    let part (m : Member) : Part × Part := ({ m.key with content := () }, { m.value with content := () })
    have htext := IsObjectOf.members (part first) (further.map part)
    rw [List.map_map, ← List.map_cons, List.map_map] at htext
    refine .object htext ?_ ?_
    · rw [List.forall_mem_map]
      exact fun m hm => (hkeys m hm).exists_isBody
    · rw [List.forall_mem_map]
      exact fun m hm => ih m hm (hmembers m hm)

namespace Reader

variable {β : Type}

/-! ## Strings -/

theorem run?_pairMark (c : Char) (s : List UInt8) :
    run? (pairMark c) s =
      if s.head?.map Char.ofUInt8 = some c then some (PUnit.unit, s.tail) else none := by
  rw [pairMark, run?_bind, run?_peek, Option.bind_some]
  cases s.head?.map Char.ofUInt8 with
  | none => rfl
  | some d =>
    dsimp only
    rw [run?_ite, run?_advance, run?_throw]
    simp only [Option.some.injEq]

theorem run?_codeEscape_low {digits : List Char} {n : Nat} (h : IsCode digits n)
    (hn : 0xdc00 ≤ n ∧ n ≤ 0xdfff) (s : List UInt8) : run? codeEscape (octets digits ++ s) = none := by
  rw [codeEscape, run?_bind, run?_fourHex h, Option.bind_some]
  dsimp only
  rw [if_pos hn]
  rfl

/-- The first half of a pair wants a second escape by code behind it. -/
theorem run?_codeEscape_high {digits : List Char} {n : Nat} (h : IsCode digits n)
    (hn : 0xd800 ≤ n ∧ n ≤ 0xdbff) (s : List UInt8) :
    run? codeEscape (octets digits ++ s) =
      ((run? (pairMark '\\') s).bind fun p => run? (pairMark 'u') p.2).bind fun p =>
        (run? fourHex p.2).bind fun q =>
          if 0xdc00 ≤ q.1 ∧ q.1 ≤ 0xdfff then
            some (Char.ofNat (0x10000 + (n - 0xd800) * 0x400 + (q.1 - 0xdc00)), q.2)
          else none := by
  rw [codeEscape, run?_bind, run?_fourHex h, Option.bind_some]
  dsimp only
  rw [if_neg (by omega), if_pos hn, run?_bind, Option.bind_assoc]
  congr 1
  funext p
  rw [run?_bind]
  congr 1
  funext p
  rw [run?_bind]
  congr 1
  funext q
  rw [run?_ite]
  rfl

theorem run?_pairMark_plain {c : Char} {bs : List UInt8} (h : ∀ b ∈ bs.head?, Char.ofUInt8 b ≠ c) :
    run? (pairMark c) bs = none := by
  rw [run?_pairMark, if_neg]
  cases bs with
  | nil => exact fun h => by cases h
  | cons b bs => exact fun heq => h b rfl (Option.some.inj heq)

theorem ofUInt8_inj {b : UInt8} {c : Char} (h : Char.ofUInt8 b = c) : b.toNat = c.toNat := by
  rw [← h]
  change b.toNat = b.toUInt32.toNat
  rw [UInt8.toNat_toUInt32]

/-- Behind the first half of a pair stands the second half, or the string is refused. -/
theorem run?_codeEscape_unpaired {digits cs : List Char} {n : Nat} (hcode : IsCode digits n)
    (hn : 0xd800 ≤ n ∧ n ≤ 0xdbff) (h : IsBody cs) :
    (∃ low m rest, cs = '\\' :: 'u' :: (low ++ rest) ∧ IsCode low m ∧
      (0xdc00 ≤ m ∧ m ≤ 0xdfff) ∧ IsBody rest) ∨
    ∀ s, run? codeEscape (octets digits ++ (octets cs ++ (octets ['"'] ++ s))) = none := by
  have hslash (s : List UInt8) (hs : ∀ b ∈ s.head?, Char.ofUInt8 b ≠ '\\') :
      run? codeEscape (octets digits ++ s) = none := by
    rw [run?_codeEscape_high hcode hn, run?_pairMark_plain hs]
    rfl
  cases h with
  | nil =>
    refine .inr fun s => hslash _ ?_
    intro b hb
    cases hb
    decide
  | @plain c cs hquote hbackslash hcontrol h =>
    refine .inr fun s => hslash _ ?_
    have hplain := isPlain_octet hquote hbackslash hcontrol
    have hne : String.utf8EncodeChar c ≠ [] := String.utf8EncodeChar_ne_nil
    intro b hb
    rw [octets_cons, List.append_assoc, List.head?_append_of_ne_nil _ hne] at hb
    intro heq
    have hb := (hplain b (List.mem_of_mem_head? hb)).2.1
    exact hb (UInt8.toNat_inj.mp (ofUInt8_inj heq))
  | @short e c cs hescape h =>
    right
    intro s
    have he : e.toNat < 128 ∧ e ≠ 'u' := by
      simp only [shortEscapes, List.mem_cons, Prod.mk.injEq, List.not_mem_nil, or_false] at hescape
      rcases hescape with ⟨rfl, -⟩ | ⟨rfl, -⟩ | ⟨rfl, -⟩ | ⟨rfl, -⟩ | ⟨rfl, -⟩ | ⟨rfl, -⟩ |
        ⟨rfl, -⟩ | ⟨rfl, -⟩ <;> decide
    have hmark : run? (pairMark '\\') (octets ('\\' :: e :: cs) ++ (octets ['"'] ++ s)) =
        some (PUnit.unit, octets (e :: cs) ++ (octets ['"'] ++ s)) := rfl
    rw [run?_codeEscape_high hcode hn, hmark, Option.bind_some, run?_pairMark_plain]
    · rfl
    · rw [octets_cons_ascii he.1]
      rintro b ⟨rfl⟩
      rw [ofUInt8_of_ascii he.1]
      exact he.2
  | @code low cs m hlow h =>
    by_cases hm : 0xdc00 ≤ m ∧ m ≤ 0xdfff
    · exact .inl ⟨low, m, cs, rfl, hlow, hm, h⟩
    · right
      intro s
      have hmarks : ((run? (pairMark '\\')
          (octets ('\\' :: 'u' :: (low ++ cs)) ++ (octets ['"'] ++ s))).bind fun p =>
            run? (pairMark 'u') p.2) =
          some (PUnit.unit, octets (low ++ cs) ++ (octets ['"'] ++ s)) := rfl
      rw [run?_codeEscape_high hcode hn, hmarks, Option.bind_some]
      dsimp only
      rw [octets_append, List.append_assoc, run?_fourHex hlow, Option.bind_some]
      exact if_neg hm

/-- The reader does not get through the inside of a string. -/
def RefusesBody (body : List Char) : Prop :=
  ∀ n s, (octets body).length < n →
    run? (stringLoop n) (octets body ++ (octets ['"'] ++ s)) = none

theorem RefusesBody.plain {c : Char} {cs : List Char} (hquote : c ≠ '"') (hslash : c ≠ '\\')
    (hcontrol : 0x20 ≤ c.toNat) (h : RefusesBody cs) : RefusesBody (c :: cs) := by
  intro n s hn
  rw [octets_cons, List.length_append] at hn
  obtain ⟨k, rfl⟩ : ∃ k, n = k + (String.utf8EncodeChar c).length :=
    ⟨n - (String.utf8EncodeChar c).length, by omega⟩
  rw [octets_cons, List.append_assoc,
    run?_stringLoop_plain (isPlain_octet hquote hslash hcontrol), h k s (by omega)]
  rfl

/-- An escape that is read leaves what stands behind it. -/
theorem RefusesBody.escaped (piece : List Char) {cs : List Char} {c : Char}
    (hread : ∀ s, run? escape (octets (piece ++ cs) ++ s) = some (c, octets cs ++ s))
    (h : RefusesBody cs) : RefusesBody ('\\' :: (piece ++ cs)) := by
  intro n s hn
  rw [octets_cons, octets_append, List.length_append, List.length_append] at hn
  obtain ⟨n, rfl⟩ := Nat.exists_eq_add_one_of_ne_zero (Nat.ne_zero_of_lt hn)
  have hslash : (String.utf8EncodeChar '\\').length = 1 := rfl
  rw [run?_stringLoop_escape, hread, Option.bind_some, h n s (by omega)]
  rfl

theorem RefusesBody.coded (piece : List Char) {cs : List Char} {c : Char}
    (hread : ∀ s, run? codeEscape (octets piece ++ s) = some (c, s)) (h : RefusesBody cs) :
    RefusesBody ('\\' :: 'u' :: (piece ++ cs)) := by
  refine h.escaped ('u' :: piece) (c := c) fun s => ?_
  rw [List.cons_append, run?_escape_code, octets_append, List.append_assoc, hread]

/-- An escape that is not read ends the string. -/
theorem RefusesBody.of_codeEscape {digits cs : List Char}
    (hfail : ∀ s, run? codeEscape (octets digits ++ (octets cs ++ (octets ['"'] ++ s))) = none) :
    RefusesBody ('\\' :: 'u' :: (digits ++ cs)) := by
  intro n s hn
  obtain ⟨n, rfl⟩ := Nat.exists_eq_add_one_of_ne_zero (Nat.ne_zero_of_lt hn)
  rw [run?_stringLoop_escape, run?_escape_code, octets_append, List.append_assoc, hfail]
  rfl

/-- A string spells a text, or it is refused. -/
theorem spells_or_refused {body : List Char} (h : IsBody body) :
    (∃ text, Spells body text) ∨ RefusesBody body := by
  -- The halves of a pair are read at once, so that the induction is on the length.
  induction hlength : body.length using Nat.strongRecOn generalizing body with
  | ind length ih =>
    subst hlength
    cases h with
    | nil => exact .inl ⟨[], .nil⟩
    | @plain c cs hquote hbackslash hcontrol h =>
      rcases ih _ (Nat.lt_succ_self _) h rfl with ⟨text, htext⟩ | hrefused
      · exact .inl ⟨_, .plain hquote hbackslash hcontrol htext⟩
      · exact .inr (hrefused.plain hquote hbackslash hcontrol)
    | @short e c cs hescape h =>
      rcases ih _ (by simp only [List.length_cons]; omega) h rfl with ⟨text, htext⟩ | hrefused
      · exact .inl ⟨_, .short hescape htext⟩
      · exact .inr (hrefused.escaped [e] fun s => run?_escape_short hescape cs s)
    | @code digits cs i hcode h =>
      by_cases hsurrogate : 0xd800 ≤ i ∧ i ≤ 0xdfff
      · rcases Nat.lt_or_ge 0xdbff i with hlow | hhigh
        · exact .inr (.of_codeEscape fun s => run?_codeEscape_low hcode (by omega) _)
        · rcases run?_codeEscape_unpaired hcode ⟨hsurrogate.1, hhigh⟩ h with
            ⟨low, j, rest, rfl, hlow, hj, hrest⟩ | hfail
          · have hshorter : rest.length <
                ('\\' :: 'u' :: (digits ++ '\\' :: 'u' :: (low ++ rest))).length := by
              simp only [List.length_cons, List.length_append]
              omega
            rcases ih _ hshorter hrest rfl with ⟨text, htext⟩ | hrefused
            · exact .inl ⟨_, .pair hcode ⟨hsurrogate.1, hhigh⟩ hlow hj htext⟩
            · have hpair := hrefused.coded (digits ++ '\\' :: 'u' :: low)
                (run?_codeEscape_pair hcode ⟨hsurrogate.1, hhigh⟩ hlow hj)
              rw [List.append_assoc, List.cons_append, List.cons_append] at hpair
              exact .inr hpair
          · exact .inr (.of_codeEscape hfail)
      · have hshorter : cs.length < ('\\' :: 'u' :: (digits ++ cs)).length := by
          simp only [List.length_cons, List.length_append]
          omega
        rcases ih _ hshorter h rfl with ⟨text, htext⟩ | hrefused
        · exact .inl ⟨_, .code hcode hsurrogate htext⟩
        · exact .inr (hrefused.coded digits (run?_codeEscape hcode hsurrogate))

theorem spells_or_run?_string {body : List Char} (h : IsBody body) :
    (∃ text : String, Spells body text.toList) ∨
      ∀ s, run? string (octets (body ++ ['"']) ++ s) = none := by
  rcases spells_or_refused h with ⟨text, htext⟩ | hrefused
  · exact .inl ⟨String.ofList text, by rwa [String.toList_ofList]⟩
  · right
    intro s
    have hn : (octets body).length < (octets body ++ (octets ['"'] ++ s)).length + 1 := by
      rw [List.length_append]
      omega
    rw [string, run?_bind, run?_bounded, octets_append, List.append_assoc, hrefused _ s hn]
    rfl

/-! ## Values -/

/-- The reader makes nothing of the text, whatever stands around it. -/
def Refuses (r : Reader β) (cs : List Char) : Prop := ReadsPart r cs none

/-- A text that starts like a string, an array or an object, and that no reader of such gets through. -/
structure IsUnreadable (d : Nat) (cs : List Char) : Prop where
  starts : ∃ c rest, cs = c :: rest ∧ (c = '"' ∨ c = '[' ∨ c = '\x7b')
  text : Refuses text cs
  numbers : Refuses (list double) cs
  rows : Refuses (list (list double)) cs
  value : ∀ d', d ≤ d' → Refuses (value d') cs
  values : ∀ d', d ≤ d' + 1 → Refuses (list (Reader.value d')) cs

theorem isMark_of_opening {c : Char} (h : c = '"' ∨ c = '[' ∨ c = '\x7b') : IsMark c ∧ c ≠ ']' := by
  rcases h with rfl | rfl | rfl <;> decide

theorem refuses_dispatch {branch : Char → Reader β} {c : Char} {cs : List Char} (hc : IsMark c)
    (h : Reads (branch c) (c :: cs) none) : Refuses (dispatch branch) (c :: cs) := by
  intro blanks hblanks rest hrest
  rw [run?_dispatch cs rest hblanks hc]
  exact h rest hrest

/-- A value of another form than the wanted one is not looked into. -/
theorem refuses_mismatch {p : Char → Prop} [DecidablePred p] {c : Char} (hc : IsMark c)
    (h : ¬ p c) (cs : List Char) (r : Reader β) (wanted : Wanted) :
    Refuses (dispatch fun c => if p c then r else mismatch wanted c) (c :: cs) := by
  apply refuses_dispatch hc
  intro rest _
  rw [if_neg h]
  exact run?_mismatch wanted c _

theorem IsUnreadable.double {d : Nat} {cs : List Char} (h : IsUnreadable d cs) :
    Refuses double cs := by
  obtain ⟨c, rest, rfl, hc⟩ := h.starts
  refine refuses_mismatch (isMark_of_opening hc).1 ?_ rest _ .number
  rcases hc with rfl | rfl | rfl <;> decide

theorem isUnreadable_string (d : Nat) {body : List Char}
    (h : ∀ s, run? string (octets (body ++ ['"']) ++ s) = none) :
    IsUnreadable d ('"' :: (body ++ ['"'])) := by
  have hstring {γ : Type} (f : String → γ) : Reads (f <$> string) (body ++ ['"']) none := by
    intro rest _
    rw [run?_map, h]
    rfl
  exact {
    starts := ⟨'"', _, rfl, .inl rfl⟩
    text := refuses_dispatch (by decide) (Reads.behind (fun rest _ => h rest) (by decide))
    numbers := refuses_mismatch (by decide) (by decide) _ _ .sequence
    rows := refuses_mismatch (by decide) (by decide) _ _ .sequence
    value := by
      intro d' _
      unfold Reader.value
      exact refuses_dispatch (by decide) (Reads.behind (hstring Json.string) (by decide))
    values := fun _ _ => refuses_mismatch (by decide) (by decide) _ _ .sequence }

/-- A part that stands for a value. -/
def IsLegible (d : Nat) (cs : List Char) : Prop := ∃ s, IsValue cs s ∧ s.depth ≤ d

theorem mapM_eq_none {α : Type} {f : α → Option β} {x : α} {xs : List α} (hmem : x ∈ xs)
    (hx : f x = none) : xs.mapM f = none := by
  induction xs with
  | nil => cases hmem
  | cons y xs ih =>
    rw [List.mapM_cons]
    rcases List.mem_cons.mp hmem with rfl | hmem
    · rw [hx]
      rfl
    · rw [ih hmem]
      cases f y <;> rfl

theorem foldlM_eq_none {α σ : Type} {step : σ → α → Option σ} {x : α} {xs : List α}
    (hmem : x ∈ xs) (hx : ∀ state, step state x = none) (state : σ) :
    xs.foldlM step state = none := by
  induction xs generalizing state with
  | nil => cases hmem
  | cons y xs ih =>
    rw [List.foldlM_cons]
    rcases List.mem_cons.mp hmem with rfl | hmem
    · rw [hx]
      rfl
    · cases step state y with
      | none => rfl
      | some state => exact ih hmem state

open Classical in
/-- What a part stands for, if it stands for anything. -/
noncomputable def meaning? (d : Nat) (cs : List Char) : Option Source :=
  if h : IsLegible d cs then some h.choose else none

theorem isValue_of_meaning? {d : Nat} {cs : List Char} {s : Source}
    (h : meaning? d cs = some s) : IsValue cs s ∧ s.depth ≤ d := by
  unfold meaning? at h
  split_ifs at h with hlegible
  cases h
  exact hlegible.choose_spec

theorem meaning?_eq_none {d : Nat} {cs : List Char} (h : ¬ IsLegible d cs) :
    meaning? d cs = none := dif_neg h

/-- A reader of items gets through an array up to the first part that stands for nothing. -/
theorem reads_items_none {d : Nat} {r : Reader β} {f : Source → Option β}
    (hlegible : ∀ s, s.depth ≤ d → ReadsValue r s (f s))
    (hunreadable : ∀ cs, IsUnreadable d cs → Refuses r cs) {values : List (List Char)}
    (hvalues : ∀ value ∈ values, IsLegible d value ∨ IsUnreadable d value)
    (hillegible : ∃ value ∈ values, ¬ IsLegible d value) {cs : List Char}
    (htext : IsArrayOf values cs) :
    ∃ rest, cs = '[' :: rest ∧ Reads (items commaErrors r) rest none := by
  cases htext with
  | empty h =>
    obtain ⟨value, hmem, -⟩ := hillegible
    cases hmem
  | items first further =>
    refine ⟨_, rfl, ?_⟩
    let known (p : Part) : Padded (Option Source) := { p with content := meaning? d p.core }
    have hparts : ∀ p ∈ (first :: further).map known, ReadsItem r (fun o => o.bind f) p := by
      intro p hp
      obtain ⟨p, hmem, rfl⟩ := List.mem_map.mp hp
      rcases hcontent : meaning? d p.core with _ | s
      · have hunread : IsUnreadable d p.core := by
          refine (hvalues p.core (List.mem_map_of_mem hmem)).resolve_left fun h => ?_
          rw [meaning?, dif_pos h] at hcontent
          cases hcontent
        obtain ⟨c, rest, hcore, hc⟩ := hunread.starts
        refine ⟨⟨c, rest, hcore, isMark_of_opening hc⟩, ?_⟩
        change Reads r p.core ((meaning? d p.core).bind f)
        rw [hcontent]
        exact hunreadable p.core hunread [] isBlanks_nil
      · obtain ⟨hvalue, hdepth⟩ := isValue_of_meaning? hcontent
        obtain ⟨c, rest, hcore, hc⟩ := hvalue.starts
        refine ⟨⟨c, rest, hcore, Source.mark_of_mem_starts hc⟩, ?_⟩
        change Reads r p.core ((meaning? d p.core).bind f)
        rw [hcontent]
        exact (hlegible s hdepth).reads hvalue
    obtain ⟨value, hmem, hillegible⟩ := hillegible
    obtain ⟨p, hp, rfl⟩ := List.mem_map.mp hmem
    have hnone : (((first :: further).map known).map Padded.content).mapM (fun o => o.bind f) =
        none := by
      refine mapM_eq_none (x := none) ?_ rfl
      rw [List.map_map, List.mem_map]
      exact ⟨p, hp, meaning?_eq_none hillegible⟩
    have hchars : (further.map known).map Padded.chars = further.map Padded.chars := by
      rw [List.map_map]
      rfl
    intro rest _
    have hitems : run? (items commaErrors r) _ = _ := run?_items hparts rest
    rw [← List.map_cons, hnone, hchars] at hitems
    exact hitems

/-- A reader of lists of what cannot be read. -/
theorem refuses_list {d : Nat} {r : Reader β} {f : Source → Option β}
    (hlegible : ∀ s, s.depth ≤ d → ReadsValue r s (f s))
    (hunreadable : ∀ cs, IsUnreadable d cs → Refuses r cs) {values : List (List Char)}
    (hvalues : ∀ value ∈ values, IsLegible d value ∨ IsUnreadable d value)
    (hillegible : ∃ value ∈ values, ¬ IsLegible d value) {cs : List Char}
    (htext : IsArrayOf values cs) : Refuses (list r) cs := by
  obtain ⟨rest, rfl, hitems⟩ := reads_items_none hlegible hunreadable hvalues hillegible htext
  apply refuses_dispatch (by decide)
  rw [if_pos rfl]
  exact hitems.behind (by decide)

theorem isUnreadable_array {d : Nat} {values : List (List Char)}
    (hvalues : ∀ value ∈ values, IsLegible d value ∨ IsUnreadable d value)
    (hillegible : ∃ value ∈ values, ¬ IsLegible d value) {cs : List Char}
    (htext : IsArrayOf values cs) : IsUnreadable (d + 1) cs := by
  have hdouble (s : Source) (_ : s.depth ≤ d) : ReadsValue Reader.double s s.float? :=
    readsValue_double s
  have hdoubles (s : Source) (_ : s.depth ≤ d) :
      ReadsValue (list Reader.double) s (s.list? Source.float?) :=
    readsValue_list fun _ _ x _ => readsValue_double x
  have hvalue (d' : Nat) (hd : d ≤ d') (s : Source) (hs : s.depth ≤ d) :
      ReadsValue (Reader.value d') s s.json? := readsValue_value d' (hs.trans hd)
  have hstart : ∃ rest, cs = '[' :: rest := by
    obtain ⟨rest, rfl, -⟩ :=
      reads_items_none hdouble (fun _ h => h.double) hvalues hillegible htext
    exact ⟨rest, rfl⟩
  obtain ⟨rest, rfl⟩ := hstart
  exact {
    starts := ⟨'[', rest, rfl, .inr (.inl rfl)⟩
    text := refuses_mismatch (by decide) (by decide) _ _ .string
    numbers := refuses_list hdouble (fun _ h => h.double) hvalues hillegible htext
    rows := refuses_list hdoubles (fun _ h => h.numbers) hvalues hillegible htext
    value := by
      intro d' hd
      obtain ⟨d', rfl⟩ := Nat.exists_eq_add_one_of_ne_zero (Nat.ne_zero_of_lt hd)
      have hd := Nat.le_of_succ_le_succ hd
      obtain ⟨_, heq, hitems⟩ :=
        reads_items_none (hvalue d' hd) (fun _ h => h.value d' hd) hvalues hillegible htext
      cases heq
      unfold Reader.value
      exact refuses_dispatch (by decide) ((hitems.map Json.array).behind (by decide))
    values := by
      intro d' hd
      have hd := Nat.le_of_succ_le_succ hd
      exact refuses_list (hvalue d' hd) (fun _ h => h.value d' hd) hvalues hillegible htext }

/-! ## Objects -/

open Classical in
/-- The text that a key spells, if it spells any. -/
noncomputable def spelling? (cs : List Char) : Option String :=
  if h : ∃ text, IsString cs text then some h.choose else none

theorem isString_of_spelling? {cs : List Char} {text : String} (h : spelling? cs = some text) :
    IsString cs text := by
  unfold spelling? at h
  split_ifs at h with hspelled
  cases h
  exact hspelled.choose_spec

theorem spelling?_eq_none {cs : List Char} (h : ¬ ∃ text, IsString cs text) :
    spelling? cs = none := dif_neg h

/-- The form of a key. -/
def IsKey (cs : List Char) : Prop := ∃ body, cs = '"' :: (body ++ ['"']) ∧ IsBody body

/-- A key and a value are legible both. -/
def IsLegibleMember (d : Nat) (m : List Char × List Char) : Prop :=
  (∃ text, IsString m.1 text) ∧ IsLegible d m.2

/-- What a member stands for, if it stands for anything. -/
noncomputable def memberMeaning? (d : Nat) (m : List Char × List Char) : Option (String × Source) :=
  (spelling? m.1).bind fun key => (meaning? d m.2).map fun s => (key, s)

theorem memberMeaning?_eq_none {d : Nat} {m : List Char × List Char}
    (h : ¬ IsLegibleMember d m) : memberMeaning? d m = none := by
  unfold memberMeaning?
  by_cases hkey : ∃ text, IsString m.1 text
  · rw [meaning?_eq_none fun hvalue => h ⟨hkey, hvalue⟩]
    cases spelling? m.1 <;> rfl
  · rw [spelling?_eq_none hkey]
    rfl

/-- A key and a value are read together. -/
def joined {α : Type} (m : Part × Part) (content : α) : Padded α where
  before := m.1.before
  core := m.1.core ++ (m.1.after ++ ':' :: (m.2.before ++ m.2.core))
  after := m.2.after
  content := content
  before_blank := m.1.before_blank
  after_blank := m.2.after_blank

theorem chars_joined {α : Type} (m : Part × Part) (content : α) :
    (joined m content).chars = memberChars m := by
  simp [joined, Padded.chars, memberChars]

noncomputable def memberPart (d : Nat) (m : Part × Part) : Padded (Option (String × Source)) :=
  joined m (memberMeaning? d (m.1.core, m.2.core))

/-- The member of an object that is read as any value. -/
def valueMember (d : Nat) (old : List (String × Json)) (key : String) :
    Reader (List (String × Json)) := do
  colon
  let v ← Reader.value d
  return insertMember key v old

def memberStep (old : List (String × Json)) (m : Option (String × Source)) :
    Option (List (String × Json)) :=
  m.bind fun m => m.2.json?.map fun v => insertMember m.1 v old

theorem reads_valueMember {d : Nat} (old : List (String × Json)) (key : String) {m : Part × Part}
    {result : Option Json} (h : ∀ blanks, IsBlanks blanks →
      Reads (Reader.value d) (blanks ++ m.2.core) result) :
    Reads (valueMember d old key) (m.1.after ++ ':' :: (m.2.before ++ m.2.core))
      (result.map fun v => insertMember key v old) := by
  intro rest hrest
  rw [valueMember, run?_bind, run?_colon _ rest m.1.after_blank, Option.bind_some]
  exact ((h _ m.2.before_blank).map fun v => insertMember key v old) rest hrest

theorem readsMember_memberPart {d d' : Nat} (hd : d ≤ d') {m : Part × Part} (hkey : IsKey m.1.core)
    (hvalue : IsLegible d m.2.core ∨ IsUnreadable d m.2.core) :
    ReadsMember string (valueMember d') memberStep (memberPart d m) := by
  obtain ⟨body, hcore, hbody⟩ := hkey
  refine ⟨body ++ ['"'] ++ (m.1.after ++ ':' :: (m.2.before ++ m.2.core)), ?_, ?_⟩
  · simp [memberPart, joined, hcore]
  intro old rest hrest
  rw [octets_append, List.append_assoc, run?_bind]
  change _ = (memberStep old (memberMeaning? d (m.1.core, m.2.core))).map fun x => (x, rest)
  unfold memberMeaning?
  rcases hspelling : spelling? m.1.core with _ | key
  · have hunspelled : ¬ ∃ text : String, Spells body text.toList := by
      rintro ⟨text, htext⟩
      have hstring : ∃ text, IsString m.1.core text := ⟨text, by rw [hcore]; exact .quoted htext⟩
      rw [spelling?, dif_pos hstring] at hspelling
      cases hspelling
    rw [(spells_or_run?_string hbody).resolve_left hunspelled]
    rfl
  · have hstring := isString_of_spelling? hspelling
    obtain ⟨body', heq, hspells⟩ := hstring.exists_body
    rw [hcore] at heq
    obtain rfl : body = body' := List.append_cancel_right (List.cons_inj_right _ |>.mp heq)
    rw [run?_string hspells, Option.bind_some]
    dsimp only
    rcases hmeaning : meaning? d m.2.core with _ | s
    · have hunread : IsUnreadable d m.2.core := by
        refine hvalue.resolve_left fun h => ?_
        rw [meaning?, dif_pos h] at hmeaning
        cases hmeaning
      exact reads_valueMember old key (hunread.value d' hd) rest hrest
    · obtain ⟨hvalue, hdepth⟩ := isValue_of_meaning? hmeaning
      exact reads_valueMember old key
        (fun blanks hblanks => readsValue_value d' (hdepth.trans hd) _ hvalue blanks hblanks) rest
        hrest

theorem isUnreadable_object {d : Nat} {members : List (List Char × List Char)}
    (hkeys : ∀ m ∈ members, IsKey m.1)
    (hvalues : ∀ m ∈ members, IsLegible d m.2 ∨ IsUnreadable d m.2)
    (hillegible : ∃ m ∈ members, ¬ IsLegibleMember d m) {cs : List Char}
    (htext : IsObjectOf members cs) : IsUnreadable (d + 1) cs := by
  cases htext with
  | empty h =>
    obtain ⟨m, hmem, -⟩ := hillegible
    cases hmem
  | members first further =>
    rw [List.forall_mem_map] at hkeys hvalues
    obtain ⟨m, hmem, hillegible⟩ := hillegible
    obtain ⟨m, hm, rfl⟩ := List.mem_map.mp hmem
    exact {
      starts := ⟨_, _, rfl, .inr (.inr rfl)⟩
      text := refuses_mismatch (by decide) (by decide) _ _ .string
      numbers := refuses_mismatch (by decide) (by decide) _ _ .sequence
      rows := refuses_mismatch (by decide) (by decide) _ _ .sequence
      values := fun _ _ => refuses_mismatch (by decide) (by decide) _ _ .sequence
      value := by
        intro d' hd
        obtain ⟨d', rfl⟩ := Nat.exists_eq_add_one_of_ne_zero (Nat.ne_zero_of_lt hd)
        have hd := Nat.le_of_succ_le_succ hd
        have hparts : ∀ p ∈ (first :: further).map (memberPart d),
            ReadsMember string (valueMember d') memberStep p := by
          rw [List.forall_mem_map]
          exact fun m hm => readsMember_memberPart hd (hkeys m hm) (hvalues m hm)
        have hnone : (((first :: further).map (memberPart d)).map Padded.content).foldlM memberStep
            [] = none := by
          refine foldlM_eq_none (x := none) ?_ (fun _ => rfl) []
          rw [List.map_map, List.mem_map]
          exact ⟨m, hm, memberMeaning?_eq_none hillegible⟩
        have hchars : (further.map (memberPart d)).map Padded.chars = further.map memberChars := by
          rw [List.map_map]
          exact List.map_congr_left fun m _ => chars_joined m _
        have hmembers : Reads (members commaErrors string (valueMember d') [])
            (memberChars first ++ furtherChars '\x7d' (further.map memberChars)) none := by
          intro rest _
          have hread : run? (members commaErrors string (valueMember d') []) _ = _ :=
            run?_members hparts [] rest
          rw [← List.map_cons, hnone, hchars, memberPart, chars_joined] at hread
          exact hread
        unfold Reader.value
        exact refuses_dispatch (by decide) ((hmembers.map Json.object).behind (by decide)) }

/-! ## Forms and values -/

theorem isValue_of_isArrayOf {d : Nat} {values : List (List Char)}
    (h : ∀ value ∈ values, IsLegible d value) {cs : List Char} (htext : IsArrayOf values cs) :
    IsLegible (d + 1) cs := by
  cases htext with
  | empty hblanks =>
    exact ⟨.array [], .emptyArray hblanks, by simp [Source.depth, Source.depthItems]⟩
  | items first further =>
    rw [List.forall_mem_map] at h
    have : Nonempty Source := ⟨.null⟩
    choose! meaning hmeaning using h
    let known (p : Part) : Padded Source := { p with content := meaning p }
    have hparts : ∀ p ∈ known first :: further.map known, IsValue p.core p.content := by
      rw [← List.map_cons, List.forall_mem_map]
      exact fun p hp => (hmeaning p hp).1
    have hchars : (further.map known).map Padded.chars = further.map Padded.chars := by
      rw [List.map_map]
      rfl
    have hvalue := IsValue.array hparts
    rw [hchars] at hvalue
    refine ⟨_, hvalue, Nat.succ_le_succ ?_⟩
    rw [Source.depthItems_le_iff, ← List.map_cons, List.map_map, List.forall_mem_map]
    exact fun p hp => (hmeaning p hp).2

theorem isValue_of_isObjectOf {d : Nat} {members : List (List Char × List Char)}
    (h : ∀ m ∈ members, IsLegibleMember d m) {cs : List Char} (htext : IsObjectOf members cs) :
    IsLegible (d + 1) cs := by
  cases htext with
  | empty hblanks =>
    exact ⟨.object [], .emptyObject hblanks, by simp [Source.depth, Source.depthMembers]⟩
  | members first further =>
    rw [List.forall_mem_map] at h
    have : Nonempty Source := ⟨.null⟩
    have hkey : ∀ m ∈ first :: further, ∃ text, IsString m.1.core text := fun m hm => (h m hm).1
    have hvalue : ∀ m ∈ first :: further, IsLegible d m.2.core := fun m hm => (h m hm).2
    choose! key hkey using hkey
    choose! meaning hmeaning using hvalue
    let known (m : Part × Part) : Member :=
      ⟨{ m.1 with content := key m }, { m.2 with content := meaning m }⟩
    have hkeys : ∀ m ∈ known first :: further.map known, IsString m.key.core m.key.content := by
      rw [← List.map_cons, List.forall_mem_map]
      exact fun m hm => hkey m hm
    have hvalues : ∀ m ∈ known first :: further.map known, IsValue m.value.core m.value.content := by
      rw [← List.map_cons, List.forall_mem_map]
      exact fun m hm => (hmeaning m hm).1
    have hchars : (further.map known).map Member.chars = further.map memberChars := by
      rw [List.map_map]
      rfl
    have hobject := IsValue.object hkeys hvalues
    rw [hchars] at hobject
    refine ⟨_, hobject, Nat.succ_le_succ ?_⟩
    rw [Source.depthMembers_le_iff, ← List.map_cons, List.map_map, List.forall_mem_map]
    exact fun m hm => (hmeaning m hm).2

/-- A text of the form of a value is the text of a value, or no reader gets through it. -/
theorem isLegible_or_isUnreadable {d : Nat} {cs : List Char} (h : IsForm d cs) :
    IsLegible d cs ∨ IsUnreadable d cs := by
  induction h with
  | null => exact .inl ⟨_, .null, Nat.zero_le _⟩
  | true => exact .inl ⟨_, .true, Nat.zero_le _⟩
  | false => exact .inl ⟨_, .false, Nat.zero_le _⟩
  | number h => exact .inl ⟨_, .number h, Nat.zero_le _⟩
  | @string d body h =>
    rcases spells_or_run?_string h with ⟨text, htext⟩ | hrefused
    · exact .inl ⟨_, .string (.quoted htext), Nat.zero_le _⟩
    · exact .inr (isUnreadable_string d hrefused)
  | @array d values cs htext _ ih =>
    by_cases hlegible : ∀ value ∈ values, IsLegible d value
    · exact .inl (isValue_of_isArrayOf hlegible htext)
    · push Not at hlegible
      exact .inr (isUnreadable_array ih hlegible htext)
  | @object d members cs htext hkeys _ ih =>
    by_cases hlegible : ∀ m ∈ members, IsLegibleMember d m
    · exact .inl (isValue_of_isObjectOf hlegible htext)
    · push Not at hlegible
      exact .inr (isUnreadable_object hkeys ih hlegible htext)

end Reader
end Json
end ScoreTree
