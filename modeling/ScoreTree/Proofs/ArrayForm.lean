import ScoreTree.Proofs.Json.HalfPairs
import ScoreTree.Proofs.ObjectForm

/-!
# The array form of a model

The fields of a model in order, without their keys. Each item of the array is read as the value of
the key at its position, and a missing item as a missing member, so that an array and the object of
its items give the same model (`ofText_array`). No item is left over.
-/

namespace ScoreTree
namespace FittedModel

open Json (IsArrayOf IsBlanks IsForm IsMark IsObjectOf IsString Padded Part Reader Source furtherChars
  memberChars octets)
open Json.Reader (IsUnreadable Reads ReadsItem ReadsMember ReadsPart joined maxDepth run?)

/-! ## Values of fields -/

namespace Draft

theorem refuses_nullable {β : Type} {r : Reader β} {c : Char} {cs : List Char} (hc : IsMark c)
    (hnull : c ≠ 'n') (h : ReadsPart r (c :: cs) none) :
    ReadsPart (Reader.nullable r) (c :: cs) none := by
  intro blanks hblanks rest hrest
  have hread := h [] Json.isBlanks_nil rest hrest
  rw [List.nil_append] at hread
  rw [Reader.nullable, Reader.run?_bind, Reader.run?_token_blanks cs rest hblanks hc,
    Option.bind_some]
  dsimp only
  rw [if_neg fun heq => hnull (Option.some.inj heq), Reader.run?_map, hread]
  rfl

/-- A text that stands for nothing is refused like an object. -/
theorem readAs_of_isUnreadable {d : Nat} (hd : d < maxDepth) {cs : List Char}
    (h : IsUnreadable d cs) : ReadAs cs (.object []) := by
  obtain ⟨c, rest, rfl, hc⟩ := h.starts
  have hnull : c ≠ 'n' := by rcases hc with rfl | rfl | rfl <;> decide
  exact {
    rows := h.rows
    numbers := h.numbers
    labels :=
      refuses_nullable (Reader.isMark_of_opening hc).1 hnull (h.values _ (Nat.le_of_lt_succ hd))
    text := h.text }

/-- A part of the text of a model that the readers of the fields take for a value. -/
structure IsPart (cs : List Char) (s : Source) : Prop where
  starts : ∃ c rest, cs = c :: rest ∧ IsMark c ∧ c ≠ ']'
  reads : ReadAs cs s

theorem exists_isPart {d : Nat} (hd : d < maxDepth) {cs : List Char} (h : IsForm d cs) :
    ∃ s, IsPart cs s := by
  rcases Reader.isLegible_or_isUnreadable h with ⟨s, hvalue, hdepth⟩ | hunreadable
  · obtain ⟨c, rest, hcs, hc⟩ := hvalue.starts
    exact ⟨s, ⟨c, rest, hcs, Source.mark_of_mem_starts hc⟩,
      readAs_of_isValue (hdepth.trans_lt hd) hvalue⟩
  · obtain ⟨c, rest, hcs, hc⟩ := hunreadable.starts
    exact ⟨_, ⟨c, rest, hcs, Reader.isMark_of_opening hc⟩, readAs_of_isUnreadable hd hunreadable⟩

/-! ## Items -/

variable {β : Type}

/-- What is left of the text of an array, behind its opening bracket, when so many of its items have
been read: a comma and the next item, or the end, which stays where it is. -/
inductive Left (items : List (Padded Source)) (s : List UInt8) : Nat → List UInt8 → Prop
  | start {first : Padded Source} {further : List (Padded Source)} (h : items = first :: further) :
      Left items s 0 (octets (first.chars ++ furtherChars ']' (further.map Padded.chars)) ++ s)
  | empty {blanks : List Char} (hblanks : IsBlanks blanks) (h : items = []) :
      Left items s 0 (octets (blanks ++ [']']) ++ s)
  | behind {i : Nat} {blanks : List Char} (hblanks : IsBlanks blanks) :
      Left items s (i + 1)
        (octets (blanks ++ furtherChars ']' ((items.drop (i + 1)).map Padded.chars)) ++ s)

theorem run?_item?_close {blanks : List Char} (hblanks : IsBlanks blanks) (isFirst : Bool)
    (r : Reader β) (s : List UInt8) :
    run? (item? isFirst r) (octets (blanks ++ [']']) ++ s) = some (none, octets [']'] ++ s) := by
  rw [item?, Reader.run?_bind, Reader.run?_moreItems_close hblanks]
  rfl

theorem run?_item?_more {r : Reader β} {f : Source → Option β} {p : Padded Source}
    (h : Reads r p.core (f p.content)) {isFirst : Bool} {more : List (List Char)}
    {s t : List UInt8}
    (hmore : run? (Reader.moreItems Reader.commaErrors isFirst) t =
      some (true, octets (p.core ++ (p.after ++ furtherChars ']' more)) ++ s)) :
    run? (item? isFirst r) t = (settle f none [p.content]).map fun o =>
      (o, octets (p.after ++ furtherChars ']' more) ++ s) := by
  have hitem := h _ (Reader.endsNumber_further p.after_blank (.inl rfl) more s)
  rw [← List.append_assoc, ← Json.octets_append] at hitem
  rw [item?, Reader.run?_bind, hmore, Option.bind_some, settle_singleton]
  dsimp only
  rw [if_pos rfl, Reader.run?_map, hitem]
  cases f p.content <;> rfl

/-- The item at a position is read like the value of a key, and a missing one like a missing member. -/
theorem Left.run?_item? {items : List (Padded Source)} {s : List UInt8} {i : Nat} {t : List UInt8}
    (ht : Left items s i t) {r : Reader β} {f : Source → Option β}
    (h : ∀ p ∈ items, ReadsItem r f p) :
    ∃ t', Left items s (i + 1) t' ∧
      run? (item? (i == 0) r) t =
        (settle f none (items[i]?.map Padded.content).toList).map fun o => (o, t') := by
  cases ht with
  | @start first further hitems =>
    subst hitems
    have hfirst := h first List.mem_cons_self
    exact ⟨_, .behind first.after_blank,
      run?_item?_more hfirst.reads (hfirst.run?_moreItems_first _ s)⟩
  | empty hblanks hitems =>
    subst hitems
    exact ⟨_, .behind Json.isBlanks_nil, run?_item?_close hblanks _ r s⟩
  | @behind i blanks hblanks =>
    rcases hnext : items[i + 1]? with _ | p
    · have hdrop : items.drop (i + 1) = [] :=
        List.drop_eq_nil_of_le (List.getElem?_eq_none_iff.mp hnext)
      have hdrop' : items.drop (i + 1 + 1) = [] := by
        rw [← List.drop_drop, hdrop, List.drop_nil]
      refine ⟨_, .behind Json.isBlanks_nil, ?_⟩
      rw [hdrop, hdrop']
      exact run?_item?_close hblanks _ r s
    · obtain ⟨hlt, hp⟩ := List.getElem?_eq_some_iff.mp hnext
      have hread := h p (hp ▸ List.getElem_mem hlt)
      refine ⟨_, .behind p.after_blank, ?_⟩
      rw [List.drop_eq_getElem_cons hlt, hp, List.map_cons, furtherChars]
      exact run?_item?_more hread.reads (hread.run?_moreItems_next hblanks _ s)

/-- The array ends where no item is left. -/
theorem Left.run?_closeList {items : List (Padded Source)} {s : List UInt8} {i : Nat}
    {t : List UInt8} (ht : Left items s (i + 1) t)
    (h : ∀ p ∈ items, ∃ c rest, p.core = c :: rest ∧ IsMark c ∧ c ≠ ']') :
    run? closeList t = if items.length ≤ i + 1 then some ((), s) else none := by
  cases ht with
  | @behind _ blanks hblanks =>
    by_cases hlength : items.length ≤ i + 1
    · rw [if_pos hlength, List.drop_eq_nil_of_le hlength, List.map_nil, furtherChars, closeList,
        Reader.run?_bind, Reader.run?_token_blanks [] s hblanks (by decide)]
      rfl
    · have hlt := Nat.lt_of_not_le hlength
      obtain ⟨c, rest, hcore, hc, hne⟩ := h items[i + 1] (List.getElem_mem hlt)
      rw [if_neg hlength, List.drop_eq_getElem_cons hlt, List.map_cons, furtherChars, closeList,
        Reader.run?_bind, Reader.run?_token_blanks _ s hblanks (by decide), Option.bind_some]
      refine (Reader.run?_bind Reader.advance _ _).trans ?_
      rw [Reader.run?_advance_ascii _ s (by decide), Option.bind_some, Reader.run?_bind]
      simp only [Padded.chars, List.append_assoc, hcore, List.cons_append]
      rw [Reader.run?_token_blanks _ s (items[i + 1]).before_blank hc, Option.bind_some,
        Reader.run?_ite]
      exact ite_self _

/-! ## The model of an array -/

theorem occurrences_eq_nil {key : String} {keys : List String} (h : key ∉ keys)
    (values : List Source) : occurrences key (keys.zip values) = [] := by
  rw [occurrences, List.map_eq_nil_iff, List.filter_eq_nil_iff]
  rintro ⟨other, v⟩ hmem
  have hother := (List.of_mem_zip hmem).1
  simp only [decide_eq_true_eq]
  rintro rfl
  exact h hother

/-- The value at the position of a key. -/
theorem occurrences_zip {keys : List String} (hkeys : keys.Nodup) (values : List Source) {i : Nat}
    (hi : i < keys.length) : occurrences keys[i] (keys.zip values) = values[i]?.toList := by
  induction keys generalizing values i with
  | nil => cases hi
  | cons key keys ih =>
    obtain ⟨hkey, hkeys⟩ := List.nodup_cons.mp hkeys
    cases values with
    | nil => rfl
    | cons v values =>
      rw [List.zip_cons_cons, occurrences_cons]
      cases i with
      | zero =>
        rw [List.getElem_cons_zero, if_pos rfl, occurrences_eq_nil hkey]
        rfl
      | succ i =>
        have hi := Nat.lt_of_succ_lt_succ hi
        have hne : key ≠ keys[i] := fun heq => hkey (heq ▸ List.getElem_mem hi)
        rw [List.getElem_cons_succ, if_neg hne, ih hkeys values hi, List.getElem?_cons_succ]

theorem occurrences_fieldKeys_zip (values : List Source) :
    occurrences "coef" (fieldKeys.zip values) = values[0]?.toList ∧
    occurrences "intercept" (fieldKeys.zip values) = values[1]?.toList ∧
    occurrences "classes" (fieldKeys.zip values) = values[2]?.toList ∧
    occurrences "multi_class" (fieldKeys.zip values) = values[3]?.toList ∧
    occurrences "solver" (fieldKeys.zip values) = values[4]?.toList := by
  have hkeys : fieldKeys.Nodup := by decide
  have hat {i : Nat} (hi : i < fieldKeys.length) := occurrences_zip hkeys values hi
  exact ⟨hat (by decide : 0 < _), hat (by decide : 1 < _), hat (by decide : 2 < _),
    hat (by decide : 3 < _), hat (by decide : 4 < _)⟩

/-- What has been read of the values of the keys in order. -/
theorem extend_zip (values : List Source) :
    extend {} (fieldKeys.zip values) = (do
      let coef ← settle rows? none values[0]?.toList
      let intercept ← settle numbers? none values[1]?.toList
      let classes ← settle labels? none values[2]?.toList
      let strategyName ← settle Source.text? none values[3]?.toList
      let solver ← settle Source.text? none values[4]?.toList
      return { coef, intercept, classes, strategyName, solver }) := by
  obtain ⟨hcoef, hintercept, hclasses, hname, hsolver⟩ := occurrences_fieldKeys_zip values
  rw [extend, hcoef, hintercept, hclasses, hname, hsolver]

theorem IsPart.item {β : Type} {r : Reader β} {f : Source → Option β} {p : Padded Source}
    (h : IsPart p.core p.content) (hread : ReadsPart r p.core (f p.content)) : ReadsItem r f p :=
  ⟨h.starts, hread [] Json.isBlanks_nil⟩

end Draft

/-- An array is read like the object of its items, if there are not too many. -/
theorem run?_array {items : List (Padded Source)} (h : ∀ p ∈ items, Draft.IsPart p.core p.content)
    {s t : List UInt8} (ht : Draft.Left items s 0 t) :
    run? (do
      let d ← Draft.inOrder
      closeList
      ofExcept d.toModel) t =
      if items.length ≤ 5 then
        (ofMembers? (fieldKeys.zip (items.map Padded.content))).map fun m => (m, s)
      else none := by
  obtain ⟨u, hu, hcoef⟩ := ht.run?_item? fun p hp => (h p hp).item (h p hp).reads.rows
  obtain ⟨v, hv, hintercept⟩ := hu.run?_item? fun p hp => (h p hp).item (h p hp).reads.numbers
  obtain ⟨w, hw, hclasses⟩ := hv.run?_item? fun p hp => (h p hp).item (h p hp).reads.labels
  obtain ⟨x, hx, hname⟩ := hw.run?_item? fun p hp => (h p hp).item (h p hp).reads.text
  obtain ⟨y, hy, hsolver⟩ := hx.run?_item? fun p hp => (h p hp).item (h p hp).reads.text
  have hclose := hy.run?_closeList fun p hp => (h p hp).starts
  simp only [Nat.reduceAdd, Nat.reduceBEq] at hcoef hintercept hclasses hname hsolver hclose
  rw [ofMembers?, Draft.extend_zip]
  simp only [List.getElem?_map]
  rw [Reader.run?_bind, Draft.inOrder, Reader.run?_bind, hcoef]
  -- Without the first two items there is no model, whatever follows.
  rcases settle rows? none (items[0]?.map Padded.content).toList with _ | _ | coef
  · simp
  · simp [Option.bind_assoc, Draft.toModel, Except.toOption]
  simp only [Option.map_some, Option.bind_some]
  rw [Reader.run?_bind, hintercept]
  rcases settle numbers? none (items[1]?.map Padded.content).toList with _ | _ | intercept
  · simp
  · simp [Option.bind_assoc, Draft.toModel, Except.toOption]
  simp only [Option.map_some, Option.bind_some]
  rw [Reader.run?_bind, hclasses]
  rcases settle labels? none (items[2]?.map Padded.content).toList with _ | classes
  · simp
  simp only [Option.map_some, Option.bind_some]
  rw [Reader.run?_bind, hname]
  rcases settle Source.text? none (items[3]?.map Padded.content).toList with _ | strategyName
  · simp
  simp only [Option.map_some, Option.bind_some]
  rw [Reader.run?_bind, hsolver]
  rcases settle Source.text? none (items[4]?.map Padded.content).toList with _ | solver
  · simp
  simp only [Option.map_some, Option.bind_some, Reader.run?_pure]
  rw [Reader.run?_bind, hclose]
  split_ifs
  · rfl
  · rfl

theorem exists_items {parts : List Part} {sources : List Source}
    (h : List.Forall₂ (fun p s => Draft.IsPart p.core s) parts sources) :
    ∃ items : List (Padded Source), items.map Padded.content = sources ∧
      items.map Padded.chars = parts.map Padded.chars ∧
      ∀ p ∈ items, Draft.IsPart p.core p.content := by
  induction h with
  | nil => exact ⟨[], rfl, rfl, by simp⟩
  | @cons p s parts sources hpart _ ih =>
    obtain ⟨items, rfl, hchars, hitems⟩ := ih
    exact ⟨{ p with content := s } :: items, rfl, congrArg (p.chars :: ·) hchars,
      List.forall_mem_cons.mpr ⟨hpart, hitems⟩⟩

theorem reads_array {values : List (List Char)} {sources : List Source}
    (hvalues : List.Forall₂ Draft.IsPart values sources) {cs : List Char}
    (htext : IsArrayOf values cs) :
    ReadsPart reader cs
      (if sources.length ≤ 5 then ofMembers? (fieldKeys.zip sources) else none) := by
  have hread (items : List (Padded Source)) (h : ∀ p ∈ items, Draft.IsPart p.core p.content)
      {text : List Char} (hleft : ∀ s, Draft.Left items s 0 (octets text ++ s)) :
      ReadsPart reader ('[' :: text)
        (if (items.map Padded.content).length ≤ 5 then
          ofMembers? (fieldKeys.zip (items.map Padded.content)) else none) := by
    intro blanks hblanks rest hrest
    rw [reader, Reader.run?_dispatch text rest hblanks (by decide), if_pos rfl]
    refine (Reader.run?_bind Reader.advance _ _).trans ?_
    rw [Reader.run?_advance_ascii text rest (by decide), Option.bind_some]
    refine (run?_array h (hleft rest)).trans ?_
    rw [List.length_map, apply_ite (Option.map fun m => (m, rest))]
    rfl
  cases htext with
  | empty hblanks =>
    cases hvalues
    exact hread [] (by simp) fun s => .empty hblanks rfl
  | items first further =>
    cases hvalues with
    | @cons _ s _ sources hfirst hfurther =>
      obtain ⟨items, rfl, hchars, hitems⟩ := exists_items (List.forall₂_map_left_iff.mp hfurther)
      have hleft := hread ({ first with content := s } :: items)
        (List.forall_mem_cons.mpr ⟨hfirst, hitems⟩) fun s => .start rfl
      rw [hchars] at hleft
      exact hleft

/-! ## The object of the same values -/

/-- A member of an object whose key is known. -/
structure IsKnownMember (m : List Char × List Char) (content : String × Source) : Prop where
  known : content.1 ∈ fieldKeys
  key : IsString m.1 content.1
  value : Draft.ReadAs m.2 content.2

theorem IsKnownMember.readsMember {m : Part × Part} {content : String × Source}
    (h : IsKnownMember (m.1.core, m.2.core) content) :
    ReadsMember Reader.string Draft.field Draft.field? (joined m content) := by
  obtain ⟨body, hcore, hspells⟩ := h.key.exists_body
  refine ⟨body ++ ['"'] ++ (m.1.after ++ ':' :: (m.2.before ++ m.2.core)), ?_, ?_⟩
  · simp [joined, show m.1.core = _ from hcore]
  · intro d rest hrest
    rw [Json.octets_append, List.append_assoc, Reader.run?_bind, Reader.run?_string hspells,
      Option.bind_some]
    exact Draft.reads_field h.value (absurd h.known) d m.1.after_blank m.2.before_blank rest hrest

theorem exists_joined {ms : List (Part × Part)} {contents : List (String × Source)}
    (h : List.Forall₂ (fun m content => IsKnownMember (m.1.core, m.2.core) content) ms contents) :
    ∃ parts : List (Padded (String × Source)), parts.map Padded.content = contents ∧
      parts.map Padded.chars = ms.map memberChars ∧
      ∀ p ∈ parts, ReadsMember Reader.string Draft.field Draft.field? p := by
  induction h with
  | nil => exact ⟨[], rfl, rfl, by simp⟩
  | @cons m content ms contents hm _ ih =>
    obtain ⟨parts, rfl, hchars, hparts⟩ := ih
    refine ⟨joined m content :: parts, rfl, ?_, List.forall_mem_cons.mpr ⟨hm.readsMember, hparts⟩⟩
    rw [List.map_cons, List.map_cons, hchars, Reader.chars_joined]

theorem reads_object {members : List (List Char × List Char)} {contents : List (String × Source)}
    (hmembers : List.Forall₂ IsKnownMember members contents) {cs : List Char}
    (htext : IsObjectOf members cs) : ReadsPart reader cs (ofMembers? contents) := by
  cases htext with
  | empty hblanks =>
    cases hmembers
    exact reads_model fun rest _ => Reader.run?_members_empty _ _ _ hblanks rest
  | members first further =>
    cases hmembers with
    | @cons _ content _ contents hfirst hfurther =>
      obtain ⟨parts, rfl, hchars, hparts⟩ := exists_joined (List.forall₂_map_left_iff.mp hfurther)
      have hread (rest : List UInt8) :
          run? (Reader.members Reader.commaErrors Reader.string Draft.field {}) _ = _ :=
        Reader.run?_members
          (List.forall_mem_cons.mpr ⟨IsKnownMember.readsMember hfirst, hparts⟩) {} rest
      rw [hchars, Reader.chars_joined] at hread
      exact reads_model fun rest _ => hread rest

theorem forall₂_zip {keys : List (List Char)} {names : List String}
    (hkeys : List.Forall₂ IsString keys names) (hnames : ∀ name ∈ names, name ∈ fieldKeys)
    {values : List (List Char)} {sources : List Source}
    (hvalues : List.Forall₂ Draft.IsPart values sources) :
    List.Forall₂ IsKnownMember (keys.zip values) (names.zip sources) := by
  induction hkeys generalizing values sources with
  | nil => exact .nil
  | cons hkey _ ih =>
    cases hvalues with
    | nil => exact .nil
    | cons hvalue hvalues =>
      have hknown := List.forall_mem_cons.mp hnames
      exact .cons ⟨hknown.1, hkey, hvalue.reads⟩ (ih hknown.2 hvalues)

/-! ## Texts of arrays -/

/-- A whole text of a certain form, between blanks. -/
def IsTextOf (p : List Char → Prop) (text : String) : Prop :=
  ∃ part : Part, p part.core ∧ text.toList = part.chars

theorem exists_sources {d : Nat} (hd : d < maxDepth) {values : List (List Char)}
    (h : ∀ value ∈ values, IsForm d value) :
    ∃ sources, List.Forall₂ Draft.IsPart values sources := by
  induction values with
  | nil => exact ⟨[], .nil⟩
  | cons value values ih =>
    obtain ⟨hvalue, hvalues⟩ := List.forall_mem_cons.mp h
    obtain ⟨s, hs⟩ := Draft.exists_isPart hd hvalue
    obtain ⟨sources, hsources⟩ := ih hvalues
    exact ⟨s :: sources, .cons hs hsources⟩

theorem eq_ok_of_toOption {ε α : Type} {r : Except ε α} {x : α} (h : r.toOption = some x) :
    r = .ok x := by
  cases r with
  | error e => cases h
  | ok y => exact congrArg Except.ok (Option.some.inj h)

theorem exists_error_of_toOption {ε α : Type} {r : Except ε α} (h : r.toOption = none) :
    ∃ e, r = .error e := by
  cases r with
  | error e => exact ⟨e, rfl⟩
  | ok y => cases h

theorem toOption_ofText_array {values : List (List Char)} {sources : List Source}
    (hvalues : List.Forall₂ Draft.IsPart values sources) {text : String}
    (htext : IsTextOf (IsArrayOf values) text) :
    (ofText text).toOption =
      if sources.length ≤ 5 then ofMembers? (fieldKeys.zip sources) else none := by
  obtain ⟨part, hpart, hchars⟩ := htext
  exact Reader.toOption_run_of_reads
    (reads_array hvalues hpart part.before part.before_blank) hchars

theorem take_zip {α β : Type} (xs : List α) (ys : List β) :
    (xs.take ys.length).zip ys = xs.zip ys := by
  induction ys generalizing xs with
  | nil => simp
  | cons y ys ih => cases xs <;> simp [ih]

theorem toOption_ofText_object {keys values : List (List Char)} {sources : List Source}
    (hkeys : List.Forall₂ IsString keys (fieldKeys.take values.length))
    (hvalues : List.Forall₂ Draft.IsPart values sources)
    {members : List (List Char × List Char)} (hperm : members.Perm (keys.zip values))
    {text : String} (htext : IsTextOf (IsObjectOf members) text) :
    (ofText text).toOption = ofMembers? (fieldKeys.zip sources) := by
  obtain ⟨part, hpart, hchars⟩ := htext
  have hfields := forall₂_zip hkeys (fun _ h => List.mem_of_mem_take h) hvalues
  rw [hvalues.length_eq, take_zip] at hfields
  obtain ⟨contents, hmembers, hcontents⟩ := List.perm_comp_forall₂ hperm hfields
  rw [← ofMembers?_perm (hcontents.filter _)]
  exact Reader.toOption_run_of_reads
    (reads_object hmembers hpart part.before part.before_blank) hchars

/-- Without an item for each field that has no default there is no model. -/
theorem ofMembers?_zip_eq_none {sources : List Source} (h : sources.length < 2) :
    ofMembers? (fieldKeys.zip sources) = none := by
  obtain ⟨-, hintercept, -⟩ := Draft.occurrences_fieldKeys_zip sources
  rw [List.getElem?_eq_none (Nat.le_of_lt_succ h), Option.toList_none] at hintercept
  rw [← Option.not_isSome_iff_eq_none, isSome_ofMembers?_iff]
  exact fun hsome => hsome.2.1.1 hintercept

theorem WrittenAs.defaults {m : FittedModel Float} {sources : List Source}
    (h : WrittenAs m (fieldKeys.zip sources)) :
    (sources.length ≤ 2 → m.classes = none) ∧ (sources.length ≤ 3 → m.strategyName = "auto") ∧
      (sources.length ≤ 4 → m.solver = "lbfgs") := by
  obtain ⟨-, -, hclasses, hname, hsolver⟩ := Draft.occurrences_fieldKeys_zip sources
  refine ⟨fun hlength => ?_, fun hlength => ?_, fun hlength => ?_⟩
  · rw [List.getElem?_eq_none hlength, Option.toList_none] at hclasses
    simpa [hclasses] using h.classes
  · rw [List.getElem?_eq_none hlength, Option.toList_none] at hname
    simpa [hname] using h.strategyName
  · rw [List.getElem?_eq_none hlength, Option.toList_none] at hsolver
    simpa [hsolver] using h.solver

/-- An array of two to five values and an object that gives the values to the keys in order, itself
written in any order, are read as the same model or not read, both of them. Missing fields get
their defaults. An array of another length is not read. -/
theorem ofText_array {d : Nat} (hd : d < maxDepth) {values : List (List Char)}
    (hvalues : ∀ value ∈ values, IsForm d value) {text : String}
    (htext : IsTextOf (IsArrayOf values) text) :
    (2 ≤ values.length → values.length ≤ 5 → ∀ keys members text',
      List.Forall₂ IsString keys (fieldKeys.take values.length) →
      members.Perm (keys.zip values) → IsTextOf (IsObjectOf members) text' →
      (∃ m, ofText text = .ok m ∧ ofText text' = .ok m ∧
        (values.length ≤ 2 → m.classes = none) ∧
        (values.length ≤ 3 → m.strategyName = "auto") ∧
        (values.length ≤ 4 → m.solver = "lbfgs")) ∨
      ∃ e e', ofText text = .error e ∧ ofText text' = .error e') ∧
    (values.length < 2 ∨ 5 < values.length → ∃ e, ofText text = .error e) := by
  obtain ⟨sources, hsources⟩ := exists_sources hd hvalues
  have harray := toOption_ofText_array hsources htext
  have hlength := hsources.length_eq
  constructor
  · intro _ hle keys members text' hkeys hperm htext'
    have hobject := toOption_ofText_object hkeys hsources hperm htext'
    rw [if_pos (hlength ▸ hle)] at harray
    cases hmodel : ofMembers? (fieldKeys.zip sources) with
    | none =>
      rw [hmodel] at harray hobject
      obtain ⟨e, he⟩ := exists_error_of_toOption harray
      obtain ⟨e', he'⟩ := exists_error_of_toOption hobject
      exact .inr ⟨e, e', he, he'⟩
    | some m =>
      rw [hmodel] at harray hobject
      have hdefaults := WrittenAs.defaults (ofMembers?_eq_some_iff.mp hmodel)
      rw [← hlength] at hdefaults
      exact .inl ⟨m, eq_ok_of_toOption harray, eq_ok_of_toOption hobject, hdefaults⟩
  · intro hcount
    apply exists_error_of_toOption
    rw [harray]
    rw [hlength] at hcount
    rcases hcount with hfew | hmany
    · rw [ofMembers?_zip_eq_none hfew, ite_self]
    · rw [if_neg (Nat.not_le_of_lt hmany)]

theorem ofText_array_twoValues :
    2 < maxDepth ∧ (∀ value ∈ ["[[2.5]]".toList, "[0.5]".toList], IsForm 2 value) ∧
      IsTextOf (IsArrayOf ["[[2.5]]".toList, "[0.5]".toList]) "[[[2.5]],[0.5]]" ∧
      ∃ m, ofText "[[[2.5]],[0.5]]" = .ok m ∧
        ofText "\x7b\"intercept\": [0.5], \"coef\": [[2.5]]\x7d" = .ok m ∧ m.classes = none := by
  have hcoef : Json.Literal.IsText ⟨false, [2], some [5], none⟩ "2.5".toList :=
    .digits ⟨by simp [Json.IsDigits], by simp, by simp [Json.IsDigits], by simp⟩ .absent
  have hintercept : Json.Literal.IsText ⟨false, [0], some [5], none⟩ "0.5".toList :=
    .digits ⟨by simp [Json.IsDigits], by simp, by simp [Json.IsDigits], by simp⟩ .absent
  have hrow := Json.isValue_singleton (.number hcoef)
  have hvalues : ∀ value ∈ ["[[2.5]]".toList, "[0.5]".toList], IsForm 2 value := by
    rw [List.forall_mem_cons, List.forall_mem_singleton]
    exact ⟨(Json.isValue_singleton hrow).isForm (by decide),
      (Json.isValue_singleton (.number hintercept)).isForm (by decide)⟩
  let part (core : List Char) : Part := .bare core ()
  let spaced (core : List Char) : Part :=
    { part core with before := [' '], before_blank := by simp [IsBlanks] }
  have htext : IsTextOf (IsArrayOf ["[[2.5]]".toList, "[0.5]".toList]) "[[[2.5]],[0.5]]" :=
    ⟨part "[[[2.5]],[0.5]]".toList, .items (part "[[2.5]]".toList) [part "[0.5]".toList], rfl⟩
  let key := Json.stringChars
  have hkeys : List.Forall₂ IsString [key "coef", key "intercept"] ["coef", "intercept"] :=
    .cons (Json.isString_stringChars _) (.cons (Json.isString_stringChars _) .nil)
  have hobject : IsTextOf
      (IsObjectOf [(key "intercept", "[0.5]".toList), (key "coef", "[[2.5]]".toList)])
      "\x7b\"intercept\": [0.5], \"coef\": [[2.5]]\x7d" :=
    ⟨part "\x7b\"intercept\": [0.5], \"coef\": [[2.5]]\x7d".toList,
      .members (part (key "intercept"), spaced "[0.5]".toList)
        [(spaced (key "coef"), spaced "[[2.5]]".toList)], rfl⟩
  obtain ⟨hagree, -⟩ := ofText_array (by decide : 2 < maxDepth) hvalues htext
  have hboth := hagree (by decide) (by decide) _ _ _ hkeys (.swap ..) hobject
  refine ⟨by decide, hvalues, htext, ?_⟩
  rcases hboth with ⟨m, hm, hm', hclasses, -⟩ | ⟨e, e', he, -⟩
  · exact ⟨m, hm, hm', hclasses (by decide)⟩
  · have hsome : (ofText "[[[2.5]],[0.5]]").toOption.isSome = true := by decide +kernel
    rw [he] at hsome
    cases hsome

end FittedModel
end ScoreTree
