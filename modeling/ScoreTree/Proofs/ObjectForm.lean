import ScoreTree.Proofs.Json.Forms
import ScoreTree.Proofs.Json.Printed
import ScoreTree.Proofs.Json.Range
import ScoreTree.Proofs.Loading

/-!
# The object form of a model

An object is a model exactly if each known key has the values that its field wants
(`IsDocumented`) and their numbers can be read (`HasNumbers`). It is the model that these values
give (`WrittenAs`): order, spelling and other members do not matter (`ofText_object`).
-/

namespace ScoreTree
namespace FittedModel

open Json (Literal Source)
open Json.Reader (maxDepth)

/-! ## What is documented -/

/-- The documented object form. -/
structure IsDocumented (members : List (String × Source)) : Prop where
  once : ∀ key ∈ fieldKeys, (occurrences key members).length ≤ 1
  hasCoef : occurrences "coef" members ≠ []
  hasIntercept : occurrences "intercept" members ≠ []
  coef : ∀ v ∈ occurrences "coef" members, v.IsArrayOf fun row => row.IsArrayOf Source.IsNumber
  intercept : ∀ v ∈ occurrences "intercept" members, v.IsArrayOf Source.IsNumber
  classes : ∀ v ∈ occurrences "classes" members, v = .null ∨ v.IsArrayOf fun _ => True
  strategyName : ∀ v ∈ occurrences "multi_class" members, v.IsString
  solver : ∀ v ∈ occurrences "solver" members, v.IsString

/-- The numbers of the fields can be read. -/
def HasNumbers (members : List (String × Source)) : Prop :=
  ∀ key ∈ ["coef", "intercept", "classes"], ∀ v ∈ occurrences key members, v.HasValues

/-- The numbers of the fields are not next to the end of the range of doubles. -/
def HasClearNumbers (members : List (String × Source)) : Prop :=
  ∀ key ∈ ["coef", "intercept", "classes"], ∀ v ∈ occurrences key members,
    ∀ l ∈ v.literals, l.IsClear

theorem HasClearNumbers.hasNumbers {members : List (String × Source)} (h : HasClearNumbers members) :
    HasNumbers members :=
  fun key hkey v hv l hl => (h key hkey v hv l hl).hasValue

/-- The members give the fields of the model, where the last three may be missing. -/
structure WrittenAs (m : FittedModel Float) (members : List (String × Source)) : Prop where
  coef : ∃ v, occurrences "coef" members = [v] ∧ rows? v = some m.coef
  intercept : ∃ v, occurrences "intercept" members = [v] ∧ numbers? v = some m.intercept
  classes :
    (occurrences "classes" members = [] ∨ occurrences "classes" members = [.null]) ∧
      m.classes = none ∨
    ∃ items labels, occurrences "classes" members = [.array items] ∧
      items.mapM Source.json? = some labels ∧ m.classes = some labels
  strategyName :
    occurrences "multi_class" members = [] ∧ m.strategyName = "auto" ∨
    occurrences "multi_class" members = [.string m.strategyName]
  solver :
    occurrences "solver" members = [] ∧ m.solver = "lbfgs" ∨
    occurrences "solver" members = [.string m.solver]

/-! ## What an object gives -/

namespace Draft

theorem extend_eq_some_iff {d : Draft} {members : List (String × Source)} :
    extend {} members = some d ↔
      settle rows? none (occurrences "coef" members) = some d.coef ∧
      settle numbers? none (occurrences "intercept" members) = some d.intercept ∧
      settle labels? none (occurrences "classes" members) = some d.classes ∧
      settle Source.text? none (occurrences "multi_class" members) = some d.strategyName ∧
      settle Source.text? none (occurrences "solver" members) = some d.solver := by
  obtain ⟨coef, intercept, classes, strategyName, solver⟩ := d
  simp only [extend, Option.bind_eq_bind, Option.bind_eq_some_iff, Option.pure_def,
    Option.some.injEq, mk.injEq]
  constructor
  · rintro ⟨_, hcoef, _, hintercept, _, hclasses, _, hname, _, hsolver, rfl, rfl, rfl, rfl, rfl⟩
    exact ⟨hcoef, hintercept, hclasses, hname, hsolver⟩
  · rintro ⟨hcoef, hintercept, hclasses, hname, hsolver⟩
    exact ⟨_, hcoef, _, hintercept, _, hclasses, _, hname, _, hsolver, rfl, rfl, rfl, rfl, rfl⟩

theorem toModel_eq_some_iff {d : Draft} {m : FittedModel Float} :
    d.toModel.toOption = some m ↔
      d.coef = some m.coef ∧ d.intercept = some m.intercept ∧ m.classes = d.classes.getD none ∧
      m.strategyName = d.strategyName.getD "auto" ∧ m.solver = d.solver.getD "lbfgs" := by
  obtain ⟨coef, intercept, classes, strategyName, solver⟩ := d
  obtain ⟨mcoef, mintercept, mclasses, mname, msolver⟩ := m
  cases coef with
  | none => simp [toModel, Except.toOption]
  | some coef =>
    cases intercept with
    | none => simp [toModel, Except.toOption]
    | some intercept =>
      simp [toModel, Except.toOption, defaultStrategyName, defaultSolver, eq_comm]

end Draft

theorem labels?_eq_some_iff {v : Source} {labels : Option (List Json)} :
    labels? v = some labels ↔
      v = .null ∧ labels = none ∨
      ∃ items list, v = .array items ∧ items.mapM Source.json? = some list ∧ labels = some list := by
  cases v with
  | null => simp [labels?, Source.nullable?, eq_comm]
  | array items => simp [labels?, Source.nullable?, Source.list?, eq_comm]
  | _ => simp [labels?, Source.nullable?, Source.list?]

theorem settle_labels {vs : List Source} {labels : Option (List Json)} :
    (∃ o, settle labels? none vs = some o ∧ labels = o.getD none) ↔
      (vs = [] ∨ vs = [.null]) ∧ labels = none ∨
      ∃ items list, vs = [.array items] ∧ items.mapM Source.json? = some list ∧
        labels = some list := by
  simp only [settle_eq_some_iff, labels?_eq_some_iff]
  constructor
  · rintro ⟨o, ⟨rfl, rfl⟩ | ⟨v, x, rfl, ⟨rfl, rfl⟩ | ⟨items, list, rfl, hlist, rfl⟩, rfl⟩, rfl⟩
    · exact .inl ⟨.inl rfl, rfl⟩
    · exact .inl ⟨.inr rfl, rfl⟩
    · exact .inr ⟨items, list, rfl, hlist, rfl⟩
  · rintro (⟨rfl | rfl, rfl⟩ | ⟨items, list, rfl, hlist, rfl⟩)
    · exact ⟨none, .inl ⟨rfl, rfl⟩, rfl⟩
    · exact ⟨some none, .inr ⟨.null, none, rfl, .inl ⟨rfl, rfl⟩, rfl⟩, rfl⟩
    · exact ⟨some (some list), .inr ⟨.array items, some list, rfl,
        .inr ⟨items, list, rfl, hlist, rfl⟩, rfl⟩, rfl⟩

theorem text?_eq_some_iff {v : Source} {text : String} : v.text? = some text ↔ v = .string text := by
  cases v with
  | _ => simp [Source.text?]

/-- A name that has a default. -/
theorem settle_name {vs : List Source} {name default : String} :
    (∃ o, settle Source.text? none vs = some o ∧ name = o.getD default) ↔
      vs = [] ∧ name = default ∨ vs = [.string name] := by
  simp only [settle_eq_some_iff, text?_eq_some_iff]
  constructor
  · rintro ⟨o, ⟨rfl, rfl⟩ | ⟨v, x, rfl, rfl, rfl⟩, rfl⟩
    · exact .inl ⟨rfl, rfl⟩
    · exact .inr rfl
  · rintro (⟨rfl, rfl⟩ | rfl)
    · exact ⟨none, .inl ⟨rfl, rfl⟩, rfl⟩
    · exact ⟨some name, .inr ⟨.string name, name, rfl, rfl, rfl⟩, rfl⟩

/-- What an object gives is what its members write. -/
theorem ofMembers?_eq_some_iff {members : List (String × Source)} {m : FittedModel Float} :
    ofMembers? members = some m ↔ WrittenAs m members := by
  rw [ofMembers?, Option.bind_eq_some_iff]
  simp only [Draft.extend_eq_some_iff, Draft.toModel_eq_some_iff]
  constructor
  · rintro ⟨d, ⟨hcoef, hintercept, hclasses, hname, hsolver⟩, hc, hi, hl, hn, hs⟩
    exact {
      coef := settle_required.mp ⟨_, hcoef, hc⟩
      intercept := settle_required.mp ⟨_, hintercept, hi⟩
      classes := settle_labels.mp ⟨_, hclasses, hl⟩
      strategyName := settle_name.mp ⟨_, hname, hn⟩
      solver := settle_name.mp ⟨_, hsolver, hs⟩ }
  · intro h
    obtain ⟨coef, hcoef, hc⟩ := settle_required.mpr h.coef
    obtain ⟨intercept, hintercept, hi⟩ := settle_required.mpr h.intercept
    obtain ⟨classes, hclasses, hl⟩ := settle_labels.mpr h.classes
    obtain ⟨strategyName, hname, hn⟩ := settle_name.mpr h.strategyName
    obtain ⟨solver, hsolver, hs⟩ := settle_name.mpr h.solver
    exact ⟨⟨coef, intercept, classes, strategyName, solver⟩,
      ⟨hcoef, hintercept, hclasses, hname, hsolver⟩, hc, hi, hl, hn, hs⟩

theorem isSome_ofMembers?_iff {members : List (String × Source)} :
    (ofMembers? members).isSome ↔
      (occurrences "coef" members ≠ [] ∧ (settle rows? none (occurrences "coef" members)).isSome) ∧
      (occurrences "intercept" members ≠ [] ∧
        (settle numbers? none (occurrences "intercept" members)).isSome) ∧
      (settle labels? none (occurrences "classes" members)).isSome ∧
      (settle Source.text? none (occurrences "multi_class" members)).isSome ∧
      (settle Source.text? none (occurrences "solver" members)).isSome := by
  rw [← exists_required, ← exists_required]
  simp only [Option.isSome_iff_exists, ofMembers?_eq_some_iff]
  constructor
  · rintro ⟨m, h⟩
    obtain ⟨classes, hclasses, -⟩ := settle_labels.mpr h.classes
    obtain ⟨strategyName, hname, -⟩ := settle_name.mpr h.strategyName
    obtain ⟨solver, hsolver, -⟩ := settle_name.mpr h.solver
    exact ⟨⟨_, h.coef⟩, ⟨_, h.intercept⟩, ⟨_, hclasses⟩, ⟨_, hname⟩, ⟨_, hsolver⟩⟩
  · rintro ⟨⟨coef, hcoef⟩, ⟨intercept, hintercept⟩, ⟨_, hclasses⟩, ⟨_, hname⟩, ⟨_, hsolver⟩⟩
    exact ⟨⟨coef, intercept, _, _, _⟩, {
      coef := hcoef
      intercept := hintercept
      classes := settle_labels.mp ⟨_, hclasses, rfl⟩
      strategyName := settle_name.mp ⟨_, hname, rfl⟩
      solver := settle_name.mp ⟨_, hsolver, rfl⟩ }⟩

theorem isSome_labels? (v : Source) :
    (labels? v).isSome ↔ (v = .null ∨ v.IsArrayOf fun _ => True) ∧ v.HasValues := by
  have hlist := Source.isSome_list? (p := fun _ => True)
    (fun s => Source.isSome_json?.trans (iff_of_eq (true_and _)).symm) v
  cases v with
  | null => simp [labels?, Source.nullable?, Source.HasValues, Source.literals]
  | array items => simpa [labels?, Source.nullable?] using hlist
  | _ => simp [labels?, Source.nullable?, Source.list?, Source.IsArrayOf]

/-- An object gives a model exactly if it has the documented form and its numbers can be read. -/
theorem isSome_ofMembers? {members : List (String × Source)} :
    (ofMembers? members).isSome ↔ IsDocumented members ∧ HasNumbers members := by
  have hnumbers : ∀ s, (numbers? s).isSome ↔ s.IsArrayOf Source.IsNumber ∧ s.HasValues :=
    Source.isSome_list? Source.isSome_float?
  have hrows : ∀ s, (rows? s).isSome ↔
      (s.IsArrayOf fun row => row.IsArrayOf Source.IsNumber) ∧ s.HasValues :=
    Source.isSome_list? hnumbers
  simp only [isSome_ofMembers?_iff, isSome_settle, hrows, hnumbers, isSome_labels?,
    Source.isSome_text?, forall₂_and]
  constructor
  · rintro ⟨⟨hcoef, hc, hrows, hcoefs⟩, ⟨hintercept, hi, hnumbers, hintercepts⟩,
      ⟨hl, hlabels, hclasses⟩, ⟨hn, hnames⟩, hs, hsolvers⟩
    refine ⟨?_, ?_⟩
    · exact {
        once := by simpa [fieldKeys] using ⟨hc, hi, hl, hn, hs⟩
        hasCoef := hcoef
        hasIntercept := hintercept
        coef := hrows
        intercept := hnumbers
        classes := hlabels
        strategyName := hnames
        solver := hsolvers }
    · simpa [HasNumbers] using ⟨hcoefs, hintercepts, hclasses⟩
  · rintro ⟨h, hvalues⟩
    have honce (key : String) (hkey : key ∈ fieldKeys) := h.once key hkey
    exact ⟨⟨h.hasCoef, honce _ (by decide), h.coef, hvalues _ (by simp)⟩,
      ⟨h.hasIntercept, honce _ (by decide), h.intercept, hvalues _ (by simp)⟩,
      ⟨honce _ (by decide), h.classes, hvalues _ (by simp)⟩,
      ⟨honce _ (by decide), h.strategyName⟩, honce _ (by decide), h.solver⟩

/-! ## What an object depends on -/

/-- The values of the known keys are among the known members. -/
theorem occurrences_filter {key : String} (hkey : key ∈ fieldKeys)
    (members : List (String × Source)) :
    occurrences key (members.filter fun m => m.1 ∈ fieldKeys) = occurrences key members := by
  rw [occurrences, occurrences, List.filter_filter]
  congr 1
  apply List.filter_congr
  rintro ⟨other, v⟩ -
  by_cases h : other = key
  · subst h
    simp [hkey]
  · simp [h]

theorem ofMembers?_perm {members members' : List (String × Source)}
    (h : (members.filter fun m => m.1 ∈ fieldKeys).Perm
      (members'.filter fun m => m.1 ∈ fieldKeys)) :
    ofMembers? members = ofMembers? members' := by
  have hsettle {β : Type} (f : Source → Option β) {key : String} (hkey : key ∈ fieldKeys) :
      settle f none (occurrences key members) = settle f none (occurrences key members') := by
    rw [← occurrences_filter hkey members, ← occurrences_filter hkey members']
    exact settle_perm ((h.filter _).map _)
  have hcoef := hsettle rows? (by decide : "coef" ∈ fieldKeys)
  have hintercept := hsettle numbers? (by decide : "intercept" ∈ fieldKeys)
  have hclasses := hsettle labels? (by decide : "classes" ∈ fieldKeys)
  have hname := hsettle Source.text? (by decide : "multi_class" ∈ fieldKeys)
  have hsolver := hsettle Source.text? (by decide : "solver" ∈ fieldKeys)
  simp only [ofMembers?, Draft.extend, hcoef, hintercept, hclasses, hname, hsolver]

/-! ## Texts of objects -/

/-- The text of an object is read exactly if it has the documented form and its numbers can be read,
which they can unless they are next to the end of the range. What is read is what the known members
write, in whatever order and among whatever others they stand. -/
theorem ofText_object {text : String} {members : List (String × Source)}
    (htext : (Source.object members).IsText text)
    (hdepth : ∀ m ∈ members, m.2.depth < maxDepth) :
    ((∃ m, ofText text = .ok m) ↔ IsDocumented members ∧ HasNumbers members) ∧
    (HasClearNumbers members → ((∃ m, ofText text = .ok m) ↔ IsDocumented members)) ∧
    (¬ (IsDocumented members ∧ HasNumbers members) → ∃ e, ofText text = .error e) ∧
    (∀ m, ofText text = .ok m → WrittenAs m members) ∧
    ∀ text' members', (Source.object members').IsText text' →
      (∀ m ∈ members', m.2.depth < maxDepth) →
      (members.filter fun m => m.1 ∈ fieldKeys).Perm
        (members'.filter fun m => m.1 ∈ fieldKeys) →
      ∀ m, ofText text = .ok m ↔ ofText text' = .ok m := by
  have hok : (∃ m, ofText text = .ok m) ↔ IsDocumented members ∧ HasNumbers members := by
    rw [← isSome_ofMembers?, Option.isSome_iff_exists]
    exact exists_congr fun m => ofText_eq_ok_iff htext hdepth
  refine ⟨hok, ?_, ?_, ?_, ?_⟩
  · exact fun hclear => hok.trans (and_iff_left hclear.hasNumbers)
  · intro hnot
    cases hresult : ofText text with
    | ok m => exact absurd (hok.mp ⟨m, hresult⟩) hnot
    | error e => exact ⟨e, rfl⟩
  · intro m hm
    exact ofMembers?_eq_some_iff.mp ((ofText_eq_ok_iff htext hdepth).mp hm)
  · intro text' members' htext' hdepth' hperm m
    rw [ofText_eq_ok_iff htext hdepth, ofText_eq_ok_iff htext' hdepth', ofMembers?_perm hperm]

/-! ## Numbers near the ends of the range -/

/-- An object with one coefficient and one intercept, both written with the given digits. -/
def oneNumber (l : Literal) : List (String × Source) :=
  [("coef", .array [.array [.number l]]), ("intercept", .array [.number l])]

theorem isText_oneNumber {l : Literal} {cs : List Char} (h : l.IsText cs) {text : String}
    (htext : text.toList =
      "\x7b\"coef\":[[".toList ++ cs ++ "]],\"intercept\":[".toList ++ cs ++ "]\x7d".toList) :
    (Source.object (oneNumber l)).IsText text := by
  have hrow := Json.isValue_singleton (.number h)
  have hmembers : ∀ m ∈
      [("coef", '[' :: ('[' :: (cs ++ [']']) ++ [']']), Source.array [.array [.number l]]),
        ("intercept", '[' :: (cs ++ [']']), Source.array [.number l])],
      Json.IsValue m.2.1 m.2.2 := by
    simp only [List.forall_mem_cons, List.not_mem_nil, false_implies, implies_true, and_true]
    exact ⟨Json.isValue_singleton hrow, hrow⟩
  refine (Json.isValue_object Prod.fst hmembers).isText ?_
  rw [htext]
  simp only [Json.furtherChars, List.map_cons, List.map_nil, List.append_assoc, List.cons_append,
    List.nil_append]
  rfl

theorem isDocumented_oneNumber (l : Literal) : IsDocumented (oneNumber l) where
  once := by simp [fieldKeys, oneNumber, occurrences]
  hasCoef := by simp [oneNumber, occurrences]
  hasIntercept := by simp [oneNumber, occurrences]
  coef := by simp [oneNumber, occurrences, Source.isArrayOf_array, Source.IsNumber]
  intercept := by simp [oneNumber, occurrences, Source.isArrayOf_array, Source.IsNumber]
  classes := by simp [oneNumber, occurrences]
  strategyName := by simp [oneNumber, occurrences]
  solver := by simp [oneNumber, occurrences]

theorem hasClearNumbers_oneNumber {l : Literal} (h : l.IsClear) :
    HasClearNumbers (oneNumber l) := by
  simp [HasClearNumbers, oneNumber, occurrences, Source.literals, Source.literalsItems, h]

theorem ofText_object_oneNumber :
    ∃ text members, (Source.object members).IsText text ∧
      (∀ m ∈ members, m.2.depth < maxDepth) ∧ ∃ m, ofText text = .ok m ∧ WrittenAs m members := by
  have hnumber : Literal.IsText ⟨false, [2], some [5], none⟩ ['2', '.', '5'] :=
    .digits ⟨by simp [Json.IsDigits], by simp, by simp [Json.IsDigits], by simp⟩ .absent
  have htext : (Source.object (oneNumber ⟨false, [2], some [5], none⟩)).IsText
      "\x7b\"coef\":[[2.5]],\"intercept\":[2.5]\x7d" := isText_oneNumber hnumber (by decide)
  have hdepth : ∀ m ∈ oneNumber ⟨false, [2], some [5], none⟩, m.2.depth < maxDepth := by decide
  have hclear : Literal.IsClear ⟨false, [2], some [5], none⟩ := by
    refine ⟨?_, by decide⟩
    unfold Literal.IsAtMost
    decide +kernel
  obtain ⟨-, hok, -, hwritten, -⟩ := ofText_object htext hdepth
  obtain ⟨m, hm⟩ := (hok (hasClearNumbers_oneNumber hclear)).mpr (isDocumented_oneNumber _)
  exact ⟨_, _, htext, hdepth, m, hm, hwritten m hm⟩

/-- The digits `1.797693134862315708e308`. -/
def nearLargest : Literal :=
  ⟨false, [1], some [7, 9, 7, 6, 9, 3, 1, 3, 4, 8, 6, 2, 3, 1, 5, 7, 0, 8], some (false, [3, 0, 8])⟩

theorem isText_nearLargest : nearLargest.IsText "1.797693134862315708e308".toList := by
  have hwell : nearLargest.WellFormed :=
    ⟨by simp [nearLargest, Json.IsDigits], by simp [nearLargest],
      by simp [nearLargest, Json.IsDigits], by simp [nearLargest, Json.IsDigits]⟩
  exact .digits hwell (.unsigned (.inl rfl) [3, 0, 8])

def nearLargestText : String :=
  "\x7b\"coef\":[[1.797693134862315708e308]],\"intercept\":[1.797693134862315708e308]\x7d"

/-- The reader multiplies rounded factors, whose product can exceed the largest double though the number
does not. Such a number is refused in a document that is otherwise in order. -/
theorem ofText_object_refuses_nearLargest :
    ∃ text members, (Source.object members).IsText text ∧ (∀ m ∈ members, m.2.depth ≤ 100) ∧
      (∀ l ∈ (Source.object members).literals, l.InDoubleRange) ∧ IsDocumented members ∧
      ¬ ∃ m, ofText text = .ok m := by
  have hrange : nearLargest.InDoubleRange := by
    unfold Literal.InDoubleRange Literal.IsAtMost
    decide +kernel
  have hliterals : ∀ l ∈ (Source.object (oneNumber nearLargest)).literals, l = nearLargest := by
    simp [oneNumber, Source.literals, Source.literalsMembers, Source.literalsItems]
  refine ⟨nearLargestText, oneNumber nearLargest,
    isText_oneNumber isText_nearLargest (by decide +kernel), by decide,
    fun l hl => hliterals l hl ▸ hrange, isDocumented_oneNumber nearLargest, ?_⟩
  rintro ⟨m, hm⟩
  have hnone : (ofText nearLargestText).toOption.isNone = true := by decide +kernel
  rw [hm] at hnone
  cases hnone

end FittedModel
end ScoreTree
