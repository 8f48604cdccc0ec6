import ScoreTree.Proofs.Json.Printed
import ScoreTree.Proofs.ObjectForm

/-!
# Reading back a written model

A model is written as an object of five members. It is read back with each of its doubles as the
reader of numbers takes it, and all else as it was. A coefficient or intercept that is no finite
number is written as null, which no number is read from, so such a model is refused
(`ofText_text`).
-/

namespace ScoreTree

namespace Json

/-- The reader of numbers makes `y` of the text of `x`. -/
def ReadsBack (x y : Float) : Prop :=
  Reader.double.run (Json.float x).text.toUTF8.toList = .ok y

theorem readsBack_iff {x y : Float} :
    ReadsBack x y ↔ (Reader.double.run (Json.float x).text.toUTF8.toList).toOption = some y := by
  rw [ReadsBack]
  cases Reader.double.run (Json.float x).text.toUTF8.toList <;> simp [Except.toOption]

instance (x y : Float) : Decidable (ReadsBack x y) := decidable_of_iff _ readsBack_iff.symm

namespace Numerals

variable (d : Numerals)

theorem value_eq_of_readsBack {x y : Float} (hx : Decimal.isFinite x = true) (h : ReadsBack x y) :
    (d.float x).value = .ok (.float y) := by
  have hread := (Reader.readsValue_double (d.source (.float x))).toOption_run
    (d.isText_text (.float x))
  have hvalue := (d.float_fractional x hx).value_eq
  rw [ReadsBack] at h
  rw [h, source, double, if_pos hx, Source.float?, hvalue] at hread
  rw [hvalue]
  cases hfloat : (d.float x).toFloat with
  | error e =>
    rw [hfloat] at hread
    cases hread
  | ok z =>
    rw [hfloat] at hread
    cases hread
    rfl

theorem isSome_float?_double {x : Float} :
    (d.double x).float?.isSome → Decimal.isFinite x = true := by
  rw [double]
  split_ifs with hx
  · exact fun _ => hx
  · exact fun h => absurd h (by decide)

end Numerals
end Json

namespace FittedModel

open Json (Source Numerals ReadsBack IsProper)
open Json.Reader (maxDepth)

/-- All doubles of a model. -/
def floats (m : FittedModel Float) : List Float :=
  m.coef.flatten ++ m.intercept ++ (m.classes.getD []).flatMap Json.floats

/-- Replaces every double of a model. -/
def mapFloats (f : Float → Float) (m : FittedModel Float) : FittedModel Float :=
  { m with
    coef := m.coef.map (List.map f)
    intercept := m.intercept.map f
    classes := m.classes.map (List.map (Json.mapFloats f)) }

/-- The parameters are finite numbers. -/
structure IsFinite (m : FittedModel Float) : Prop where
  coef : ∀ row ∈ m.coef, ∀ x ∈ row, Decimal.isFinite x = true
  intercept : ∀ x ∈ m.intercept, Decimal.isFinite x = true

/-- The labels of the classes are values that a text can stand for, and not too deep for the reader. -/
def HasProperLabels (m : FittedModel Float) : Prop :=
  ∀ labels, m.classes = some labels → ∀ v ∈ labels, v.IsProper ∧ v.depth + 2 ≤ maxDepth

section Members

variable (d : Numerals)

theorem source_numbers (xs : List Float) :
    d.source (.array (xs.map .float)) = .array (xs.map d.double) := by
  rw [Numerals.source, Numerals.sourceItems_eq_map, List.map_map]
  rfl

theorem source_rows (rows : List (List Float)) :
    d.source (.array (rows.map fun row => .array (row.map .float))) =
      .array (rows.map fun row => .array (row.map d.double)) := by
  rw [Numerals.source, Numerals.sourceItems_eq_map, List.map_map]
  congr 1
  exact List.map_congr_left fun row _ => source_numbers d row

variable {f : Float → Float}

theorem numbers?_double {xs : List Float} (h : ∀ x ∈ xs, (d.double x).float? = some (f x)) :
    numbers? (.array (xs.map d.double)) = some (xs.map f) :=
  Json.mapM_map_eq_some h

theorem rows?_double {rows : List (List Float)}
    (h : ∀ row ∈ rows, ∀ x ∈ row, (d.double x).float? = some (f x)) :
    rows? (.array (rows.map fun row => .array (row.map d.double))) =
      some (rows.map (List.map f)) :=
  Json.mapM_map_eq_some fun row hrow => numbers?_double d (h row hrow)

theorem finite_of_numbers? {xs : List Float} {ys : List Float}
    (h : numbers? (.array (xs.map d.double)) = some ys) : ∀ x ∈ xs, Decimal.isFinite x = true := by
  have hsome : ((xs.map d.double).mapM Source.float?).isSome := Option.isSome_iff_exists.mpr ⟨ys, h⟩
  rw [Source.isSome_mapM, List.forall_mem_map] at hsome
  exact fun x hx => d.isSome_float?_double (hsome x hx)

theorem finite_of_rows? {rows ys : List (List Float)}
    (h : rows? (.array (rows.map fun row => .array (row.map d.double))) = some ys) :
    ∀ row ∈ rows, ∀ x ∈ row, Decimal.isFinite x = true := by
  have hsome : ((rows.map fun row => .array (row.map d.double)).mapM
      (Source.list? Source.float?)).isSome := Option.isSome_iff_exists.mpr ⟨ys, h⟩
  rw [Source.isSome_mapM, List.forall_mem_map] at hsome
  intro row hrow
  obtain ⟨xs, hxs⟩ := Option.isSome_iff_exists.mp (hsome row hrow)
  exact finite_of_numbers? d hxs

/-- What is written for the labels of the classes. -/
def labelsSource : Option (List Json) → Source
  | none => .null
  | some labels => .array (labels.map d.source)

/-- The members of the object that is written. -/
def writtenMembers (m : FittedModel Float) : List (String × Source) :=
  [("coef", .array (m.coef.map fun row => .array (row.map d.double))),
    ("intercept", .array (m.intercept.map d.double)),
    ("classes", labelsSource d m.classes),
    ("multi_class", .string m.strategyName),
    ("solver", .string m.solver)]

theorem source_toJson (m : FittedModel Float) :
    d.source m.toJson = .object (writtenMembers d m) := by
  rw [toJson, Numerals.source]
  simp only [Numerals.sourceMembers, source_rows, source_numbers]
  cases hclasses : m.classes with
  | none => simp only [writtenMembers, labelsSource, hclasses, Numerals.source]
  | some labels =>
    simp only [writtenMembers, labelsSource, hclasses, Numerals.source,
      Numerals.sourceItems_eq_map]

theorem isText_text (m : FittedModel Float) : (Source.object (writtenMembers d m)).IsText m.text := by
  rw [← source_toJson]
  exact d.isText_text m.toJson

end Members

variable {m : FittedModel Float} {f : Float → Float}

theorem depth_numbers (d : Numerals) (xs : List Float) :
    (Source.array (xs.map d.double)).depth ≤ 1 := by
  have hdouble (x : Float) : (d.double x).depth ≤ 0 := by
    rw [Numerals.double]
    split_ifs <;> exact Nat.le_refl 0
  apply Nat.succ_le_succ
  rw [Source.depthItems_le_iff, List.forall_mem_map]
  exact fun x _ => hdouble x

theorem depth_rows (d : Numerals) (rows : List (List Float)) :
    (Source.array (rows.map fun row => .array (row.map d.double))).depth ≤ 2 := by
  apply Nat.succ_le_succ
  rw [Source.depthItems_le_iff, List.forall_mem_map]
  exact fun row _ => depth_numbers d row

theorem depth_labels (d : Numerals) {labels : Option (List Json)}
    (h : ∀ list, labels = some list → ∀ v ∈ list, v.depth + 2 ≤ maxDepth) :
    (labelsSource d labels).depth < maxDepth := by
  cases labels with
  | none => exact (by decide : 0 < maxDepth)
  | some list =>
    have hlist : Source.depthItems (list.map d.source) ≤ maxDepth - 2 := by
      rw [Source.depthItems_le_iff, List.forall_mem_map]
      intro v hv
      rw [d.depth_source]
      exact Nat.le_sub_of_add_le (h list rfl v hv)
    rw [labelsSource, Source.depth]
    exact Nat.lt_of_le_of_lt (Nat.succ_le_succ hlist) (by decide)

theorem depth_writtenMembers (d : Numerals) (hlabels : m.HasProperLabels) :
    ∀ member ∈ writtenMembers d m, member.2.depth < maxDepth := by
  have hcoef := depth_rows d m.coef
  have hintercept := depth_numbers d m.intercept
  have hclasses := depth_labels d fun list hlist v hv => (hlabels list hlist v hv).2
  have hmax : 2 < maxDepth := by decide
  intro member hmember
  simp only [writtenMembers, List.mem_cons, List.not_mem_nil, or_false] at hmember
  rcases hmember with rfl | rfl | rfl | rfl | rfl
  · exact Nat.lt_of_le_of_lt hcoef hmax
  · exact Nat.lt_of_le_of_lt (hintercept.trans (by decide)) hmax
  · exact hclasses
  · exact (by decide : 0 < maxDepth)
  · exact (by decide : 0 < maxDepth)

theorem json?_labels (d : Numerals) (hlabels : m.HasProperLabels)
    (hf : ∀ x ∈ m.floats, Decimal.isFinite x = true → ReadsBack x (f x)) {labels : List Json}
    (h : m.classes = some labels) :
    (labels.map d.source).mapM Source.json? = some (labels.map (Json.mapFloats f)) := by
  apply Json.mapM_map_eq_some
  intro v hv
  apply d.json?_source (hlabels labels h v hv).1
  intro x hx hfinite
  have hmem : x ∈ m.floats := by
    rw [floats, h]
    exact List.mem_append_right _ (List.mem_flatMap.mpr ⟨v, hv, hx⟩)
  exact d.value_eq_of_readsBack hfinite (hf x hmem hfinite)

/-- The labels that are read are those that were written. -/
theorem classes_written (d : Numerals) (hlabels : m.HasProperLabels)
    (hf : ∀ x ∈ m.floats, Decimal.isFinite x = true → ReadsBack x (f x)) :
    (occurrences "classes" (writtenMembers d m) = [] ∨
        occurrences "classes" (writtenMembers d m) = [.null]) ∧ (m.mapFloats f).classes = none ∨
      ∃ items labels, occurrences "classes" (writtenMembers d m) = [.array items] ∧
        items.mapM Source.json? = some labels ∧ (m.mapFloats f).classes = some labels := by
  have hclasses : occurrences "classes" (writtenMembers d m) = [labelsSource d m.classes] := rfl
  rw [hclasses, mapFloats]
  cases hm : m.classes with
  | none => exact .inl ⟨.inr rfl, rfl⟩
  | some labels =>
    exact .inr ⟨_, _, rfl, json?_labels d hlabels hf hm, rfl⟩

/-- Reading back what was written gives the model with its doubles as they are read, and fails exactly if
a parameter is no finite number. -/
theorem ofText_text (hlabels : m.HasProperLabels)
    (hf : ∀ x ∈ m.floats, Decimal.isFinite x = true → ReadsBack x (f x)) :
    (m.IsFinite → ofText m.text = .ok (m.mapFloats f)) ∧
    (¬ m.IsFinite → ∃ e, ofText m.text = .error e) := by
  obtain ⟨d⟩ := Json.exists_numerals
  have hread {m' : FittedModel Float} :
      ofText m.text = .ok m' ↔ WrittenAs m' (writtenMembers d m) :=
    (ofText_eq_ok_iff (isText_text d m) (depth_writtenMembers d hlabels)).trans
      ofMembers?_eq_some_iff
  have hdouble {x : Float} (hx : x ∈ m.floats) (hfinite : Decimal.isFinite x = true) :
      (d.double x).float? = some (f x) := by
    rw [Numerals.double, if_pos hfinite, Source.float?,
      d.value_eq_of_readsBack hfinite (hf x hx hfinite)]
    rfl
  constructor
  · intro hfinite
    rw [hread]
    have hcoef : ∀ row ∈ m.coef, ∀ x ∈ row, (d.double x).float? = some (f x) := by
      intro row hrow x hx
      have hmem : x ∈ m.floats := by
        simp only [floats, List.mem_append, List.mem_flatten]
        exact .inl (.inl ⟨row, hrow, hx⟩)
      exact hdouble hmem (hfinite.coef row hrow x hx)
    have hintercept : ∀ x ∈ m.intercept, (d.double x).float? = some (f x) := by
      intro x hx
      have hmem : x ∈ m.floats := by
        simp only [floats, List.mem_append]
        exact .inl (.inr hx)
      exact hdouble hmem (hfinite.intercept x hx)
    exact {
      coef := ⟨_, rfl, rows?_double d hcoef⟩
      intercept := ⟨_, rfl, numbers?_double d hintercept⟩
      classes := classes_written d hlabels hf
      strategyName := .inr rfl
      solver := .inr rfl }
  · intro hnot
    cases hresult : ofText m.text with
    | error e => exact ⟨e, rfl⟩
    | ok m' =>
      obtain ⟨⟨v, hv, hcoef⟩, ⟨w, hw, hintercept⟩, -, -, -⟩ := hread.mp hresult
      cases hv
      cases hw
      exact absurd ⟨finite_of_rows? d hcoef, finite_of_numbers? d hintercept⟩ hnot

/-- A model with rows of different lengths, and with a double that is read as its neighbour. -/
def uneven : FittedModel Float where
  coef := [[0.5, 1e-23], []]
  intercept := [-2.0]
  classes := some [.integer 3, .object [("a", .null), ("b", .float 0.5)]]
  strategyName := "auto"
  solver := "\"new\n"

/-- What the doubles of that model are read as. -/
def unevenRead (x : Float) : Float := if x = 1e-23 then 1.0000000000000001e-23 else x

theorem ofText_text_uneven :
    uneven.HasProperLabels ∧
    (∀ x ∈ uneven.floats, Decimal.isFinite x = true → ReadsBack x (unevenRead x)) ∧
    ofText uneven.text = .ok (uneven.mapFloats unevenRead) := by
  have hmembers : ∀ m ∈ [("a", Json.null), ("b", Json.float 0.5)], m.2.IsProper := by
    simp only [List.forall_mem_cons, List.not_mem_nil, false_implies, implies_true, and_true]
    exact ⟨.null, .float (by decide +kernel)⟩
  have hlabels : uneven.HasProperLabels := by
    rintro labels ⟨rfl⟩
    simp only [List.forall_mem_cons, List.not_mem_nil, false_implies, implies_true, and_true]
    exact ⟨⟨.integer (by unfold Json.IsWord; decide), by decide⟩,
      .object (by decide +kernel) hmembers, by decide⟩
  have hread : ∀ x ∈ uneven.floats, Decimal.isFinite x = true → ReadsBack x (unevenRead x) := by
    decide +kernel
  have hfinite : uneven.IsFinite := ⟨by decide +kernel, by decide +kernel⟩
  exact ⟨hlabels, hread, (ofText_text hlabels hread).1 hfinite⟩

end FittedModel
end ScoreTree
