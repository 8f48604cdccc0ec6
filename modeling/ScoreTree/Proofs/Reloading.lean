import ScoreTree.Proofs.Coherence
import ScoreTree.Proofs.Json.Reread

/-!
# Saved and loaded models

A model without labels that is written and read again has the same rows and the same names, and each of its
numbers is at most two doubles away from what it was (`ofText_text_apart`). So its trees exist where they
existed before, with the same failures elsewhere, and they are the same trees if all its digits and powers
of ten are exact.
-/

namespace ScoreTree
namespace FittedModel

open Decimal (isFinite)
open Json (ReadsBack Apart drift reread)

variable {m : FittedModel Float} {f : Float → Float}

/-! ## Shapes -/

theorem features_mapFloats : (m.mapFloats f).features = m.features := by
  unfold features mapFloats
  cases m.coef <;> simp

theorem length_coef_mapFloats : (m.mapFloats f).coef.length = m.coef.length := List.length_map _

theorem length_intercept_mapFloats : (m.mapFloats f).intercept.length = m.intercept.length :=
  List.length_map _

theorem resolved?_mapFloats : (m.mapFloats f).resolved? = m.resolved? := by
  unfold resolved?
  rw [length_coef_mapFloats]
  rfl

theorem unevenRow_mapFloats : (m.mapFloats f).unevenRow = m.unevenRow := by
  unfold unevenRow
  rw [features_mapFloats]
  change List.findIdx _ (m.coef.map (List.map f)) = _
  rw [List.findIdx_map]
  simp [Function.comp_def]

/-- Checks look at shapes and names only. -/
theorem fault?_mapFloats (method : Method) : (m.mapFloats f).fault? method = m.fault? method := by
  have hrow (i : Nat) : ((m.mapFloats f).coef.getD i []).length = (m.coef.getD i []).length := by
    change ((m.coef.map (List.map f)).getD i []).length = _
    rw [List.getD_eq_getElem?_getD, List.getD_eq_getElem?_getD, List.getElem?_map]
    cases m.coef[i]? <;> simp
  have hname : (m.mapFloats f).strategyName = m.strategyName := rfl
  unfold fault? singleRowLines rowsLines
  simp only [features_mapFloats, length_coef_mapFloats, length_intercept_mapFloats,
    resolved?_mapFloats, unevenRow_mapFloats, hrow, hname]

theorem toExpr_error_mapFloats (s : Settings) (error : BuildError) :
    ((m.mapFloats f).toExpr s).result = .error error ↔ (m.toExpr s).result = .error error := by
  rw [toExpr_result_eq, toExpr_result_eq, fault?_mapFloats]
  cases m.fault? s.method <;> simp

/-! ## Numbers -/

/-- The numbers of a model without labels are its parameters. -/
theorem mem_floats_of_classes (hclasses : m.classes = none) {x : Float} :
    x ∈ m.floats ↔ (∃ row ∈ m.coef, x ∈ row) ∨ x ∈ m.intercept := by
  simp [floats, hclasses]

theorem isFinite_of_mem_floats (hfinite : m.IsFinite) (hclasses : m.classes = none) :
    ∀ x ∈ m.floats, isFinite x = true := by
  intro x hx
  rcases (mem_floats_of_classes hclasses).mp hx with ⟨row, hrow, hx⟩ | hx
  · exact hfinite.coef row hrow x hx
  · exact hfinite.intercept x hx

theorem map_eq_self_iff {β : Type} {g : β → β} {xs : List β} :
    xs.map g = xs ↔ ∀ x ∈ xs, g x = x := by
  conv_lhs =>
    rhs
    rw [← List.map_id xs]
  exact List.map_inj_left

theorem mapFloats_eq_self_iff (hclasses : m.classes = none) :
    m.mapFloats f = m ↔ ∀ x ∈ m.floats, f x = x := by
  have hfields : m.mapFloats f = m ↔
      m.coef.map (List.map f) = m.coef ∧ m.intercept.map f = m.intercept := by
    obtain ⟨coef, intercept, classes, strategyName, solver⟩ := m
    obtain rfl : classes = none := hclasses
    simp [mapFloats]
  simp only [hfields, map_eq_self_iff, mem_floats_of_classes hclasses]
  constructor
  · rintro ⟨hcoef, hintercept⟩ x (⟨row, hrow, hx⟩ | hx)
    · exact hcoef row hrow x hx
    · exact hintercept x hx
  · intro h
    exact ⟨fun row hrow x hx => h x (.inl ⟨row, hrow, hx⟩), fun x hx => h x (.inr hx)⟩

/-- A model of finite numbers without labels is read back with its numbers as they are read. -/
theorem ofText_text_of_readsBack (hfinite : m.IsFinite) (hclasses : m.classes = none)
    (hf : ∀ x ∈ m.floats, ReadsBack x (f x)) : ofText m.text = .ok (m.mapFloats f) := by
  obtain ⟨d⟩ := Json.exists_numerals
  have hlabels : m.HasProperLabels := by
    intro labels h
    rw [hclasses] at h
    cases h
  have hmem {x : Float} := mem_floats_of_classes hclasses (x := x)
  have hdouble {x : Float} (hx : x ∈ m.floats) : (d.double x).float? = some (f x) := by
    have hxfinite := isFinite_of_mem_floats hfinite hclasses x hx
    rw [Json.Numerals.double, if_pos hxfinite, Json.Source.float?,
      d.value_eq_of_readsBack hxfinite (hf x hx)]
    rfl
  rw [ofText_eq_ok_iff (isText_text d m) (depth_writtenMembers d hlabels), ofMembers?_eq_some_iff]
  exact {
    coef := ⟨_, rfl, rows?_double d fun row hrow x hx => hdouble (hmem.mpr (.inl ⟨row, hrow, hx⟩))⟩
    intercept := ⟨_, rfl, numbers?_double d fun x hx => hdouble (hmem.mpr (.inr hx))⟩
    classes := classes_written d hlabels fun x hx _ => hf x hx
    strategyName := .inr rfl
    solver := .inr rfl }

/-- A model that is saved and loaded is the model with each number at most two doubles away: one double for
digits of 53 bits or more, and one for a power of ten beyond the exact ones. Numbers with neither are the
same bit for bit. A tree is refused as before, and is the same one if all numbers are. -/
theorem ofText_text_apart (m : FittedModel Float) (hfinite : m.IsFinite)
    (hclasses : m.classes = none) :
    ofText m.text = .ok (m.mapFloats reread) ∧ (m.mapFloats reread).IsFinite ∧
      (∀ x ∈ m.floats, Apart (drift x) x (reread x) ∧ drift x ≤ 2 ∧
        (drift x = 0 → reread x = x)) ∧
      (∀ s error, ((m.mapFloats reread).toExpr s).result = .error error ↔
        (m.toExpr s).result = .error error) ∧
      ((∀ x ∈ m.floats, reread x = x) ↔ ofText m.text = .ok m) ∧
      (ofText m.text = .ok m → ∀ s, (m.mapFloats reread).toExpr s = m.toExpr s) := by
  have hfloats := isFinite_of_mem_floats hfinite hclasses
  have hload : ofText m.text = .ok (m.mapFloats reread) :=
    ofText_text_of_readsBack hfinite hclasses fun x hx =>
      (Json.reread_of_isFinite (hfloats x hx)).1
  have hsame : ofText m.text = .ok m ↔ m.mapFloats reread = m := by
    rw [hload, Except.ok.injEq]
  refine ⟨hload, ⟨?_, ?_⟩, ?_, toExpr_error_mapFloats, ?_, ?_⟩
  · simp only [mapFloats, List.forall_mem_map]
    exact fun row hrow x hx => (Json.reread_of_isFinite (hfinite.coef row hrow x hx)).2.1
  · simp only [mapFloats, List.forall_mem_map]
    exact fun x hx => (Json.reread_of_isFinite (hfinite.intercept x hx)).2.1
  · intro x hx
    exact ⟨(Json.reread_of_isFinite (hfloats x hx)).2.2, Json.drift_le x,
      Json.reread_eq (hfloats x hx)⟩
  · rw [hsame]
    exact (mapFloats_eq_self_iff hclasses).symm
  · intro h s
    rw [hsame.mp h]

/-- A model with an exact number, one with too many digits, and one whose power of ten is not exact either. -/
def manyDigits : FittedModel Float where
  coef := [[0.5, 9.007199254740993e-5]]
  intercept := [4.0475589227118117e-115]
  classes := none
  strategyName := "auto"
  solver := "lbfgs"

theorem ofText_text_apart_manyDigits :
    manyDigits.IsFinite ∧ manyDigits.classes = none ∧
      ofText manyDigits.text = .ok (manyDigits.mapFloats reread) ∧
      manyDigits.floats.map drift = [0, 1, 2] :=
  have hfinite : manyDigits.IsFinite := ⟨by decide +kernel, by decide +kernel⟩
  ⟨hfinite, rfl, (ofText_text_apart manyDigits hfinite rfl).1, by decide +kernel⟩

/-- What the numbers of that model are read back as. -/
def manyDigitsRead (x : Float) : Float :=
  if x = 9.007199254740993e-5 then 9.007199254740992e-5
  else if x = 4.0475589227118117e-115 then 4.0475589227118126e-115
  else x

/-- Numbers are moved, so that a loaded model need not be the saved one, nor have its trees. -/
theorem ofText_text_moves_manyDigits :
    manyDigits.IsFinite ∧ manyDigits.classes = none ∧
      ∃ m, ofText manyDigits.text = .ok m ∧ m.coef ≠ manyDigits.coef ∧
        m.intercept ≠ manyDigits.intercept ∧
        ∃ s, (m.toExpr s).result ≠ (manyDigits.toExpr s).result := by
  have hfinite : manyDigits.IsFinite := ⟨by decide +kernel, by decide +kernel⟩
  have hread : ∀ x ∈ manyDigits.floats, ReadsBack x (manyDigitsRead x) := by decide +kernel
  have hintercept : (manyDigits.mapFloats manyDigitsRead).intercept ≠ manyDigits.intercept := by
    decide +kernel
  refine ⟨hfinite, rfl, _, ofText_text_of_readsBack hfinite rfl hread, by decide +kernel,
    hintercept, ⟨.decisionFunction, "x"⟩, ?_⟩
  intro h
  have htree : (manyDigits.toExpr ⟨.decisionFunction, "x"⟩).result =
      .ok (.linear (.row [0.5, 9.007199254740993e-5] 4.0475589227118117e-115) (.input "x")) := rfl
  have hmoved : ((manyDigits.mapFloats manyDigitsRead).toExpr ⟨.decisionFunction, "x"⟩).result =
      .ok (.linear (.row ([0.5, 9.007199254740993e-5].map manyDigitsRead)
        (manyDigitsRead 4.0475589227118117e-115)) (.input "x")) := rfl
  rw [htree, hmoved] at h
  injection h with h
  injection h with h
  injection h with hcoef hnumber
  exact hintercept (congrArg (fun b => [b]) hnumber)

end FittedModel
end ScoreTree
