import ScoreTree.Model.Format
import ScoreTree.Proofs.Json.Values

/-!
# Loading a model from an object

The reader of an object carries a draft through its members. A field of the draft changes at the
members of one key only, so that what is read is settled by the values of each of five keys
(`Draft.foldlM_field?`), and other members do not matter.
-/

namespace ScoreTree
namespace FittedModel

open Json (IsBlanks Reader Source)
open Json.Reader (Reads ReadsPart ReadsValue ReadsField run?)

/-! ## The values of a key -/

/-- The values of a key, in the order in which they are written. -/
def occurrences (key : String) (members : List (String × Source)) : List Source :=
  (members.filter fun m => m.1 = key).map Prod.snd

theorem occurrences_cons (key other : String) (v : Source) (members : List (String × Source)) :
    occurrences key ((other, v) :: members) =
      if other = key then v :: occurrences key members else occurrences key members := by
  unfold occurrences
  rw [List.filter_cons]
  split_ifs with h h' h'
  all_goals simp_all

section Settle

variable {β : Type} (f : Source → Option β)

/-- The value of a field that has not been read before. -/
def once? (old : Option β) (v : Source) : Option β := if old.isSome then none else f v

/-- What has been read of a field after further values of its key. -/
def settle (old : Option β) : List Source → Option (Option β)
  | [] => some old
  | v :: vs => (once? f old v).bind fun x => settle (some x) vs

variable {f}

theorem settle_singleton (v : Source) : settle f none [v] = (f v).map some := by
  simp only [settle, once?, Option.isSome_none]
  cases f v <;> rfl

/-- Two values of a key are refused. -/
theorem settle_cons_cons (v w : Source) (vs : List Source) :
    settle f none (v :: w :: vs) = none := by
  simp only [settle, once?, Option.isSome_none]
  cases f v <;> rfl

theorem settle_eq_some_iff {vs : List Source} {o : Option β} :
    settle f none vs = some o ↔
      vs = [] ∧ o = none ∨ ∃ v x, vs = [v] ∧ f v = some x ∧ o = some x := by
  match vs with
  | [] => simp [settle, eq_comm]
  | [v] => simp [settle_singleton, eq_comm]
  | v :: w :: vs => simp [settle_cons_cons]

theorem isSome_settle {vs : List Source} :
    (settle f none vs).isSome ↔ vs.length ≤ 1 ∧ ∀ v ∈ vs, (f v).isSome := by
  match vs with
  | [] => simp [settle]
  | [v] => simp [settle_singleton]
  | v :: w :: vs => simp [settle_cons_cons]

theorem settle_perm {vs ws : List Source} (h : vs.Perm ws) : settle f none vs = settle f none ws := by
  match vs, ws, h.length_eq with
  | [], [], _ => rfl
  | [v], [w], _ => rw [List.singleton_perm_singleton.mp h]
  | v :: v' :: vs, w :: w' :: ws, _ => rw [settle_cons_cons, settle_cons_cons]

/-- What is read of a field that may not be missing. -/
theorem settle_required {vs : List Source} {x : β} :
    (∃ o, settle f none vs = some o ∧ o = some x) ↔ ∃ v, vs = [v] ∧ f v = some x := by
  simp only [exists_eq_right, settle_eq_some_iff, Option.some.injEq]
  constructor
  · rintro (⟨-, h⟩ | ⟨v, y, hv, hy, rfl⟩)
    · cases h
    · exact ⟨v, hv, hy⟩
  · rintro ⟨v, hv, hx⟩
    exact .inr ⟨v, x, hv, hx, rfl⟩

theorem exists_required {vs : List Source} :
    (∃ x v, vs = [v] ∧ f v = some x) ↔ vs ≠ [] ∧ (settle f none vs).isSome := by
  match vs with
  | [] => simp
  | [v] => simp [settle_singleton, Option.isSome_iff_exists]
  | v :: w :: vs => simp [settle_cons_cons]

end Settle

/-! ## The fields of a model -/

/-- The keys of the fields of a model. -/
def fieldKeys : List String := ["coef", "intercept", "classes", "multi_class", "solver"]

/-- Rows of coefficients. -/
def rows? : Source → Option (List (List Float)) := Source.list? (Source.list? Source.float?)

/-- The intercepts. -/
def numbers? : Source → Option (List Float) := Source.list? Source.float?

/-- Labels of classes, or null. -/
def labels? : Source → Option (Option (List Json)) := Source.nullable? (Source.list? Source.json?)

namespace Draft

theorem readsValue_rows (s : Source) : ReadsValue rows s (rows? s) :=
  Reader.readsValue_list fun _ _ _ _ =>
    Reader.readsValue_list fun _ _ x _ => Reader.readsValue_double x

theorem readsValue_numbers (s : Source) : ReadsValue numbers s (numbers? s) :=
  Reader.readsValue_list fun _ _ x _ => Reader.readsValue_double x

theorem readsValue_labels {s : Source} (hs : s.depth < Reader.maxDepth) :
    ReadsValue labels s (labels? s) := by
  apply Reader.readsValue_nullable
  apply Reader.readsValue_list
  rintro items rfl item hitem
  have hitems : Source.depthItems items ≤ Reader.maxDepth - 2 := by
    rw [Source.depth] at hs
    omega
  exact Reader.readsValue_value _ (Source.depthItems_le_iff.mp hitems item hitem)

/-- The readers of the fields take the text for the value. -/
structure ReadAs (cs : List Char) (s : Source) : Prop where
  rows : ReadsPart rows cs (rows? s)
  numbers : ReadsPart numbers cs (numbers? s)
  labels : ReadsPart labels cs (labels? s)
  text : ReadsPart Reader.text cs s.text?

theorem readAs_of_isValue {s : Source} (hs : s.depth < Reader.maxDepth) {cs : List Char}
    (h : Json.IsValue cs s) : ReadAs cs s where
  rows := readsValue_rows s cs h
  numbers := readsValue_numbers s cs h
  labels := readsValue_labels hs cs h
  text := Reader.readsValue_text s cs h

section Field

variable {cs blanks before : List Char} {s : Source}

theorem reads_once {β : Type} {f : Source → Option β} {r : Reader β} (h : ReadsPart r cs (f s))
    (name : String) (old : Option β) (hblanks : IsBlanks blanks) (hbefore : IsBlanks before) :
    Reads (once name old r) (blanks ++ ':' :: (before ++ cs)) (once? f old s) := by
  cases old with
  | none => exact h.field hblanks hbefore
  | some x => exact fun _ _ => rfl

/-- The draft after one more member. -/
def field? (d : Draft) (m : String × Source) : Option Draft :=
  if m.1 = "coef" then (once? rows? d.coef m.2).map fun coef => { d with coef := some coef }
  else if m.1 = "intercept" then
    (once? numbers? d.intercept m.2).map fun intercept => { d with intercept := some intercept }
  else if m.1 = "classes" then
    (once? labels? d.classes m.2).map fun classes => { d with classes := some classes }
  else if m.1 = "multi_class" then
    (once? Source.text? d.strategyName m.2).map fun name => { d with strategyName := some name }
  else if m.1 = "solver" then
    (once? Source.text? d.solver m.2).map fun solver => { d with solver := some solver }
  else some d

/-- A known key wants a value of its form, and behind any other key a value is passed over. -/
theorem reads_field {key : String} (h : ReadAs cs s)
    (hskip : key ∉ fieldKeys → ReadsPart Reader.skip cs (some ())) (d : Draft)
    (hblanks : IsBlanks blanks) (hbefore : IsBlanks before) :
    Reads (field d key) (blanks ++ ':' :: (before ++ cs)) (d.field? (key, s)) := by
  unfold field field?
  dsimp only
  split_ifs with hcoef hintercept hclasses hname hsolver
  · exact (reads_once h.rows key d.coef hblanks hbefore).map fun coef =>
      { d with coef := some coef }
  · exact (reads_once h.numbers key d.intercept hblanks hbefore).map fun intercept =>
      { d with intercept := some intercept }
  · exact (reads_once h.labels key d.classes hblanks hbefore).map fun classes =>
      { d with classes := some classes }
  · exact (reads_once h.text key d.strategyName hblanks hbefore).map fun name =>
      { d with strategyName := some name }
  · exact (reads_once h.text key d.solver hblanks hbefore).map fun solver =>
      { d with solver := some solver }
  · have hother : key ∉ fieldKeys := by
      simp [fieldKeys, hcoef, hintercept, hclasses, hname, hsolver]
    have hpart : ReadsPart ((fun _ => d) <$> Reader.skip) cs (some d) :=
      fun blanks hblanks => ((hskip hother) blanks hblanks).map fun _ => d
    exact hpart.field hblanks hbefore

end Field

theorem readsField_field {m : String × Source} (hm : m.2.depth < Reader.maxDepth) (d : Draft) :
    ReadsField (field d m.1) m.2 (d.field? m) :=
  fun _ hcs _ _ hblanks hbefore => reads_field (readAs_of_isValue hm hcs)
    (fun _ => Reader.readsValue_skip m.2 _ hcs) d hblanks hbefore

/-- The draft after further members: each field is settled by the values of its key. -/
def extend (d : Draft) (members : List (String × Source)) : Option Draft := do
  let coef ← settle rows? d.coef (occurrences "coef" members)
  let intercept ← settle numbers? d.intercept (occurrences "intercept" members)
  let classes ← settle labels? d.classes (occurrences "classes" members)
  let strategyName ← settle Source.text? d.strategyName (occurrences "multi_class" members)
  let solver ← settle Source.text? d.solver (occurrences "solver" members)
  return { coef, intercept, classes, strategyName, solver }

theorem foldlM_field? (d : Draft) (members : List (String × Source)) :
    members.foldlM field? d = d.extend members := by
  induction members generalizing d with
  | nil => rfl
  | cons m members ih =>
    obtain ⟨key, v⟩ := m
    rw [List.foldlM_cons]
    simp only [ih]
    unfold field?
    dsimp only
    split_ifs with hcoef hintercept hclasses hname hsolver
    · subst hcoef
      simp only [extend, occurrences_cons, String.reduceEq, if_true, if_false, settle]
      cases once? rows? d.coef v <;> rfl
    · subst hintercept
      simp only [extend, occurrences_cons, String.reduceEq, if_true, if_false, settle]
      cases once? numbers? d.intercept v
      · simp
      · simp
    · subst hclasses
      simp only [extend, occurrences_cons, String.reduceEq, if_true, if_false, settle]
      cases once? labels? d.classes v
      · simp
      · simp
    · subst hname
      simp only [extend, occurrences_cons, String.reduceEq, if_true, if_false, settle]
      cases once? Source.text? d.strategyName v
      · simp
      · simp
    · subst hsolver
      simp only [extend, occurrences_cons, String.reduceEq, if_true, if_false, settle]
      cases once? Source.text? d.solver v
      · simp
      · simp
    · simp only [extend, occurrences_cons, hcoef, hintercept, hclasses, hname, hsolver, if_false]
      rfl

end Draft

/-! ## Whole objects -/

/-- The model of an object. -/
def ofMembers? (members : List (String × Source)) : Option (FittedModel Float) :=
  (Draft.extend {} members).bind fun d => d.toModel.toOption

/-- The members that are read of an object settle its model. -/
theorem reads_model {cs : List Char} {members : List (String × Source)}
    (h : Reads (Reader.members Reader.commaErrors Reader.string Draft.field {}) cs
      (members.foldlM Draft.field? {})) :
    ReadsPart reader ('\x7b' :: cs) (ofMembers? members) := by
  have hmodel : Reads (do
      let d ← Reader.members Reader.commaErrors Reader.string Draft.field {}
      ofExcept d.toModel) cs (ofMembers? members) := by
    intro rest hrest
    rw [Reader.run?_bind, h rest hrest, ofMembers?, Draft.foldlM_field?]
    cases Draft.extend {} members with
    | none => rfl
    | some d =>
      dsimp only [Option.map_some, Option.bind_some]
      cases d.toModel <;> rfl
  intro blanks hblanks rest hrest
  rw [reader, Reader.run?_dispatch cs rest hblanks (by decide), if_neg (by decide), if_pos rfl]
  exact hmodel.behind (by decide) rest hrest

theorem readsValue_reader {members : List (String × Source)}
    (hdepth : ∀ m ∈ members, m.2.depth < Reader.maxDepth) :
    ReadsValue reader (.object members) (ofMembers? members) := by
  intro cs hcs
  obtain ⟨text, rfl, hreads⟩ := Reader.exists_reads_members id
    (fun _ _ s h => Reader.run?_string h s) Draft.field
    (fun m hm d => Draft.readsField_field (hdepth m hm) d) Reader.commaErrors hcs {}
  exact reads_model hreads

/-- What is read of the text of an object depends on its members only. -/
theorem toOption_ofText {text : String} {members : List (String × Source)}
    (htext : (Source.object members).IsText text)
    (hdepth : ∀ m ∈ members, m.2.depth < Reader.maxDepth) :
    (ofText text).toOption = ofMembers? members :=
  (readsValue_reader hdepth).toOption_run htext

theorem ofText_eq_ok_iff {text : String} {members : List (String × Source)}
    (htext : (Source.object members).IsText text)
    (hdepth : ∀ m ∈ members, m.2.depth < Reader.maxDepth) {m : FittedModel Float} :
    ofText text = .ok m ↔ ofMembers? members = some m := by
  rw [← toOption_ofText htext hdepth]
  cases ofText text <;> simp [Except.toOption]

end FittedModel
end ScoreTree
