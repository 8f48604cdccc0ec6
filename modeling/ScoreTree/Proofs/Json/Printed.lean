import ScoreTree.Proofs.Json.Values
import ScoreTree.Proofs.Json.Written

/-!
# Printed values

The text of any value is a text of the grammar (`isValue_chars`). A value that a text can stand for
(`IsProper`) is what its text is read as, up to its doubles, which the reader of numbers may change
(`json?_source`).
-/

namespace ScoreTree
namespace Json

/-! ## What is inside -/

mutual

/-- How many arrays and objects stand inside each other. -/
def depth : Json → Nat
  | array items => depthItems items + 1
  | object members => depthMembers members + 1
  | _ => 0

def depthItems : List Json → Nat
  | [] => 0
  | item :: rest => max item.depth (depthItems rest)

def depthMembers : List (String × Json) → Nat
  | [] => 0
  | (_, value) :: rest => max value.depth (depthMembers rest)

end

mutual

/-- All doubles, in the order in which they are written. -/
def floats : Json → List Float
  | float x => [x]
  | array items => floatsItems items
  | object members => floatsMembers members
  | _ => []

def floatsItems : List Json → List Float
  | [] => []
  | item :: rest => item.floats ++ floatsItems rest

def floatsMembers : List (String × Json) → List Float
  | [] => []
  | (_, value) :: rest => value.floats ++ floatsMembers rest

end

mutual

/-- Replaces every double. -/
def mapFloats (f : Float → Float) : Json → Json
  | float x => float (f x)
  | array items => array (mapFloatsItems f items)
  | object members => object (mapFloatsMembers f members)
  | v => v

def mapFloatsItems (f : Float → Float) : List Json → List Json
  | [] => []
  | item :: rest => item.mapFloats f :: mapFloatsItems f rest

def mapFloatsMembers (f : Float → Float) : List (String × Json) → List (String × Json)
  | [] => []
  | (key, value) :: rest => (key, value.mapFloats f) :: mapFloatsMembers f rest

end

/-- A value that a text can stand for: its doubles are finite, its integers have 64 bits, and the keys
of its objects ascend. -/
inductive IsProper : Json → Prop
  | null : IsProper .null
  | bool (b : Bool) : IsProper (.bool b)
  | integer {n : Int} (h : IsWord n) : IsProper (.integer n)
  | float {x : Float} (h : Decimal.isFinite x = true) : IsProper (.float x)
  | string (text : String) : IsProper (.string text)
  | array {items : List Json} (h : ∀ item ∈ items, IsProper item) : IsProper (.array items)
  | object {members : List (String × Json)} (hkeys : (members.map Prod.fst).Pairwise (· < ·))
      (h : ∀ m ∈ members, IsProper m.2) : IsProper (.object members)

section Inside

variable {items : List Json} {members : List (String × Json)}

theorem depthItems_le_iff {d : Nat} : depthItems items ≤ d ↔ ∀ item ∈ items, item.depth ≤ d := by
  induction items with
  | nil => simp [depthItems]
  | cons item rest ih => simp [depthItems, ih]

theorem depthMembers_le_iff {d : Nat} :
    depthMembers members ≤ d ↔ ∀ m ∈ members, m.2.depth ≤ d := by
  induction members with
  | nil => simp [depthMembers]
  | cons m rest ih => simp [depthMembers, ih]

/-- Induction over what is inside. -/
@[elab_as_elim]
theorem induct {motive : Json → Prop} (null : motive null) (bool : ∀ b, motive (bool b))
    (integer : ∀ n, motive (integer n)) (float : ∀ x, motive (float x))
    (string : ∀ text, motive (string text))
    (array : ∀ items, (∀ item ∈ items, motive item) → motive (array items))
    (object : ∀ members, (∀ m ∈ members, motive m.2) → motive (object members)) (v : Json) :
    motive v := by
  have hdepth : ∀ d v, v.depth ≤ d → motive v := by
    intro d
    induction d with
    | zero =>
      intro v hv
      cases v with
      | null => exact null
      | bool b => exact bool b
      | integer n => exact integer n
      | float x => exact float x
      | string text => exact string text
      | array items => exact absurd hv (Nat.not_succ_le_zero _)
      | object members => exact absurd hv (Nat.not_succ_le_zero _)
    | succ d ih =>
      intro v hv
      cases v with
      | null => exact null
      | bool b => exact bool b
      | integer n => exact integer n
      | float x => exact float x
      | string text => exact string text
      | array items =>
        have hitems := depthItems_le_iff.mp (Nat.le_of_succ_le_succ hv)
        exact array items fun item hitem => ih item (hitems item hitem)
      | object members =>
        have hmembers := depthMembers_le_iff.mp (Nat.le_of_succ_le_succ hv)
        exact object members fun m hm => ih m.2 (hmembers m hm)
  exact hdepth v.depth v (Nat.le_refl _)

theorem mem_floatsItems {x : Float} : x ∈ floatsItems items ↔ ∃ item ∈ items, x ∈ item.floats := by
  induction items with
  | nil => simp [floatsItems]
  | cons item rest ih => simp [floatsItems, ih]

theorem mem_floatsMembers {x : Float} :
    x ∈ floatsMembers members ↔ ∃ m ∈ members, x ∈ m.2.floats := by
  induction members with
  | nil => simp [floatsMembers]
  | cons m rest ih =>
    obtain ⟨key, value⟩ := m
    simp [floatsMembers, ih]

theorem mapFloatsItems_eq_map (f : Float → Float) :
    mapFloatsItems f items = items.map (mapFloats f) := by
  induction items with
  | nil => rfl
  | cons item rest ih => rw [mapFloatsItems, ih, List.map_cons]

theorem mapFloatsMembers_eq_map (f : Float → Float) :
    mapFloatsMembers f members = members.map fun m => (m.1, m.2.mapFloats f) := by
  induction members with
  | nil => rfl
  | cons m rest ih => rw [mapFloatsMembers, ih, List.map_cons]

end Inside

/-! ## Texts without blanks -/

/-- A part without blanks around it. -/
def Padded.bare {α : Type} (core : List Char) (content : α) : Padded α :=
  ⟨[], core, [], content, isBlanks_nil, isBlanks_nil⟩

def Member.bare (key : String) (text : List Char) (content : Source) : Member :=
  ⟨.bare (stringChars key) key, .bare text content⟩

section Bare

variable {γ : Type} {text : γ → List Char} {content : γ → Source}

theorem isValue_array {x : γ} {xs : List γ} (h : ∀ y ∈ x :: xs, IsValue (text y) (content y)) :
    IsValue ('[' :: (text x ++ furtherChars ']' (xs.map text)))
      (.array ((x :: xs).map content)) := by
  have hparts : ∀ p ∈ Padded.bare (text x) (content x) ::
      xs.map fun y => Padded.bare (text y) (content y), IsValue p.core p.content := by
    intro p hp
    rw [← List.map_cons (f := fun y => Padded.bare (text y) (content y))] at hp
    obtain ⟨y, hy, rfl⟩ := List.mem_map.mp hp
    exact h y hy
  have harray := IsValue.array hparts
  simpa [Function.comp_def, Padded.bare, Padded.chars] using harray

theorem isValue_singleton {cs : List Char} {s : Source} (h : IsValue cs s) :
    IsValue ('[' :: (cs ++ [']'])) (.array [s]) := by
  have hparts : ∀ p ∈ [(cs, s)], IsValue p.1 p.2 := by
    intro p hp
    rw [List.mem_singleton.mp hp]
    exact h
  exact isValue_array hparts

theorem isValue_object (key : γ → String) {x : γ} {xs : List γ}
    (h : ∀ y ∈ x :: xs, IsValue (text y) (content y)) :
    IsValue ('\x7b' :: (stringChars (key x) ++ ':' :: (text x ++
        furtherChars '\x7d' (xs.map fun y => stringChars (key y) ++ ':' :: text y))))
      (.object ((x :: xs).map fun y => (key y, content y))) := by
  have hkeys : ∀ m ∈ Member.bare (key x) (text x) (content x) ::
      xs.map fun y => Member.bare (key y) (text y) (content y),
      IsString m.key.core m.key.content := by
    intro m hm
    rw [← List.map_cons (f := fun y => Member.bare (key y) (text y) (content y))] at hm
    obtain ⟨y, -, rfl⟩ := List.mem_map.mp hm
    exact isString_stringChars (key y)
  have hvalues : ∀ m ∈ Member.bare (key x) (text x) (content x) ::
      xs.map fun y => Member.bare (key y) (text y) (content y),
      IsValue m.value.core m.value.content := by
    intro m hm
    rw [← List.map_cons (f := fun y => Member.bare (key y) (text y) (content y))] at hm
    obtain ⟨y, hy, rfl⟩ := List.mem_map.mp hm
    exact h y hy
  have hobject := IsValue.object hkeys hvalues
  simpa [Function.comp_def, Member.bare, Member.chars, Member.content, Padded.bare, Padded.chars]
    using hobject

end Bare

/-- A value without blanks around it is a whole text. -/
theorem IsValue.isText {cs : List Char} {s : Source} (h : IsValue cs s) {text : String}
    (htext : text.toList = cs) : s.IsText text :=
  ⟨.bare cs s, h, by simp [htext, Padded.bare, Padded.chars]⟩

theorem furtherItems_eq (items : List Json) :
    furtherItems items = furtherChars ']' (items.map chars) := by
  induction items with
  | nil => rfl
  | cons item rest ih => rw [furtherItems, ih, List.map_cons, furtherChars]

theorem furtherMembers_eq (members : List (String × Json)) :
    furtherMembers members =
      furtherChars '\x7d' (members.map fun m => stringChars m.1 ++ ':' :: m.2.chars) := by
  induction members with
  | nil => rfl
  | cons m rest ih =>
    rw [furtherMembers, ih, List.map_cons, furtherChars, List.append_assoc, List.cons_append]

/-! ## Reading back lists -/

theorem mapM_map_eq_some {α β γ : Type} {f : β → Option γ} {g : α → β} {h : α → γ} {xs : List α}
    (hxs : ∀ x ∈ xs, f (g x) = some (h x)) : (xs.map g).mapM f = some (xs.map h) := by
  induction xs with
  | nil => rfl
  | cons x xs ih =>
    have hrest := ih fun y hy => hxs y (List.mem_cons_of_mem x hy)
    rw [List.map_cons, List.mapM_cons, hxs x List.mem_cons_self, hrest]
    rfl

/-- A member whose key is above all others comes last. -/
theorem insertMember_of_lt {key : String} {old : List (String × Json)}
    (h : ∀ k ∈ old.map Prod.fst, k < key) (value : Json) :
    insertMember key value old = old ++ [(key, value)] := by
  induction old with
  | nil => rfl
  | cons m old ih =>
    obtain ⟨k, v⟩ := m
    have hlt : k < key := h k List.mem_cons_self
    have hne : key ≠ k := fun heq => String.lt_irrefl k (heq ▸ hlt)
    have hnot : ¬ key < k := fun hgt => String.lt_irrefl k (String.lt_trans hlt hgt)
    have hold := ih fun k' hk' => h k' (List.mem_cons_of_mem k hk')
    rw [insertMember, if_neg hne, if_neg hnot, hold, List.cons_append]

/-- Members in the order of their keys are kept as they are. -/
theorem foldlM_insertMember {s : Json → Source} {f : Json → Json}
    {old members : List (String × Json)}
    (hkeys : (old.map Prod.fst ++ members.map Prod.fst).Pairwise (· < ·))
    (h : ∀ m ∈ members, (s m.2).json? = some (f m.2)) :
    (members.map fun m => (m.1, s m.2)).foldlM
        (fun old m => m.2.json?.map fun v => insertMember m.1 v old) old =
      some (old ++ members.map fun m => (m.1, f m.2)) := by
  induction members generalizing old with
  | nil =>
    rw [List.map_nil, List.map_nil, List.append_nil]
    rfl
  | cons m members ih =>
    have hlt : ∀ k ∈ old.map Prod.fst, k < m.1 := fun k hk =>
      (List.pairwise_append.mp hkeys).2.2 k hk m.1 List.mem_cons_self
    have hold : ((old ++ [(m.1, f m.2)]).map Prod.fst ++ members.map Prod.fst).Pairwise (· < ·) := by
      rw [List.map_append, List.append_assoc]
      exact hkeys
    have hrest := ih hold fun m' hm' => h m' (List.mem_cons_of_mem m hm')
    rw [List.map_cons, List.foldlM_cons, h m List.mem_cons_self, Option.map_some,
      insertMember_of_lt hlt]
    refine hrest.trans ?_
    rw [List.append_assoc, List.map_cons]
    rfl

/-! ## The text of a value -/

/-- The digits with which numbers are written. -/
structure Numerals where
  integer : Int → Literal
  float : Float → Literal
  integer_text : ∀ n, (integer n).IsText (integerChars n)
  integer_literal : ∀ n, IsIntegerLiteral (integer n) n
  float_text : ∀ x, Decimal.isFinite x = true → (float x).IsText (floatChars x)
  float_fractional : ∀ x, Decimal.isFinite x = true → (float x).IsFractional

theorem exists_numerals : Nonempty Numerals := by
  have hfloats (x : Float) : ∃ l : Literal, Decimal.isFinite x = true →
      l.IsFractional ∧ l.IsText (floatChars x) := by
    by_cases hx : Decimal.isFinite x = true
    · obtain ⟨l, -, hl, htext⟩ := exists_isText_floatChars hx
      exact ⟨l, fun _ => ⟨hl.fractional, htext⟩⟩
    · exact ⟨⟨false, [], none, none⟩, fun h => absurd h hx⟩
  choose integer hinteger using exists_isText_integerChars
  choose float hfloat using hfloats
  exact ⟨⟨integer, float, fun n => (hinteger n).1, fun n => (hinteger n).2,
    fun x hx => (hfloat x hx).2, fun x hx => (hfloat x hx).1⟩⟩

namespace Numerals

variable (d : Numerals)

/-- What is written for a double. -/
def double (x : Float) : Source := if Decimal.isFinite x then .number (d.float x) else .null

mutual

/-- What is written for a value. -/
def source : Json → Source
  | .null => .null
  | .bool b => .bool b
  | .integer n => .number (d.integer n)
  | .float x => d.double x
  | .string text => .string text
  | .array items => .array (sourceItems items)
  | .object members => .object (sourceMembers members)

def sourceItems : List Json → List Source
  | [] => []
  | item :: rest => source item :: sourceItems rest

def sourceMembers : List (String × Json) → List (String × Source)
  | [] => []
  | (key, value) :: rest => (key, source value) :: sourceMembers rest

end

theorem sourceItems_eq_map (items : List Json) : d.sourceItems items = items.map d.source := by
  induction items with
  | nil => rfl
  | cons item rest ih => rw [sourceItems, ih, List.map_cons]

theorem sourceMembers_eq_map (members : List (String × Json)) :
    d.sourceMembers members = members.map fun m => (m.1, d.source m.2) := by
  induction members with
  | nil => rfl
  | cons m rest ih => rw [sourceMembers, ih, List.map_cons]

theorem isValue_double (x : Float) : IsValue (floatChars x) (d.double x) := by
  rw [double]
  split_ifs with hx
  · exact .number (d.float_text x hx)
  · rw [floatChars, if_neg hx]
    exact .null

/-- The text of a value is a text of what is written for it. -/
theorem isValue_chars (v : Json) : IsValue v.chars (d.source v) := by
  induction v using induct with
  | null => exact .null
  | bool b =>
    cases b with
    | true => exact .true
    | false => exact .false
  | integer n => exact .number (d.integer_text n)
  | float x => exact d.isValue_double x
  | string text => exact .string (isString_stringChars text)
  | array items ih =>
    rw [source, sourceItems_eq_map]
    cases items with
    | nil => exact .emptyArray isBlanks_nil
    | cons item rest =>
      rw [chars, furtherItems_eq]
      exact isValue_array ih
  | object members ih =>
    rw [source, sourceMembers_eq_map]
    cases members with
    | nil => exact .emptyObject isBlanks_nil
    | cons m rest =>
      rw [chars, furtherMembers_eq]
      exact isValue_object Prod.fst ih

/-- A whole text. -/
theorem isText_text (v : Json) : (d.source v).IsText v.text :=
  (d.isValue_chars v).isText String.toList_ofList

theorem depth_source (v : Json) : (d.source v).depth = v.depth := by
  induction v using induct with
  | float x =>
    rw [source, double]
    split_ifs <;> rfl
  | array items ih =>
    rw [source, sourceItems_eq_map, Source.depth, depth]
    congr 1
    apply eq_of_forall_ge_iff
    intro n
    rw [Source.depthItems_le_iff, depthItems_le_iff, List.forall_mem_map]
    exact forall₂_congr fun item hitem => by rw [ih item hitem]
  | object members ih =>
    rw [source, sourceMembers_eq_map, Source.depth, depth]
    congr 1
    apply eq_of_forall_ge_iff
    intro n
    rw [Source.depthMembers_le_iff, depthMembers_le_iff, List.forall_mem_map]
    exact forall₂_congr fun m hm => by rw [ih m hm]
  | _ => rfl

/-- Reading gives a proper value back, with its doubles as they are read. -/
theorem json?_source {v : Json} (hv : v.IsProper) {f : Float → Float}
    (hf : ∀ x ∈ v.floats, Decimal.isFinite x = true → (d.float x).value = .ok (.float (f x))) :
    (d.source v).json? = some (v.mapFloats f) := by
  induction hv with
  | null => rfl
  | bool b => rfl
  | @integer n h =>
    rw [source, Source.json?, (d.integer_literal n).value_eq h]
    rfl
  | @float x h =>
    rw [source, double, if_pos h, Source.json?, hf x (List.mem_singleton_self x) h]
    rfl
  | string text => rfl
  | @array items h ih =>
    have hitems : ∀ item ∈ items, (d.source item).json? = some (item.mapFloats f) :=
      fun item hitem => ih item hitem fun x hx => hf x (mem_floatsItems.mpr ⟨item, hitem, hx⟩)
    rw [source, Source.json?, Source.jsonItems?_eq_mapM, sourceItems_eq_map,
      mapM_map_eq_some hitems, mapFloats, mapFloatsItems_eq_map]
    rfl
  | @object members hkeys h ih =>
    have hmembers : ∀ m ∈ members, (d.source m.2).json? = some (m.2.mapFloats f) :=
      fun m hm => ih m hm fun x hx => hf x (mem_floatsMembers.mpr ⟨m, hm, hx⟩)
    have hfold : (d.sourceMembers members).foldlM
        (fun old m => m.2.json?.map fun v => insertMember m.1 v old) [] =
          some (members.map fun m => (m.1, m.2.mapFloats f)) := by
      rw [sourceMembers_eq_map]
      exact foldlM_insertMember hkeys hmembers
    rw [source, Source.json?, Source.jsonMembers?_eq_foldlM, hfold, mapFloats,
      mapFloatsMembers_eq_map]
    rfl

end Numerals

end Json
end ScoreTree
