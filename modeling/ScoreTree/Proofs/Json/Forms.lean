import ScoreTree.Proofs.Json.Values

/-!
# Forms of values

A value has one of the forms that readers want, apart from its numbers: these may be out of range. A
reader gives something exactly if the value has the form and the reader of numbers has a value for
each number in it (`isSome_list?`, `isSome_json?`).
-/

namespace ScoreTree
namespace Json

/-! ## Numbers with values -/

/-- The reader has a value for the number: an integer of 64 bits, or a double when its leading digits
are multiplied or divided by the double of a power of ten. -/
def Literal.HasValue (l : Literal) : Prop := ∃ n, l.value = .ok n

theorem Literal.isSome_value {l : Literal} : l.value.toOption.isSome ↔ l.HasValue := by
  unfold HasValue
  cases l.value <;> simp [Except.toOption]

/-- The power of ten behind the digits. -/
def Literal.writtenPower (l : Literal) : Int :=
  match l.exponent with
  | none => 0
  | some (true, ds) => -Int.ofNat (Number.ofDigits ds)
  | some (false, ds) => Int.ofNat (Number.ofDigits ds)

/-- The power of ten of the last digit. -/
def Literal.lastPower (l : Literal) : Int :=
  l.writtenPower - Int.ofNat (l.fraction.getD []).length

namespace Source

/-- All numbers in a value have values. -/
def HasValues (s : Source) : Prop := ∀ l ∈ s.literals, l.HasValue

theorem mem_literalsItems {l : Literal} {items : List Source} :
    l ∈ literalsItems items ↔ ∃ item ∈ items, l ∈ item.literals := by
  induction items with
  | nil => simp [literalsItems]
  | cons item rest ih => simp [literalsItems, ih]

theorem mem_literalsMembers {l : Literal} {members : List (String × Source)} :
    l ∈ literalsMembers members ↔ ∃ m ∈ members, l ∈ m.2.literals := by
  induction members with
  | nil => simp [literalsMembers]
  | cons m rest ih =>
    obtain ⟨key, value⟩ := m
    simp [literalsMembers, ih]

theorem hasValues_number {l : Literal} : (number l).HasValues ↔ l.HasValue := by
  simp [HasValues, literals]

theorem hasValues_array {items : List Source} :
    (array items).HasValues ↔ ∀ item ∈ items, item.HasValues := by
  simp only [HasValues, literals, mem_literalsItems]
  constructor
  · exact fun h item hitem l hl => h l ⟨item, hitem, hl⟩
  · rintro h l ⟨item, hitem, hl⟩
    exact h item hitem l hl

theorem hasValues_object {members : List (String × Source)} :
    (object members).HasValues ↔ ∀ m ∈ members, m.2.HasValues := by
  simp only [HasValues, literals, mem_literalsMembers]
  constructor
  · exact fun h m hm l hl => h l ⟨m, hm, hl⟩
  · rintro h l ⟨m, hm, hl⟩
    exact h m hm l hl

theorem isSome_mapM {β : Type} {f : Source → Option β} {items : List Source} :
    (items.mapM f).isSome ↔ ∀ item ∈ items, (f item).isSome := by
  induction items with
  | nil => simp
  | cons item rest ih =>
    rw [List.mapM_cons, List.forall_mem_cons, ← ih]
    cases f item <;> cases rest.mapM f <;> simp

/-- Members can be put in order if there is something for each of them. -/
theorem isSome_foldlM {α β γ : Type} {f : α → Option β} (step : α → β → γ → γ) {items : List α}
    (state : γ) :
    (items.foldlM (fun state item => (f item).map fun x => step item x state) state).isSome ↔
      ∀ item ∈ items, (f item).isSome := by
  induction items generalizing state with
  | nil => simp
  | cons item rest ih =>
    rw [List.foldlM_cons, List.forall_mem_cons]
    cases f item with
    | none => simp
    | some x => simpa using ih (step item x state)

/-- Any value can be read, up to its numbers. -/
theorem isSome_json? {s : Source} : s.json?.isSome ↔ s.HasValues := by
  induction s using induct with
  | null => simp [json?, HasValues, literals]
  | bool b => simp [json?, HasValues, literals]
  | number l => rw [json?, Option.isSome_map, Literal.isSome_value, hasValues_number]
  | string text => simp [json?, HasValues, literals]
  | array items ih =>
    rw [json?, Option.isSome_map, jsonItems?_eq_mapM, isSome_mapM, hasValues_array]
    exact forall₂_congr ih
  | object members ih =>
    rw [json?, Option.isSome_map, jsonMembers?_eq_foldlM,
      isSome_foldlM (fun (m : String × Source) v old => insertMember m.1 v old), hasValues_object]
    exact forall₂_congr ih

/-! ## Forms -/

def IsNumber (s : Source) : Prop := ∃ l, s = number l

def IsString (s : Source) : Prop := ∃ text, s = string text

/-- An array whose items are all of a certain form. -/
def IsArrayOf (p : Source → Prop) (s : Source) : Prop :=
  ∃ items, s = array items ∧ ∀ item ∈ items, p item

theorem isArrayOf_array {p : Source → Prop} {items : List Source} :
    (array items).IsArrayOf p ↔ ∀ item ∈ items, p item := by
  simp [IsArrayOf]

theorem isSome_float? (s : Source) : s.float?.isSome ↔ s.IsNumber ∧ s.HasValues := by
  cases s with
  | number l => simp [float?, IsNumber, hasValues_number, Literal.isSome_value]
  | _ => simp [float?, IsNumber]

theorem isSome_text? (s : Source) : s.text?.isSome ↔ s.IsString := by
  cases s with
  | _ => simp [text?, IsString]

theorem isSome_list? {β : Type} {f : Source → Option β} {p : Source → Prop}
    (hf : ∀ s, (f s).isSome ↔ p s ∧ s.HasValues) (s : Source) :
    (s.list? f).isSome ↔ s.IsArrayOf p ∧ s.HasValues := by
  cases s with
  | array items =>
    rw [list?, isSome_mapM, isArrayOf_array, hasValues_array, ← forall₂_and]
    exact forall₂_congr fun item _ => hf item
  | _ => simp [list?, IsArrayOf]

end Source
end Json
end ScoreTree
