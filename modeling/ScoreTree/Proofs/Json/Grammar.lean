import Mathlib.Tactic
import ScoreTree.Proofs.Json.Outcome

/-!
# The grammar of JSON texts

`Source.IsText` relates a text to what is written in it: its blanks and the spelling of its strings
and numbers are left out, the order and the repetition of the members of its objects are not. The
grammar does not mention the readers.
-/

namespace ScoreTree
namespace Json

/-! ## Strings -/

/-- The short escapes and the characters that they stand for. -/
def shortEscapes : List (Char × Char) :=
  [('"', '"'), ('\\', '\\'), ('/', '/'), ('b', '\x08'), ('f', '\x0c'), ('n', '\n'), ('r', '\r'),
    ('t', '\t')]

/-- A hexadecimal digit of the given value. -/
def IsHexDigit (c : Char) (n : Nat) : Prop :=
  n < 16 ∧ (c = Nat.digitChar n ∨ c = (Nat.digitChar n).toUpper)

/-- Four hexadecimal digits of the given value. -/
inductive IsCode : List Char → Nat → Prop
  | digits {a b c d : Char} {i j k l : Nat} (ha : IsHexDigit a i) (hb : IsHexDigit b j)
      (hc : IsHexDigit c k) (hd : IsHexDigit d l) :
      IsCode [a, b, c, d] (((i * 16 + j) * 16 + k) * 16 + l)

/-- The spelling of a text between quotes. A character beyond 16 bits may be spelled by the codes of a
surrogate pair, and half a pair spells nothing. -/
inductive Spells : List Char → List Char → Prop
  | nil : Spells [] []
  | plain {c : Char} {cs text : List Char} (hquote : c ≠ '"') (hslash : c ≠ '\\')
      (hcontrol : 0x20 ≤ c.toNat) (h : Spells cs text) : Spells (c :: cs) (c :: text)
  | short {e c : Char} {cs text : List Char} (hescape : (e, c) ∈ shortEscapes)
      (h : Spells cs text) : Spells ('\\' :: e :: cs) (c :: text)
  | code {digits cs text : List Char} {n : Nat} (hcode : IsCode digits n)
      (hsurrogate : ¬ (0xd800 ≤ n ∧ n ≤ 0xdfff)) (h : Spells cs text) :
      Spells ('\\' :: 'u' :: (digits ++ cs)) (Char.ofNat n :: text)
  | pair {high low cs text : List Char} {n m : Nat} (hhigh : IsCode high n)
      (hn : 0xd800 ≤ n ∧ n ≤ 0xdbff) (hlow : IsCode low m) (hm : 0xdc00 ≤ m ∧ m ≤ 0xdfff)
      (h : Spells cs text) :
      Spells ('\\' :: 'u' :: (high ++ '\\' :: 'u' :: (low ++ cs)))
        (Char.ofNat (0x10000 + (n - 0xd800) * 0x400 + (m - 0xdc00)) :: text)

/-- A text between quotes. -/
inductive IsString : List Char → String → Prop
  | quoted {body : List Char} {text : String} (h : Spells body text.toList) :
      IsString ('"' :: (body ++ ['"'])) text

/-! ## Numbers -/

/-- Digits of a number, of which there is at least one. -/
def IsDigits (ds : List Nat) : Prop := ds ≠ [] ∧ ∀ d ∈ ds, d < 10

def digitChars (ds : List Nat) : List Char := ds.map Nat.digitChar

/-- The digits of a number are complete, and the whole part does not start with a zero unless it is
zero. -/
structure Literal.WellFormed (l : Literal) : Prop where
  whole : IsDigits l.whole
  leading : l.whole.head? = some 0 → l.whole = [0]
  fraction : ∀ ds ∈ l.fraction, IsDigits ds
  exponent : ∀ e ∈ l.exponent, IsDigits e.2

def fractionChars : Option (List Nat) → List Char
  | none => []
  | some ds => '.' :: digitChars ds

/-- An exponent, whose mark has two forms and whose plus sign may be left out. -/
inductive IsExponent : Option (Bool × List Nat) → List Char → Prop
  | absent : IsExponent none []
  | minus {mark : Char} (hmark : mark = 'e' ∨ mark = 'E') (ds : List Nat) :
      IsExponent (some (true, ds)) (mark :: '-' :: digitChars ds)
  | plus {mark : Char} (hmark : mark = 'e' ∨ mark = 'E') (ds : List Nat) :
      IsExponent (some (false, ds)) (mark :: '+' :: digitChars ds)
  | unsigned {mark : Char} (hmark : mark = 'e' ∨ mark = 'E') (ds : List Nat) :
      IsExponent (some (false, ds)) (mark :: digitChars ds)

/-- The text of a number. -/
inductive Literal.IsText : Literal → List Char → Prop
  | digits {l : Literal} {exponent : List Char} (h : l.WellFormed)
      (hexponent : IsExponent l.exponent exponent) :
      l.IsText ((if l.negative = true then ['-'] else []) ++ (digitChars l.whole ++
        (fractionChars l.fraction ++ exponent)))

/-! ## Values -/

/-- What is written in a text. -/
inductive Source where
  | null
  | bool (b : Bool)
  | number (l : Literal)
  | string (text : String)
  | array (items : List Source)
  /-- The members in the order in which they are written, where keys may repeat. -/
  | object (members : List (String × Source))

/-- A part of a text that is written between blanks. -/
structure Padded (α : Type) where
  before : List Char
  core : List Char
  after : List Char
  /-- What the part stands for. -/
  content : α
  before_blank : IsBlanks before
  after_blank : IsBlanks after

def Padded.chars {α : Type} (p : Padded α) : List Char := p.before ++ (p.core ++ p.after)

/-- The parts after the first one, each behind a comma, and the closing character. -/
def furtherChars (close : Char) : List (List Char) → List Char
  | [] => [close]
  | part :: parts => ',' :: (part ++ furtherChars close parts)

/-- A key and a value. -/
structure Member where
  key : Padded String
  value : Padded Source

namespace Member

def chars (m : Member) : List Char := m.key.chars ++ ':' :: m.value.chars

def content (m : Member) : String × Source := (m.key.content, m.value.content)

end Member

/-- The text of a value, without blanks around it. -/
inductive IsValue : List Char → Source → Prop
  | null : IsValue ['n', 'u', 'l', 'l'] .null
  | true : IsValue ['t', 'r', 'u', 'e'] (.bool true)
  | false : IsValue ['f', 'a', 'l', 's', 'e'] (.bool false)
  | number {cs : List Char} {l : Literal} (h : l.IsText cs) : IsValue cs (.number l)
  | string {cs : List Char} {text : String} (h : IsString cs text) : IsValue cs (.string text)
  | emptyArray {blanks : List Char} (h : IsBlanks blanks) :
      IsValue ('[' :: (blanks ++ [']'])) (.array [])
  | array {first : Padded Source} {further : List (Padded Source)}
      (h : ∀ p ∈ first :: further, IsValue p.core p.content) :
      IsValue ('[' :: (first.chars ++ furtherChars ']' (further.map Padded.chars)))
        (.array ((first :: further).map Padded.content))
  | emptyObject {blanks : List Char} (h : IsBlanks blanks) :
      IsValue ('\x7b' :: (blanks ++ ['\x7d'])) (.object [])
  | object {first : Member} {further : List Member}
      (hkeys : ∀ m ∈ first :: further, IsString m.key.core m.key.content)
      (h : ∀ m ∈ first :: further, IsValue m.value.core m.value.content) :
      IsValue ('\x7b' :: (first.chars ++ furtherChars '\x7d' (further.map Member.chars)))
        (.object ((first :: further).map Member.content))

namespace Source

/-- A whole text, between blanks. -/
def IsText (text : String) (s : Source) : Prop :=
  ∃ p : Padded Source, IsValue p.core s ∧ text.toList = p.chars

/-! ## What is inside -/

mutual

/-- How many arrays and objects stand inside each other. -/
def depth : Source → Nat
  | array items => depthItems items + 1
  | object members => depthMembers members + 1
  | _ => 0

def depthItems : List Source → Nat
  | [] => 0
  | item :: rest => max item.depth (depthItems rest)

def depthMembers : List (String × Source) → Nat
  | [] => 0
  | (_, value) :: rest => max value.depth (depthMembers rest)

end

mutual

/-- All numbers, in the order in which they are written. -/
def literals : Source → List Literal
  | number l => [l]
  | array items => literalsItems items
  | object members => literalsMembers members
  | _ => []

def literalsItems : List Source → List Literal
  | [] => []
  | item :: rest => item.literals ++ literalsItems rest

def literalsMembers : List (String × Source) → List Literal
  | [] => []
  | (_, value) :: rest => value.literals ++ literalsMembers rest

end

mutual

/-- The value, if all its numbers are in range. The members of an object are put in order, and the
last one of a key is kept. -/
def json? : Source → Option Json
  | null => some .null
  | bool b => some (.bool b)
  | number l => l.value.toOption.map Number.toJson
  | string text => some (.string text)
  | array items => (jsonItems? items).map .array
  | object members => (jsonMembers? [] members).map .object

def jsonItems? : List Source → Option (List Json)
  | [] => some []
  | item :: rest => do return (← item.json?) :: (← jsonItems? rest)

def jsonMembers? (old : List (String × Json)) :
    List (String × Source) → Option (List (String × Json))
  | [] => some old
  | (key, value) :: rest => do jsonMembers? (insertMember key (← value.json?) old) rest

end

theorem depthItems_le_iff {items : List Source} {d : Nat} :
    depthItems items ≤ d ↔ ∀ item ∈ items, item.depth ≤ d := by
  induction items with
  | nil => simp [depthItems]
  | cons item rest ih => simp [depthItems, ih]

theorem depthMembers_le_iff {members : List (String × Source)} {d : Nat} :
    depthMembers members ≤ d ↔ ∀ member ∈ members, member.2.depth ≤ d := by
  induction members with
  | nil => simp [depthMembers]
  | cons member rest ih => simp [depthMembers, ih]

/-- What is inside an array is less deep. -/
theorem exists_of_depth_array_le {items : List Source} {d : Nat} (h : (array items).depth ≤ d) :
    ∃ inner, d = inner + 1 ∧ ∀ item ∈ items, item.depth ≤ inner := by
  obtain ⟨inner, rfl⟩ := Nat.exists_eq_add_one_of_ne_zero (Nat.ne_zero_of_lt h)
  exact ⟨inner, rfl, depthItems_le_iff.mp (Nat.le_of_succ_le_succ h)⟩

/-- What is inside an object is less deep. -/
theorem exists_of_depth_object_le {members : List (String × Source)} {d : Nat}
    (h : (object members).depth ≤ d) :
    ∃ inner, d = inner + 1 ∧ ∀ member ∈ members, member.2.depth ≤ inner := by
  obtain ⟨inner, rfl⟩ := Nat.exists_eq_add_one_of_ne_zero (Nat.ne_zero_of_lt h)
  exact ⟨inner, rfl, depthMembers_le_iff.mp (Nat.le_of_succ_le_succ h)⟩

/-- Induction over what is inside. -/
@[elab_as_elim]
theorem induct {motive : Source → Prop} (null : motive null) (bool : ∀ b, motive (bool b))
    (number : ∀ l, motive (number l)) (string : ∀ text, motive (string text))
    (array : ∀ items, (∀ item ∈ items, motive item) → motive (array items))
    (object : ∀ members, (∀ m ∈ members, motive m.2) → motive (object members)) (s : Source) :
    motive s := by
  have hdepth : ∀ d s, s.depth ≤ d → motive s := by
    intro d
    induction d with
    | zero =>
      intro s hs
      cases s with
      | null => exact null
      | bool b => exact bool b
      | number l => exact number l
      | string text => exact string text
      | array items => exact absurd hs (Nat.not_succ_le_zero _)
      | object members => exact absurd hs (Nat.not_succ_le_zero _)
    | succ d ih =>
      intro s hs
      cases s with
      | null => exact null
      | bool b => exact bool b
      | number l => exact number l
      | string text => exact string text
      | array items =>
        have hitems := depthItems_le_iff.mp (Nat.le_of_succ_le_succ hs)
        exact array items fun item hitem => ih item (hitems item hitem)
      | object members =>
        have hmembers := depthMembers_le_iff.mp (Nat.le_of_succ_le_succ hs)
        exact object members fun m hm => ih m.2 (hmembers m hm)
  exact hdepth s.depth s (Nat.le_refl _)

theorem jsonItems?_eq_mapM (items : List Source) : jsonItems? items = items.mapM json? := by
  induction items with
  | nil => rfl
  | cons item rest ih =>
    rw [jsonItems?, ih, List.mapM_cons]

theorem jsonMembers?_eq_foldlM (old : List (String × Json)) (members : List (String × Source)) :
    jsonMembers? old members =
      members.foldlM (fun old member =>
        member.2.json?.map fun v => insertMember member.1 v old) old := by
  induction members generalizing old with
  | nil => rfl
  | cons member rest ih =>
    rw [jsonMembers?, List.foldlM_cons]
    cases member.2.json? with
    | none => rfl
    | some v => exact ih _

end Source

/-! ## First characters -/

/-- The characters that start a number. -/
def numberStarts : List Char := ['-', '0', '1', '2', '3', '4', '5', '6', '7', '8', '9']

theorem forall_numberStarts {p : Char → Prop} [DecidablePred p]
    (h : numberStarts.all (fun c => decide (p c)) = true) : ∀ c ∈ numberStarts, p c := by
  simpa using h

namespace Source

/-- The characters that a value can start with. -/
def starts : Source → List Char
  | null => ['n']
  | bool true => ['t']
  | bool false => ['f']
  | number _ => numberStarts
  | string _ => ['"']
  | array _ => ['[']
  | object _ => ['\x7b']

theorem mark_of_mem_starts {s : Source} {c : Char} (h : c ∈ s.starts) : IsMark c ∧ c ≠ ']' := by
  have hnumber : ∀ c ∈ numberStarts, IsMark c ∧ c ≠ ']' := forall_numberStarts (by decide)
  cases s with
  | number l => exact hnumber c h
  | bool b => cases b <;> rw [List.mem_singleton.mp h] <;> decide
  | _ =>
    rw [List.mem_singleton.mp h]
    decide

end Source

theorem digitChar_mem_numberStarts : ∀ d < 10, Nat.digitChar d ∈ numberStarts := by decide

theorem Literal.IsText.starts {l : Literal} {cs : List Char} (h : l.IsText cs) :
    ∃ c rest, cs = c :: rest ∧ c ∈ numberStarts := by
  cases h with
  | digits hl hexponent =>
    cases hsign : l.negative with
    | true => exact ⟨_, _, rfl, by decide⟩
    | false =>
      obtain ⟨d, ds, hwhole⟩ := List.exists_cons_of_ne_nil hl.whole.1
      have hd : d < 10 := hl.whole.2 d (by simp [hwhole])
      rw [hwhole]
      exact ⟨_, _, rfl, digitChar_mem_numberStarts d hd⟩

theorem IsString.exists_body {cs : List Char} {text : String} (h : IsString cs text) :
    ∃ body, cs = '"' :: (body ++ ['"']) ∧ Spells body text.toList := by
  cases h with
  | quoted h => exact ⟨_, rfl, h⟩

theorem IsValue.starts {cs : List Char} {s : Source} (h : IsValue cs s) :
    ∃ c rest, cs = c :: rest ∧ c ∈ s.starts := by
  cases h with
  | number h => exact h.starts
  | string h =>
    obtain ⟨body, rfl, -⟩ := h.exists_body
    exact ⟨_, _, rfl, List.mem_singleton_self _⟩
  | _ => exact ⟨_, _, rfl, List.mem_singleton_self _⟩

/-! ## Lengths -/

theorem length_core_le {α : Type} (p : Padded α) : p.core.length ≤ p.chars.length := by
  rw [Padded.chars, List.length_append, List.length_append]
  omega

theorem length_le_of_mem {part first : List Char} {parts : List (List Char)} {close : Char}
    (h : part ∈ first :: parts) : part.length ≤ (first ++ furtherChars close parts).length := by
  induction parts generalizing first with
  | nil =>
    rw [List.mem_singleton.mp h, List.length_append]
    exact Nat.le_add_right _ _
  | cons next parts ih =>
    rw [List.length_append]
    rcases List.mem_cons.mp h with rfl | h
    · exact Nat.le_add_right _ _
    · have hnext := ih h
      rw [furtherChars, List.length_cons]
      omega

/-- Every array and object takes a character at least. -/
theorem IsValue.depth_le_length {cs : List Char} {s : Source} (h : IsValue cs s) :
    s.depth ≤ cs.length := by
  induction h with
  | @array first further h ih =>
    rw [Source.depth, List.length_cons]
    apply Nat.succ_le_succ
    rw [Source.depthItems_le_iff, List.forall_mem_map]
    intro p hp
    exact (ih p hp).trans ((length_core_le p).trans (length_le_of_mem (List.mem_map_of_mem hp)))
  | @object first further hkeys h ih =>
    rw [Source.depth, List.length_cons]
    apply Nat.succ_le_succ
    rw [Source.depthMembers_le_iff, List.forall_mem_map]
    intro m hm
    have hvalue : m.value.core.length ≤ m.chars.length := by
      have hcore := length_core_le m.value
      rw [Member.chars, List.length_append, List.length_cons]
      omega
    exact (ih m hm).trans (hvalue.trans (length_le_of_mem (List.mem_map_of_mem hm)))
  | _ => simp [Source.depth, Source.depthItems, Source.depthMembers]

end Json
end ScoreTree
