/-!
# JSON values

A JSON value tells integers from other numbers. The members of an object that was read are in
ascending order of their keys, by code point, and no key occurs twice: `Json.insertMember` puts a
member in its place, and the last value of a key is the one that stays.
-/

namespace ScoreTree

inductive Json where
  | null
  | bool (b : Bool)
  | integer (n : Int)
  /-- A number with a fraction or an exponent, or one that is too large for an integer. -/
  | float (x : Float)
  | string (text : String)
  | array (items : List Json)
  | object (members : List (String × Json))

namespace Json

instance : Inhabited Json := ⟨null⟩

/-- Adds a member in the order of the keys. It replaces a member of the same key. -/
def insertMember (key : String) (value : Json) : List (String × Json) → List (String × Json)
  | [] => [(key, value)]
  | (k, v) :: rest =>
    if key = k then (key, value) :: rest
    else if key < k then (key, value) :: (k, v) :: rest
    else (k, v) :: insertMember key value rest

/-- The member of an object. -/
def member? (key : String) : Json → Option Json
  | object members => members.lookup key
  | _ => none

end Json
end ScoreTree
