import ScoreTree.Json.Value

/-!
# Named choices

One of several names, given as a string or as an object whose only member has that name and the
value null.
-/

namespace ScoreTree
namespace Json
namespace Reader

/-- A string that is one of the names, or the failure that lists them. -/
def chosen {β : Type} (known : List (String × β)) : Reader β := do
  let name ← string
  match known.lookup name with
  | some x => return x
  | none => throw (.unknownName name (known.map Prod.fst))

/-- The value null. -/
def null : Reader Unit :=
  dispatch fun c =>
    if c = 'n' then do
      advance
      word ['u', 'l', 'l']
    else mismatch .unit c

/-- One of the named values. -/
def choice {β : Type} (known : List (String × β)) : Reader β :=
  dispatch fun c =>
    match c with
    | '"' => do
      advance
      chosen known
    | '\x7b' => do
      advance
      match ← token with
      | none => throw .endInObject
      | some '\x7d' => throw .expectedValue
      | some '"' =>
        advance
        let x ← chosen known
        colon
        null
        match ← token with
        | none => throw .endInObject
        | some '\x7d' =>
          advance
          return x
        | some _ => throw .expectedValue
      | some _ => throw .keyNotString
    | _ => throw .expectedValue

end Reader
end Json
end ScoreTree
