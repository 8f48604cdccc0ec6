import ScoreTree.Text.Printable

/-!
# Quoted text

Text between double quotes as it stands in error messages: what a reader could not see or could
misread is escaped, everything else is written as it is.
-/

namespace ScoreTree
namespace Text

/-- The escapes of two characters. -/
def shortEscape? : Char → Option Char
  | '"' => some '"'
  | '\\' => some '\\'
  | '\n' => some 'n'
  | '\r' => some 'r'
  | '\t' => some 't'
  | '\x00' => some '0'
  | _ => none

/-- One character inside quotes. A character that is not visible or does not stand alone is written
by its code point, in as few lowercase hexadecimal digits as it takes. -/
def quoteChar (c : Char) : List Char :=
  match shortEscape? c with
  | some e => ['\\', e]
  | none =>
    if standsAlone c then [c]
    else ['\\', 'u', '\x7b'] ++ Nat.toDigits 16 c.toNat ++ ['\x7d']

/-- The text between double quotes. -/
def quoted (text : String) : String :=
  String.ofList ('"' :: (text.toList.flatMap quoteChar ++ ['"']))

end Text
end ScoreTree
