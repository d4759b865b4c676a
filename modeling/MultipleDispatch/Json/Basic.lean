import MultipleDispatch.Text.Hex

/-!
JSON values and their text on several lines: two spaces for each level, one element or field to a
line, and nothing between the brackets of an empty list.
-/

namespace MultipleDispatch

/-- A JSON value. The only numbers here are counts and positions. -/
inductive Json where
  | null
  | bool (b : Bool)
  | number (n : Nat)
  | string (s : String)
  | array (items : List Json)
  | object (fields : List (String × Json))

namespace Json

/-- How a character is written in a string. -/
def escapedChar (c : Char) : List Char :=
  match c with
  | '"' => ['\\', '"']
  | '\\' => ['\\', '\\']
  | '\x08' => ['\\', 'b']
  | '\x0c' => ['\\', 'f']
  | '\n' => ['\\', 'n']
  | '\r' => ['\\', 'r']
  | '\t' => ['\\', 't']
  | _ =>
    if c < ' ' then
      let digits := Text.hexDigits c.toNat
      '\\' :: 'u' :: List.replicate (4 - digits.length) '0' ++ digits
    else [c]

/-- A string literal. -/
def literal (s : String) : String :=
  String.ofList ('"' :: s.toList.flatMap escapedChar ++ ['"'])

/-- Begins a line at the given level. -/
def newLine (level : Nat) : String := "\n".pushn ' ' (2 * level)

mutual

/-- The text of a value whose closing bracket stands at `level`. -/
def prettyAt (level : Nat) : Json → String
  | null => "null"
  | bool b => if b then "true" else "false"
  | number n => toString n
  | string s => literal s
  | array [] => "[]"
  | array (x :: xs) => "[" ++ prettyItems level (x :: xs) ++ newLine level ++ "]"
  | object [] => "\x7b\x7d"
  | object (f :: fs) => "\x7b" ++ prettyFields level (f :: fs) ++ newLine level ++ "\x7d"

/-- The elements of an array, each on a line of its own. -/
def prettyItems (level : Nat) : List Json → String
  | [] => ""
  | [x] => newLine (level + 1) ++ prettyAt (level + 1) x
  | x :: xs => newLine (level + 1) ++ prettyAt (level + 1) x ++ "," ++ prettyItems level xs

/-- The fields of an object, each on a line of its own. -/
def prettyFields (level : Nat) : List (String × Json) → String
  | [] => ""
  | [(key, x)] => newLine (level + 1) ++ literal key ++ ": " ++ prettyAt (level + 1) x
  | (key, x) :: fs =>
    newLine (level + 1) ++ literal key ++ ": " ++ prettyAt (level + 1) x ++ "," ++
      prettyFields level fs

end

/-- The text of a value on several lines. -/
def pretty (j : Json) : String := j.prettyAt 0

/-- The field `key` of an object. -/
def field? (fields : List (String × Json)) (key : String) : Option Json := fields.lookup key

/-- The text of a string. -/
def string? : Json → Option String
  | string s => some s
  | _ => none

/-- The texts of an array of strings. -/
def strings? : Json → Option (List String)
  | array items => items.mapM string?
  | _ => none

/-- An array of strings. -/
def ofStrings (texts : List String) : Json := array (texts.map string)

/-- A value that may be missing. -/
def ofOption {α : Type} (encode : α → Json) : Option α → Json
  | none => null
  | some a => encode a

end Json

end MultipleDispatch
