/-!
The values of a TOML document. A table remembers how it came about, because that decides what may
still be added to it; an array remembers whether it is made of `[[...]]` sections.
-/

namespace MultipleDispatch.Toml

/-- How a table came about. -/
inductive Origin where
  /-- It has a `[...]` or `[[...]]` header of its own. -/
  | header
  /-- A header of a table inside it called for it. -/
  | implied
  /-- A dotted key called for it. -/
  | dotted
  /-- It was written in braces, and nothing can be added. -/
  | inline
  deriving DecidableEq

/-- A value. Floats, dates and times are kept as they were written. -/
inductive Value where
  | string (s : String)
  | integer (n : Int)
  | float (literal : String)
  | boolean (b : Bool)
  | moment (literal : String)
  | array (sections : Bool) (items : List Value)
  | table (origin : Origin) (entries : List (String × Value))

/-- What a table holds, in the order of its keys' first appearance. -/
abbrev Entries := List (String × Value)

namespace Value

/-- The text of a string. -/
def string? : Value → Option String
  | string s => some s
  | _ => none

/-- The truth value of a boolean. -/
def boolean? : Value → Option Bool
  | boolean b => some b
  | _ => none

/-- The elements of an array. -/
def items? : Value → Option (List Value)
  | array _ items => some items
  | _ => none

/-- The entries of a table. -/
def entries? : Value → Option Entries
  | table _ entries => some entries
  | _ => none

/-- The texts of an array of strings. -/
def strings? (v : Value) : Option (List String) := v.items?.bind fun items => items.mapM string?

end Value

end MultipleDispatch.Toml
