import MultipleDispatch.Toml.Assembly
import MultipleDispatch.Toml.Scalar
import MultipleDispatch.Toml.Strings

/-!
Reading TOML documents. A document is a list of statements, one to a line; reading fails as soon as
something is not a statement, or does not go with what was said before.
-/

namespace MultipleDispatch.Toml

/-- Arrays and inline tables may be nested this deep. -/
def maxNesting : Nat := 80

/-- A key may have this many parts. -/
def maxKeyParts : Nat := 80

/-- The input behind spaces and tabs. -/
def skipSpace (cs : List Char) : List Char := cs.dropWhile isSpace

/-- Passes over space, line ends and comments; `comment` is set inside a comment. -/
def skipFiller (comment : Bool) : List Char → Option (List Char)
  | [] => some []
  | '\n' :: rest => skipFiller false rest
  | '\r' :: '\n' :: rest => skipFiller false rest
  | c :: rest =>
    if comment then if isTextChar c then skipFiller true rest else none
    else if isSpace c then skipFiller false rest
    else if c == '#' then skipFiller true rest
    else some (c :: rest)

/-- Passes over the rest of a line that has nothing but space and a comment. -/
def endLine (cs : List Char) : Option (List Char) :=
  let rest := match skipSpace cs with
    | '#' :: comment => comment.dropWhile isTextChar
    | rest => rest
  if rest.isEmpty then some [] else newline? rest

/-- The characters of keys without quotes. -/
def isBareKeyChar (c : Char) : Bool := c.isAlphanum || c == '_' || c == '-'

/-- One part of a key, bare or in quotes. -/
def keyPart : List Char → Option (String × List Char)
  | '"' :: rest => (basic rest).map fun (cs, rest) => (String.ofList cs, rest)
  | '\'' :: rest => (literal rest).map fun (cs, rest) => (String.ofList cs, rest)
  | cs =>
    let name := cs.takeWhile isBareKeyChar
    if name.isEmpty then none else some (String.ofList name, cs.dropWhile isBareKeyChar)

/-- A key of at most `n` parts, divided by dots, with the space around it. -/
def key? : Nat → List Char → Option (Key × List Char)
  | 0, _ => none
  | n + 1, cs => do
    let (part, rest) ← keyPart (skipSpace cs)
    match skipSpace rest with
    | '.' :: rest =>
      let (key, rest) ← key? n rest
      some ({ key with path := part :: key.path }, rest)
    | rest => some (⟨[], part⟩, rest)

mutual

/-- A value, in at most `n` steps and nested at most `depth` deep. -/
def value? : Nat → Nat → List Char → Option (Value × List Char)
  | 0, _, _ => none
  | n + 1, depth, cs =>
    match cs, depth with
    | '[' :: rest, depth + 1 =>
      (items? n depth rest).map fun (items, rest) => (.array false items, rest)
    | '[' :: _, 0 => none
    | '\x7b' :: rest, depth + 1 =>
      match skipSpace rest with
      | '\x7d' :: rest => some (.table .inline [], rest)
      | rest => do
        let (assignments, rest) ← assignments? n depth rest
        some (.table .inline (← Entries.fill assignments []), rest)
    | '\x7b' :: _, 0 => none
    | '"' :: _, _ => (string? cs).map fun (s, rest) => (.string s, rest)
    | '\'' :: _, _ => (string? cs).map fun (s, rest) => (.string s, rest)
    | _, _ => scalar? cs

/-- The elements of an array, up to and with its closing bracket. -/
def items? : Nat → Nat → List Char → Option (List Value × List Char)
  | 0, _, _ => none
  | n + 1, depth, cs => do
    match ← skipFiller false cs with
    | ']' :: rest => some ([], rest)
    | rest =>
      let (item, rest) ← value? n depth rest
      match ← skipFiller false rest with
      | ']' :: rest => some ([item], rest)
      | ',' :: rest =>
        let (items, rest) ← items? n depth rest
        some (item :: items, rest)
      | _ => none

/-- The assignments of an inline table, up to and with its closing brace. -/
def assignments? : Nat → Nat → List Char → Option (List (Key × Value) × List Char)
  | 0, _, _ => none
  | n + 1, depth, cs => do
    let (key, rest) ← key? maxKeyParts cs
    let '=' :: rest := rest | none
    let (value, rest) ← value? n depth (skipSpace rest)
    match skipSpace rest with
    | '\x7d' :: rest => some ([(key, value)], rest)
    | ',' :: rest =>
      let (more, rest) ← assignments? n depth rest
      some ((key, value) :: more, rest)
    | _ => none

end

/-- The statement at the start of a line. -/
def statement? (cs : List Char) : Option (Statement × List Char) :=
  match cs with
  | '[' :: '[' :: rest => do
    let (key, rest) ← key? maxKeyParts rest
    let ']' :: ']' :: rest := rest | none
    some (.header true key, rest)
  | '[' :: rest => do
    let (key, rest) ← key? maxKeyParts rest
    let ']' :: rest := rest | none
    some (.header false key, rest)
  | _ => do
    let (key, rest) ← key? maxKeyParts cs
    let '=' :: rest := rest | none
    let (value, rest) ← value? (rest.length + 1) maxNesting (skipSpace rest)
    some (.assign key value, rest)

/-- The statements of a document, in at most `n` steps. -/
def statements? : Nat → List Char → Option (List Statement)
  | 0, _ => none
  | n + 1, cs => do
    match ← skipFiller false cs with
    | [] => some []
    | rest =>
      let (statement, rest) ← statement? rest
      let rest ← endLine rest
      (statement :: ·) <$> statements? n rest

/-- The input without the mark of its encoding. -/
def dropMark : List Char → List Char
  | '\ufeff' :: rest => rest
  | rest => rest

/-- Reads a document. -/
def parse? (text : String) : Option Entries :=
  let cs := dropMark text.toList
  (statements? (cs.length + 1) cs).bind assemble

end MultipleDispatch.Toml
