import MultipleDispatch.Text.Hex

/-!
TOML strings in their four forms. Each reader starts behind the opening quotes and gives the text and
what follows the closing ones.
-/

namespace MultipleDispatch.Toml

/-- Characters that may stand in a text: all but controls, tabs excepted. -/
def isTextChar (c : Char) : Bool := c == '\t' || (' ' ≤ c && c != '\x7f')

/-- Spaces and tabs. -/
def isSpace (c : Char) : Bool := c == ' ' || c == '\t'

/-- The rest behind a line end, if there is one here. -/
def newline? : List Char → Option (List Char)
  | '\n' :: rest => some rest
  | '\r' :: '\n' :: rest => some rest
  | _ => none

/-- A text without the line end that it begins with. -/
def dropNewline (cs : List Char) : List Char := (newline? cs).getD cs

/-- The character of a one-letter escape. -/
def escape? : Char → Option Char
  | 'b' => some '\x08'
  | 't' => some '\t'
  | 'n' => some '\n'
  | 'f' => some '\x0c'
  | 'r' => some '\r'
  | '"' => some '"'
  | '\\' => some '\\'
  | _ => none

/-- The character with the given code point in hexadecimal. -/
def codePoint? (digits : List Char) : Option Char := do
  let n ← Text.ofHex? digits
  if n.isValidChar then some (Char.ofNat n) else none

/-- Puts a character in front of what was read after it. -/
def andThen (c : Char) (tail : Option (List Char × List Char)) : Option (List Char × List Char) :=
  tail.map fun (cs, rest) => (c :: cs, rest)

/-- A text in double quotes, on one line. -/
def basic : List Char → Option (List Char × List Char)
  | [] => none
  | '"' :: rest => some ([], rest)
  | '\\' :: 'u' :: a :: b :: c :: d :: rest =>
    (codePoint? [a, b, c, d]).bind fun x => andThen x (basic rest)
  | '\\' :: 'U' :: a :: b :: c :: d :: e :: f :: g :: h :: rest =>
    (codePoint? [a, b, c, d, e, f, g, h]).bind fun x => andThen x (basic rest)
  | '\\' :: e :: rest => (escape? e).bind fun x => andThen x (basic rest)
  | c :: rest => if isTextChar c then andThen c (basic rest) else none

/-- A text in single quotes, on one line: every character stands for itself. -/
def literal : List Char → Option (List Char × List Char)
  | [] => none
  | '\'' :: rest => some ([], rest)
  | c :: rest => if isTextChar c then andThen c (literal rest) else none

/-- Is there nothing but space up to the end of the line? -/
def endsLine (cs : List Char) : Bool := (newline? (cs.dropWhile isSpace)).isSome

/-- A text in three double quotes. Line ends are kept as they are written, and up to two quotes may
    stand right before the closing ones. A backslash at the end of a line joins the lines: `joining` is
    set while the space and the line ends behind it are passed over. -/
def multiBasic (joining : Bool) : List Char → Option (List Char × List Char)
  | [] => none
  | '"' :: '"' :: '"' :: '"' :: '"' :: rest => some (['"', '"'], rest)
  | '"' :: '"' :: '"' :: '"' :: rest => some (['"'], rest)
  | '"' :: '"' :: '"' :: rest => some ([], rest)
  | '\r' :: '\n' :: rest =>
    if joining then multiBasic true rest else andThen '\r' (andThen '\n' (multiBasic false rest))
  | '\n' :: rest =>
    if joining then multiBasic true rest else andThen '\n' (multiBasic false rest)
  | '\\' :: 'u' :: a :: b :: c :: d :: rest =>
    (codePoint? [a, b, c, d]).bind fun x => andThen x (multiBasic false rest)
  | '\\' :: 'U' :: a :: b :: c :: d :: e :: f :: g :: h :: rest =>
    (codePoint? [a, b, c, d, e, f, g, h]).bind fun x => andThen x (multiBasic false rest)
  | '\\' :: e :: rest =>
    if endsLine (e :: rest) then multiBasic true (e :: rest)
    else (escape? e).bind fun x => andThen x (multiBasic false rest)
  | c :: rest =>
    if joining && isSpace c then multiBasic true rest
    else if isTextChar c then andThen c (multiBasic false rest)
    else none

/-- A text in three single quotes. Line ends are kept as they are written, and up to two quotes may
    stand right before the closing ones. -/
def multiLiteral : List Char → Option (List Char × List Char)
  | [] => none
  | '\'' :: '\'' :: '\'' :: '\'' :: '\'' :: rest => some (['\'', '\''], rest)
  | '\'' :: '\'' :: '\'' :: '\'' :: rest => some (['\''], rest)
  | '\'' :: '\'' :: '\'' :: rest => some ([], rest)
  | '\r' :: '\n' :: rest => andThen '\r' (andThen '\n' (multiLiteral rest))
  | '\n' :: rest => andThen '\n' (multiLiteral rest)
  | c :: rest => if isTextChar c then andThen c (multiLiteral rest) else none

/-- The string at the start of the input, in whichever form it is written. -/
def string? : List Char → Option (String × List Char)
  | '"' :: '"' :: '"' :: rest => text (multiBasic false (dropNewline rest))
  | '"' :: rest => text (basic rest)
  | '\'' :: '\'' :: '\'' :: rest => text (multiLiteral (dropNewline rest))
  | '\'' :: rest => text (literal rest)
  | _ => none
where
  /-- The characters read, as a string. -/
  text (read : Option (List Char × List Char)) : Option (String × List Char) :=
    read.map fun (cs, rest) => (String.ofList cs, rest)

end MultipleDispatch.Toml
