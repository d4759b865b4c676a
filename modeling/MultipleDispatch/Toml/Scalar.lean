import MultipleDispatch.Text.Hex
import MultipleDispatch.Toml.Value

/-!
TOML numbers, truth values, dates and times. A scalar is written without spaces, except that one may
stand between a date and a time.
-/

namespace MultipleDispatch.Toml

/-- The value of a decimal digit. -/
def digit? (c : Char) : Option Nat := if c.isDigit then some (c.toNat - '0'.toNat) else none

/-- The value of a digit in base `base`, which is at most 16. -/
def digitIn? (base : Nat) (c : Char) : Option Nat := (Text.hexValue? c).filter (· < base)

/-- The number that digits in base `base` stand for. Single underscores may stand between digits. -/
def number? (base : Nat) (cs : List Char) : Option Nat :=
  match cs with
  | [] => none
  | c :: rest => (digitIn? base c).bind fun n => more n rest
where
  /-- The digits behind the first, `n` being the number so far. -/
  more (n : Nat) : List Char → Option Nat
    | [] => some n
    | '_' :: c :: rest => (digitIn? base c).bind fun d => more (base * n + d) rest
    | c :: rest => (digitIn? base c).bind fun d => more (base * n + d) rest

/-- The number in decimal digits without leading zeros. -/
def decimal? : List Char → Option Nat
  | '0' :: _ :: _ => none
  | cs => number? 10 cs

/-- A sign, and what follows it. -/
def sign : List Char → Bool × List Char
  | '+' :: rest => (false, rest)
  | '-' :: rest => (true, rest)
  | rest => (false, rest)

/-- An integer in base 10, or in base 16, 8 or 2 without a sign. -/
def integer? : List Char → Option Int
  | '0' :: 'x' :: digits => (number? 16 digits).map Int.ofNat
  | '0' :: 'o' :: digits => (number? 8 digits).map Int.ofNat
  | '0' :: 'b' :: digits => (number? 2 digits).map Int.ofNat
  | cs => (decimal? (sign cs).2).map fun n => if (sign cs).1 then -(n : Int) else n

/-- Integers that can be held at all: those of 128 bits, with or without a sign. -/
def fitsInteger (n : Int) : Bool :=
  Int.negOfNat (Nat.pow 2 127) ≤ n && n < Int.ofNat (Nat.pow 2 128)

/-- The largest power of ten below a float's overflow. -/
def maxTens : Int := 308

/-- From here on numbers are rounded beyond the largest double: half a unit above it. -/
def overflowBound : Nat := Nat.pow 2 1024 - Nat.pow 2 970

/-- Is `digits * 10 ^ tens` too great for a double? -/
def overflows (digits : Nat) (tens : Int) : Bool :=
  if digits = 0 then false
  else
    let scale : Int := (Nat.toDigits 10 digits).length + tens
    if scale ≤ maxTens then false
    else if scale > maxTens + 1 then true
    else overflowBound * Nat.pow 10 (-tens).toNat ≤ digits * Nat.pow 10 tens.toNat

/-- An exponent behind its mark. -/
def exponent? (cs : List Char) : Option Int :=
  (number? 10 (sign cs).2).map fun n => if (sign cs).1 then -(n : Int) else n

/-- Is this the literal of a float that a double can hold? -/
def isFloat (cs : List Char) : Bool :=
  let body := (sign cs).2
  if body == ['i', 'n', 'f'] || body == ['n', 'a', 'n'] then true
  else
    let isMark (c : Char) : Bool := c == 'e' || c == 'E'
    let mantissa := body.takeWhile fun c => !isMark c
    let whole := mantissa.takeWhile (· != '.')
    let exponent := match body.dropWhile fun c => !isMark c with
      | [] => some 0
      | _ :: digits => exponent? digits
    match decimal? whole, mantissa.dropWhile (· != '.'), exponent with
    | some n, [], some e => mantissa.length != body.length && !overflows n e
    | some n, _ :: fraction, some e =>
      match number? 10 fraction with
      | some f =>
        let places := (fraction.filter (· != '_')).length
        !overflows (n * Nat.pow 10 places + f) (e - places)
      | none => false
    | _, _, _ => false

/-- The number of days in a month of the Gregorian calendar. -/
def daysIn (year month : Nat) : Nat :=
  if month == 2 then
    if (year % 4 == 0 && year % 100 != 0) || year % 400 == 0 then 29 else 28
  else if [4, 6, 9, 11].contains month then 30
  else 31

/-- The number in exactly as many digits as given. -/
def digits? (cs : List Char) : Option Nat :=
  cs.foldlM (fun n c => (digit? c).map (10 * n + ·)) 0

/-- A date, `yyyy-mm-dd`, that is in the calendar, and what follows it. -/
def date? : List Char → Option (List Char)
  | a :: b :: c :: d :: '-' :: e :: f :: '-' :: g :: h :: rest => do
    let year ← digits? [a, b, c, d]
    let month ← digits? [e, f]
    let day ← digits? [g, h]
    if 1 ≤ month ∧ month ≤ 12 ∧ 1 ≤ day ∧ day ≤ daysIn year month then some rest else none
  | _ => none

/-- A fraction of a second, if there is one, and what follows it. -/
def fraction? : List Char → Option (List Char)
  | '.' :: c :: rest => if c.isDigit then some (rest.dropWhile Char.isDigit) else none
  | '.' :: [] => none
  | rest => some rest

/-- A time, `hh:mm:ss`, and what follows it. The last minute of a day may have a leap second. -/
def time? : List Char → Option (List Char)
  | a :: b :: ':' :: c :: d :: ':' :: e :: f :: rest => do
    let hour ← digits? [a, b]
    let minute ← digits? [c, d]
    let second ← digits? [e, f]
    if hour ≤ 23 ∧ minute ≤ 59 ∧ second ≤ 60 then fraction? rest else none
  | _ => none

/-- Is this an offset from universal time, or none at all? -/
def isOffset : List Char → Bool
  | [] => true
  | ['Z'] => true
  | ['z'] => true
  | [s, a, b, ':', c, d] =>
    (s == '+' || s == '-') && (digits? [a, b]).any (· ≤ 23) && (digits? [c, d]).any (· ≤ 59)
  | _ => false

/-- Is this a date, a time, or a date with a time? -/
def isMoment (cs : List Char) : Bool :=
  match date? cs with
  | none => time? cs == some []
  | some [] => true
  | some (mark :: rest) =>
    (mark == 'T' || mark == 't' || mark == ' ') && (time? rest).any isOffset

/-- The value that a scalar's characters stand for. -/
def scalarOf? (cs : List Char) : Option Value :=
  if cs == "true".toList then some (.boolean true)
  else if cs == "false".toList then some (.boolean false)
  else match integer? cs with
    | some n => if fitsInteger n then some (.integer n) else none
    | none =>
      if isFloat cs then some (.float (String.ofList cs))
      else if isMoment cs then some (.moment (String.ofList cs))
      else none

/-- The characters of which scalars are made. -/
def isScalarChar (c : Char) : Bool :=
  c.isAlphanum || c == '+' || c == '-' || c == '_' || c == '.' || c == ':'

/-- Splits off the characters of a scalar, with the time behind a date and a space. -/
def scalarChars (cs : List Char) : List Char × List Char :=
  let first := cs.takeWhile isScalarChar
  match date? first, cs.dropWhile isScalarChar with
  | some [], ' ' :: c :: rest =>
    if c.isDigit then
      (first ++ ' ' :: (c :: rest).takeWhile isScalarChar, (c :: rest).dropWhile isScalarChar)
    else (first, ' ' :: c :: rest)
  | _, rest => (first, rest)

/-- The scalar at the start of the input. -/
def scalar? (cs : List Char) : Option (Value × List Char) :=
  (scalarOf? (scalarChars cs).1).map fun v => (v, (scalarChars cs).2)

end MultipleDispatch.Toml
