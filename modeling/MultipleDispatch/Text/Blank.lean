/-!
Blank characters: those with the Unicode property White_Space, and trimming by them.
-/

namespace MultipleDispatch.Text

/-- The ranges of the property White_Space. -/
def blankRanges : List (Nat × Nat) :=
  [(0x9, 0xd), (0x20, 0x20), (0x85, 0x85), (0xa0, 0xa0), (0x1680, 0x1680), (0x2000, 0x200a),
   (0x2028, 0x2029), (0x202f, 0x202f), (0x205f, 0x205f), (0x3000, 0x3000)]

/-- The characters with the property White_Space. -/
def isBlank (c : Char) : Bool := blankRanges.any fun (lo, hi) => lo ≤ c.toNat && c.toNat ≤ hi

/-- The characters without the blank ones at both ends. -/
def trimList (cs : List Char) : List Char :=
  ((cs.dropWhile isBlank).reverse.dropWhile isBlank).reverse

/-- The text without blank characters at both ends. -/
def trim (s : String) : String := String.ofList (trimList s.toList)

/-- Is there nothing but blank characters? -/
def isAllBlank (s : String) : Bool := s.toList.all isBlank

/-- The text with the letters A to Z in lower case and all else as it was. -/
def lower (s : String) : String := String.ofList (s.toList.map Char.toLower)

end MultipleDispatch.Text
