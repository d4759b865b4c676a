/-!
Sorting a list into classes. Each element joins the first class whose first member it is the same
as, or opens a class behind the others, so classes stand in the order of their first members. "The
same" is any test; it need be neither reflexive nor symmetric.
-/

namespace MultipleDispatch

/-- A class: the member that opened it and those that joined later. -/
structure Class (α : Type) where
  first : α
  others : List α

namespace Class

variable {α : Type}

/-- All members, in the order in which they came. -/
def members (c : Class α) : List α := c.first :: c.others

/-- The number of members. -/
def size (c : Class α) : Nat := c.members.length

/-- Puts `x` into the first class that it fits, or into one of its own. -/
def insert (same : α → α → Bool) (x : α) : List (Class α) → List (Class α)
  | [] => [⟨x, []⟩]
  | c :: cs =>
    if same c.first x then { c with others := c.others ++ [x] } :: cs else c :: insert same x cs

end Class

/-- Sorts `xs` into classes, in the order of first occurrence. -/
def classify {α : Type} (same : α → α → Bool) (xs : List α) : List (Class α) :=
  xs.foldl (fun cs x => Class.insert same x cs) []

/-- Keeps the first member of every class. -/
def distinct {α : Type} (same : α → α → Bool) (xs : List α) : List α :=
  (classify same xs).map Class.first

end MultipleDispatch
