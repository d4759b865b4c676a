import MultipleDispatch.Subtyping.Basic

/-!
Named types with declared supertypes. A name is a subtype of another when a chain of declarations
leads from the one to the other; every name is below the top. A chain that runs into a name nobody
declared leaves the question open, because that name could still turn out to be below anything.
-/

namespace MultipleDispatch

/-- Type names with their direct supertypes, in the order of declaration. -/
structure Hierarchy where
  top : String
  entries : List (String × List String)

namespace Hierarchy

/-- The top type of a hierarchy that names none. -/
def defaultTop : String := "Any"

/-- The hierarchy in which only the top is known. -/
def empty (top : String) : Hierarchy := ⟨top, []⟩

/-- The direct supertypes of `name`; none when nothing was declared. -/
def supers (h : Hierarchy) (name : String) : List String := (h.entries.lookup name).getD []

/-- The top is known from the start, any other name once it was declared. -/
def isDeclared (h : Hierarchy) (name : String) : Bool :=
  name == h.top || (h.entries.lookup name).isSome

/-- Appends the supertypes that are not there yet, each once. -/
def addSupers (known more : List String) : List String :=
  more.foldl (fun acc sup => if acc.contains sup then acc else acc ++ [sup]) known

/-- Extends the entry of `name`, or opens one behind the others. -/
def extend (name : String) (more : List String) :
    List (String × List String) → List (String × List String)
  | [] => [(name, addSupers [] more)]
  | (n, known) :: rest =>
    if n == name then (n, addSupers known more) :: rest else (n, known) :: extend name more rest

/-- Declares `name` with further direct supertypes. A second declaration adds to the first. -/
def declare (h : Hierarchy) (name : String) (more : List String) : Hierarchy :=
  { h with entries := extend name more h.entries }

/-- A hierarchy from a table of declarations, made in order. -/
def ofTable (top : String) (table : List (String × List String)) : Hierarchy :=
  table.foldl (fun h entry => h.declare entry.1 entry.2) (empty top)

/-- The number of declared steps from a name to a direct supertype. -/
def stepCount (h : Hierarchy) : Nat := (h.entries.flatMap Prod.snd).length

/-- Climbs from the names in `pending`, nearest first, and collects each name met once. Every name
    is expanded at most once, so `stepCount` further names are all that can ever come up. -/
def climb (h : Hierarchy) : Nat → List String → List String → List String
  | 0, _, met => met
  | _ + 1, [], met => met
  | n + 1, name :: pending, met =>
    if met.contains name then h.climb n pending met
    else h.climb n (pending ++ h.supers name) (met ++ [name])

/-- The names that one or more declared steps lead to from `name`. -/
def ancestors (h : Hierarchy) (name : String) : List String :=
  h.climb ((h.supers name).length + h.stepCount) (h.supers name) []

/-- Is `sub` a subtype of `sup`? -/
def judge (h : Hierarchy) (sub sup : String) : Verdict :=
  if sub == sup || sup == h.top then .yes
  else if sub == h.top then .no
  else if !(h.isDeclared sub && h.isDeclared sup) then .unknown
  else
    let above := h.ancestors sub
    if above.contains sup then .yes
    else if above.all h.isDeclared then .no
    else .unknown

/-- The judgement of the hierarchy, with its own top. -/
def subtyping (h : Hierarchy) : Subtyping String := ⟨h.judge, h.top⟩

end Hierarchy

end MultipleDispatch
