import MultipleDispatch.Tree.Basic

/-!
The text form of a dispatch tree: a line for the group, a line for the root, and a line for every
other node, indented by two spaces for each test above it.
-/

namespace MultipleDispatch

variable {T : Type} {g : Group T} [ToString T]

/-- What a node does, in short: the parameter it tests, or the candidate it calls. -/
def Tree.headline : Tree g → String
  | .fork _ _ i _ => s!"#{i.val}"
  | .stop (c :: _) _ => (g.candidate c).shown
  | .stop [] _ => "<no match>"

/-- The line of a node that an edge of type `t` leads to. -/
def edgeLine (depth : Nat) (t : T) (child : Tree g) : String :=
  "".pushn ' ' (2 * depth) ++ toString t ++ " -> " ++ child.headline

mutual

/-- The lines of all nodes below the root. -/
def Tree.lines (depth : Nat) : Tree g → List String
  | .stop _ _ => []
  | .fork _ _ _ edges => edges.lines depth

/-- The lines of all children and of what is below them. -/
def Edges.lines (depth : Nat) : Edges g → List String
  | .nil => []
  | .cons t child rest =>
    edgeLine depth t child :: (child.lines (depth + 1) ++ rest.lines depth)

end

/-- The text of a tree, with the name and the arity of its group on top. -/
def Dispatch.text (d : Dispatch T) : String :=
  let header := s!"{d.group.name}/{d.group.arity}"
  String.join ((header :: d.tree.headline :: d.tree.lines 1).map (· ++ "\n"))

end MultipleDispatch
