import MultipleDispatch.Group.Basic
import MultipleDispatch.IndexSet

/-!
Dispatch trees of a group. A fork tests one argument against an ordered list of types, a stop has
the candidate to call, if any. Every node knows the candidates that are left at it and the
parameters tested on the way to it. `nodes` numbers the nodes in depth-first order and lists them
with their parents.
-/

namespace MultipleDispatch

mutual

/-- A dispatch tree. -/
inductive Tree {T : Type} (g : Group T) where
  /-- Nothing more is tested. -/
  | stop (candidates : List (Fin g.size)) (tested : IndexSet)
  /-- The argument at `index` is tested against the types of `edges`, in order. -/
  | fork (candidates : List (Fin g.size)) (tested : IndexSet) (index : Fin g.arity) (edges : Edges g)

/-- The types that a fork tests for, each with the tree that follows. -/
inductive Edges {T : Type} (g : Group T) where
  | nil
  | cons (type : T) (child : Tree g) (rest : Edges g)

end

/-- What a fork tests, its children by number. -/
structure Branch {T : Type} (g : Group T) where
  index : Fin g.arity
  children : List (T × Nat)
  deriving BEq

/-- A node of a tree as listed with the others. -/
structure Node {T : Type} (g : Group T) where
  candidates : List (Fin g.size)
  tested : IndexSet
  /-- The number of the fork above, none at the root. -/
  parent : Option Nat
  /-- The type tested on the edge that leads here, none at the root. -/
  edge : Option T
  /-- What is tested here, none at a stop. -/
  branch : Option (Branch g)
  deriving BEq

namespace Node

variable {T : Type} {g : Group T}

/-- One candidate is left and nothing more is tested. -/
def isLeaf (n : Node g) : Bool := n.branch.isNone && n.candidates.length == 1

/-- No candidate is left: a call that gets here has no match. -/
def isEmpty (n : Node g) : Bool := n.branch.isNone && n.candidates.isEmpty

/-- The candidate to call when nothing more is tested. -/
def callee? (n : Node g) : Option (Fin g.size) :=
  if n.branch.isNone then n.candidates.head? else none

end Node

variable {T : Type} {g : Group T}

/-- The candidates that are left at the root. -/
def Tree.candidates : Tree g → List (Fin g.size)
  | .stop cs _ => cs
  | .fork cs _ _ _ => cs

/-- The parameters tested on the way to the root. -/
def Tree.tested : Tree g → IndexSet
  | .stop _ tested => tested
  | .fork _ tested _ _ => tested

/-- The edges as a list. -/
def Edges.toList : Edges g → List (T × Tree g)
  | .nil => []
  | .cons t child rest => (t, child) :: rest.toList

mutual

/-- The number of nodes. -/
def Tree.size : Tree g → Nat
  | .stop _ _ => 1
  | .fork _ _ _ edges => 1 + edges.size

/-- The number of nodes of all children. -/
def Edges.size : Edges g → Nat
  | .nil => 0
  | .cons _ child rest => child.size + rest.size

end

mutual

/-- The largest number of tests on a way down to a stop. -/
def Tree.depth : Tree g → Nat
  | .stop _ tested => tested.size
  | .fork _ _ _ edges => edges.depth

/-- The largest depth of a child. -/
def Edges.depth : Edges g → Nat
  | .nil => 0
  | .cons _ child rest => max child.depth rest.depth

end

/-- The edge types with the numbers of their children, the first child being `id`. -/
def Edges.numbered : Nat → Edges g → List (T × Nat)
  | _, .nil => []
  | id, .cons t child rest => (t, id) :: rest.numbered (id + child.size)

mutual

/-- The nodes in depth-first order, the root being `id`. -/
def Tree.nodesFrom (id : Nat) (parent : Option Nat) (edge : Option T) : Tree g → List (Node g)
  | .stop cs tested => [⟨cs, tested, parent, edge, none⟩]
  | .fork cs tested index edges =>
    ⟨cs, tested, parent, edge, some ⟨index, edges.numbered (id + 1)⟩⟩ :: edges.nodesFrom (id + 1) id

/-- The nodes of the children of `parent`, the first child being `id`. -/
def Edges.nodesFrom (id parent : Nat) : Edges g → List (Node g)
  | .nil => []
  | .cons t child rest =>
    child.nodesFrom id (some parent) (some t) ++ rest.nodesFrom (id + child.size) parent

end

/-- All nodes in depth-first order; a node's number is its place in this list. -/
def Tree.nodes (t : Tree g) : List (Node g) := t.nodesFrom 0 none none

mutual

/-- The numbers of the stops, in depth-first order, the root being `id`. -/
def Tree.stopsFrom (id : Nat) : Tree g → List Nat
  | .stop _ _ => [id]
  | .fork _ _ _ edges => edges.stopsFrom (id + 1)

/-- The numbers of the stops below the edges, the first child being `id`. -/
def Edges.stopsFrom (id : Nat) : Edges g → List Nat
  | .nil => []
  | .cons _ child rest => child.stopsFrom id ++ rest.stopsFrom (id + child.size)

end

/-- The numbers of all stops, in depth-first order. -/
def Tree.stops (t : Tree g) : List Nat := t.stopsFrom 0

/-- Climbs from a node to the root along the recorded parents, at most `n` times, and gives the
    tests passed on the way, from the root down. -/
def climbTests (nodes : List (Node g)) : Nat → Node g → List (Fin g.arity × T)
  | 0, _ => []
  | n + 1, node =>
    match node.parent.bind (nodes[·]?), node.edge with
    | some above, some t =>
      climbTests nodes n above ++ (above.branch.map fun b => (b.index, t)).toList
    | _, _ => []

/-- The tests passed on the way from the root to node `id` of the listed nodes: parameter and type. -/
def testsIn (nodes : List (Node g)) (id : Nat) : List (Fin g.arity × T) :=
  match nodes[id]? with
  | none => []
  | some node => climbTests nodes nodes.length node

/-- The tests passed on the way from the root of a tree to node `id`. -/
def Tree.testsTo (t : Tree g) (id : Nat) : List (Fin g.arity × T) := testsIn t.nodes id

/-- A group with a dispatch tree for it. -/
structure Dispatch (T : Type) where
  group : Group T
  tree : Tree group

end MultipleDispatch
