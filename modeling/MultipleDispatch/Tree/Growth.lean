import MultipleDispatch.Group.Reduction
import MultipleDispatch.Subtyping.Arrangement
import MultipleDispatch.Tree.Basic

/-!
Growing a dispatch tree. As long as two candidates are left and a parameter is untested, a node
tests the parameter that the policy picks against the declared types found there, most specific
first. An edge takes the candidates that accept its type and have not been claimed: a candidate is
claimed by the edge of its own declared type, and later edges do not see it. What no test can tell
apart is reduced to its most specific candidate.
-/

namespace MultipleDispatch

/-- The size of the largest class. -/
def largest {α : Type} (classes : List (Class α)) : Nat :=
  (classes.map Class.size).foldl max 0

/-- Under this policy a parameter with classes `a` is preferred to one with classes `b`. -/
def Policy.prefers {α : Type} : Policy → List (Class α) → List (Class α) → Bool
  | smallestLargestBucket, a, b => largest a < largest b
  | greatestVariation, a, b => b.length < a.length

namespace Group

variable {T : Type} [BEq T]

/-- The candidates `cs` by their declared type at `i`. -/
def buckets (g : Group T) (cs : List (Fin g.size)) (i : Fin g.arity) : List (Class (Fin g.size)) :=
  classify (fun a b => g.type a i == g.type b i) cs

/-- The different declared types of `cs` at `i`, in the order of first occurrence. -/
def edgeTypes (g : Group T) (cs : List (Fin g.size)) (i : Fin g.arity) : List T :=
  (g.buckets cs i).map fun b => g.type b.first i

/-- The parameter to test among `first` and `others`; an earlier one yields only to a better one. -/
def testIndex (policy : Policy) (g : Group T) (cs : List (Fin g.size)) (first : Fin g.arity)
    (others : List (Fin g.arity)) : Fin g.arity :=
  others.foldl
    (fun best i => if policy.prefers (g.buckets cs i) (g.buckets cs best) then i else best) first

/-- The candidates among `free` that an argument of type `edge` at `i` leaves possible. -/
def accepting (s : Subtyping T) (g : Group T) (i : Fin g.arity) (edge : T)
    (free : List (Fin g.size)) : List (Fin g.size) :=
  free.filter fun c => g.type c i == edge || s.below edge (g.type c i)

/-- The candidates among `free` that the edge of type `edge` at `i` does not claim. -/
def unclaimed (g : Group T) (i : Fin g.arity) (edge : T) (free : List (Fin g.size)) :
    List (Fin g.size) :=
  free.filter fun c => !(g.type c i == edge)

/-- Reduces two or more candidates to the most specific one. -/
def single (s : Subtyping T) (g : Group T) : List (Fin g.size) → Traced T (List (Fin g.size))
  | a :: b :: cs => do
    let chosen ← g.choose s ⟨a, b :: cs⟩
    pure [chosen]
  | cs => pure cs

/-- The candidates that go down an edge: one for each class that agrees on what is still untested,
    and just one if nothing is. -/
def reduce (s : Subtyping T) (g : Group T) (tested : IndexSet) (cs : List (Fin g.size)) :
    Traced T (List (Fin g.size)) := do
  let kept ← g.representatives s tested cs
  if tested.size = g.arity then g.single s kept else pure kept

/-- Grows one child per edge type. `free` are the candidates not claimed yet, `id` is the number of
    the next node, and `child` grows a tree for given candidates and a given number. -/
def sprout (s : Subtyping T) (g : Group T) (i : Fin g.arity) (tested : IndexSet)
    (child : List (Fin g.size) → Nat → Traced T (Tree g)) :
    List T → List (Fin g.size) → Nat → Traced T (Edges g)
  | [], _, _ => pure .nil
  | edge :: edges, free, id => do
    let cs ← g.reduce s tested (g.accepting s i edge free)
    let tree ← child cs id
    let rest ← sprout s g i tested child edges (g.unclaimed i edge free) (id + tree.size)
    pure (.cons edge tree rest)

/-- Grows the node of number `id` for the candidates `cs`, with at most `n` parameters to test. -/
def grow (s : Subtyping T) (policy : Policy) (g : Group T) :
    Nat → IndexSet → List (Fin g.size) → Nat → Traced T (Tree g)
  | 0, tested, cs, _ => return .stop (← g.single s cs) tested
  | n + 1, tested, cs, id =>
    match g.untested tested, cs with
    | first :: others, _ :: _ :: _ => do
      let i := g.testIndex policy cs first others
      let types ← s.bySpecificity (g.edgeTypes cs i)
      Traced.report (.split g.name id i types)
      let tested' := tested.insert i
      return .fork cs tested i
        (← g.sprout s i tested' (grow s policy g n tested') types cs (id + 1))
    | _, _ => return .stop (← g.single s cs) tested

/-- The dispatch tree of a group. Each level of the tree tests a parameter of its own, so there are
    at most `arity` levels of tests. -/
def tree (s : Subtyping T) (policy : Policy) (g : Group T) : Traced T (Tree g) :=
  g.grow s policy g.arity .empty g.ids 0

/-- The first candidate with a variadic parameter, and the first such parameter. -/
def variadic? {T : Type} (g : Group T) : Option (Fin g.size × Fin g.arity) :=
  g.ids.findSome? fun c => (g.indices.find? (g.member c).variadic).map fun i => (c, i)

/-- Fails if a candidate has a variadic parameter, which no test can settle. -/
def rejectVariadic {T : Type} [ToString T] (g : Group T) : Except Error Unit :=
  match g.variadic? with
  | some (c, i) => .error (.variadic g.name (g.candidate c).shown i)
  | none => .ok ()

/-- Prepares a group for dispatch. -/
def prepare [ToString T] (s : Subtyping T) (policy : Policy) (g : Group T) : Attempt T (Tree g) := do
  g.rejectVariadic
  g.tree s policy

end Group

end MultipleDispatch
