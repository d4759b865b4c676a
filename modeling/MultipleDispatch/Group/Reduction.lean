import MultipleDispatch.Group.Dominance
import MultipleDispatch.IndexSet

/-!
Candidates that no further test can tell apart. Two candidates agree when their declared types are
equal at every parameter not tested yet; of candidates that agree, only the most specific is kept.
-/

namespace MultipleDispatch.Group

variable {T : Type} [BEq T]

/-- The parameters outside `tested`, in order. -/
def untested {T : Type} (g : Group T) (tested : IndexSet) : List (Fin g.arity) :=
  g.indices.filter fun i => !tested.contains i

/-- The declared types of `a` and `b` are equal at every untested parameter. -/
def agree (g : Group T) (tested : IndexSet) (a b : Fin g.size) : Bool :=
  (g.untested tested).all fun i => g.type a i == g.type b i

/-- The most specific of every class of candidates that agree, in the order of the classes. -/
def representatives (s : Subtyping T) (g : Group T) (tested : IndexSet) (ids : List (Fin g.size)) :
    Traced T (List (Fin g.size)) :=
  Traced.each (g.choose s) (classify (g.agree tested) ids)

end MultipleDispatch.Group
