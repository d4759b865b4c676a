/-!
Candidates: the declared functions among which a call is dispatched. Each has a home (the module or
interface that declares it), parameters of which some may lack a type, a result type and
the types it may throw. Also their shown form and the order in which listings put them.
-/

namespace MultipleDispatch

/-- A declared parameter. A variadic one takes any number of arguments. -/
structure Param (T : Type) where
  name : String
  type : Option T
  variadic : Bool
  deriving BEq, ReflBEq, LawfulBEq

/-- A declared function together with the place that declares it. -/
structure Candidate (T : Type) where
  home : String
  name : String
  params : List (Param T)
  result : T
  throws : List T
  deriving BEq, ReflBEq, LawfulBEq

/-- The declared type, three dots after it if variadic; a question mark stands for a missing type. -/
def Param.label {T : Type} [ToString T] (p : Param T) : String :=
  match p.type with
  | none => "?"
  | some t => if p.variadic then toString t ++ "..." else toString t

namespace Candidate

variable {T : Type}

/-- The number of parameters. -/
def arity (c : Candidate T) : Nat := c.params.length

/-- The place of the first variadic parameter. -/
def variadicIndex? (c : Candidate T) : Option Nat := c.params.findIdx? Param.variadic

/-- The labels of the parameters, in order. -/
def labels [ToString T] (c : Candidate T) : List String := c.params.map Param.label

/-- The shown form, `home.name(label, label)`. -/
def shown [ToString T] (c : Candidate T) : String :=
  c.home ++ "." ++ c.name ++ "(" ++ ", ".intercalate c.labels ++ ")"

/-- Texts compared one by one, the first difference deciding; a list comes before its extensions. -/
def compareTexts : List String → List String → Ordering
  | [], [] => .eq
  | [], _ :: _ => .lt
  | _ :: _, [] => .gt
  | a :: as, b :: bs => (compare a b).then (compareTexts as bs)

/-- The order of listings: by name, then home, then arity, then parameter labels. -/
def order [ToString T] (a b : Candidate T) : Ordering :=
  (compare a.name b.name).then <| (compare a.home b.home).then <|
    (compare a.arity b.arity).then <| compareTexts a.labels b.labels

end Candidate

end MultipleDispatch
