import MultipleDispatch.Group.Dominance

/-!
The signature of a whole group, under which it can be called as one function: that of its principal
if it has one, else the joins of what its candidates declare.
-/

namespace MultipleDispatch

/-- The signature of a group as one function. -/
structure Signature (T : Type) (n : Nat) where
  result : T
  /-- All types that some candidate throws, each once. -/
  throws : List T
  /-- The parameter types. -/
  domain : List T
  /-- The candidate from which the signature was taken. -/
  principal : Option (Fin n)

namespace Group

variable {T : Type} [BEq T]

/-- The types thrown by the candidates, each once, in the order of first occurrence. -/
def throws (g : Group T) : List T := distinct (· == ·) (g.candidates.flatMap Candidate.throws)

/-- The combined signature of a group. -/
def combined (s : Subtyping T) (g : Group T) : Signature T g.size :=
  match g.principal? s with
  | some p => ⟨(g.candidate p).result, g.throws, g.signature p, some p⟩
  | none =>
    { result := s.cover (g.candidates.map Candidate.result)
      throws := g.throws
      domain := g.indices.map fun i => s.cover (g.ids.map fun c => g.type c i)
      principal := none }

end Group

end MultipleDispatch
