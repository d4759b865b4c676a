import MultipleDispatch.Candidate.Basic
import MultipleDispatch.Policy

/-!
Events that are worth reporting while groups are compiled.
-/

namespace MultipleDispatch

/-- Something worth reporting. -/
inductive Event (T : Type) where
  /-- A cycle of subtypes held these types up while they were arranged. -/
  | cycle (types : List T)
  /-- A candidate was chosen as the most specific one although it does not dominate a rival. -/
  | ambiguity (group : String) (chosen rival : Candidate T)
  /-- A node tests a parameter against the given types. -/
  | split (group : String) (node index : Nat) (edges : List T)
  /-- A group was compiled. -/
  | compiled (group : String) (arity candidates nodes depth subsets : Nat)
  /-- A table of groups is about to be compiled. -/
  | started (groups : Nat) (parallel : Bool) (policy : Policy)

end MultipleDispatch
