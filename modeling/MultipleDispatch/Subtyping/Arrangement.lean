import MultipleDispatch.Event.Traced
import MultipleDispatch.Subtyping.Basic

/-!
Arranging types from the most specific to the least. Places in the input are joined by an edge
wherever the judgement affirms a subtype; of the places that nothing waiting has to precede, the
lowest goes next. Places that a cycle holds up keep their input order at the end.
-/

namespace MultipleDispatch

/-- A type, its place in the input, and the places that have to come before it. -/
structure Placed (T : Type) where
  type : T
  place : Nat
  after : List Nat

/-- Types arranged as far as possible, and the ones that a cycle holds up. -/
structure Arrangement (T : Type) where
  sorted : List (Placed T)
  stuck : List (Placed T)

namespace Arrangement

variable {T : Type}

/-- All types, the ones held up by a cycle last. -/
def types (a : Arrangement T) : List T := (a.sorted ++ a.stuck).map Placed.type

/-- What is reported of a cycle, if there is one. -/
def cycle? (a : Arrangement T) : Option (Event T) :=
  if a.stuck.isEmpty then none else some (.cycle (a.stuck.map Placed.type))

/-- No place that is still waiting has to come before `x`. -/
def ready (waiting : List (Placed T)) (x : Placed T) : Bool :=
  waiting.all fun y => !x.after.contains y.place

/-- Takes the first ready place, again and again, at most `n` times. -/
def settle : Nat → List (Placed T) → Arrangement T
  | 0, waiting => ⟨[], waiting⟩
  | n + 1, waiting =>
    match waiting.find? (ready waiting) with
    | none => ⟨[], waiting⟩
    | some x =>
      let rest := settle n (waiting.filter fun y => y.place != x.place)
      ⟨x :: rest.sorted, rest.stuck⟩

end Arrangement

namespace Subtyping

variable {T : Type}

/-- Type `a` at place `i` has to come before type `b` at place `j`. When each is below the other,
    only the earlier place counts as the more specific one. -/
def precedes (s : Subtyping T) (a : T) (i : Nat) (b : T) (j : Nat) : Bool :=
  if i < j then s.below a b
  else if j < i then !s.below b a && s.below a b
  else false

/-- Every type with the places that have to come before it. -/
def placed (s : Subtyping T) (types : List T) : List (Placed T) :=
  types.zipIdx.map fun (b, j) =>
    { type := b, place := j,
      after := (types.zipIdx.filter fun (a, i) => s.precedes a i b j).map Prod.snd }

/-- Arranges `types` from the most specific to the least specific. -/
def arrange (s : Subtyping T) (types : List T) : Arrangement T :=
  Arrangement.settle types.length (s.placed types)

/-- The types from the most specific to the least specific, with a report of a cycle. -/
def bySpecificity (s : Subtyping T) (types : List T) : Traced T (List T) := do
  let arrangement := s.arrange types
  Traced.report? arrangement.cycle?
  pure arrangement.types

end Subtyping

end MultipleDispatch
