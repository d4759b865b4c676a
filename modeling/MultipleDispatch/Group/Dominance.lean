import MultipleDispatch.Event.Traced
import MultipleDispatch.Group.Basic
import MultipleDispatch.Subtyping.Basic

/-!
Which candidate is more specific. One candidate dominates another when each of its declared types
fits the other's. `mostSpecific` scans for the candidate to prefer, `rival?` finds what it fails to
dominate; `principal?` is the candidate that all others dominate, and `subsets` are the parts of a
group that have a principal of their own.
-/

namespace MultipleDispatch

/-- A part of a group: one candidate and all that dominate it. -/
structure Subset (T : Type) (n : Nat) where
  /-- The shown form of the candidate after which the part is named. -/
  name : String
  /-- The number of that candidate in the whole group. -/
  principal : Fin n
  group : Group T

namespace Group

variable {T : Type} [BEq T]

/-- Every declared type of `a` fits the corresponding one of `b`. -/
def dominates (s : Subtyping T) (g : Group T) (a b : Fin g.size) : Bool :=
  g.indices.all fun i => s.fits (g.type a i) (g.type b i)

/-- One step of the scan: a later candidate replaces `best` only by dominating it. -/
def prefer (s : Subtyping T) (g : Group T) (best c : Fin g.size) : Fin g.size :=
  if g.dominates s c best then c else best

/-- The candidate preferred among `c`: the first, unless later ones dominate it. -/
def mostSpecific (s : Subtyping T) (g : Group T) (c : Class (Fin g.size)) : Fin g.size :=
  c.others.foldl (g.prefer s) c.first

/-- The first of `ids` that `chosen` does not dominate. -/
def rival? (s : Subtyping T) (g : Group T) (ids : List (Fin g.size)) (chosen : Fin g.size) :
    Option (Fin g.size) :=
  ids.find? fun other => other != chosen && !g.dominates s chosen other

/-- Chooses the most specific candidate and reports a rival that it does not dominate. -/
def choose (s : Subtyping T) (g : Group T) (c : Class (Fin g.size)) : Traced T (Fin g.size) := do
  let chosen := g.mostSpecific s c
  Traced.report? <| (g.rival? s c.members chosen).map fun rival =>
    .ambiguity g.name (g.candidate chosen) (g.candidate rival)
  pure chosen

/-- The choice among a list of candidates, which may be empty. -/
def choose? (s : Subtyping T) (g : Group T) : List (Fin g.size) → Traced T (Option (Fin g.size))
  | [] => pure none
  | c :: cs => some <$> g.choose s ⟨c, cs⟩

/-- The first candidate that every candidate dominates; a lone candidate is no principal. -/
def principal? (s : Subtyping T) (g : Group T) : Option (Fin g.size) :=
  if g.isOverloaded then g.ids.find? fun f => g.ids.all fun c => g.dominates s c f else none

/-- The other candidates that dominate `f`. -/
def dominating (s : Subtyping T) (g : Group T) (f : Fin g.size) : List (Fin g.size) :=
  g.ids.filter fun c => c != f && g.dominates s c f

/-- The part of the group that is headed by `f`. -/
def headedBy [ToString T] (s : Subtyping T) (g : Group T) (f : Fin g.size) : Subset T g.size where
  name := (g.candidate f).shown
  principal := f
  group := g.only (fun c => c == f || (g.dominating s f).contains c) ⟨f, by simp⟩

/-- One part for every candidate that some of the others dominate, but not all. -/
def subsets [ToString T] (s : Subtyping T) (g : Group T) : List (Subset T g.size) :=
  (g.ids.filter fun f =>
    !(g.dominating s f).isEmpty && (g.dominating s f).length + 1 != g.size).map (g.headedBy s)

end Group

end MultipleDispatch
