import MultipleDispatch.Group.Signature
import MultipleDispatch.Settings.Basic
import MultipleDispatch.Tree.Growth

/-!
Compiling groups: the dispatch tree and the combined signature of a group, the same for every part
of it that has a principal of its own, and all this for each overloaded group of a list of
declarations.
-/

namespace MultipleDispatch

/-- A group, or a part of one, made ready to be called as one function. -/
structure EntryPoint (T : Type) extends Dispatch T where
  signature : Signature T group.size

/-- The entry point of the part of a group that one candidate heads. -/
structure SubsetEntry (T : Type) where
  /-- The shown form of that candidate. -/
  name : String
  /-- Its number in the whole group. -/
  principal : Nat
  entry : EntryPoint T

/-- A compiled group: its own entry point and those of its parts. -/
structure Compiled (T : Type) where
  entry : EntryPoint T
  subsets : List (SubsetEntry T)

namespace Compiled

variable {T : Type}

/-- The name of the compiled group. -/
def name (c : Compiled T) : String := c.entry.group.name

/-- The arity of the compiled group. -/
def arity (c : Compiled T) : Nat := c.entry.group.arity

/-- What is reported once a group is compiled. -/
def finished (c : Compiled T) : Event T :=
  .compiled c.name c.arity c.entry.group.size c.entry.tree.size c.entry.tree.depth c.subsets.length

end Compiled

variable {T : Type} [BEq T] [ToString T]

namespace Group

/-- Makes a group ready to be called. -/
def entryPoint (s : Subtyping T) (policy : Policy) (g : Group T) : Attempt T (EntryPoint T) :=
  return ⟨⟨g, ← g.prepare s policy⟩, g.combined s⟩

/-- Compiles a group and its parts. -/
def compile (s : Subtyping T) (policy : Policy) (g : Group T) : Attempt T (Compiled T) := do
  let entry ← g.entryPoint s policy
  let subsets ← (g.subsets s).mapM fun part =>
    return ⟨part.name, part.principal, ← part.group.entryPoint s policy⟩
  let compiled : Compiled T := ⟨entry, subsets⟩
  Traced.report compiled.finished
  return compiled

end Group

/-- Compiles every overloaded group of the declarations, in the order of first occurrence. Groups
    have nothing in common, so it makes no difference to the result whether they are compiled side by
    side. -/
def compileTable (s : Subtyping T) (settings : Settings) (declarations : List (Candidate T)) :
    Attempt T (List (Compiled T)) := do
  let groups := (← Group.partition declarations).filter Group.isOverloaded
  Traced.report (.started (T := T) groups.length settings.parallel settings.policy)
  groups.mapM (Group.compile s settings.policy)

end MultipleDispatch
