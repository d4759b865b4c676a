import MultipleDispatch.Subtyping.Basic
import MultipleDispatch.Tree.Basic

/-!
Dispatching a call by walking down a tree: at a fork the first edge whose type the tested argument
fits is taken, at a stop the walk ends.
-/

namespace MultipleDispatch

variable {T : Type} {g : Group T} [BEq T]

mutual

/-- The candidate that the walk for `args` ends at. -/
def Tree.walk (s : Subtyping T) (args : Fin g.arity → T) : Tree g → Option (Fin g.size)
  | .stop cs _ => cs.head?
  | .fork _ _ i edges => edges.walk s args (args i)

/-- Goes on along the first edge that `arg` fits. -/
def Edges.walk (s : Subtyping T) (args : Fin g.arity → T) (arg : T) :
    Edges g → Option (Fin g.size)
  | .nil => none
  | .cons t child rest => if s.fits arg t then child.walk s args else rest.walk s args arg

end

/-- The candidate selected for arguments of the given types; none when nothing matches or the number
    of arguments is wrong. -/
def Tree.resolve? (s : Subtyping T) (t : Tree g) (args : List T) : Option (Fin g.size) :=
  if h : args.length = g.arity then t.walk s (fun i => args.get ⟨i, h.symm ▸ i.isLt⟩) else none

/-- The candidate that a call with arguments of the given types goes to. -/
def Dispatch.resolve? (s : Subtyping T) (d : Dispatch T) (args : List T) : Option (Candidate T) :=
  (d.tree.resolve? s args).map d.group.candidate

end MultipleDispatch
