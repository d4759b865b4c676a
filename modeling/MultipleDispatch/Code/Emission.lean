import MultipleDispatch.Code.Program
import MultipleDispatch.Tree.Basic

/-!
Code for a dispatch tree. Each edge becomes a test with a label of its own, which is marked behind
the code of the child; the labels are numbered like the children, and label 0 is for calls without a
match. Emission is a list of steps, so that it can be followed as well as collected.
-/

namespace MultipleDispatch

/-- A step of emission: a label is handed out or an instruction is written. -/
inductive Emission (T : Type) where
  | fresh (label : Nat)
  | write (instruction : Instruction T)

namespace Emission

/-- The label for calls without a match. -/
def noMatch : Nat := 0

/-- The instruction written by a step. -/
def instruction? {T : Type} : Emission T → Option (Instruction T)
  | fresh _ => none
  | write i => some i

/-- Does this step hand out a label? -/
def isFresh {T : Type} : Emission T → Bool
  | fresh _ => true
  | write _ => false

/-- Calls candidate `c`, with all arguments cast to its declared types. -/
def callOf {T : Type} (g : Group T) (c : Fin g.size) : List (Emission T) :=
  (g.signature c).zipIdx.map (fun (t, i) => write (.downcast i t)) ++
    [write (.call (g.candidate c)), write .ret]

end Emission

variable {T : Type} {g : Group T}

mutual

/-- The steps for a tree, `id` being the number of its root. -/
def Tree.emit (id : Nat) : Tree g → List (Emission T)
  | .stop (c :: _) _ => Emission.callOf g c
  | .stop [] _ => [.write (.jump Emission.noMatch)]
  | .fork _ _ i edges => edges.emit i (id + 1) ++ [.write (.jump Emission.noMatch)]

/-- The steps for the edges of a fork on `index`, `id` being the number of the first child. -/
def Edges.emit (index id : Nat) : Edges g → List (Emission T)
  | .nil => []
  | .cons t child rest =>
    .fresh id :: .write (.test index t id) :: child.emit id ++
      .write (.label id) :: rest.emit index (id + child.size)

end

/-- The program for a tree. The label for calls without a match is handed out before all others and
    marked at the very end. -/
def Tree.program (t : Tree g) : Program T where
  instructions := (t.emit 0).filterMap Emission.instruction? ++ [.label Emission.noMatch]
  labels := (t.emit 0).countP Emission.isFresh + 1

end MultipleDispatch
