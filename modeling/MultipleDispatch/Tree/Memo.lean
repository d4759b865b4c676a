import MultipleDispatch.Tree.Growth

/-!
A group that is prepared for dispatch once. The result is kept in a cell that is written at most
once; where such cells come from is left open (`OnceCells`). The first preparation that succeeds is
kept and answers all later requests, whatever they ask for.
-/

namespace MultipleDispatch

/-- What can be done with cells that hold a value or are empty. -/
structure OnceCells (Cell : Type → Type) where
  /-- An empty cell. -/
  new {α : Type} : Cell α
  /-- The value that a cell holds. -/
  get? {α : Type} (cell : Cell α) : Option α
  /-- Gives a cell up for the value that it holds. -/
  intoInner? {α : Type} (cell : Cell α) : Option α
  /-- The value that a cell holds; one is made if the cell is empty, which may fail. Also gives the
      cell as it is afterwards. -/
  getOrTryInit {m : Type → Type} [Monad m] {ε α : Type} (cell : Cell α) (make : m (Except ε α)) :
    m (Except ε α × Cell α)

/-- Optional values as cells. -/
def OnceCells.option : OnceCells Option where
  new := none
  get? cell := cell
  intoInner? cell := cell
  getOrTryInit cell make :=
    match cell with
    | some a => pure (.ok a, some a)
    | none => (fun made => (made, made.toOption)) <$> make

/-- A group and a cell for what it is prepared to. -/
structure Memo (Cell : Type → Type) (T : Type) where
  group : Group T
  cell : Cell (Dispatch T)

namespace Memo

variable {Cell : Type → Type} {T : Type}

/-- A group that has not been prepared yet. -/
def fresh (cells : OnceCells Cell) (g : Group T) : Memo Cell T := ⟨g, cells.new⟩

/-- Was the group prepared before? -/
def isPrepared (cells : OnceCells Cell) (m : Memo Cell T) : Bool := (cells.get? m.cell).isSome

/-- The kept result of the first preparation. -/
def dispatch? (cells : OnceCells Cell) (m : Memo Cell T) : Option (Dispatch T) :=
  cells.get? m.cell

/-- Gives all else up for the kept result. -/
def intoDispatch? (cells : OnceCells Cell) (m : Memo Cell T) : Option (Dispatch T) :=
  cells.intoInner? m.cell

/-- Prepares the group unless that was done before. -/
def prepare [BEq T] [ToString T] (cells : OnceCells Cell) (s : Subtyping T) (policy : Policy)
    (m : Memo Cell T) : Traced T (Except Error (Dispatch T) × Memo Cell T) := do
  let prepared ← cells.getOrTryInit m.cell (Dispatch.mk m.group <$> m.group.prepare s policy).run
  return (prepared.1, { m with cell := prepared.2 })

end Memo

end MultipleDispatch
