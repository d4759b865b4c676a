import MultipleDispatch.Candidate.Basic
import MultipleDispatch.Subtyping.Basic

/-!
Dispatch code: a list of instructions that test arguments, jump, and call a candidate. `run?` executes
a program on the types of the arguments.
-/

namespace MultipleDispatch

/-- An instruction. Arguments go by their place, labels by number. -/
inductive Instruction (T : Type) where
  /-- Marks a place to jump to. -/
  | label (id : Nat)
  /-- Jumps unless the argument fits the type. -/
  | test (arg : Nat) (type : T) (onFail : Nat)
  /-- From here on the argument counts as one of that type. -/
  | downcast (arg : Nat) (type : T)
  | call (candidate : Candidate T)
  | ret
  | jump (target : Nat)

/-- Instructions, and how many labels were handed out for them. -/
structure Program (T : Type) where
  instructions : List (Instruction T)
  labels : Nat

/-- The text of one instruction. -/
def Instruction.text {T : Type} [ToString T] : Instruction T → String
  | label id => s!"L{id}:"
  | test arg type onFail => s!"  test x{arg} <: {type} else L{onFail}"
  | downcast arg type => s!"  downcast x{arg} as {type}"
  | call candidate => s!"  call {candidate.shown}"
  | ret => "  return"
  | jump target => s!"  jump L{target}"

namespace Program

variable {T : Type}

/-- The program without instructions and labels. -/
def empty : Program T := ⟨[], 0⟩

/-- Hands out a label. -/
def newLabel (p : Program T) : Nat × Program T := (p.labels, { p with labels := p.labels + 1 })

/-- Appends an instruction. -/
def push (p : Program T) (i : Instruction T) : Program T :=
  { p with instructions := p.instructions ++ [i] }

/-- The text of a program, a line for each instruction. -/
def text [ToString T] (p : Program T) : String :=
  String.join (p.instructions.map fun i => i.text ++ "\n")

/-- Does this instruction mark the label `id`? -/
def marks (id : Nat) : Instruction T → Bool
  | .label id' => id' == id
  | _ => false

/-- Where a jump to `id` goes: the last place that marks it. A label that was not handed out leads
    nowhere. -/
def position? (p : Program T) (id : Nat) : Option Nat :=
  if id < p.labels then
    (p.instructions.zipIdx.filter fun (i, _) => marks id i).getLast?.map Prod.snd
  else none

/-- Executes at most `n` instructions from place `pc` on; `called` is the candidate called last. -/
def runFrom [BEq T] (s : Subtyping T) (p : Program T) (args : List T) :
    Nat → Nat → Option (Candidate T) → Option (Candidate T)
  | 0, _, _ => none
  | n + 1, pc, called =>
    match p.instructions[pc]? with
    | none => none
    | some (.test arg type onFail) =>
      if (args[arg]?).any fun actual => s.fits actual type then p.runFrom s args n (pc + 1) called
      else (p.position? onFail).bind fun target => p.runFrom s args n target called
    | some (.call candidate) => p.runFrom s args n (pc + 1) (some candidate)
    | some .ret => called
    | some (.jump id) => (p.position? id).bind fun target => p.runFrom s args n target called
    | some (.label _) => p.runFrom s args n (pc + 1) called
    | some (.downcast _ _) => p.runFrom s args n (pc + 1) called

/-- The candidate that a program calls for arguments of the given types. What an instruction does
    depends on the arguments alone, so a run that comes back to a place never ends; any other is over
    after as many steps as there are instructions. -/
def run? [BEq T] (s : Subtyping T) (p : Program T) (args : List T) : Option (Candidate T) :=
  p.runFrom s args p.instructions.length 0 none

end Program

end MultipleDispatch
