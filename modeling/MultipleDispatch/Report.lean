import MultipleDispatch.Candidate.Json
import MultipleDispatch.Code.Emission
import MultipleDispatch.Compilation
import MultipleDispatch.Tree.Text

/-!
Compiled groups in writing: as text, as text with the program of each tree, or as JSON.
-/

namespace MultipleDispatch

/-- The forms in which compiled groups are written. -/
inductive Format where
  /-- Trees and combined signatures. -/
  | text
  /-- The same, with a program below each signature. -/
  | listing
  | json
  deriving DecidableEq

/-- A node as JSON. -/
def Node.toJson {T : Type} [ToString T] {g : Group T} (n : Node g) : Json :=
  .object
    [("candidates", .array (n.candidates.map fun c => .number c.val)),
     ("tested", .array (n.tested.toList.map .number)),
     ("parent", .ofOption .number n.parent),
     ("edge_type", .ofOption (fun t => .string (toString t)) n.edge),
     ("branch", .ofOption (fun b => .object
       [("dispatch_index", .number b.index),
        ("children", .array (b.children.map fun (t, id) =>
          .array [.string (toString t), .number id]))]) n.branch)]

variable {T : Type} [ToString T]

/-- A group as JSON. -/
def Group.toJson (g : Group T) : Json :=
  .object
    [("name", .string g.name), ("arity", .number g.arity),
     ("candidates", .array (g.candidates.map Candidate.toJson))]

/-- A tree as JSON, all nodes in a list. -/
def Dispatch.toJson (d : Dispatch T) : Json :=
  .object
    [("group", d.group.toJson), ("nodes", .array (d.tree.nodes.map Node.toJson)),
     ("root", .number 0)]

namespace Signature

variable {n : Nat}

/-- A signature as JSON. -/
def toJson (s : Signature T n) : Json :=
  .object
    [("return_type", .string (toString s.result)), ("throws", .ofStrings (s.throws.map toString)),
     ("domain", .ofStrings (s.domain.map toString)),
     ("principal", .ofOption (fun c => .number c.val) s.principal)]

/-- A signature on one line. -/
def line (s : Signature T n) : String :=
  let domain := ", ".intercalate (s.domain.map toString)
  let throws := ", ".intercalate (s.throws.map toString)
  s!"combined: ({domain}) -> {s.result} throws [{throws}]\n"

end Signature

/-- An entry point as text, with its program if asked for. -/
def EntryPoint.text (withProgram : Bool) (e : EntryPoint T) : String :=
  e.toDispatch.text ++ e.signature.line ++ if withProgram then e.tree.program.text else ""

namespace Compiled

/-- A compiled group as text: its entry point, those of its parts, and a blank line. -/
def text (withProgram : Bool) (c : Compiled T) : String :=
  c.entry.text withProgram ++
    String.join (c.subsets.map fun part =>
      s!"subset {part.name}\n" ++ part.entry.text withProgram) ++ "\n"

/-- A compiled group as JSON. -/
def toJson (c : Compiled T) : Json :=
  .object
    [("tree", c.entry.toDispatch.toJson), ("signature", c.entry.signature.toJson),
     ("subsets", .array (c.subsets.map fun part => .object
       [("name", .string part.name), ("principal", .number part.principal),
        ("tree", part.entry.toDispatch.toJson), ("signature", part.entry.signature.toJson)]))]

end Compiled

/-- All compiled groups in the given form. -/
def report (format : Format) (table : List (Compiled T)) : String :=
  match format with
  | .text => String.join (table.map (Compiled.text false))
  | .listing => String.join (table.map (Compiled.text true))
  | .json => (Json.array (table.map Compiled.toJson)).pretty ++ "\n"

end MultipleDispatch
