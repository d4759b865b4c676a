import MultipleDispatch.Candidate.Basic
import MultipleDispatch.Json.Basic

/-!
Candidates as JSON. A function is an object inside the one that gives its home. On reading, other
fields are passed over; a parameter may leave out its type (or give null) and whether it is variadic,
and a function may leave out what it throws.
-/

namespace MultipleDispatch

/-- A parameter as JSON. -/
def Param.toJson {T : Type} [ToString T] (p : Param T) : Json :=
  .object [("name", .string p.name), ("ty", .ofOption (fun t => .string (toString t)) p.type),
    ("vararg", .bool p.variadic)]

/-- Reads a parameter. -/
def Param.ofJson? : Json → Option (Param String)
  | .object fields => do
    let name ← (← Json.field? fields "name").string?
    let type ← match Json.field? fields "ty" with
      | none => some none
      | some .null => some none
      | some t => t.string?.map some
    let variadic ← match Json.field? fields "vararg" with
      | none => some false
      | some (.bool b) => some b
      | some _ => none
    some ⟨name, type, variadic⟩
  | _ => none

/-- A candidate as JSON. -/
def Candidate.toJson {T : Type} [ToString T] (c : Candidate T) : Json :=
  .object
    [("namespace", .string c.home),
     ("decl", .object
       [("name", .string c.name), ("params", .array (c.params.map Param.toJson)),
        ("return_type", .string (toString c.result)),
        ("throws", .ofStrings (c.throws.map toString))])]

/-- Reads a candidate. -/
def Candidate.ofJson? : Json → Option (Candidate String)
  | .object fields => do
    let home ← (← Json.field? fields "namespace").string?
    let .object decl ← Json.field? fields "decl" | none
    let name ← (← Json.field? decl "name").string?
    let .array params ← Json.field? decl "params" | none
    let params ← params.mapM Param.ofJson?
    let result ← (← Json.field? decl "return_type").string?
    let throws ← match Json.field? decl "throws" with
      | none => some []
      | some t => t.strings?
    some ⟨home, name, params, result, throws⟩
  | _ => none

end MultipleDispatch
