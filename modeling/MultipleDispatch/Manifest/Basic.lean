import MultipleDispatch.Compilation
import MultipleDispatch.Subtyping.Hierarchy
import MultipleDispatch.Text.Blank

/-!
Manifests: a description of types and functions from which overloaded groups are compiled. Every
type that is mentioned has to be the top type or one of the described types.
-/

namespace MultipleDispatch

namespace Manifest

/-- A function as described: its types are still texts. -/
structure Function where
  home : String
  name : String
  params : List String
  returns : Option String
  throws : List String

/-- The mark of a variadic parameter, behind its type. -/
def variadicMark : List Char := ['.', '.', '.']

/-- Cuts the mark of a variadic parameter off. -/
def cutMark? (cs : List Char) : Option (List Char) :=
  if variadicMark.isSuffixOf cs then some (cs.take (cs.length - variadicMark.length)) else none

/-- Reads the type of a parameter: nothing for a missing type, three dots behind a variadic one. -/
def readParam (name text : String) : Param String :=
  let cs := Text.trimList text.toList
  if cs.isEmpty then ⟨name, none, false⟩
  else match cutMark? cs with
    | some type => ⟨name, some (String.ofList (Text.trimList type)), true⟩
    | none => ⟨name, some (String.ofList cs), false⟩

/-- The candidate that a function describes. Parameters are called `x0`, `x1` and so on, and what
    returns nothing in particular returns the top type. -/
def Function.candidate (top : String) (f : Function) : Candidate String where
  home := f.home
  name := f.name
  params := f.params.zipIdx.map fun (text, i) => readParam s!"x{i}" text
  result := f.returns.getD top
  throws := f.throws

end Manifest

/-- All types that a candidate mentions: parameters, result, thrown types. -/
def Candidate.mentioned {T : Type} (c : Candidate T) : List T :=
  c.params.filterMap Param.type ++ c.result :: c.throws

/-- A description of types and functions. -/
structure Manifest where
  top : Option String
  settings : Settings
  /-- Type names with their direct supertypes, in increasing order. -/
  types : List (String × List String)
  functions : List Manifest.Function

namespace Manifest

/-- The top type, which has a usual name. -/
def topType (m : Manifest) : String := m.top.getD Hierarchy.defaultTop

/-- The described types. -/
def hierarchy (m : Manifest) : Hierarchy := Hierarchy.ofTable m.topType m.types

/-- Fails at the first of `types` that is not described. -/
def checkTypes (h : Hierarchy) (context : String) (types : List String) : Except Error Unit :=
  match types.find? fun t => !h.isDeclared t with
  | some t => .error (.badManifest s!"unknown type '{t}' in {context}")
  | none => .ok ()

/-- The candidate of one function, if its name is not blank and its types are described. -/
def declared (h : Hierarchy) (f : Function) : Except Error (Candidate String) := do
  if Text.isAllBlank f.name then
    throw (.badManifest s!"function in namespace '{f.home}' has an empty name")
  let c := f.candidate h.top
  checkTypes h c.shown c.mentioned
  return c

/-- The candidates that the functions describe, in order. The supertypes are checked first. -/
def candidates (m : Manifest) : Except Error (List (Candidate String)) := do
  m.types.forM fun (name, supers) => checkTypes m.hierarchy s!"supertypes of '{name}'" supers
  m.functions.mapM (declared m.hierarchy)

/-- Compiles every overloaded group. -/
def compile (m : Manifest) : Attempt String (List (Compiled String)) := do
  compileTable m.hierarchy.subtyping m.settings (← m.candidates)

end Manifest

end MultipleDispatch
