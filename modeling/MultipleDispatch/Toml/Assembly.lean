import MultipleDispatch.Toml.Value

/-!
Putting a TOML document together from its statements, with the rules on what may be defined where:
no key twice, nothing added to what is written in braces or brackets, no table with two headers, and
no dotted key into a table that has a header.
-/

namespace MultipleDispatch.Toml

/-- A key, with the tables that lead to it. -/
structure Key where
  path : List String
  name : String

/-- A statement of a document. -/
inductive Statement where
  /-- `key = value` -/
  | assign (key : Key) (value : Value)
  /-- `[key]`, or `[[key]]` when `element` is set. -/
  | header (element : Bool) (key : Key)

namespace Entries

/-- Replaces the value of a key that is there. -/
def replace (name : String) (value : Value) (entries : Entries) : Entries :=
  entries.map fun e => if e.1 == name then (name, value) else e

/-- Changes the last of an array's sections. -/
def changeLast (change : Entries → Option Entries) (items : List Value) : Option Value :=
  match items.getLast? with
  | some (.table origin inner) =>
    (change inner).map fun inner => .array true (items.dropLast ++ [.table origin inner])
  | _ => none

/-- Adds an entry below a dotted path. The tables on the path come from dotted keys; one that a header
    implied, or the last of an array's sections, may be passed through, but nothing is put directly
    into it. -/
def put (name : String) (value : Value) : List String → Entries → Option Entries
  | [], entries =>
    if (entries.lookup name).isSome then none else some (entries ++ [(name, value)])
  | step :: path, entries =>
    match entries.lookup step with
    | none => do
      let inner ← put name value path []
      some (entries ++ [(step, .table .dotted inner)])
    | some (.table origin inner) =>
      if origin = .dotted ∨ (origin = .implied ∧ path ≠ []) then do
        let inner ← put name value path inner
        some (replace step (.table origin inner) entries)
      else none
    | some (.array true items) =>
      if path = [] then none
      else (changeLast (put name value path) items).map (replace step · entries)
    | some _ => none

/-- Changes the table at the end of a header's path. An array of sections stands for its last one. -/
def within (change : Entries → Option Entries) : List String → Entries → Option Entries
  | [], entries => change entries
  | step :: path, entries =>
    match entries.lookup step with
    | none => do
      let inner ← within change path []
      some (entries ++ [(step, .table .implied inner)])
    | some (.table origin inner) =>
      if origin = .inline then none
      else do
        let inner ← within change path inner
        some (replace step (.table origin inner) entries)
    | some (.array true items) =>
      (changeLast (within change path) items).map (replace step · entries)
    | some _ => none

/-- Adds the assignments of one section. -/
def fill (assignments : List (Key × Value)) (entries : Entries) : Option Entries :=
  assignments.foldlM (fun es (key, value) => put key.name value key.path es) entries

/-- Opens the section of a header and fills it. -/
def openSection (element : Bool) (name : String) (assignments : List (Key × Value)) (entries : Entries) :
    Option Entries :=
  match element, entries.lookup name with
  | false, none => do
    let body ← fill assignments []
    some (entries ++ [(name, .table .header body)])
  | false, some (.table .implied body) => do
    let body ← fill assignments body
    some (replace name (.table .header body) entries)
  | true, none => do
    let body ← fill assignments []
    some (entries ++ [(name, .array true [.table .header body])])
  | true, some (.array true items) => do
    let body ← fill assignments []
    some (replace name (.array true (items ++ [.table .header body])) entries)
  | _, _ => none

end Entries

/-- The assignments up to the next header, and the statements from there on. -/
def leading : List Statement → List (Key × Value) × List Statement
  | .assign key value :: rest =>
    let (assignments, rest) := leading rest
    ((key, value) :: assignments, rest)
  | rest => ([], rest)

/-- Adds the sections of `statements`, each under its header. -/
def addSections : List Statement → Entries → Option Entries
  | [], entries => some entries
  | .assign _ _ :: rest, entries => addSections rest entries
  | .header element key :: rest, entries => do
    let entries ←
      Entries.within (Entries.openSection element key.name (leading rest).1) key.path entries
    addSections rest entries

/-- Puts a document together. -/
def assemble (statements : List Statement) : Option Entries := do
  addSections statements (← Entries.fill (leading statements).1 [])

end MultipleDispatch.Toml
