import MultipleDispatch.Manifest.Basic
import MultipleDispatch.Settings.Toml

/-!
Manifests in TOML. The document has `top`, a table `dispatch` of settings, a table `types` and a
section `function` for every function, each of them optional, and nothing else.
-/

namespace MultipleDispatch.Manifest

/-- Reads an entry that may be missing. -/
def optional {α : Type} (read : Toml.Value → Option α) (missing : α) (entries : Toml.Entries)
    (name : String) : Option α :=
  match entries.lookup name with
  | none => some missing
  | some v => read v

/-- Are all keys among the given ones? -/
def onlyKeys (names : List String) (entries : Toml.Entries) : Bool :=
  entries.all fun e => names.contains e.1

/-- Reads a function. Only its name is required. -/
def Function.ofToml? (v : Toml.Value) : Option Function := do
  let entries ← v.entries?
  if !onlyKeys ["namespace", "name", "params", "returns", "throws"] entries then none
  let home ← optional Toml.Value.string? "main" entries "namespace"
  let name ← (← entries.lookup "name").string?
  let params ← optional Toml.Value.strings? [] entries "params"
  let returns ← optional (fun v => v.string?.map some) none entries "returns"
  let throws ← optional Toml.Value.strings? [] entries "throws"
  some ⟨home, name, params, returns, throws⟩

/-- Reads the table of types, in the order of names. -/
def typesOfToml? (v : Toml.Value) : Option (List (String × List String)) := do
  let types ← (← v.entries?).mapM fun (name, v) => v.strings?.map fun supers => (name, supers)
  some (types.mergeSort fun a b => a.1 ≤ b.1)

/-- Reads a manifest from the entries of a document. -/
def ofEntries? (entries : Toml.Entries) : Option Manifest := do
  if !onlyKeys ["top", "dispatch", "types", "function"] entries then none
  let top ← optional (fun v => v.string?.map some) none entries "top"
  let settings ← Settings.ofEntries? entries
  let types ← optional typesOfToml? [] entries "types"
  let functions ←
    optional (fun v => v.items?.bind fun items => items.mapM Function.ofToml?) [] entries "function"
  some ⟨top, settings, types, functions⟩

/-- Reads a manifest from the text of a document. -/
def ofDocument? (text : String) : Option Manifest := (Toml.parse? text).bind ofEntries?

end MultipleDispatch.Manifest
