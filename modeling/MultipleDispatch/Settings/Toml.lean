import MultipleDispatch.Settings.Basic
import MultipleDispatch.Toml.Reader

/-!
Settings in TOML: a table `dispatch` with the two settings, both optional, and nothing else.
-/

namespace MultipleDispatch

/-- Reads a policy: its exact name, alone or as the only key of a table, with nothing in it. -/
def Policy.ofToml? : Toml.Value → Option Policy
  | .string name => ofName? name
  | .table _ [(name, .table _ [])] => ofName? name
  | .table _ [(name, .array _ [])] => ofName? name
  | _ => none

namespace Settings

/-- Takes over one entry. -/
def setToml? (s : Settings) : String × Toml.Value → Option Settings
  | ("index_policy", v) => (Policy.ofToml? v).map fun p => { s with policy := p }
  | ("parallel", v) => v.boolean?.map fun b => { s with parallel := b }
  | _ => none

/-- Reads the table of settings. -/
def ofToml? (v : Toml.Value) : Option Settings := v.entries?.bind fun es => es.foldlM setToml? {}

/-- The settings of a document: those of its table `dispatch`, or the usual ones without it. -/
def ofEntries? (entries : Toml.Entries) : Option Settings :=
  match entries.lookup "dispatch" with
  | none => some {}
  | some v => ofToml? v

/-- The settings in the text of a document, whatever else it holds. -/
def ofDocument? (text : String) : Option Settings := (Toml.parse? text).bind ofEntries?

end Settings

end MultipleDispatch
