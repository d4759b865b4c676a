import MultipleDispatch.Json.Basic
import MultipleDispatch.Settings.Basic

/-!
Settings as JSON: an object with the two settings, both optional, and nothing else.
-/

namespace MultipleDispatch

/-- Reads a policy: its exact name, alone or as the only field of an object without a value. -/
def Policy.ofJson? : Json → Option Policy
  | .string name => ofName? name
  | .object [(name, .null)] => ofName? name
  | _ => none

/-- Takes over one field. -/
def Settings.setJson? (s : Settings) : String × Json → Option Settings
  | ("index_policy", v) => (Policy.ofJson? v).map fun p => { s with policy := p }
  | ("parallel", .bool b) => some { s with parallel := b }
  | _ => none

/-- Reads settings. -/
def Settings.ofJson? : Json → Option Settings
  | .object fields => fields.foldlM setJson? {}
  | _ => none

end MultipleDispatch
