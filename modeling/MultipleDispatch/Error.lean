/-!
What can go wrong, by cause, and the one place where the wording of each cause stands. A candidate
is carried in its shown form.
-/

namespace MultipleDispatch

/-- The causes of failure. -/
inductive Error where
  /-- A group was asked for without candidates. -/
  | emptyGroup (name : String)
  /-- A candidate has another name than its group. -/
  | nameMismatch (name candidate : String)
  /-- A candidate has another number of parameters than its group. -/
  | arityMismatch (name : String) (expected found : Nat) (candidate : String)
  /-- A candidate's parameter has no declared type. -/
  | missingType (candidate : String) (index : Nat)
  /-- A candidate that takes part in dispatch has a variadic parameter. -/
  | variadic (name candidate : String) (index : Nat)
  /-- A setting has a value that means nothing. -/
  | badSettings (reason : String)
  /-- A manifest cannot be used. -/
  | badManifest (reason : String)
  /-- Compiled tables cannot be written down. -/
  | unwritable (reason : String)
  deriving DecidableEq

/-- The text of a failure. -/
def Error.message : Error → String
  | emptyGroup name => s!"overload group '{name}' has no candidates"
  | nameMismatch name candidate =>
    s!"candidate {candidate} does not belong to overload group '{name}'"
  | arityMismatch name expected found candidate =>
    s!"arity mismatch in overload group '{name}': expected {expected} parameters, {candidate} has {found}"
  | missingType candidate index => s!"missing declared type for parameter {index} of {candidate}"
  | variadic name candidate index =>
    s!"unsupported: overloaded varargs in '{name}' (parameter {index} of {candidate})"
  | badSettings reason => s!"invalid dispatch configuration: {reason}"
  | badManifest reason => s!"invalid overload manifest: {reason}"
  | unwritable reason => s!"failed to serialize compiled overloads: {reason}"

end MultipleDispatch
