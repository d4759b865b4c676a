import MultipleDispatch.Policy

/-!
Settings for compilation.
-/

namespace MultipleDispatch

/-- How groups are compiled. -/
structure Settings where
  /-- How a node picks the parameter that it tests. -/
  policy : Policy := .default
  /-- Groups may be compiled side by side. -/
  parallel : Bool := false
  deriving DecidableEq

end MultipleDispatch
