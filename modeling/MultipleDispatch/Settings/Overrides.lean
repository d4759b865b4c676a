import MultipleDispatch.Error
import MultipleDispatch.Settings.Basic
import MultipleDispatch.Text.Blank

/-!
Settings given as free text, as from the environment. Blank space around a value does not count, and
a blank value changes nothing.
-/

namespace MultipleDispatch

/-- Reads the name of a policy. -/
def Policy.parse (text : String) : Except Error Policy :=
  let name := Text.trim text
  match Policy.ofName? name with
  | some p => .ok p
  | none => .error (.badSettings s!"unknown index policy '{name}'")

/-- Texts that override settings; what is missing stays as it is. -/
structure Overrides where
  policy : Option String := none
  parallel : Option String := none

namespace Overrides

/-- The variable that overrides the policy. -/
def policyVariable : String := "OVERLOAD_DISPATCH_POLICY"

/-- The variable that overrides whether groups are compiled side by side. -/
def parallelVariable : String := "OVERLOAD_DISPATCH_PARALLEL"

/-- Reads yes or no, in any of the usual words and in either case. -/
def parseFlag (setting text : String) : Except Error Bool :=
  let word := Text.lower (Text.trim text)
  if ["1", "true", "yes", "on"].contains word then .ok true
  else if ["0", "false", "no", "off"].contains word then .ok false
  else .error (.badSettings s!"{setting} must be a boolean, got '{word}'")

/-- A text that is there and not blank. -/
def given? (text : Option String) : Option String := text.filter fun t => !Text.isAllBlank t

/-- The settings with what is given in their place. The policy is looked at first. -/
def apply (o : Overrides) (s : Settings) : Except Error Settings := do
  let policy ← match given? o.policy with
    | some text => Policy.parse text
    | none => pure s.policy
  let parallel ← match given? o.parallel with
    | some text => parseFlag parallelVariable text
    | none => pure s.parallel
  return { policy, parallel }

end Overrides

end MultipleDispatch
