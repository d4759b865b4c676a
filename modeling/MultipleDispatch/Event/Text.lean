import MultipleDispatch.Event.Basic
import MultipleDispatch.Text.Quoted

/-!
How events are worded: a level, a message, and named fields whose values are texts.
-/

namespace MultipleDispatch

/-- How much an event matters. -/
inductive Level where
  | warn
  | debug
  | trace
  deriving DecidableEq

/-- The name of a level. -/
def Level.name : Level → String
  | warn => "WARN"
  | debug => "DEBUG"
  | trace => "TRACE"

namespace Event

variable {T : Type}

/-- Ambiguities and cycles are worth a warning. -/
def level : Event T → Level
  | cycle _ => .warn
  | ambiguity _ _ _ => .warn
  | split _ _ _ _ => .trace
  | compiled _ _ _ _ _ _ => .debug
  | started _ _ _ => .debug

/-- What happened. -/
def message : Event T → String
  | cycle _ => "subtype oracle reported a cycle; keeping input order"
  | ambiguity _ _ _ => "most specific candidate does not dominate the whole set"
  | split _ _ _ _ => "split"
  | compiled _ _ _ _ _ _ => "compiled overload group"
  | started _ _ _ => "compiling overload table"

/-- To whom and with what numbers it happened. -/
def fields [ToString T] : Event T → List (String × String)
  | cycle types => [("types", Text.quotedList (types.map toString))]
  | ambiguity group chosen rival =>
    [("group", group), ("chosen", chosen.shown), ("rival", rival.shown)]
  | split group node index edges =>
    [("group", group), ("node", toString node), ("dispatch_index", toString index),
     ("edges", Text.quotedList (edges.map toString))]
  | compiled group arity candidates nodes depth subsets =>
    [("group", group), ("arity", toString arity), ("candidates", toString candidates),
     ("nodes", toString nodes), ("depth", toString depth), ("subsets", toString subsets)]
  | started groups parallel policy =>
    [("groups", toString groups), ("parallel", if parallel then "true" else "false"),
     ("policy", policy.name)]

end Event

end MultipleDispatch
