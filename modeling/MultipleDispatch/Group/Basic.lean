import MultipleDispatch.Candidate.Basic
import MultipleDispatch.Classes
import MultipleDispatch.Error

/-!
Overload groups: candidates of one name and one arity, all of whose parameters have a type. The type
of a group keeps these facts, so that looking up a candidate or a declared type cannot fail. `ofList`
takes a list of candidates into a group, and `partition` sorts declarations into groups.
-/

namespace MultipleDispatch

/-- A candidate called `name` whose `arity` parameters all have a type, together with these types. -/
structure Member (T : Type) (name : String) (arity : Nat) where
  candidate : Candidate T
  signature : List T
  name_eq : candidate.name = name
  declared : candidate.params.map Param.type = signature.map some
  length_eq : signature.length = arity

/-- Candidates of one name and one arity among which calls are dispatched. -/
structure Group (T : Type) where
  name : String
  arity : Nat
  members : List (Member T name arity)
  nonempty : members ≠ []

/-- The types of `params`, if none is missing. -/
def Param.types? {T : Type} :
    (params : List (Param T)) → Option { types : List T // params.map Param.type = types.map some }
  | [] => some ⟨[], rfl⟩
  | p :: ps =>
    match h : p.type, types? ps with
    | some t, some ⟨ts, hts⟩ => some ⟨t :: ts, by simp [h, hts]⟩
    | _, _ => none

namespace Member

variable {T : Type} {name : String} {arity : Nat}

/-- The declared type of a parameter. -/
def type (m : Member T name arity) (i : Fin arity) : T :=
  m.signature.get ⟨i, m.length_eq.symm ▸ i.isLt⟩

/-- Is this parameter variadic? -/
def variadic (m : Member T name arity) (i : Fin arity) : Bool :=
  (m.candidate.params[i.val]?).any Param.variadic

/-- Takes `c` into the group `name` of the given arity. Its name is looked at before its arity, and
    its arity before its types. -/
def ofCandidate [ToString T] (name : String) (arity : Nat) (c : Candidate T) :
    Except Error (Member T name arity) :=
  if hn : c.name = name then
    if ha : c.arity = arity then
      match Param.types? c.params with
      | some ⟨types, declared⟩ =>
        .ok ⟨c, types, hn, declared, by
          rw [← ha, Candidate.arity, ← List.length_map (f := Param.type), declared,
            List.length_map]⟩
      | none => .error (.missingType c.shown (c.params.findIdx fun p => p.type.isNone))
    else .error (.arityMismatch name arity c.arity c.shown)
  else .error (.nameMismatch name c.shown)

end Member

namespace Group

variable {T : Type}

/-- The number of candidates. -/
def size (g : Group T) : Nat := g.members.length

/-- The candidates by number, in group order. -/
def ids (g : Group T) : List (Fin g.size) := List.finRange g.size

/-- The parameters by place. -/
def indices (g : Group T) : List (Fin g.arity) := List.finRange g.arity

/-- The member of a given number. -/
def member (g : Group T) (c : Fin g.size) : Member T g.name g.arity := g.members.get c

/-- The candidate of a given number. -/
def candidate (g : Group T) (c : Fin g.size) : Candidate T := (g.member c).candidate

/-- The declared types of a candidate. -/
def signature (g : Group T) (c : Fin g.size) : List T := (g.member c).signature

/-- The declared type of a candidate at one place. -/
def type (g : Group T) (c : Fin g.size) (i : Fin g.arity) : T := (g.member c).type i

/-- All candidates, in group order. -/
def candidates (g : Group T) : List (Candidate T) := g.members.map Member.candidate

/-- Only a group of two or more candidates needs dispatch. -/
def isOverloaded (g : Group T) : Bool := 1 < g.size

/-- Takes `candidates` into one group, each distinct one once. The first that does not belong is
    reported. -/
def ofList [ToString T] [BEq T] (name : String) (arity : Nat) (candidates : List (Candidate T)) :
    Except Error (Group T) := do
  let members ← candidates.mapM (Member.ofCandidate name arity)
  let kept := distinct (fun a b => a.candidate == b.candidate) members
  if h : kept = [] then .error (.emptyGroup name)
  else .ok ⟨name, arity, kept, h⟩

/-- The members that `keep` picks out, as a group of their own. -/
def only (g : Group T) (keep : Fin g.size → Bool) (some_kept : ∃ c, keep c = true) : Group T where
  name := g.name
  arity := g.arity
  members := (g.ids.filter keep).map g.member
  nonempty := by
    obtain ⟨c, hc⟩ := some_kept
    exact List.ne_nil_of_mem (List.mem_map_of_mem (List.mem_filter.2 ⟨List.mem_finRange c, hc⟩))

/-- Sorts declarations into groups by name and arity, in the order of first occurrence. -/
def partition [ToString T] [BEq T] (declarations : List (Candidate T)) :
    Except Error (List (Group T)) :=
  (classify (fun a b => a.name == b.name && a.arity == b.arity) declarations).mapM fun c =>
    ofList c.first.name c.first.arity c.members

end Group

end MultipleDispatch
