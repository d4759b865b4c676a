import MultipleDispatch.Proofs.Partition
import MultipleDispatch.Proofs.Subsets

/-!
What compilation refuses. A group is refused if and only if a candidate of it has a variadic
parameter; the error names the first such candidate and its first variadic parameter. That is looked
for once, in the whole group: looking again at every fork of the tree, among the candidates and the
parameters left there, would find nothing (`prepareChecking_eq`), and neither would it in the parts of
the group. A table of declarations fails first for a parameter without a type, in whatever group it
is, then for the first group of two or more candidates that is refused.
-/

namespace MultipleDispatch

variable {T : Type}

/-- Some parameter is variadic. -/
def Candidate.Variadic (c : Candidate T) : Prop := ∃ p ∈ c.params, p.variadic = true

theorem Candidate.variadicIndex?_eq_none {c : Candidate T} :
    c.variadicIndex? = none ↔ ¬ c.Variadic := by
  simp [variadicIndex?, Variadic]

/-! ### Variadic parameters by place -/

namespace Member

variable {name : String} {arity : Nat} {m : Member T name arity}

theorem variadic_eq_get (i : Fin arity) :
    m.variadic i = (m.candidate.params.get (i.cast m.length_params.symm)).variadic := by
  simp [variadic, m.length_params]

theorem variadicIndex?_eq_some {k : Nat} : m.candidate.variadicIndex? = some k ↔
    ∃ i : Fin arity, i.val = k ∧ m.variadic i = true ∧ ∀ j < i, m.variadic j = false := by
  rw [Candidate.variadicIndex?, List.findIdx?_eq_some_iff_getElem]
  simp only [variadic_eq_get]
  constructor
  · rintro ⟨hk, hp, hbefore⟩
    exact ⟨⟨k, m.length_params ▸ hk⟩, rfl, hp, fun j hj => Bool.eq_false_iff.2 (hbefore j hj)⟩
  · rintro ⟨i, rfl, hp, hbefore⟩
    refine ⟨m.length_params.symm ▸ i.isLt, hp, fun j hj => Bool.eq_false_iff.1 ?_⟩
    exact hbefore ⟨j, hj.trans i.isLt⟩ hj

theorem variadicIndex?_eq_none : m.candidate.variadicIndex? = none ↔ ∀ i, m.variadic i = false := by
  rw [Candidate.variadicIndex?, List.findIdx?_eq_none_iff]
  simp only [variadic_eq_get]
  constructor
  · exact fun h i => h _ (List.get_mem _ _)
  · intro h p hp
    obtain ⟨i, rfl⟩ := List.get_of_mem hp
    exact h (i.cast m.length_params)

end Member

namespace Group

theorem variadicFree_iff {g : Group T} : g.VariadicFree ↔ ∀ c ∈ g.candidates, ¬ c.Variadic := by
  simp only [VariadicFree, ← Member.variadicIndex?_eq_none, Candidate.variadicIndex?_eq_none,
    mem_candidates, forall_exists_index, forall_apply_eq_imp_iff]
  rfl

/-! ### The reason for a refusal -/

section Reason

variable [ToString T]

/-- `e` names the first candidate with a variadic parameter and its first variadic parameter. -/
def Refused (g : Group T) (e : Error) : Prop :=
  ∃ (c : Fin g.size) (k : Nat), (g.candidate c).variadicIndex? = some k ∧
    (∀ d < c, (g.candidate d).variadicIndex? = none) ∧
      e = .variadic g.name (g.candidate c).shown k

theorem rejectVariadic_eq_error {g : Group T} {e : Error} :
    g.rejectVariadic = .error e ↔ g.Refused e := by
  simp only [Refused, candidate, Member.variadicIndex?_eq_some, Member.variadicIndex?_eq_none]
  rw [rejectVariadic]
  constructor
  · intro h
    split at h
    · next c i hfound =>
      cases h
      obtain ⟨hi, hfirst⟩ := variadic?_eq_some.1 hfound
      exact ⟨c, i, ⟨i, rfl, hi⟩, hfirst, rfl⟩
    · cases h
  · rintro ⟨c, _, ⟨i, rfl, hi⟩, hfirst, rfl⟩
    rw [variadic?_eq_some.2 ⟨hi, hfirst⟩]
    rfl

theorem exists_refused_iff {g : Group T} : (∃ e, g.Refused e) ↔ ¬ g.VariadicFree := by
  simp only [← rejectVariadic_eq_error, ← variadic?_eq_none, rejectVariadic]
  cases g.variadic? with
  | none => simp
  | some found => simp

variable [BEq T] {s : Subtyping T} {g : Group T} {policy : Policy} {e : Error}

theorem prepare_eq_error : (g.prepare s policy).run.value = .error e ↔ g.Refused e := by
  rw [← rejectVariadic_eq_error, prepare]
  cases g.rejectVariadic with
  | error e' => exact ⟨fun h => by cases h; rfl, fun h => by cases h; rfl⟩
  | ok _ =>
    refine iff_of_false (fun h => ?_) (fun h => ?_)
    · cases h
    · cases h

/-- The parts of a group add no reason to refuse it. -/
theorem compile_eq_error : (g.compile s policy).run.value = .error e ↔ g.Refused e := by
  by_cases hv : g.VariadicFree
  · refine iff_of_false (fun h => ?_) (fun h => exists_refused_iff.1 ⟨e, h⟩ hv)
    cases h.symm.trans (value_compile policy hv)
  · obtain ⟨e', he'⟩ := exists_refused_iff.2 hv
    have hprepare : (g.prepare s policy).run.value = .error e' := prepare_eq_error.2 he'
    have hcompile : (g.compile s policy).run.value = .error e' := by
      rw [compile, Traced.value_run_bind, entryPoint, Traced.value_run_bind, hprepare]
      rfl
    have hrefused : g.Refused e ↔ (g.prepare s policy).run.value = .error e := prepare_eq_error.symm
    rw [hrefused, hprepare, hcompile, Except.error.injEq, Except.error.injEq]

end Reason

/-! ### Looking again at every fork -/

section Again

/-- Fails if one of `cs` has a variadic parameter among `indices`. -/
def rejectAmong [ToString T] (g : Group T) (cs : List (Fin g.size)) (indices : List (Fin g.arity)) :
    Except Error Unit :=
  match cs.findSome? fun c => (indices.find? (g.member c).variadic).map fun i => (c, i) with
  | some (c, i) => .error (.variadic g.name (g.candidate c).shown i)
  | none => .ok ()

theorem rejectAmong_eq_ok [ToString T] {g : Group T} (hv : g.VariadicFree) (cs : List (Fin g.size))
    (indices : List (Fin g.arity)) : g.rejectAmong cs indices = .ok () := by
  have hnone : (cs.findSome? fun c =>
      (indices.find? (g.member c).variadic).map fun i => (c, i)) = none := by simp [hv _ _]
  rw [rejectAmong, hnone]

variable [BEq T]

/-- Sprouting with children that may fail to grow. -/
def sproutChecking (s : Subtyping T) (g : Group T) (i : Fin g.arity) (tested : IndexSet)
    (child : List (Fin g.size) → Nat → Attempt T (Tree g)) :
    List T → List (Fin g.size) → Nat → Attempt T (Edges g)
  | [], _, _ => pure .nil
  | edge :: edges, free, id => do
    let cs ← g.reduce s tested (g.accepting s i edge free)
    let tree ← child cs id
    let rest ← sproutChecking s g i tested child edges (g.unclaimed i edge free) (id + tree.size)
    pure (.cons edge tree rest)

theorem sproutChecking_eq {s : Subtyping T} {g : Group T} {i : Fin g.arity} {tested : IndexSet}
    {child : List (Fin g.size) → Nat → Traced T (Tree g)}
    {childChecking : List (Fin g.size) → Nat → Attempt T (Tree g)}
    (hchild : ∀ cs id, childChecking cs id = liftM (child cs id)) (types : List T) :
    ∀ (free : List (Fin g.size)) (id : Nat),
      g.sproutChecking s i tested childChecking types free id =
        liftM (g.sprout s i tested child types free id) := by
  induction types with
  | nil => simp [sproutChecking, sprout]
  | cons t types ih => simp [sproutChecking, sprout, hchild, ih]

variable [ToString T]

/-- Growing that looks for variadic parameters at every fork. -/
def growChecking (s : Subtyping T) (policy : Policy) (g : Group T) :
    Nat → IndexSet → List (Fin g.size) → Nat → Attempt T (Tree g)
  | 0, tested, cs, _ => return .stop (← g.single s cs) tested
  | n + 1, tested, cs, id =>
    match g.untested tested, cs with
    | first :: others, _ :: _ :: _ => do
      g.rejectAmong cs (first :: others)
      let i := g.testIndex policy cs first others
      let types ← s.bySpecificity (g.edgeTypes cs i)
      Traced.report (.split g.name id i types)
      let tested' := tested.insert i
      return .fork cs tested i
        (← g.sproutChecking s i tested' (growChecking s policy g n tested') types cs (id + 1))
    | _, _ => return .stop (← g.single s cs) tested

/-- Preparation that looks for variadic parameters in the whole group and again at every fork. -/
def prepareChecking (s : Subtyping T) (policy : Policy) (g : Group T) : Attempt T (Tree g) := do
  g.rejectAmong g.ids g.indices
  g.growChecking s policy g.arity .empty g.ids 0

variable {s : Subtyping T} {g : Group T}

/-- Where no candidate has a variadic parameter, looking again changes nothing. -/
theorem growChecking_eq (hv : g.VariadicFree) (policy : Policy) (n : Nat) :
    ∀ (tested : IndexSet) (cs : List (Fin g.size)) (id : Nat),
      g.growChecking s policy n tested cs id = liftM (g.grow s policy n tested cs id) := by
  induction n with
  | zero => simp [growChecking, grow]
  | succ n ih =>
    intro tested cs id
    cases hu : g.untested tested with
    | nil => simp [growChecking, grow, hu]
    | cons first others =>
      rcases cs with _ | ⟨a, _ | ⟨b, cs⟩⟩
      · simp [growChecking, grow, hu]
      · simp [growChecking, grow, hu]
      · have hpass : (liftM (g.rejectAmong (a :: b :: cs) (first :: others)) : Attempt T Unit) =
            pure () := by
          rw [rejectAmong_eq_ok hv]
          rfl
        simp [growChecking, grow, hu, hpass, sproutChecking_eq (ih _)]

/-- Whether or not a parameter is variadic, preparation comes to the same if it looks again. -/
theorem prepareChecking_eq (s : Subtyping T) (policy : Policy) (g : Group T) :
    g.prepareChecking s policy = g.prepare s policy := by
  have hreject : g.rejectVariadic = g.rejectAmong g.ids g.indices := rfl
  rw [prepareChecking, prepare, ← hreject]
  by_cases hv : g.VariadicFree
  · rw [growChecking_eq hv]
    rfl
  · obtain ⟨e, he⟩ := exists_refused_iff.2 hv
    rw [rejectVariadic_eq_error.2 he]
    rfl

end Again

end Group

/-! ### Tables of declarations -/

variable [BEq T] [ToString T]

theorem value_compileTable (s : Subtyping T) (settings : Settings)
    (declarations : List (Candidate T)) : (compileTable s settings declarations).run.value =
      Group.partition declarations >>= fun groups =>
        (groups.filter Group.isOverloaded).mapM fun g => (g.compile s settings.policy).run.value := by
  rw [compileTable, Traced.value_run_bind]
  cases Group.partition declarations with
  | error e => rfl
  | ok groups => exact Traced.value_run_mapM _ _

section Table

variable {s : Subtyping T} {policy : Policy} {declarations : List (Candidate T)}
  {groups : List (Group T)}

/-- The first group that is refused gives the error. -/
theorem compileTable_eq_error (hp : Group.partition declarations = .ok groups)
    {before after : List (Group T)} {g : Group T} {e : Error}
    (hsplit : groups.filter Group.isOverloaded = before ++ g :: after)
    (hbefore : ∀ b ∈ before, b.VariadicFree) (he : g.Refused e) :
    (compileTable s ⟨policy, false⟩ declarations).run.value = .error e := by
  rw [value_compileTable, hp]
  refine mapM_eq_error_iff.2 ⟨before, g, after, hsplit, fun b hb => ?_, Group.compile_eq_error.2 he⟩
  exact ⟨_, Group.value_compile policy (hbefore b hb)⟩

/-- If no group is refused, all that need dispatch are compiled, in order. -/
theorem exists_compileTable_eq_ok (hp : Group.partition declarations = .ok groups)
    (hfree : ∀ g ∈ groups.filter Group.isOverloaded, g.VariadicFree) :
    ∃ compiled, (compileTable s ⟨policy, false⟩ declarations).run.value = .ok compiled ∧
      List.Forall₂ (fun g c => (g.compile s policy).run.value = .ok c)
        (groups.filter Group.isOverloaded) compiled := by
  simp only [← mapM_eq_ok_iff]
  rw [value_compileTable, hp]
  cases hm : (groups.filter Group.isOverloaded).mapM fun g => (g.compile s policy).run.value with
  | ok compiled => exact ⟨compiled, hm, rfl⟩
  | error e =>
    obtain ⟨before, g, after, hsplit, _, hg⟩ := mapM_eq_error_iff.1 hm
    have hv := hfree g (by rw [hsplit]; simp)
    exact absurd hv (Group.exists_refused_iff.1 ⟨e, Group.compile_eq_error.1 hg⟩)

end Table

/-- Preparation of a group fails exactly for a variadic parameter, with the first one in group order,
    wherever it looks for one, and compilation fails with it. A table of declarations fails first for
    a parameter without a type, then for the first overloaded group that is refused; otherwise it has
    what compiling each overloaded group gives. -/
theorem compilation_fails_exactly (s : Subtyping T) (policy : Policy) :
    (∀ g : Group T,
      ((∃ e, (g.prepare s policy).run.value = .error e) ↔ ∃ c ∈ g.candidates, c.Variadic) ∧
      (∀ e, (g.prepare s policy).run.value = .error e ↔ g.Refused e) ∧
      g.prepareChecking s policy = g.prepare s policy ∧
      ∀ e, (g.compile s policy).run.value = .error e ↔ (g.prepare s policy).run.value = .error e) ∧
    ∀ declarations : List (Candidate T),
      ((∃ d ∈ declarations, d.Untyped) → ∃ e, Group.partition declarations = .error e ∧
        (compileTable s ⟨policy, false⟩ declarations).run.value = .error e) ∧
      ((∀ d ∈ declarations, ¬ d.Untyped) → ∃ groups, Group.partition declarations = .ok groups ∧
        Sorts declarations groups ∧
        (∀ before g after e, groups.filter Group.isOverloaded = before ++ g :: after →
          (∀ b ∈ before, ∀ c ∈ b.candidates, ¬ c.Variadic) → g.Refused e →
            (compileTable s ⟨policy, false⟩ declarations).run.value = .error e) ∧
        ((∀ g ∈ groups.filter Group.isOverloaded, ∀ c ∈ g.candidates, ¬ c.Variadic) →
          ∃ compiled, (compileTable s ⟨policy, false⟩ declarations).run.value = .ok compiled ∧
            List.Forall₂ (fun g c => (g.compile s policy).run.value = .ok c)
              (groups.filter Group.isOverloaded) compiled)) := by
  simp only [← Group.variadicFree_iff]
  refine ⟨fun g => ⟨?_, fun e => Group.prepare_eq_error, Group.prepareChecking_eq s policy g,
    fun e => Group.compile_eq_error.trans Group.prepare_eq_error.symm⟩, fun declarations => ⟨?_, ?_⟩⟩
  · simp only [Group.prepare_eq_error, Group.exists_refused_iff, Group.variadicFree_iff]
    simp
  · intro huntyped
    obtain ⟨e, he⟩ := Group.exists_partition_eq_error_iff.2 huntyped
    refine ⟨e, he, ?_⟩
    rw [value_compileTable, he]
    rfl
  · intro htyped
    cases hp : Group.partition declarations with
    | error e =>
      obtain ⟨d, hd, huntyped⟩ := Group.exists_partition_eq_error_iff.1 ⟨e, hp⟩
      exact absurd huntyped (htyped d hd)
    | ok groups =>
      exact ⟨groups, rfl, Group.sorts_of_partition hp,
        fun _ _ _ _ hsplit hbefore he => compileTable_eq_error hp hsplit hbefore he,
        exists_compileTable_eq_ok hp⟩

/-- Two groups with a variadic parameter each, and before them a lone variadic candidate. The group
    that is met first is reported, although the parameter of the other is declared before. -/
theorem compilation_fails_exactly_interleaved :
    let single (name : String) (t : Fin 3) (variadic : Bool) : Candidate (Fin 3) :=
      ⟨"home", name, [⟨"x", some t, variadic⟩], t, []⟩
    let declarations := [single "e" 0 true, single "f" 0 false, single "g" 0 true, single "g" 1 false,
      single "f" 1 true]
    (∀ d ∈ declarations, ¬ d.Untyped) ∧
      (compileTable .ladder ⟨.default, false⟩ declarations).run.value =
        .error (.variadic "f" (single "f" 1 true).shown 0) := by
  intro single declarations
  have htyped : ∀ d ∈ declarations, ¬ d.Untyped := by
    simp [declarations, single, Candidate.Untyped]
  refine ⟨htyped, ?_⟩
  obtain ⟨groups, hp, _, hrefused, _⟩ :=
    ((compilation_fails_exactly .ladder .default).2 declarations).2 htyped
  cases hp
  refine hrefused [] _ _ _ rfl (by simp) ⟨⟨1, by decide⟩, 0, rfl, ?_, rfl⟩
  decide

end MultipleDispatch
