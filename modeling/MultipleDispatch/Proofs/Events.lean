import MultipleDispatch.Proofs.Growth

/-!
What is reported while a tree is grown. A choice reports a rival exactly if it does not dominate all
that it was made from, arranging reports the types that a cycle holds up, and whatever a grown tree
reports comes from a choice, from arranging the types of a fork, or from announcing its test.
`events_grow_safe` turns this into a rule: if an invariant passes down the edges and only allowed
events come up where it holds, then growing reports nothing else.
-/

namespace MultipleDispatch

variable {T : Type} {s : Subtyping T}

theorem Subtyping.events_bySpecificity (s : Subtyping T) (types : List T) :
    (s.bySpecificity types).events = (s.arrange types).cycle?.toList := by
  simp [bySpecificity, Traced.report?]

/-- Where the judgement composes, no cycle is reported. -/
theorem Subtyping.events_bySpecificity_of_composes {types : List T} (comp : s.Composes types) :
    (s.bySpecificity types).events = [] := by
  rw [events_bySpecificity, Arrangement.cycle?, stuck_arrange comp]
  rfl

namespace Group

variable [BEq T] {g : Group T} {tested : IndexSet} {cs : List (Fin g.size)}

/-! ### Choices -/

/-- A choice is silent exactly if the chosen candidate dominates all that it was chosen from. -/
theorem events_choose_eq_nil [ReflBEq T] {k : Class (Fin g.size)} : (g.choose s k).events = [] ↔
    ∀ d ∈ k.members, g.dominates s (g.mostSpecific s k) d = true := by
  have hevents : (g.choose s k).events =
      ((g.rival? s k.members (g.mostSpecific s k)).map fun rival =>
        .ambiguity g.name (g.candidate (g.mostSpecific s k)) (g.candidate rival)).toList := by
    simp [choose, Traced.report?]
  rw [hevents, Option.toList_eq_nil_iff, Option.map_eq_none_iff, rival?, List.find?_eq_none]
  refine forall₂_congr fun d _ => ?_
  rw [Bool.and_eq_true, bne_iff_ne, Bool.not_eq_true', not_and, Bool.not_eq_false]
  constructor
  · intro hdom
    by_cases hd : d = g.mostSpecific s k
    · rw [hd]
      exact dominates_refl s g _
    · exact hdom hd
  · exact fun hdom _ => hdom

theorem events_representatives (s : Subtyping T) (g : Group T) (tested : IndexSet)
    (cs : List (Fin g.size)) : (g.representatives s tested cs).events
      = (classify (g.agree tested) cs).flatMap fun k => (g.choose s k).events :=
  Traced.events_each _ _

theorem events_reduce (s : Subtyping T) (g : Group T) (tested : IndexSet)
    (cs : List (Fin g.size)) :
    (g.reduce s tested cs).events = (g.representatives s tested cs).events ++
      if tested.size = g.arity then (g.single s (g.representatives s tested cs).value).events
      else [] := by
  rw [reduce, Traced.events_bind]
  split
  · rfl
  · rfl

theorem events_single_of_length_le (h : cs.length ≤ 1) : (g.single s cs).events = [] :=
  match cs, h with
  | [], _ => rfl
  | [_], _ => rfl

/-! ### Growing -/

/-- What sprouting reports comes from reducing the candidates of an edge or from its child. -/
theorem mem_events_sprout {i : Fin g.arity} {child : List (Fin g.size) → Nat → Traced T (Tree g)}
    {e : Event T} : ∀ {types : List T} {free : List (Fin g.size)} {id : Nat},
      e ∈ (g.sprout s i tested child types free id).events →
        ∃ before t after, types = before ++ t :: after ∧
          (e ∈ (g.reduce s tested (g.accepting s i t (g.unclaimedBy i before free))).events ∨
            ∃ id', e ∈ (child (g.passing s i tested before t free) id').events)
  | [], free, id, he => by simp [sprout] at he
  | t :: types, free, id, he => by
    simp only [sprout, Traced.events_bind, Traced.events_pure, List.mem_append, List.append_nil]
      at he
    rcases he with he | he | he
    · refine ⟨[], t, types, rfl, Or.inl ?_⟩
      rwa [unclaimedBy_nil]
    · refine ⟨[], t, types, rfl, Or.inr ⟨id, ?_⟩⟩
      rwa [passing, unclaimedBy_nil]
    · obtain ⟨before, u, after, rfl, he⟩ := mem_events_sprout he
      refine ⟨t :: before, u, after, rfl, ?_⟩
      rwa [passing, unclaimedBy_cons, ← passing]

/-- Growing reports only allowed events if they are all that comes up at a node where the invariant
    holds, and the invariant passes down the edges. -/
theorem events_grow_safe (s : Subtyping T) (policy : Policy) (g : Group T)
    (invariant : IndexSet → List (Fin g.size) → Prop) (allowed : Event T → Prop)
    (stop : ∀ tested cs, invariant tested cs → g.untested tested = [] ∨ cs.length ≤ 1 →
      ∀ e ∈ (g.single s cs).events, allowed e)
    (arrange : ∀ tested cs i, invariant tested cs → g.Tests policy tested cs i →
      ∀ e ∈ (s.bySpecificity (g.edgeTypes cs i)).events, allowed e)
    (split : ∀ id i types, allowed (.split g.name id i types))
    (edge : ∀ tested cs i before t after, tested.Within g.arity → invariant tested cs →
      g.Tests policy tested cs i → g.testedTypes s cs i = before ++ t :: after →
      (∀ e ∈ (g.reduce s (tested.insert i)
        (g.accepting s i t (g.unclaimedBy i before cs))).events, allowed e) ∧
      invariant (tested.insert i) (g.passing s i (tested.insert i) before t cs)) :
    ∀ (n : Nat) (tested : IndexSet) (cs : List (Fin g.size)) (id : Nat),
      tested.Within g.arity → n + tested.size = g.arity → invariant tested cs →
        ∀ e ∈ (g.grow s policy n tested cs id).events, allowed e := by
  intro n
  induction n using Nat.strongRecOn with
  | ind n ih =>
    intro tested cs id hw hn hinv e he
    rcases grow_cases s policy g cs id hw hn with ⟨hstop, heq⟩ | ⟨k, i, rfl, _, htests, heq⟩
    · simp only [heq, Traced.events_bind, Traced.events_pure, List.append_nil] at he
      exact stop tested cs hinv hstop e he
    · simp only [heq, Traced.events_bind, Traced.events_pure, List.append_nil, Traced.report,
        List.mem_append, List.mem_singleton] at he
      rcases he with he | rfl | he
      · exact arrange tested cs i hinv htests e he
      · exact split _ _ _
      · obtain ⟨before, t, after, htypes, he⟩ := mem_events_sprout he
        obtain ⟨hreduce, hchild⟩ := edge tested cs i before t after hw hinv htests htypes
        rcases he with he | ⟨id', he⟩
        · exact hreduce e he
        · have hsize := IndexSet.size_insert htests.untested
          exact ih k (Nat.lt_succ_self k) _ _ id' (hw.insert i.isLt) (by omega) hchild e he

/-- Preparing a group without variadic parameters reports what growing its tree does. -/
theorem events_prepare [ToString T] (policy : Policy) (hv : g.VariadicFree) :
    (g.prepare s policy).run.events = (g.tree s policy).events := by
  rw [prepare, rejectVariadic_eq_ok hv]
  exact (List.nil_append _).trans (List.append_nil _)

end Group

end MultipleDispatch
