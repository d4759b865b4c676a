import MultipleDispatch.Proofs.Arrangement
import MultipleDispatch.Proofs.Preference
import MultipleDispatch.Tree.Walk

/-!
How a grown tree looks, said once for all proofs about it. `grow_cases` says what growing one node
does. `grow_induction` forgets node numbers, events and the bound on the depth: a property of grown
trees holds if it holds at every stop and passes from the children of a fork to the fork. Which
candidates a child is grown for depends only on the edges before it (`passing`), and which child a
walk takes only on the types of the edges.
-/

namespace MultipleDispatch

variable {T : Type} [BEq T] {s : Subtyping T}

/-! ### The types that a fork tests for -/

/-- Where types accept one another transitively, the judgement composes between different types. -/
theorem Subtyping.composes_of_nodup [LawfulBEq T] (trans : s.Transitive) {types : List T}
    (distinct : types.Nodup) : s.Composes types := by
  intro i j k a b c ha _ hc hik hab hbc
  obtain ⟨hi, rfl⟩ := List.getElem?_eq_some_iff.1 ha
  obtain ⟨hk, rfl⟩ := List.getElem?_eq_some_iff.1 hc
  have hne : types[i] ≠ types[k] := fun h => hik ((List.Nodup.getElem_inj_iff distinct).1 h)
  have hfits := trans (fits_of_below hab) (fits_of_below hbc)
  exact (fits_eq_true.1 hfits).resolve_left hne

namespace Group

variable {g : Group T}

theorem mem_edgeTypes [LawfulBEq T] {cs : List (Fin g.size)} {i : Fin g.arity} {t : T} :
    t ∈ g.edgeTypes cs i ↔ ∃ c ∈ cs, g.type c i = t := by
  rw [edgeTypes, buckets, List.mem_map]
  constructor
  · rintro ⟨k, hk, rfl⟩
    exact ⟨k.first, mem_of_mem_classify hk List.mem_cons_self, rfl⟩
  · rintro ⟨c, hc, rfl⟩
    obtain ⟨k, hk, hck⟩ := exists_class_of_mem (fun a b => g.type a i == g.type b i) hc
    have hsame := same_first_of_mem (fun a => beq_self_eq_true (g.type a i)) hk hck
    exact ⟨k, hk, eq_of_beq hsame⟩

theorem nodup_edgeTypes [LawfulBEq T] (g : Group T) (cs : List (Fin g.size)) (i : Fin g.arity) :
    (g.edgeTypes cs i).Nodup := by
  rw [edgeTypes, List.Nodup, List.pairwise_map]
  refine (classified_classify _ cs).apart.imp fun hne h => ?_
  rw [h, beq_self_eq_true] at hne
  cases hne

/-- The types that a node with the candidates `cs` tests for at `i`, in order. -/
def testedTypes (s : Subtyping T) (g : Group T) (cs : List (Fin g.size)) (i : Fin g.arity) :
    List T :=
  (s.arrange (g.edgeTypes cs i)).types

theorem mem_testedTypes [LawfulBEq T] {cs : List (Fin g.size)} {i : Fin g.arity} {t : T} :
    t ∈ g.testedTypes s cs i ↔ ∃ c ∈ cs, g.type c i = t :=
  (s.perm_types_arrange _).mem_iff.trans mem_edgeTypes

theorem nodup_testedTypes [LawfulBEq T] (s : Subtyping T) (g : Group T) (cs : List (Fin g.size))
    (i : Fin g.arity) : (g.testedTypes s cs i).Nodup :=
  (s.perm_types_arrange _).nodup_iff.2 (nodup_edgeTypes g cs i)

/-- A type that is tested for later fits an earlier one only if the earlier fits it as well. -/
theorem ordered_testedTypes [LawfulBEq T] (trans : s.Transitive) (cs : List (Fin g.size))
    (i : Fin g.arity) :
    (g.testedTypes s cs i).Pairwise fun a b => s.fits b a = true → s.fits a b = true := by
  have hcomp := Subtyping.composes_of_nodup trans (nodup_edgeTypes g cs i)
  refine (Subtyping.ordered_types_arrange hcomp).imp fun {a b} hab hfits => ?_
  rcases Subtyping.fits_eq_true.1 hfits with rfl | hba
  · exact s.fits_refl b
  · exact Subtyping.fits_of_below (hab hba)

/-! ### The parameter that a fork tests -/

/-- The policy has a node with the candidates `cs` test the parameter `i`. -/
def Tests (policy : Policy) (g : Group T) (tested : IndexSet) (cs : List (Fin g.size))
    (i : Fin g.arity) : Prop :=
  ∃ first others, g.untested tested = first :: others ∧ i = g.testIndex policy cs first others

section

variable {policy : Policy} {tested : IndexSet} {cs : List (Fin g.size)} {i j : Fin g.arity}

/-- It is the untested parameter of the lowest rank. -/
theorem Tests.least (h : g.Tests policy tested cs i) :
    i ∈ g.untested tested ∧ ∀ j ∈ g.untested tested, g.rank policy cs i ≤ g.rank policy cs j := by
  obtain ⟨first, others, hu, rfl⟩ := h
  have hsorted := g.pairwise_untested tested
  rw [hu] at hsorted ⊢
  exact testIndex_least hsorted

theorem Tests.untested (h : g.Tests policy tested cs i) : tested.contains i = false :=
  mem_untested.1 h.least.1

theorem Tests.rank_le (h : g.Tests policy tested cs i) (hj : tested.contains j = false) :
    g.rank policy cs i ≤ g.rank policy cs j :=
  h.least.2 j (mem_untested.2 hj)

theorem Tests.cost_le (h : g.Tests policy tested cs i) (hj : tested.contains j = false) :
    policy.cost (g.buckets cs i) ≤ policy.cost (g.buckets cs j) := by
  rcases rank_le_rank.1 (h.rank_le hj) with hlt | ⟨heq, _⟩
  · exact hlt.le
  · exact heq.le

end

/-! ### The candidates that go down an edge -/

/-- The candidates of `cs` that no edge of a type in `earlier` claims. -/
def unclaimedBy (g : Group T) (i : Fin g.arity) (earlier : List T) (cs : List (Fin g.size)) :
    List (Fin g.size) :=
  cs.filter fun c => !earlier.contains (g.type c i)

/-- The candidates that go down the edge of type `t`, behind the edges of the types `earlier`. -/
def passing (s : Subtyping T) (g : Group T) (i : Fin g.arity) (tested : IndexSet)
    (earlier : List T) (t : T) (cs : List (Fin g.size)) : List (Fin g.size) :=
  (g.reduce s tested (g.accepting s i t (g.unclaimedBy i earlier cs))).value

theorem unclaimedBy_nil (g : Group T) (i : Fin g.arity) (cs : List (Fin g.size)) :
    g.unclaimedBy i [] cs = cs := by
  simp [unclaimedBy]

theorem unclaimedBy_cons (g : Group T) (i : Fin g.arity) (t : T) (earlier : List T)
    (cs : List (Fin g.size)) :
    g.unclaimedBy i (t :: earlier) cs = g.unclaimedBy i earlier (g.unclaimed i t cs) := by
  rw [unclaimedBy, unclaimedBy, unclaimed, List.filter_filter]
  refine List.filter_congr fun c _ => ?_
  rw [List.contains_cons, Bool.not_or, Bool.and_comm]

theorem mem_unclaimedBy [LawfulBEq T] {i : Fin g.arity} {earlier : List T} {cs : List (Fin g.size)}
    {c : Fin g.size} : c ∈ g.unclaimedBy i earlier cs ↔ c ∈ cs ∧ g.type c i ∉ earlier := by
  simp [unclaimedBy]

theorem accepting_eq_filter [PartialEquivBEq T] {i : Fin g.arity} {t : T} {cs : List (Fin g.size)} :
    g.accepting s i t cs = cs.filter fun c => s.fits t (g.type c i) := by
  refine List.filter_congr fun c _ => ?_
  rw [Subtyping.fits, BEq.comm]

theorem mem_accepting [LawfulBEq T] {i : Fin g.arity} {t : T} {cs : List (Fin g.size)}
    {c : Fin g.size} : c ∈ g.accepting s i t cs ↔ c ∈ cs ∧ s.fits t (g.type c i) = true := by
  rw [accepting_eq_filter, List.mem_filter]

/-- In a partial order a type fits none that is tested for before it. -/
theorem not_fits_before [LawfulBEq T] (trans : s.Transitive) (anti : s.Antisymmetric)
    {i : Fin g.arity} {cs : List (Fin g.size)} {before after : List T} {t : T}
    (htypes : g.testedTypes s cs i = before ++ t :: after) :
    ∀ u ∈ before, s.fits t u = false := by
  have hord := ordered_testedTypes trans cs i
  have hnodup := nodup_testedTypes s g cs i
  rw [htypes, List.pairwise_append] at hord
  rw [htypes] at hnodup
  intro u hu
  rw [← Bool.not_eq_true]
  intro hfits
  have hut := anti hfits (hord.2.2 u hu t List.mem_cons_self hfits)
  exact (List.nodup_append.1 hnodup).2.2 u hu t List.mem_cons_self hut.symm

/-- In a partial order the edges before one claim no candidate that accepts its type: they would be
    more specific than the candidate's own edge. -/
theorem accepting_unclaimedBy [LawfulBEq T] (trans : s.Transitive) (anti : s.Antisymmetric)
    {i : Fin g.arity} {cs : List (Fin g.size)} {before after : List T} {t : T}
    (htypes : g.testedTypes s cs i = before ++ t :: after) :
    g.accepting s i t (g.unclaimedBy i before cs) = g.accepting s i t cs := by
  rw [accepting_eq_filter, accepting_eq_filter, unclaimedBy, List.filter_filter]
  refine List.filter_congr fun c _ => ?_
  rw [Bool.and_eq_left_iff_imp]
  intro hfits
  rw [Bool.not_eq_true', ← Bool.not_eq_true, List.contains_iff_mem]
  intro hclaimed
  rw [not_fits_before trans anti htypes _ hclaimed] at hfits
  cases hfits

/-- Whoever goes down an edge was there before and accepts its type. -/
theorem mem_of_mem_passing {i : Fin g.arity} {tested : IndexSet} {earlier : List T} {t : T}
    {cs : List (Fin g.size)} {c : Fin g.size} (hc : c ∈ g.passing s i tested earlier t cs) :
    c ∈ cs ∧ (g.type c i == t || s.below t (g.type c i)) = true := by
  obtain ⟨hfree, haccepts⟩ := List.mem_filter.1 (reduce_subset hc)
  exact ⟨(List.mem_filter.1 hfree).1, haccepts⟩

theorem nodup_passing {i : Fin g.arity} {tested : IndexSet} {earlier : List T} {t : T}
    {cs : List (Fin g.size)} (h : cs.Nodup) : (g.passing s i tested earlier t cs).Nodup :=
  nodup_reduce ((h.sublist List.filter_sublist).sublist List.filter_sublist)

/-! ### Sprouting -/

/-- One child per type, in order. -/
theorem map_fst_sprout (s : Subtyping T) (g : Group T) (i : Fin g.arity) (tested : IndexSet)
    (child : List (Fin g.size) → Nat → Traced T (Tree g)) :
    ∀ (types : List T) (free : List (Fin g.size)) (id : Nat),
      (g.sprout s i tested child types free id).value.toList.map Prod.fst = types
  | [], _, _ => rfl
  | t :: types, free, id => by
    simp [sprout, Edges.toList, map_fst_sprout s g i tested child types]

/-- Every child is grown for the candidates that pass the edges before it. -/
theorem exists_child_sprout (s : Subtyping T) (g : Group T) (i : Fin g.arity) (tested : IndexSet)
    (child : List (Fin g.size) → Nat → Traced T (Tree g)) {t : T} {tree : Tree g}
    {after : List (T × Tree g)} :
    ∀ (types : List T) (free : List (Fin g.size)) (id : Nat) (before : List (T × Tree g)),
      (g.sprout s i tested child types free id).value.toList = before ++ (t, tree) :: after →
        ∃ id', tree = (child (g.passing s i tested (before.map Prod.fst) t free) id').value
  | [], free, id, before, h => by
    have hlen := congrArg List.length h
    simp [sprout, Edges.toList] at hlen
  | e :: types, free, id, before, h => by
    simp only [sprout, Traced.value_bind, Traced.value_pure, Edges.toList] at h
    cases before with
    | nil =>
      rw [List.nil_append, List.cons.injEq, Prod.mk.injEq] at h
      obtain ⟨⟨rfl, rfl⟩, _⟩ := h
      exact ⟨id, by rw [List.map_nil, passing, unclaimedBy_nil]⟩
    | cons b before =>
      rw [List.cons_append, List.cons.injEq] at h
      obtain ⟨rfl, hrest⟩ := h
      obtain ⟨id', hid⟩ := exists_child_sprout s g i tested child types _ _ before hrest
      exact ⟨id', by rw [hid, List.map_cons, passing, passing, unclaimedBy_cons]⟩

/-! ### Growing -/

/-- What growing a node does: it stops, or it tests a parameter and sprouts. -/
theorem grow_cases (s : Subtyping T) (policy : Policy) (g : Group T) {n : Nat}
    {tested : IndexSet} (cs : List (Fin g.size)) (id : Nat) (hw : tested.Within g.arity)
    (hn : n + tested.size = g.arity) :
    ((g.untested tested = [] ∨ cs.length ≤ 1) ∧
      g.grow s policy n tested cs id = do return .stop (← g.single s cs) tested) ∨
    ∃ k i, n = k + 1 ∧ 2 ≤ cs.length ∧ g.Tests policy tested cs i ∧
      g.grow s policy n tested cs id = do
        let types ← s.bySpecificity (g.edgeTypes cs i)
        Traced.report (.split g.name id i types)
        return .fork cs tested i (← g.sprout s i (tested.insert i)
          (g.grow s policy k (tested.insert i)) types cs (id + 1)) := by
  cases n with
  | zero => exact Or.inl ⟨Or.inl (untested_eq_nil hw (by omega)), rfl⟩
  | succ n =>
    match hu : g.untested tested, cs with
    | [], cs => exact Or.inl ⟨Or.inl rfl, by simp only [grow, hu]⟩
    | _ :: _, [] => exact Or.inl ⟨Or.inr (by simp), by simp only [grow, hu]⟩
    | _ :: _, [_] => exact Or.inl ⟨Or.inr (by simp), by simp only [grow, hu]⟩
    | first :: others, a :: b :: cs =>
      exact Or.inr ⟨n, _, rfl, by simp, ⟨first, others, hu, rfl⟩, by simp only [grow, hu]⟩

/-- Induction over a grown tree. -/
theorem grow_induction (s : Subtyping T) (policy : Policy) (g : Group T)
    {motive : IndexSet → List (Fin g.size) → Tree g → Prop}
    (stop : ∀ tested cs, tested.Within g.arity → g.untested tested = [] ∨ cs.length ≤ 1 →
      motive tested cs (.stop (g.single s cs).value tested))
    (fork : ∀ tested cs i edges, tested.Within g.arity → 2 ≤ cs.length →
      g.Tests policy tested cs i → edges.toList.map Prod.fst = g.testedTypes s cs i →
      (∀ before t child after, edges.toList = before ++ (t, child) :: after →
        motive (tested.insert i)
          (g.passing s i (tested.insert i) (before.map Prod.fst) t cs) child) →
      motive tested cs (.fork cs tested i edges)) :
    ∀ (n : Nat) (tested : IndexSet) (cs : List (Fin g.size)) (id : Nat),
      tested.Within g.arity → n + tested.size = g.arity →
        motive tested cs (g.grow s policy n tested cs id).value := by
  intro n
  induction n using Nat.strongRecOn with
  | ind n ih =>
    intro tested cs id hw hn
    rcases grow_cases s policy g cs id hw hn with ⟨hstop, heq⟩ | ⟨k, i, rfl, hlen, htests, heq⟩
    · rw [heq]
      exact stop tested cs hw hstop
    · rw [heq]
      refine fork tested cs i _ hw hlen htests (map_fst_sprout s g _ _ _ _ _ _) ?_
      intro before t child after hsplit
      obtain ⟨id', rfl⟩ := exists_child_sprout s g _ _ _ _ _ _ before hsplit
      refine ih k (Nat.lt_succ_self k) _ _ id' (hw.insert i.isLt) ?_
      have hsize := IndexSet.size_insert htests.untested
      omega

/-! ### Preparation -/

/-- No candidate has a variadic parameter. -/
def VariadicFree {T : Type} (g : Group T) : Prop := ∀ c i, (g.member c).variadic i = false

theorem variadic?_eq_none {T : Type} {g : Group T} : g.variadic? = none ↔ g.VariadicFree := by
  simp [variadic?, VariadicFree, ids, indices]

theorem variadic?_eq_some {T : Type} {g : Group T} {c : Fin g.size} {i : Fin g.arity} :
    g.variadic? = some (c, i) ↔
      ((g.member c).variadic i = true ∧ ∀ j < i, (g.member c).variadic j = false) ∧
        ∀ d < c, ∀ j, (g.member d).variadic j = false := by
  rw [variadic?, ids, findSome?_finRange_eq_some]
  simp [indices, find?_finRange_eq_some]

/-- A group `f` with a candidate for every given pair of parameter types. -/
def ofPairs {T : Type} (first : T × T) (others : List (T × T)) : Group T where
  name := "f"
  arity := 2
  members := (first :: others).map fun p =>
    { candidate := ⟨"home", "f", [⟨"x", some p.1, false⟩, ⟨"y", some p.2, false⟩], p.1, []⟩
      signature := [p.1, p.2]
      name_eq := rfl
      declared := rfl
      length_eq := rfl }
  nonempty := by simp

theorem variadicFree_ofPairs {T : Type} (first : T × T) (others : List (T × T)) :
    (ofPairs first others).VariadicFree := by
  intro c i
  obtain ⟨p, _, hp⟩ := List.mem_map.1 (List.get_mem (ofPairs first others).members c)
  rw [member, ← hp]
  exact match i with
    | ⟨0, _⟩ => rfl
    | ⟨1, _⟩ => rfl

theorem rejectVariadic_eq_ok {T : Type} [ToString T] {g : Group T} (hv : g.VariadicFree) :
    g.rejectVariadic = .ok () := by
  rw [rejectVariadic, variadic?_eq_none.2 hv]

/-- Preparing a group without variadic parameters grows its tree. -/
theorem value_prepare [ToString T] (policy : Policy) (hv : g.VariadicFree) :
    (g.prepare s policy).run.value = .ok (g.tree s policy).value := by
  rw [prepare, rejectVariadic_eq_ok hv]
  rfl

/-- Preparation succeeds only without variadic parameters. -/
theorem variadicFree_of_prepare [ToString T] {policy : Policy} {t : Tree g}
    (h : (g.prepare s policy).run.value = .ok t) : g.VariadicFree := by
  rw [← variadic?_eq_none]
  rw [prepare, rejectVariadic] at h
  cases hv : g.variadic? with
  | none => rfl
  | some found => rw [hv] at h; cases h

/-- Preparation succeeds with the tree that is grown for the group. -/
theorem eq_tree_of_prepare [ToString T] {policy : Policy} {t : Tree g}
    (h : (g.prepare s policy).run.value = .ok t) : t = (g.tree s policy).value := by
  rw [prepare] at h
  cases hr : g.rejectVariadic with
  | error e => rw [hr] at h; cases h
  | ok _ => rw [hr] at h; exact (Except.ok.inj h).symm

end Group

/-! ### Walking -/

/-- A walk goes on at the first child whose type the argument fits. -/
theorem Edges.walk_eq_find {g : Group T} (s : Subtyping T) (args : Fin g.arity → T) (arg : T) :
    ∀ edges : Edges g, edges.walk s args arg =
      (edges.toList.find? fun e => s.fits arg e.1).bind fun e => e.2.walk s args
  | .nil => rfl
  | .cons t child rest => by
    rw [Edges.walk, Edges.toList, List.find?_cons]
    split
    · next h => simp [h]
    · next h => simp [h, walk_eq_find s args arg rest]

theorem Tree.resolve?_ofFn {g : Group T} (s : Subtyping T) (t : Tree g) (args : Fin g.arity → T) :
    t.resolve? s (List.ofFn args) = t.walk s args := by
  rw [Tree.resolve?, dif_pos List.length_ofFn]
  simp

theorem Dispatch.resolve?_ofFn (s : Subtyping T) (d : Dispatch T) (args : Fin d.group.arity → T) :
    d.resolve? s (List.ofFn args) = (d.tree.walk s args).map d.group.candidate := by
  rw [Dispatch.resolve?, Tree.resolve?_ofFn]

end MultipleDispatch
