import MultipleDispatch.Proofs.Growth
import MultipleDispatch.Proofs.Hierarchy

/-!
What a walk has tested holds. A walk reaches a node through edges whose types the arguments fit, and
every candidate that went down such an edge accepts its type. So at each node that a walk comes to,
the arguments tested on the way fit whatever the candidates there declare (`Fitting`). The tree may
have been grown when less was known of the types: all that counts is that the subtyping at the walk
affirms what was affirmed then, as a hierarchy does after further declarations.
-/

namespace MultipleDispatch

/-- `later` affirms every subtype that `earlier` affirms. -/
def Subtyping.Extends {T : Type} (later earlier : Subtyping T) : Prop :=
  ∀ ⦃a b : T⦄, earlier.below a b = true → later.below a b = true

theorem Hierarchy.extends_declareAll (h : Hierarchy) (table : List (String × List String)) :
    (h.declareAll table).subtyping.Extends h.subtyping := by
  intro a b hab
  rw [Subtyping.below, decide_eq_true_iff] at hab ⊢
  exact judge_declareAll table hab

variable {T : Type} {g : Group T}

/-! ### The nodes that a walk comes to -/

mutual

/-- Induction over a tree: what passes from the children of a fork to the fork holds of all trees. -/
theorem Tree.induction {motive : Tree g → Prop}
    (stop : ∀ cs tested, motive (.stop cs tested))
    (fork : ∀ cs tested i edges, (∀ e ∈ Edges.toList edges, motive e.2) →
      motive (.fork cs tested i edges)) : ∀ t, motive t
  | .stop cs tested => stop cs tested
  | .fork cs tested i edges => fork cs tested i edges (Edges.induction stop fork edges)

theorem Edges.induction {motive : Tree g → Prop}
    (stop : ∀ cs tested, motive (.stop cs tested))
    (fork : ∀ cs tested i edges, (∀ e ∈ Edges.toList edges, motive e.2) →
      motive (.fork cs tested i edges)) : ∀ edges : Edges g, ∀ e ∈ edges.toList, motive e.2
  | .nil => by simp [Edges.toList]
  | .cons t child rest => by
    intro e he
    rw [Edges.toList, List.mem_cons] at he
    rcases he with rfl | he
    · exact Tree.induction stop fork child
    · exact Edges.induction stop fork rest e he

end

/-- The candidate to call if nothing more is tested at the root. -/
def Tree.callee? : Tree g → Option (Fin g.size)
  | .stop cs _ => cs.head?
  | .fork _ _ _ _ => none

theorem Tree.mem_candidates_of_callee? {t : Tree g} {c : Fin g.size} (h : t.callee? = some c) :
    c ∈ t.candidates := by
  cases t with
  | stop cs tested => exact List.mem_of_mem_head? h
  | fork cs tested i edges => simp [callee?] at h

variable [BEq T] {s : Subtyping T} {args : Fin g.arity → T}

/-- A walk for `args` goes on from `t` at its child `u`. -/
inductive Tree.Takes (s : Subtyping T) (args : Fin g.arity → T) : Tree g → Tree g → Prop where
  | edge {cs : List (Fin g.size)} {tested : IndexSet} {i : Fin g.arity} {edges : Edges g} {t : T}
      {u : Tree g} (first : edges.toList.find? (fun e => s.fits (args i) e.1) = some (t, u)) :
      Takes s args (.fork cs tested i edges) u

/-- A walk for `args` that starts at `t` comes to `u`. -/
def Tree.Reaches (s : Subtyping T) (args : Fin g.arity → T) : Tree g → Tree g → Prop :=
  Relation.ReflTransGen (Tree.Takes s args)

theorem Tree.walk_of_reaches {t u : Tree g} (h : t.Reaches s args u) :
    t.walk s args = u.walk s args := by
  induction h with
  | refl => rfl
  | tail _ htakes ih =>
    cases htakes with
    | edge first => rw [ih, Tree.walk, Edges.walk_eq_find, first, Option.bind_some]

/-- A walk ends at a candidate exactly if it comes to a node where that candidate is to be called. -/
theorem Tree.walk_eq_some {t : Tree g} {c : Fin g.size} :
    t.walk s args = some c ↔ ∃ u, t.Reaches s args u ∧ u.callee? = some c := by
  constructor
  · induction t using Tree.induction with
    | stop cs tested => exact fun hwalk => ⟨_, .refl, hwalk⟩
    | fork cs tested i edges ih =>
      intro hwalk
      rw [Tree.walk, Edges.walk_eq_find, Option.bind_eq_some_iff] at hwalk
      obtain ⟨⟨t, child⟩, hfind, hchild⟩ := hwalk
      obtain ⟨u, hreach, hcallee⟩ := ih _ (List.mem_of_find?_eq_some hfind) hchild
      exact ⟨u, hreach.head (.edge hfind), hcallee⟩
  · rintro ⟨u, hreach, hcallee⟩
    rw [Tree.walk_of_reaches hreach]
    cases u with
    | stop cs tested => exact hcallee
    | fork cs tested i edges => simp [Tree.callee?] at hcallee

/-- Wherever a call comes to a node with a candidate to call, it goes to that candidate, and the
    arguments tested on the way fit what the candidate declares. -/
def Tree.TestsHold (s : Subtyping T) (t : Tree g) : Prop :=
  ∀ args u c, t.Reaches s args u → u.callee? = some c →
    t.resolve? s (List.ofFn args) = some c ∧
      ∀ i : Fin g.arity, u.tested.contains i = true → s.fits (args i) (g.type c i) = true

/-! ### Candidates that fit what was tested -/

namespace Group

variable {tested : IndexSet} {cs : List (Fin g.size)}

/-- The arguments tested so far fit what each of the candidates declares. -/
def Fitting (s : Subtyping T) (g : Group T) (args : Fin g.arity → T) (tested : IndexSet)
    (cs : List (Fin g.size)) : Prop :=
  ∀ c ∈ cs, ∀ i : Fin g.arity, tested.contains i = true → s.fits (args i) (g.type c i) = true

/-- One test keeps the invariant: the argument fits the type of the edge, and the edge that of every
    candidate which goes down. -/
theorem Fitting.passing [PartialEquivBEq T] {later : Subtyping T} (trans : later.Transitive)
    (ext : later.Extends s) (h : g.Fitting later args tested cs) {i : Fin g.arity}
    {earlier : List T} {t : T} (ht : later.fits (args i) t = true) :
    g.Fitting later args (tested.insert i) (g.passing s i (tested.insert i) earlier t cs) := by
  intro c hc j hj
  obtain ⟨hcs, haccepts⟩ := mem_of_mem_passing hc
  rcases IndexSet.contains_insert.1 hj with hji | hj
  · obtain rfl : j = i := Fin.ext hji
    refine trans ht ?_
    rcases Bool.or_eq_true_iff.1 haccepts with heq | hbelow
    · simp [Subtyping.fits, BEq.symm heq]
    · exact Subtyping.fits_of_below (ext hbelow)
  · exact h c hcs j hj

/-- Along a walk down a grown tree the invariant holds at every node. -/
theorem fitting_of_reaches [PartialEquivBEq T] {later : Subtyping T} (trans : later.Transitive)
    (ext : later.Extends s) (policy : Policy) {u : Tree g}
    (hreach : (g.tree s policy).value.Reaches later args u) :
    g.Fitting later args u.tested u.candidates := by
  refine grow_induction s policy g
    (motive := fun tested cs t => g.Fitting later args tested cs → ∀ u, t.Reaches later args u →
      g.Fitting later args u.tested u.candidates)
    ?stop ?fork g.arity .empty g.ids 0 (IndexSet.within_empty _) rfl ?root u hreach
  case stop =>
    intro tested cs _ _ hfit u hreach
    rcases Relation.ReflTransGen.cases_head hreach with rfl | ⟨v, htakes, _⟩
    · exact fun c hc => hfit c (single_subset hc)
    · cases htakes
  case fork =>
    intro tested cs i edges _ _ _ _ ih hfit u hreach
    rcases Relation.ReflTransGen.cases_head hreach with rfl | ⟨child, htakes, hrest⟩
    · exact hfit
    · cases htakes with
      | edge first =>
        obtain ⟨ht, before, after, hsplit, _⟩ := List.find?_eq_some_iff_append.1 first
        exact ih before _ child after hsplit (hfit.passing trans ext ht) u hrest
  case root =>
    intro c _ i hi
    simp [IndexSet.contains, IndexSet.empty] at hi

end Group

namespace Group

theorem testsHold_of_extends [PartialEquivBEq T] [ToString T] {later : Subtyping T}
    (trans : later.Transitive) (ext : later.Extends s) {policy : Policy} {t : Tree g}
    (h : (g.prepare s policy).run.value = .ok t) : t.TestsHold later := by
  intro args u c hreach hcallee
  refine ⟨?_, fun i hi => ?_⟩
  · rw [Tree.resolve?_ofFn]
    exact Tree.walk_eq_some.2 ⟨u, hreach, hcallee⟩
  · rw [eq_tree_of_prepare h] at hreach
    exact fitting_of_reaches trans ext policy hreach c (Tree.mem_candidates_of_callee? hcallee) i hi

/-- What a walk down a prepared tree has tested holds, also where more subtypes are affirmed than at
    its preparation, as long as types accept one another transitively. So a tree stays
    sound when further types are declared after its preparation. -/
theorem testsHold_prepare [PartialEquivBEq T] [ToString T] (policy : Policy) :
    (∀ (g : Group T) (s later : Subtyping T) (t : Tree g), later.Transitive → later.Extends s →
      (g.prepare s policy).run.value = .ok t → t.TestsHold later) ∧
    ∀ (g : Group String) (h : Hierarchy) (t : Tree g),
      (g.prepare h.subtyping policy).run.value = .ok t →
        ∀ table, t.TestsHold (h.declareAll table).subtyping := by
  constructor
  · intro g s later t trans ext h
    exact testsHold_of_extends trans ext h
  · intro g h t hprep table
    exact testsHold_of_extends (h.declareAll table).transitive_subtyping (h.extends_declareAll table)
      hprep

/-- Grown where three types are below one another in a circle, and walked where all types are below
    one another: the call with 2 and 2 comes to a candidate once its first argument is tested. -/
theorem testsHold_prepare_circle :
    let g : Group (Fin 3) := ofPairs (0, 1) [(1, 1), (2, 1)]
    let flat : Subtyping (Fin 3) := ⟨fun _ _ => .yes, 0⟩
    ∃ t, (g.prepare .circle .default).run.value = .ok t ∧ t.TestsHold flat ∧
      ∃ u c, t.Reaches flat (fun _ => 2) u ∧ u.callee? = some c ∧ u.tested.contains 0 = true := by
  intro g flat
  have hprep := value_prepare (s := .circle) .default
    (variadicFree_ofPairs (0, 1) [(1, 1), (2, 1)])
  refine ⟨_, hprep, (testsHold_prepare .default).1 g .circle flat _ ?_ ?_ hprep, ?_⟩
  · exact fun _ _ _ _ _ => by simp [Subtyping.fits, Subtyping.below, flat]
  · exact fun _ _ _ => rfl
  · exact ⟨_, _, .single (.edge rfl), rfl, rfl⟩

end Group

end MultipleDispatch
