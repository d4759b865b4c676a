import MultipleDispatch.Proofs.Shape

/-!
What claiming does. A candidate that its own edge has claimed goes down no later edge, whatever the
subtyping judges: a child keeps just what passes the edges before its own (`Sieves`). In a partial
order this takes nothing away. The edges stand from the most specific on, so a candidate that
accepts the type of an edge has its own edge there or later, and every child keeps one candidate of
each class that accepts the type of its edge.
-/

namespace MultipleDispatch

variable {T : Type} [BEq T] {s : Subtyping T} {g : Group T}

/-! ### What a node hands down -/

/-- The children of a fork keep what passes the edges before their own. -/
def Tree.Sieves (s : Subtyping T) : Tree g → Prop
  | .stop _ _ => True
  | .fork cs tested i edges =>
    ∀ before t child after, edges.toList = before ++ (t, child) :: after →
      child.candidates = g.passing s i (tested.insert i) (before.map Prod.fst) t cs

namespace Group

variable {tested : IndexSet} {cs : List (Fin g.size)}

theorem length_passing_le {i : Fin g.arity} {before : List T} {t : T} (hw : tested.Within g.arity)
    (hu : g.untested tested = []) : (g.passing s i tested before t cs).length ≤ 1 := by
  rw [passing, value_reduce_eq_representatives hw, ← value_single_eq_representatives hu]
  exact length_single_le s g _

theorem sieves_of_contains (s : Subtyping T) (policy : Policy) (g : Group T) :
    ∀ u, (g.tree s policy).value.Contains u → u.Sieves s := by
  -- A tree keeps the candidates it is grown for, unless there are several and nothing to test.
  refine (grow_induction s policy g
    (motive := fun tested cs t => ((g.untested tested = [] → cs.length ≤ 1) → t.candidates = cs) ∧
      ∀ u, t.Contains u → u.Sieves s)
    ?stop ?fork g.arity .empty g.ids 0 (IndexSet.within_empty _) rfl).2
  case stop =>
    intro tested cs _ hstop
    refine ⟨fun hone => value_single_of_length_le (hstop.elim hone id), fun u hu => ?_⟩
    cases hu with
    | self => trivial
  case fork =>
    intro tested cs i edges hw _ _ _ ih
    refine ⟨fun _ => rfl, fun u hu => ?_⟩
    cases hu with
    | self =>
      intro before t child after hsplit
      exact (ih before t child after hsplit).1 (length_passing_le (hw.insert i.isLt))
    | child he hu =>
      obtain ⟨before, after, hsplit⟩ := List.append_of_mem he
      exact (ih before _ _ after hsplit).2 u hu

theorem within_of_contains (s : Subtyping T) (policy : Policy) (g : Group T) :
    ∀ u, (g.tree s policy).value.Contains u → u.tested.Within g.arity := by
  refine forall_subtrees s policy g (fun tested _ => tested.Within g.arity)
    (IndexSet.within_empty _) ?edge ?stop ?fork
  case edge => exact fun _ _ i _ _ _ hw _ _ _ => hw.insert i.isLt
  case stop => exact fun _ _ hw _ => hw
  case fork => exact fun _ _ _ _ hw _ _ _ => hw

variable {policy : Policy} {above k : Nat} {a n : Node g} {b : Branch g} {t : T}

/-- The candidates at a listed node are those of the fork above that pass the edges before. -/
theorem passing_of_entry {before after : List (T × Nat)}
    (habove : (g.tree s policy).value.nodes[above]? = some a) (hb : a.branch = some b)
    (hsplit : b.children = before ++ (t, k) :: after) :
    ∃ n, (g.tree s policy).value.nodes[k]? = some n ∧ n.tested = a.tested.insert b.index ∧
      n.tested.Within g.arity ∧
      n.candidates = g.passing s b.index n.tested (before.map Prod.fst) t a.candidates := by
  obtain ⟨u, parent, edge, hu, hlist, rfl⟩ := Tree.exists_of_getElem? habove
  cases u with
  | stop cs tested => cases hb
  | fork cs tested i edges =>
    cases hb
    obtain ⟨before', child, after', htree, htypes, hchild⟩ := hlist.edges.exists_split hsplit
    have hmem : (t, child) ∈ edges.toList := by simp [htree]
    obtain ⟨_, _, _, hsprouted⟩ := (g.grownFor_tree s policy).sprouted _ hu
    have htested : child.tested = tested.insert i := (hsprouted _ hmem).1
    refine ⟨_, hchild.getElem?, htested, ?_, ?_⟩
    · rw [Tree.node, htested]
      exact (within_of_contains s policy g _ hu).insert i.isLt
    · rw [Tree.node, htested, ← htypes]
      exact sieves_of_contains s policy g _ hu before' t child after' htree

/-- In a partial order the edges before one make no difference to it. -/
theorem candidates_of_entry [LawfulBEq T] (trans : s.Transitive) (anti : s.Antisymmetric)
    (habove : (g.tree s policy).value.nodes[above]? = some a) (hb : a.branch = some b)
    (hk : (t, k) ∈ b.children) (hn : (g.tree s policy).value.nodes[k]? = some n) :
    n.tested = a.tested.insert b.index ∧
      n.candidates =
        (g.representatives s n.tested (g.accepting s b.index t a.candidates)).value := by
  obtain ⟨before, after, hsplit⟩ := List.append_of_mem hk
  obtain ⟨m, hm, htested, hw, hcandidates⟩ := passing_of_entry habove hb hsplit
  rw [hn] at hm
  cases hm
  obtain ⟨_, _, htypes⟩ := branch_of_tree habove hb
  rw [hsplit, List.map_append, List.map_cons] at htypes
  refine ⟨htested, ?_⟩
  rw [hcandidates, passing, value_reduce_eq_representatives hw,
    accepting_unclaimedBy trans anti htypes.symm]

/-- A candidate whose type is that of an earlier edge does not pass. -/
theorem not_mem_passing_of_claimed {i : Fin g.arity} {earlier : List T} {own : T}
    (hown : own ∈ earlier) {c : Fin g.size} (hc : (g.type c i == own) = true) :
    c ∉ g.passing s i tested earlier t cs := by
  intro hmem
  obtain ⟨hfree, _⟩ := List.mem_filter.1 (reduce_subset hmem)
  obtain ⟨_, hunclaimed⟩ := List.mem_filter.1 hfree
  rw [Bool.not_eq_true', List.contains_eq_any_beq, List.any_eq_false] at hunclaimed
  exact hunclaimed own hown hc

/-! ### Claimed candidates -/

/-- Claiming changes nothing in a partial order: every child keeps the representatives of all
    candidates that accept the type of its edge. Whatever the subtyping judges, a candidate goes
    down no edge behind that of its own type. -/
theorem claiming_prepare [ToString T] {t : Tree g} (h : (g.prepare s policy).run.value = .ok t) :
    ∀ (id : Nat) (n : Node g) (b : Branch g), t.nodes[id]? = some n → n.branch = some b →
      (LawfulBEq T → s.Transitive → s.Antisymmetric → ∀ e k, (e, k) ∈ b.children →
        ∃ m, t.nodes[k]? = some m ∧ m.candidates = (g.representatives s (n.tested.insert b.index)
          (n.candidates.filter fun c => s.fits e (g.type c b.index))).value) ∧
      ∀ before e k after, b.children = before ++ (e, k) :: after → ∃ m, t.nodes[k]? = some m ∧
        ∀ own ∈ before, ∀ c ∈ n.candidates, (g.type c b.index == own.1) = true →
          c ∉ m.candidates := by
  obtain rfl := eq_tree_of_prepare h
  intro id n b hn hb
  constructor
  · intro _ trans anti e k hk
    obtain ⟨before, after, hsplit⟩ := List.append_of_mem hk
    obtain ⟨m, hm, _⟩ := passing_of_entry hn hb hsplit
    obtain ⟨htested, hcandidates⟩ := candidates_of_entry trans anti hn hb hk hm
    refine ⟨m, hm, ?_⟩
    rw [hcandidates, htested, accepting_eq_filter]
  · intro before e k after hsplit
    obtain ⟨m, hm, _, _, hcandidates⟩ := passing_of_entry hn hb hsplit
    refine ⟨m, hm, fun own hown c _ hc => ?_⟩
    rw [hcandidates]
    exact not_mem_passing_of_claimed (List.mem_map_of_mem hown) hc

/-- Where 1 and 2 stand between 0 and 3, all candidates go down the edge of 0. In a circle, in which
    2 is below 0, the first candidate accepts 2, but the edge of 0 has claimed it. -/
theorem claiming_prepare_circle :
    (let g : Group (Fin 4) := ofPairs (1, 2) [(2, 1), (0, 0)]
      ∃ t, (g.prepare .diamond .default).run.value = .ok t ∧
        ∃ n b, t.nodes[0]? = some n ∧ n.branch = some b ∧ b.children = [(0, 1), (1, 5), (2, 6)] ∧
          ∃ m, t.nodes[1]? = some m ∧ m.candidates = (g.representatives .diamond
            (n.tested.insert b.index)
              (n.candidates.filter fun c => Subtyping.diamond.fits 0 (g.type c b.index))).value) ∧
    let g : Group (Fin 3) := ofPairs (0, 1) [(1, 2), (2, 0)]
    ∃ t, (g.prepare .circle .default).run.value = .ok t ∧
      ∃ n b, t.nodes[0]? = some n ∧ n.branch = some b ∧ b.children = [(0, 1), (1, 4), (2, 7)] ∧
        Subtyping.circle.fits 2 (g.type ⟨0, by decide⟩ b.index) = true ∧
        ∃ m, t.nodes[7]? = some m ∧ ⟨0, by decide⟩ ∉ m.candidates := by
  constructor
  · intro g
    have hprep := value_prepare (s := .diamond) .default
      (variadicFree_ofPairs (1, 2) [(2, 1), (0, 0)])
    have hclaiming := (claiming_prepare hprep 0 _ _ rfl rfl).1 inferInstance
      Subtyping.transitive_diamond Subtyping.antisymmetric_diamond
    exact ⟨_, hprep, _, _, rfl, rfl, by decide, hclaiming 0 1 (by decide)⟩
  · intro g
    have hprep := value_prepare (s := .circle) .default
      (variadicFree_ofPairs (0, 1) [(1, 2), (2, 0)])
    have hclaiming := (claiming_prepare hprep 0 _ _ rfl rfl).2
    obtain ⟨m, hm, hclaimed⟩ := hclaiming [(0, 1), (1, 4)] 2 7 [] (by decide)
    exact ⟨_, hprep, _, _, rfl, rfl, by decide, by decide, m, hm,
      hclaimed (0, 1) (by decide) _ (by decide) (by decide)⟩

end Group

end MultipleDispatch
