import Mathlib.Data.Fintype.Card
import Mathlib.Order.Bounds.Basic
import MultipleDispatch.Proofs.Layout
import MultipleDispatch.Proofs.Paths
import MultipleDispatch.Proofs.Separation

/-!
What can be asked of a tree, and that the answers agree. The stops are found on the way down from
the root, the tests on the way to a node by climbing from it, and the depth by the sets of tested
parameters. All three say the same of the listed nodes: the stops are those at which nothing is
tested, the tests found by climbing are those of the only way down (`Descends`), each of another
parameter, and as many as there are tested parameters. So the depth is the length of the longest way
to a stop.
-/

namespace MultipleDispatch

variable {T : Type} {g : Group T} {nodes : List (Node g)}

/-! ### Stops -/

/-- Nothing is tested at the node of number `id`. -/
def stopsAt (nodes : List (Node g)) (id : Nat) : Bool := (nodes[id]?.bind Node.branch).isNone

/-- The numbers of the nodes at which nothing is tested, as met from `id` on along the entries, down
    to a depth of `n`. -/
def stopsBelow (nodes : List (Node g)) : Nat → Nat → List Nat
  | 0, _ => []
  | n + 1, id =>
    match nodes[id]?.bind Node.branch with
    | none => [id]
    | some b => b.children.flatMap fun e => stopsBelow nodes n e.2

theorem stopsBelow_eq_filter (nodes : List (Node g)) : ∀ n id : Nat,
    stopsBelow nodes n id = (preorder nodes n id).filter (stopsAt nodes)
  | 0, _ => rfl
  | n + 1, id => by
    rw [stopsBelow, preorder]
    cases hb : nodes[id]?.bind Node.branch with
    | none =>
      have hentries : (nodes[id]?.map Node.entries).getD [] = [] := by
        cases hn : nodes[id]? with
        | none => rfl
        | some m => simp_all [Node.entries]
      rw [hentries]
      simp [stopsAt, hb]
    | some b =>
      have hentries : (nodes[id]?.map Node.entries).getD [] = b.children := by
        obtain ⟨m, hm, hmb⟩ := Option.bind_eq_some_iff.1 hb
        simp [hm, Node.entries, hmb]
      rw [hentries, List.filter_cons_of_neg (by simp [stopsAt, hb]), List.filter_flatMap]
      exact congrArg (List.flatMap · b.children) (funext fun e => stopsBelow_eq_filter nodes n e.2)

mutual

/-- The stops in the range of a tree are the places at which nothing is tested. -/
theorem Tree.Listed.stopsFrom_eq : ∀ {t : Tree g} {id : Nat} {parent : Option Nat}
    {edge : Option T}, t.Listed nodes id parent edge →
      t.stopsFrom id = (List.range' id t.size).filter (stopsAt nodes)
  | .stop cs tested, id, parent, edge, h => by
    have hstop : stopsAt nodes id = true := by simp [stopsAt, h.getElem?, Tree.node, Tree.branch?]
    rw [Tree.stopsFrom, Tree.size, List.range'_one, List.filter_cons_of_pos hstop, List.filter_nil]
  | .fork cs tested i edges, id, parent, edge, h => by
    have hfork : ¬stopsAt nodes id = true := by simp [stopsAt, h.getElem?, Tree.node, Tree.branch?]
    rw [Tree.stopsFrom, Edges.Listed.stopsFrom_eq h.edges, Tree.size, Nat.add_comm 1,
      List.range'_succ, List.filter_cons_of_neg hfork]

theorem Edges.Listed.stopsFrom_eq : ∀ {edges : Edges g} {id above : Nat},
    edges.Listed nodes id above →
      edges.stopsFrom id = (List.range' id edges.size).filter (stopsAt nodes)
  | .nil, _, _, _ => rfl
  | .cons t child more, id, above, h => by
    rw [Edges.stopsFrom, Tree.Listed.stopsFrom_eq h.head, Edges.Listed.stopsFrom_eq h.tail,
      Edges.size, ← List.range'_append_1, List.filter_append]

end

theorem Tree.stops_eq_filter (t : Tree g) :
    t.stops = (List.range t.nodes.length).filter (stopsAt t.nodes) := by
  rw [stops, t.listed_nodes.stopsFrom_eq, t.length_nodes, List.range_eq_range']

theorem Tree.mem_stops {t : Tree g} {id : Nat} :
    id ∈ t.stops ↔ ∃ n, t.nodes[id]? = some n ∧ n.branch = none := by
  rw [t.stops_eq_filter, List.mem_filter, List.mem_range]
  constructor
  · rintro ⟨hlt, hstop⟩
    refine ⟨t.nodes[id], List.getElem?_eq_getElem hlt, ?_⟩
    simpa [stopsAt, hlt] using hstop
  · rintro ⟨n, hn, hb⟩
    exact ⟨(List.getElem?_eq_some_iff.1 hn).1, by simp [stopsAt, hn, hb]⟩

/-! ### The way to a node -/

/-- The entries of the listed nodes lead from the root to node `id` by `tests`: the parameter that
    is tested at each node on the way, with the type of the entry that is taken there. -/
inductive Descends (nodes : List (Node g)) : List (Fin g.arity × T) → Nat → Prop where
  | root : Descends nodes [] 0
  | entry {tests : List (Fin g.arity × T)} {above id : Nat} {a : Node g} {b : Branch g} {t : T}
      (way : Descends nodes tests above) (node : nodes[above]? = some a)
      (branch : a.branch = some b) (child : (t, id) ∈ b.children) :
      Descends nodes (tests ++ [(b.index, t)]) id

namespace FormsTree

theorem descends_testsIn (h : FormsTree nodes) (id : Nat) {n : Node g} (hn : nodes[id]? = some n) :
    Descends nodes (testsIn nodes id) id := by
  induction id using Nat.strongRecOn generalizing n with
  | ind id ih =>
    rcases eq_or_ne id 0 with rfl | hid
    · rw [h.testsIn_zero]
      exact .root
    · obtain ⟨above, a, b, t, hlt, habove, hb, hchild, htests⟩ := h.exists_testsIn_eq hn hid
      rw [htests]
      exact (ih above hlt habove).entry habove hb hchild

/-- There is no other way to a node. -/
theorem eq_testsIn_of_descends (h : FormsTree nodes) {tests : List (Fin g.arity × T)} {id : Nat}
    (way : Descends nodes tests id) : tests = testsIn nodes id := by
  induction way with
  | root => exact h.testsIn_zero.symm
  | entry way habove hb hchild ih =>
    obtain ⟨_, _, hchildren⟩ := h.fork _ _ _ habove hb
    obtain ⟨m, hm, hparent, hedge, _⟩ := hchildren _ _ hchild
    rw [h.testsIn_eq hm hparent hedge habove hb, ih]

/-- Each test on the way to a node is of another parameter, and these are the tested ones. -/
theorem perm_testsIn (h : FormsTree nodes) (id : Nat) {n : Node g} (hn : nodes[id]? = some n) :
    ((testsIn nodes id).map fun e => e.1.val).Perm n.tested.toList := by
  induction id using Nat.strongRecOn generalizing n with
  | ind id ih =>
    rcases eq_or_ne id 0 with rfl | hid
    · rw [h.testsIn_zero, h.tested_root hn]
      exact .refl _
    · obtain ⟨above, a, b, t, hlt, habove, hb, hchild, htests⟩ := h.exists_testsIn_eq hn hid
      obtain ⟨_, huntested, hchildren⟩ := h.fork above a b habove hb
      obtain ⟨m, hm, _, _, htested, _⟩ := hchildren t id hchild
      rw [hn] at hm
      cases hm
      rw [htests, htested, List.map_append]
      exact ((ih above hlt habove).append_right _).trans
        (List.perm_append_comm.trans (IndexSet.perm_insert huntested).symm)

theorem length_testsIn (h : FormsTree nodes) (id : Nat) {n : Node g} (hn : nodes[id]? = some n) :
    (testsIn nodes id).length = n.tested.size := by
  rw [← List.length_map (f := fun e => e.1.val)]
  exact (h.perm_testsIn id hn).length_eq

end FormsTree

/-- Where every node tests for different types, no two nodes are reached by the same tests. -/
theorem Descends.eq (hdistinct : ∀ (id : Nat) (n : Node g) (b : Branch g), nodes[id]? = some n →
      n.branch = some b → (b.children.map Prod.fst).Nodup)
    {tests : List (Fin g.arity × T)} {id k : Nat} (hid : Descends nodes tests id)
    (hk : Descends nodes tests k) : id = k := by
  induction hid generalizing k with
  | root =>
    generalize htests : ([] : List (Fin g.arity × T)) = tests at hk
    cases hk with
    | root => rfl
    | entry way => simp at htests
  | entry way habove hb hchild ih =>
    generalize htests : _ ++ [_] = tests at hk
    cases hk with
    | root => simp at htests
    | entry way' habove' hb' hchild' =>
      obtain ⟨rfl, hlast⟩ := List.append_inj' htests rfl
      obtain rfl := ih way'
      rw [habove] at habove'
      cases habove'
      rw [hb] at hb'
      cases hb'
      simp only [List.cons.injEq, Prod.mk.injEq, true_and, and_true] at hlast
      subst hlast
      have hinj := List.inj_on_of_nodup_map (hdistinct _ _ _ habove hb)
      exact congrArg Prod.snd (hinj hchild hchild' rfl)

/-! ### The depth -/

/-- The largest number of parameters that are tested at a listed node where nothing more is. -/
def depthIn (nodes : List (Node g)) : Nat :=
  ((nodes.filter fun n => n.branch.isNone).map fun n => n.tested.size).foldr max 0

theorem depthIn_append (before behind : List (Node g)) :
    depthIn (before ++ behind) = max (depthIn before) (depthIn behind) := by
  calc depthIn (before ++ behind)
      = ((before.filter fun n => n.branch.isNone).map fun n => n.tested.size).foldr max
          (max 0 (depthIn behind)) := by
        rw [Nat.zero_max, depthIn, List.filter_append, List.map_append, List.foldr_append]
        rfl
    _ = max (depthIn before) (depthIn behind) := List.foldr_assoc

mutual

/-- The depth of a tree can be read off its listed nodes. -/
theorem Tree.depthIn_nodesFrom : ∀ (t : Tree g) (id : Nat) (parent : Option Nat)
    (edge : Option T), depthIn (t.nodesFrom id parent edge) = t.depth
  | .stop cs tested, id, parent, edge => by
    simp [Tree.nodesFrom, depthIn, Tree.depth]
  | .fork cs tested i edges, id, parent, edge => by
    rw [Tree.depth, ← Edges.depthIn_nodesFrom edges (id + 1) id]
    rfl

theorem Edges.depthIn_nodesFrom : ∀ (edges : Edges g) (id above : Nat),
    depthIn (edges.nodesFrom id above) = edges.depth
  | .nil, _, _ => rfl
  | .cons t child rest, id, above => by
    rw [Edges.nodesFrom, depthIn_append, Tree.depthIn_nodesFrom child,
      Edges.depthIn_nodesFrom rest, Edges.depth]

end

theorem Edges.le_depth {e : T × Tree g} : ∀ {edges : Edges g}, e ∈ edges.toList →
    e.2.depth ≤ edges.depth
  | .nil, he => absurd he List.not_mem_nil
  | .cons t child rest, he => by
    rw [Edges.depth]
    rw [Edges.toList, List.mem_cons] at he
    rcases he with rfl | he
    · exact Nat.le_max_left _ _
    · exact le_trans (Edges.le_depth he) (Nat.le_max_right _ _)

theorem Edges.exists_depth_eq : ∀ {edges : Edges g}, edges.toList ≠ [] →
    ∃ e ∈ edges.toList, e.2.depth = edges.depth
  | .nil, h => absurd rfl h
  | .cons t child .nil, _ => ⟨(t, child), List.mem_cons_self, (Nat.max_zero _).symm⟩
  | .cons t child (.cons u next rest), _ => by
    have hne : (Edges.cons u next rest).toList ≠ [] := by simp [Edges.toList]
    obtain ⟨e, he, hdepth⟩ := Edges.exists_depth_eq hne
    rw [Edges.depth, Edges.toList]
    rcases Nat.le_total (Edges.cons u next rest).depth child.depth with hle | hle
    · exact ⟨(t, child), List.mem_cons_self, (Nat.max_eq_left hle).symm⟩
    · exact ⟨e, List.mem_cons_of_mem _ he, hdepth.trans (Nat.max_eq_right hle).symm⟩

/-- A fork has edges. -/
def Tree.Forked : Tree g → Prop
  | .stop _ _ => True
  | .fork _ _ _ edges => edges.toList ≠ []

/-- The depth is the greatest number of parameters that are tested where a tree stops. -/
theorem Tree.isGreatest_depth {t : Tree g} (h : ∀ u, t.Contains u → u.Forked) :
    IsGreatest {k | ∃ cs tested, t.Contains (.stop cs tested) ∧ tested.size = k} t.depth := by
  induction t using Tree.induction with
  | stop cs tested =>
    refine ⟨⟨cs, tested, .self _, rfl⟩, ?_⟩
    rintro k ⟨cs', tested', hstop, rfl⟩
    cases hstop with
    | self => exact le_refl _
  | fork cs tested i edges ih =>
    have hchild : ∀ e ∈ edges.toList, ∀ u, e.2.Contains u → u.Forked :=
      fun e he u hu => h u (.child he hu)
    constructor
    · obtain ⟨e, he, hdepth⟩ := Edges.exists_depth_eq (h _ (.self _))
      obtain ⟨cs', tested', hstop, hsize⟩ := (ih e he (hchild e he)).1
      exact ⟨cs', tested', .child he hstop, hsize.trans hdepth⟩
    · rintro k ⟨cs', tested', hstop, rfl⟩
      cases hstop with
      | child he hstop =>
        exact le_trans ((ih _ he (hchild _ he)).2 ⟨cs', tested', hstop, rfl⟩) (Edges.le_depth he)

/-- The trees that stop are the ones at the places of stops. -/
theorem Tree.contains_stop_iff {t : Tree g} {tested : IndexSet} :
    (∃ cs, t.Contains (.stop cs tested)) ↔
      ∃ id ∈ t.stops, ∃ n, t.nodes[id]? = some n ∧ n.tested = tested := by
  constructor
  · rintro ⟨cs, hstop⟩
    obtain ⟨k, parent, edge, hlist⟩ := Tree.Listed.exists_of_contains hstop t.listed_nodes
    have hnode := hlist.getElem?
    exact ⟨k, mem_stops.2 ⟨_, hnode, rfl⟩, _, hnode, rfl⟩
  · rintro ⟨id, hid, n, hn, rfl⟩
    obtain ⟨n', hn', hb⟩ := mem_stops.1 hid
    rw [hn] at hn'
    cases hn'
    obtain ⟨u, parent, edge, hu, _, rfl⟩ := t.exists_of_getElem? hn
    cases u with
    | stop cs tested => exact ⟨cs, hu⟩
    | fork cs tested i edges => cases hb

theorem Tree.isGreatest_depth_stops {t : Tree g} (h : ∀ u, t.Contains u → u.Forked) :
    IsGreatest {k | ∃ id ∈ t.stops, ∃ n, t.nodes[id]? = some n ∧ n.tested.size = k} t.depth := by
  obtain ⟨⟨cs, tested, hstop, hsize⟩, hmax⟩ := isGreatest_depth h
  constructor
  · obtain ⟨id, hid, n, hn, rfl⟩ := contains_stop_iff.1 ⟨cs, hstop⟩
    exact ⟨id, hid, n, hn, hsize⟩
  · rintro k ⟨id, hid, n, hn, rfl⟩
    obtain ⟨cs, hstop⟩ := contains_stop_iff.2 ⟨id, hid, n, hn, rfl⟩
    exact hmax ⟨cs, n.tested, hstop, rfl⟩

theorem Group.testedTypes_ne_nil [BEq T] {s : Subtyping T} {cs : List (Fin g.size)} (h : cs ≠ [])
    (i : Fin g.arity) : g.testedTypes s cs i ≠ [] := by
  rw [← List.length_pos_iff, length_testedTypes, buckets]
  cases cs with
  | nil => exact absurd rfl h
  | cons c cs => simp [classify_cons]

theorem Group.forked_of_contains [BEq T] (s : Subtyping T) (policy : Policy) (g : Group T) :
    ∀ u, (g.tree s policy).value.Contains u → u.Forked := by
  intro u hu
  have hpicked := g.picked_of_contains s policy u hu
  cases u with
  | stop cs tested => trivial
  | fork cs tested i edges =>
    obtain ⟨hlen, _, htypes⟩ := hpicked
    intro hnil
    rw [hnil, List.map_nil] at htypes
    exact testedTypes_ne_nil (List.ne_nil_of_length_pos (by omega)) i htypes.symm

/-! ### All answers together -/

/-- The answers to what can be asked of a tree agree with its nodes and with one another. -/
structure Tree.Coherent (t : Tree g) : Prop where
  /-- The stops are listed in increasing order, each once. -/
  sorted : t.stops.Pairwise (· < ·)
  /-- They are the nodes at which nothing is tested. -/
  stops : ∀ id, id ∈ t.stops ↔ ∃ n, t.nodes[id]? = some n ∧ n.branch = none
  /-- Going down along the entries from the root meets them in this order. -/
  below : stopsBelow t.nodes t.nodes.length 0 = t.stops
  /-- The tests on the way to a node are of different parameters. -/
  distinct : ∀ (id : Nat) (n : Node g), t.nodes[id]? = some n →
    ((t.testsTo id).map Prod.fst).Nodup
  /-- These are the parameters that count as tested there. -/
  tested : ∀ (id : Nat) (n : Node g), t.nodes[id]? = some n → ∀ i : Nat,
    n.tested.contains i = true ↔ ∃ e ∈ t.testsTo id, e.1.val = i
  /-- The tests found by climbing from a node are those of the only way down to it. -/
  way : ∀ (id : Nat) (n : Node g), t.nodes[id]? = some n → ∀ tests,
    Descends t.nodes tests id ↔ tests = t.testsTo id
  /-- The depth can be read off the nodes. -/
  read : depthIn t.nodes = t.depth
  /-- It is the length of the longest way to a stop. -/
  depth : IsGreatest {k | ∃ id ∈ t.stops, (t.testsTo id).length = k} t.depth
  /-- No way is longer than the list of parameters. -/
  depth_le : t.depth ≤ g.arity

theorem Tree.coherent_of_formsTree {t : Tree g} (hforms : FormsTree t.nodes)
    (hforked : ∀ u, t.Contains u → u.Forked) : t.Coherent := by
  have hdistinct : ∀ (id : Nat) (n : Node g), t.nodes[id]? = some n →
      ((t.testsTo id).map Prod.fst).Nodup := by
    intro id n hn
    have hvals := (hforms.perm_testsIn id hn).nodup_iff.2 (n.tested.increasing.imp Nat.ne_of_lt)
    rw [← Function.comp_def Fin.val Prod.fst, ← List.map_map] at hvals
    exact hvals.of_map _
  have hdepth : IsGreatest {k | ∃ id ∈ t.stops, (t.testsTo id).length = k} t.depth := by
    obtain ⟨⟨id, hid, n, hn, hsize⟩, hmax⟩ := isGreatest_depth_stops hforked
    refine ⟨⟨id, hid, (hforms.length_testsIn id hn).trans hsize⟩, ?_⟩
    rintro k ⟨id, hid, rfl⟩
    obtain ⟨n, hn, _⟩ := mem_stops.1 hid
    exact hmax ⟨id, hid, n, hn, (hforms.length_testsIn id hn).symm⟩
  constructor
  case sorted =>
    rw [t.stops_eq_filter]
    exact List.pairwise_lt_range.filter _
  case stops => exact fun id => mem_stops
  case below => rw [stopsBelow_eq_filter, hforms.order, t.stops_eq_filter]
  case distinct => exact hdistinct
  case tested =>
    intro id n hn i
    rw [IndexSet.contains_eq_true, ← (hforms.perm_testsIn id hn).mem_iff, List.mem_map]
    rfl
  case way =>
    intro id n hn tests
    constructor
    · exact hforms.eq_testsIn_of_descends
    · rintro rfl
      exact hforms.descends_testsIn id hn
  case read => exact t.depthIn_nodesFrom 0 none none
  case depth => exact hdepth
  case depth_le =>
    obtain ⟨id, hid, hlen⟩ := hdepth.1
    obtain ⟨n, hn, _⟩ := mem_stops.1 hid
    have hcard := (hdistinct id n hn).length_le_card
    rw [List.length_map, Fintype.card_fin] at hcard
    omega

/-- Of every prepared tree, with its nodes as they are laid out, the answers agree, and if the
    equality of types is lawful, the tests on the way to a node lead to no other. Nothing is asked
    of the subtyping. -/
theorem Group.coherent_prepare [BEq T] [ToString T] {s : Subtyping T} {policy : Policy} {t : Tree g}
    (h : (g.prepare s policy).run.value = .ok t) :
    (g.layOutTree s policy).run.value = .ok (0, t.nodes) ∧ t.Coherent ∧
      (LawfulBEq T → ∀ (id k : Nat) (n : Node g), t.nodes[id]? = some n →
        Descends t.nodes (t.testsTo id) k → k = id) := by
  have hforms := g.formsTree_tree s policy
  have hlaid := value_layOutTree h
  obtain rfl := eq_tree_of_prepare h
  refine ⟨hlaid, Tree.coherent_of_formsTree hforms (g.forked_of_contains s policy), ?_⟩
  intro _ id k n hn hk
  refine hk.eq (fun id n b hn hb => ?_) (hforms.descends_testsIn id hn)
  rw [(branch_of_tree hn hb).2.2]
  exact nodup_testedTypes s g n.candidates b.index

/-- Where 1 and 2 stand between 0 and 3, the tree stops after one test or two. -/
theorem Group.coherent_prepare_diamond :
    let g : Group (Fin 4) := ofPairs (1, 2) [(2, 1), (0, 0)]
    ∃ t, (g.prepare .diamond .default).run.value = .ok t ∧ t.Coherent ∧
      t.stops = [2, 3, 4, 5, 6] ∧ t.depth = 2 ∧
      t.testsTo 3 = [(⟨0, by decide⟩, 0), (⟨1, by decide⟩, 2)] ∧
      t.testsTo 6 = [(⟨0, by decide⟩, 2)] ∧
      ∀ k, Descends t.nodes (t.testsTo 3) k → k = 3 := by
  intro g
  have hprep := value_prepare (s := .diamond) .default
    (variadicFree_ofPairs (1, 2) [(2, 1), (0, 0)])
  obtain ⟨_, hcoherent, hunique⟩ := coherent_prepare hprep
  exact ⟨_, hprep, hcoherent, by decide, by decide, by decide, by decide,
    fun k => hunique inferInstance 3 k _ rfl⟩

end MultipleDispatch
