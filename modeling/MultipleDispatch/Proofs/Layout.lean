import MultipleDispatch.Proofs.Refusal
import MultipleDispatch.Proofs.Shape

/-!
Laying the nodes of a tree out in one list while they are found. A node goes to the end of the list
before anything is known of its children (`Node.opened`). They are laid out behind it, one after the
other, and each tells its place; only then is the node completed where it stands, with what it tests
and where that leads, or with the one candidate that is kept. So the list is changed at places that
further nodes have been put behind of. `layOut_eq` says what it looks like whenever a node is
complete: all that was there before is as it was, and behind it stand the nodes of the tree that is
grown for the same candidates, under the numbers that they have there.
-/

namespace MultipleDispatch

variable {T : Type} {g : Group T}

/-! ### Nodes before they are complete -/

namespace Node

/-- A node of whose children nothing is known yet. -/
def opened (cs : List (Fin g.size)) (tested : IndexSet) (parent : Option Nat) (edge : Option T) :
    Node g :=
  ⟨cs, tested, parent, edge, none⟩

/-- Leaves no other candidates than `cs` at a node. -/
def keep (cs : List (Fin g.size)) (n : Node g) : Node g := { n with candidates := cs }

/-- Has a node test an argument. -/
def complete (b : Branch g) (n : Node g) : Node g := { n with branch := some b }

end Node

/-- Changing the node at a place leaves the nodes before and behind it as they are. -/
theorem modify_append_cons {α : Type} (f : α → α) (before : List α) (a : α) (behind : List α) :
    (before ++ a :: behind).modify before.length f = before ++ f a :: behind := by
  rw [List.modify, List.modifyTailIdx_eq_take_drop _ rfl, List.take_left, List.drop_left]
  rfl

/-- A fork is completed where it stands, with its children behind it. -/
theorem modify_fork (cs : List (Fin g.size)) (tested : IndexSet) (parent : Option Nat)
    (edge : Option T) (i : Fin g.arity) (edges : Edges g) (nodes : List (Node g)) :
    (nodes ++ [Node.opened cs tested parent edge] ++
        edges.nodesFrom (nodes.length + 1) nodes.length).modify nodes.length
      (Node.complete ⟨i, edges.numbered (nodes.length + 1)⟩) =
    nodes ++ (Tree.fork cs tested i edges).nodesFrom nodes.length parent edge := by
  rw [List.append_assoc, List.singleton_append, modify_append_cons, Tree.nodesFrom]
  rfl

namespace Group

variable [BEq T]

/-! ### Laying out -/

/-- Stops at the node of number `id`, where of two or more candidates the most specific is kept. -/
def settle (s : Subtyping T) (g : Group T) (id : Nat) (cs : List (Fin g.size))
    (nodes : List (Node g)) : Traced T (Nat × List (Node g)) :=
  if cs.length ≤ 1 then pure (id, nodes)
  else do
    let kept ← g.single s cs
    pure (id, nodes.modify id (Node.keep kept))

/-- Lays out one child per edge type behind `nodes`, and gives the types with the places of the
    children. `free` are the candidates not claimed yet, and `child` lays out the child that an edge
    leads to. -/
def layOutEdges (s : Subtyping T) (g : Group T) (i : Fin g.arity) (tested : IndexSet)
    (child : List (Fin g.size) → T → List (Node g) → Attempt T (Nat × List (Node g))) :
    List T → List (Fin g.size) → List (Node g) → Attempt T (List (T × Nat) × List (Node g))
  | [], _, nodes => pure ([], nodes)
  | edge :: edges, free, nodes => do
    let cs ← g.reduce s tested (g.accepting s i edge free)
    let placed ← child cs edge nodes
    let rest ← layOutEdges s g i tested child edges (g.unclaimed i edge free) placed.2
    pure ((edge, placed.1) :: rest.1, rest.2)

variable [ToString T]

/-- Lays out a node for the candidates `cs` behind `nodes`, and all that is below it, with at most
    `n` parameters to test. Gives the place of the node. -/
def layOut (s : Subtyping T) (policy : Policy) (g : Group T) : Nat → IndexSet →
    List (Fin g.size) → Option Nat → Option T → List (Node g) → Attempt T (Nat × List (Node g))
  | 0, tested, cs, parent, edge, nodes =>
    g.settle s nodes.length cs (nodes ++ [.opened cs tested parent edge])
  | n + 1, tested, cs, parent, edge, nodes =>
    let id := nodes.length
    let opened := nodes ++ [.opened cs tested parent edge]
    match g.untested tested, cs with
    | first :: others, _ :: _ :: _ => do
      g.rejectAmong cs (first :: others)
      let i := g.testIndex policy cs first others
      let types ← s.bySpecificity (g.edgeTypes cs i)
      Traced.report (.split g.name id i types)
      let tested' := tested.insert i
      let below ← g.layOutEdges s i tested'
        (fun cs edge nodes => layOut s policy g n tested' cs (some id) (some edge) nodes)
        types cs opened
      return (id, below.2.modify id (Node.complete ⟨i, below.1⟩))
    | _, _ => g.settle s id cs opened

/-- The nodes of a group that is prepared for dispatch, laid out from the first one on, and the place
    of the root. -/
def layOutTree (s : Subtyping T) (policy : Policy) (g : Group T) :
    Attempt T (Nat × List (Node g)) := do
  g.rejectAmong g.ids g.indices
  g.layOut s policy g.arity .empty g.ids none none []

/-! ### What is laid out -/

variable {s : Subtyping T} {policy : Policy}

omit [ToString T] in
theorem settle_eq (cs : List (Fin g.size)) (tested : IndexSet) (parent : Option Nat)
    (edge : Option T) (nodes : List (Node g)) :
    g.settle s nodes.length cs (nodes ++ [.opened cs tested parent edge]) =
      (fun kept => (nodes.length, nodes ++
        (Tree.stop kept tested).nodesFrom nodes.length parent edge)) <$> g.single s cs := by
  rw [settle]
  rcases cs with _ | ⟨a, _ | ⟨b, cs⟩⟩
  · rfl
  · rfl
  · rw [if_neg (by simp), map_eq_pure_bind]
    simp only [modify_append_cons]
    rfl

omit [ToString T] in
/-- If each child is laid out as it is grown, so are all children together. -/
theorem layOutEdges_eq (i : Fin g.arity) (tested : IndexSet) {above : Nat}
    {child : List (Fin g.size) → Nat → Attempt T (Tree g)}
    {place : List (Fin g.size) → T → List (Node g) → Attempt T (Nat × List (Node g))}
    (hplace : ∀ cs edge nodes, place cs edge nodes =
      (fun t => (nodes.length, nodes ++ t.nodesFrom nodes.length (some above) (some edge))) <$>
        child cs nodes.length) (types : List T) :
    ∀ (free : List (Fin g.size)) (nodes : List (Node g)),
      g.layOutEdges s i tested place types free nodes =
        (fun es => (es.numbered nodes.length, nodes ++ es.nodesFrom nodes.length above)) <$>
          g.sproutChecking s i tested child types free nodes.length := by
  induction types with
  | nil => simp [layOutEdges, sproutChecking, Edges.numbered, Edges.nodesFrom]
  | cons t types ih =>
    intro free nodes
    simp [layOutEdges, sproutChecking, hplace, ih, Edges.numbered, Edges.nodesFrom,
      Tree.length_nodesFrom]

/-- Laying out behind `nodes` leaves them as they are and adds the nodes of the grown tree, its root
    first. -/
theorem layOut_eq (s : Subtyping T) (policy : Policy) (g : Group T) (n : Nat) :
    ∀ (tested : IndexSet) (cs : List (Fin g.size)) (parent : Option Nat) (edge : Option T)
      (nodes : List (Node g)), g.layOut s policy n tested cs parent edge nodes =
        (fun t => (nodes.length, nodes ++ t.nodesFrom nodes.length parent edge)) <$>
          g.growChecking s policy n tested cs nodes.length := by
  induction n with
  | zero =>
    intro tested cs parent edge nodes
    simp [layOut, growChecking, settle_eq]
  | succ n ih =>
    intro tested cs parent edge nodes
    cases hu : g.untested tested with
    | nil => simp [layOut, growChecking, hu, settle_eq]
    | cons first others =>
      rcases cs with _ | ⟨a, _ | ⟨b, cs⟩⟩
      · simp [layOut, growChecking, hu, settle_eq]
      · simp [layOut, growChecking, hu, settle_eq]
      · have hedges := fun i tested' => layOutEdges_eq (s := s) i tested' fun cs edge =>
          ih tested' cs (some nodes.length) (some edge)
        simp [layOut, growChecking, hu, hedges, ← modify_fork]

/-- Laying out the nodes of a group comes to the same as preparing the group, failures and events
    included: the root gets the first place, and the nodes are those of the prepared tree. -/
theorem layOutTree_eq (s : Subtyping T) (policy : Policy) (g : Group T) :
    g.layOutTree s policy = (fun t => (0, t.nodes)) <$> g.prepare s policy := by
  rw [← prepareChecking_eq, layOutTree, prepareChecking, map_bind]
  simp [layOut_eq, Tree.nodes]

theorem value_layOutTree {t : Tree g} (h : (g.prepare s policy).run.value = .ok t) :
    (g.layOutTree s policy).run.value = .ok (0, t.nodes) := by
  rw [layOutTree_eq, map_eq_pure_bind, Traced.value_run_bind_ok h]
  rfl

/-- The nodes that are laid out for a group form a tree, with the root at the first place. They are
    those of the prepared tree, and laying out fails where preparing does. Nothing is asked of the
    subtyping. -/
theorem formsTree_layOutTree (s : Subtyping T) (policy : Policy) (g : Group T) :
    g.layOutTree s policy = (fun t => (0, t.nodes)) <$> g.prepare s policy ∧
    ∀ root nodes, (g.layOutTree s policy).run.value = .ok (root, nodes) →
      root = 0 ∧ FormsTree nodes := by
  refine ⟨layOutTree_eq s policy g, fun root nodes hlaid => ?_⟩
  rw [layOutTree_eq, map_eq_pure_bind, Traced.value_run_bind, bind_eq_ok] at hlaid
  obtain ⟨t, hprep, hlaid⟩ := hlaid
  cases hlaid
  rw [eq_tree_of_prepare hprep]
  exact ⟨rfl, g.formsTree_tree s policy⟩

/-- Three candidates whose types are below one another in a circle. -/
theorem formsTree_layOutTree_circle :
    ∃ nodes, ((ofPairs (0, 1) [(1, 2), (2, 0)]).layOutTree .circle .default).run.value =
        .ok (0, nodes) ∧ nodes.length = 8 ∧ FormsTree nodes := by
  have hlaid := value_layOutTree (value_prepare (s := .circle) .default
    (variadicFree_ofPairs (0, 1) [(1, 2), (2, 0)]))
  exact ⟨_, hlaid, by decide, ((formsTree_layOutTree _ _ _).2 0 _ hlaid).2⟩

end Group

end MultipleDispatch
