import Mathlib.Data.List.Perm.Basic
import MultipleDispatch.Tree.Basic

/-!
The numbers of the nodes of a tree. A subtree is `Listed` in a list of nodes at the place that is its
number; a tree is listed in its own nodes at 0, and every place of that list is the one of a subtree
(`exists_listed`). The entries of a fork lead to the places of its children (`listed_of_numbered`),
no place is entered twice (`perm_entries`), and following the entries in depth-first order meets the
places one after the other (`preorder_eq`).
-/

namespace MultipleDispatch

variable {T : Type} {g : Group T}

/-! ### Subtrees and their places -/

/-- A subtree, the tree itself included. -/
inductive Tree.Contains : Tree g → Tree g → Prop where
  | self (t : Tree g) : Contains t t
  | child {cs : List (Fin g.size)} {tested : IndexSet} {i : Fin g.arity} {edges : Edges g}
      {e : T × Tree g} {u : Tree g} (mem : e ∈ edges.toList) (inside : Contains e.2 u) :
      Contains (.fork cs tested i edges) u

/-- What is tested at the root of a tree, which has the number `id`. -/
def Tree.branch? (id : Nat) : Tree g → Option (Branch g)
  | .stop _ _ => none
  | .fork _ _ i edges => some ⟨i, edges.numbered (id + 1)⟩

/-- The root of a tree as it is listed under the number `id`. -/
def Tree.node (id : Nat) (parent : Option Nat) (edge : Option T) (t : Tree g) : Node g :=
  ⟨t.candidates, t.tested, parent, edge, t.branch? id⟩

theorem Tree.nodesFrom_eq_cons (t : Tree g) (id : Nat) (parent : Option Nat) (edge : Option T) :
    t.nodesFrom id parent edge = t.node id parent edge :: (t.nodesFrom id parent edge).tail := by
  cases t with
  | stop cs tested => rfl
  | fork cs tested i edges => rfl

/-- The nodes of `t` stand in the list from place `id` on. -/
def Tree.Listed (nodes : List (Node g)) (id : Nat) (parent : Option Nat) (edge : Option T)
    (t : Tree g) : Prop :=
  ∃ rest, nodes.drop id = t.nodesFrom id parent edge ++ rest

/-- The nodes below `edges` stand in the list from place `id` on. -/
def Edges.Listed (nodes : List (Node g)) (id parent : Nat) (edges : Edges g) : Prop :=
  ∃ rest, nodes.drop id = edges.nodesFrom id parent ++ rest

mutual

theorem Tree.length_nodesFrom : ∀ (t : Tree g) (id : Nat) (parent : Option Nat) (edge : Option T),
    (t.nodesFrom id parent edge).length = t.size
  | .stop _ _, _, _, _ => rfl
  | .fork _ _ _ edges, id, _, _ => by
    rw [Tree.nodesFrom, List.length_cons, Edges.length_nodesFrom edges (id + 1) id, Tree.size,
      Nat.add_comm]

theorem Edges.length_nodesFrom : ∀ (edges : Edges g) (id parent : Nat),
    (edges.nodesFrom id parent).length = edges.size
  | .nil, _, _ => rfl
  | .cons t child rest, id, parent => by
    rw [Edges.nodesFrom, List.length_append, Tree.length_nodesFrom child, Edges.size,
      Edges.length_nodesFrom rest]

end

theorem Tree.length_nodes (t : Tree g) : t.nodes.length = t.size := t.length_nodesFrom 0 none none

theorem Tree.listed_nodes (t : Tree g) : t.Listed t.nodes 0 none none :=
  ⟨[], (List.append_nil _).symm⟩

variable {nodes : List (Node g)} {id : Nat} {parent : Option Nat} {edge : Option T}

/-- At the place of a subtree its root is listed. -/
theorem Tree.Listed.getElem? {t : Tree g} (h : t.Listed nodes id parent edge) :
    nodes[id]? = some (t.node id parent edge) := by
  obtain ⟨rest, hrest⟩ := h
  rw [← List.head?_drop, hrest, t.nodesFrom_eq_cons]
  rfl

/-- Behind the root of a fork its children are listed. -/
theorem Tree.Listed.edges {cs : List (Fin g.size)} {tested : IndexSet} {i : Fin g.arity}
    {edges : Edges g} (h : (Tree.fork cs tested i edges).Listed nodes id parent edge) :
    edges.Listed nodes (id + 1) id := by
  obtain ⟨rest, hrest⟩ := h
  refine ⟨rest, ?_⟩
  rw [← List.drop_drop, hrest, Tree.nodesFrom, List.cons_append, List.drop_one, List.tail_cons]

theorem Edges.Listed.head {t : T} {child : Tree g} {more : Edges g} {above : Nat}
    (h : (Edges.cons t child more).Listed nodes id above) :
    child.Listed nodes id (some above) (some t) := by
  obtain ⟨rest, hrest⟩ := h
  exact ⟨_, by rw [hrest, Edges.nodesFrom, List.append_assoc]⟩

theorem Edges.Listed.tail {t : T} {child : Tree g} {more : Edges g} {above : Nat}
    (h : (Edges.cons t child more).Listed nodes id above) :
    more.Listed nodes (id + child.size) above := by
  obtain ⟨rest, hrest⟩ := h
  refine ⟨rest, ?_⟩
  rw [← List.drop_drop, hrest, Edges.nodesFrom, List.append_assoc,
    ← child.length_nodesFrom id (some above) (some t), List.drop_left]

theorem Edges.map_fst_numbered : ∀ (edges : Edges g) (id : Nat),
    (edges.numbered id).map Prod.fst = edges.toList.map Prod.fst
  | .nil, _ => rfl
  | .cons t child rest, id => by
    rw [Edges.numbered, Edges.toList, List.map_cons, List.map_cons, map_fst_numbered rest]

/-- The entries of a fork lead to its children. -/
theorem Edges.Listed.listed_of_numbered {above : Nat} {t : T} {k : Nat} :
    ∀ {edges : Edges g} {id : Nat}, edges.Listed nodes id above → (t, k) ∈ edges.numbered id →
      id ≤ k ∧ ∃ child, (t, child) ∈ edges.toList ∧ child.Listed nodes k (some above) (some t)
  | .nil, id, _, hk => by simp [Edges.numbered] at hk
  | .cons u child more, id, h, hk => by
    rw [Edges.numbered, List.mem_cons, Prod.mk.injEq] at hk
    rcases hk with ⟨rfl, rfl⟩ | hk
    · exact ⟨Nat.le_refl k, child, List.mem_cons_self, h.head⟩
    · obtain ⟨hle, v, hv, hlist⟩ := h.tail.listed_of_numbered hk
      exact ⟨by omega, v, List.mem_cons_of_mem _ hv, hlist⟩

/-- An entry of a fork leads to the child at the same place among the edges. -/
theorem Edges.Listed.exists_split {above : Nat} {t : T} {k : Nat} {after : List (T × Nat)} :
    ∀ {edges : Edges g} {id : Nat} {before : List (T × Nat)}, edges.Listed nodes id above →
      edges.numbered id = before ++ (t, k) :: after → ∃ before' child after',
        edges.toList = before' ++ (t, child) :: after' ∧
          before'.map Prod.fst = before.map Prod.fst ∧ child.Listed nodes k (some above) (some t)
  | .nil, _, before, _, hsplit => by
    have hlen := congrArg List.length hsplit
    simp [Edges.numbered] at hlen
  | .cons u child more, id, [], h, hsplit => by
    rw [Edges.numbered, List.nil_append, List.cons.injEq, Prod.mk.injEq] at hsplit
    obtain ⟨⟨rfl, rfl⟩, _⟩ := hsplit
    exact ⟨[], child, more.toList, rfl, rfl, h.head⟩
  | .cons u child more, id, e :: before, h, hsplit => by
    rw [Edges.numbered, List.cons_append, List.cons.injEq] at hsplit
    obtain ⟨rfl, hsplit⟩ := hsplit
    obtain ⟨before', child', after', htree, htypes, hlist⟩ := h.tail.exists_split hsplit
    refine ⟨(u, child) :: before', child', after', ?_, ?_, hlist⟩
    · rw [Edges.toList, htree, List.cons_append]
    · rw [List.map_cons, List.map_cons, htypes]

mutual

/-- Every place in the range of a tree is the one of a subtree. -/
theorem Tree.Listed.exists_listed : ∀ {t : Tree g} {id : Nat} {parent : Option Nat}
    {edge : Option T}, t.Listed nodes id parent edge → ∀ k, id ≤ k → k < id + t.size →
      ∃ u parent' edge', t.Contains u ∧ u.Listed nodes k parent' edge'
  | .stop cs tested, id, parent, edge, h, k, hid, hk => by
    rw [Tree.size] at hk
    obtain rfl : k = id := by omega
    exact ⟨_, parent, edge, .self _, h⟩
  | .fork cs tested i edges, id, parent, edge, h, k, hid, hk => by
    rw [Tree.size] at hk
    rcases Nat.eq_or_lt_of_le hid with rfl | hlt
    · exact ⟨_, parent, edge, .self _, h⟩
    · obtain ⟨e, he, u, parent', edge', hu, hlist⟩ :=
        Edges.Listed.exists_listed h.edges k hlt (by omega)
      exact ⟨u, parent', edge', .child he hu, hlist⟩

theorem Edges.Listed.exists_listed : ∀ {edges : Edges g} {id above : Nat},
    edges.Listed nodes id above → ∀ k, id ≤ k → k < id + edges.size →
      ∃ e ∈ edges.toList, ∃ u parent' edge', e.2.Contains u ∧ u.Listed nodes k parent' edge'
  | .nil, id, above, h, k, hid, hk => by
    rw [Edges.size] at hk
    omega
  | .cons t child more, id, above, h, k, hid, hk => by
    rw [Edges.size] at hk
    rcases Nat.lt_or_ge k (id + child.size) with hlt | hge
    · obtain ⟨u, parent', edge', hu, hlist⟩ := Tree.Listed.exists_listed h.head k hid hlt
      exact ⟨(t, child), List.mem_cons_self, u, parent', edge', hu, hlist⟩
    · obtain ⟨e, he, u, hu⟩ := Edges.Listed.exists_listed h.tail k hge (by omega)
      exact ⟨e, List.mem_cons_of_mem _ he, u, hu⟩

end

/-- Every listed node is the root of a subtree. -/
theorem Tree.exists_of_getElem? {t : Tree g} {k : Nat} {n : Node g} (h : t.nodes[k]? = some n) :
    ∃ u parent edge, t.Contains u ∧ u.Listed t.nodes k parent edge ∧ n = u.node k parent edge := by
  obtain ⟨hk, _⟩ := List.getElem?_eq_some_iff.1 h
  rw [t.length_nodes] at hk
  obtain ⟨u, parent, edge, hu, hlist⟩ :=
    t.listed_nodes.exists_listed k (Nat.zero_le k) (by omega)
  refine ⟨u, parent, edge, hu, hlist, ?_⟩
  rw [hlist.getElem?] at h
  exact (Option.some.inj h).symm

theorem Edges.Listed.exists_listed_of_mem {above : Nat} {e : T × Tree g} :
    ∀ {edges : Edges g} {id : Nat}, edges.Listed nodes id above → e ∈ edges.toList →
      ∃ k, e.2.Listed nodes k (some above) (some e.1)
  | .nil, _, _, he => by cases he
  | .cons t child rest, id, h, he => by
    rcases List.mem_cons.1 he with rfl | he
    · exact ⟨id, h.head⟩
    · exact h.tail.exists_listed_of_mem he

/-- Every subtree has a place. -/
theorem Tree.Listed.exists_of_contains {t u : Tree g} (hu : t.Contains u) : ∀ {id : Nat}
    {parent : Option Nat} {edge : Option T}, t.Listed nodes id parent edge →
      ∃ k parent' edge', u.Listed nodes k parent' edge' := by
  induction hu with
  | self => exact fun h => ⟨_, _, _, h⟩
  | child he _ ih =>
    intro id parent edge h
    obtain ⟨k, hk⟩ := h.edges.exists_listed_of_mem he
    exact ih hk

/-! ### Entries -/

/-- The types that a node tests for, with the numbers of the children; nothing at a stop. -/
def Node.entries (n : Node g) : List (T × Nat) := (n.branch.map Branch.children).getD []

mutual

/-- Every number in the range of a tree is entered once, but that of the root. -/
theorem Tree.perm_entries : ∀ (t : Tree g) (id : Nat) (parent : Option Nat) (edge : Option T),
    (id :: ((t.nodesFrom id parent edge).flatMap Node.entries).map Prod.snd).Perm
      (List.range' id t.size)
  | .stop cs tested, id, parent, edge => .refl _
  | .fork cs tested i edges, id, parent, edge => by
    have ih := Edges.perm_entries edges (id + 1) id
    rw [Tree.nodesFrom, List.flatMap_cons, List.map_append, Tree.size, Nat.add_comm 1,
      List.range'_succ]
    exact ih.cons id

/-- Every number in the range of the edges is entered once, from above or from inside. -/
theorem Edges.perm_entries : ∀ (edges : Edges g) (id above : Nat),
    ((edges.numbered id).map Prod.snd ++
      ((edges.nodesFrom id above).flatMap Node.entries).map Prod.snd).Perm
        (List.range' id edges.size)
  | .nil, _, _ => .refl _
  | .cons t child more, id, above => by
    have ihChild := Tree.perm_entries child id (some above) (some t)
    have ihMore := Edges.perm_entries more (id + child.size) above
    rw [Edges.numbered, Edges.nodesFrom, List.flatMap_append, List.map_append, Edges.size,
      ← List.range'_append_1, List.map_cons, List.cons_append]
    refine .trans (List.Perm.cons id ?_) (ihChild.append ihMore)
    exact List.perm_append_comm_assoc _ _ _

end

/-! ### Depth-first order -/

/-- The numbers met from `id` on along the entries, each before those below it, down to a depth of
    `n`. -/
def preorder (nodes : List (Node g)) : Nat → Nat → List Nat
  | 0, _ => []
  | n + 1, id =>
    id :: ((nodes[id]?.map Node.entries).getD []).flatMap fun e => preorder nodes n e.2

mutual

theorem Tree.Listed.preorder_eq : ∀ {t : Tree g} {id : Nat} {parent : Option Nat}
    {edge : Option T}, t.Listed nodes id parent edge → ∀ n, t.size ≤ n →
      preorder nodes n id = List.range' id t.size
  | .stop cs tested, id, parent, edge, h, n, hn => by
    obtain ⟨m, rfl⟩ := Nat.exists_eq_add_of_le' hn
    rw [Tree.size, preorder, h.getElem?]
    rfl
  | .fork cs tested i edges, id, parent, edge, h, n, hn => by
    rw [Tree.size] at hn
    obtain ⟨m, rfl⟩ := Nat.exists_eq_add_of_le' (show 1 ≤ n by omega)
    have hentries : (nodes[id]?.map Node.entries).getD [] = edges.numbered (id + 1) := by
      rw [h.getElem?]
      rfl
    rw [preorder, hentries, Edges.Listed.preorder_eq h.edges m (by omega), Tree.size,
      Nat.add_comm 1, List.range'_succ]

theorem Edges.Listed.preorder_eq : ∀ {edges : Edges g} {id above : Nat},
    edges.Listed nodes id above → ∀ n, edges.size ≤ n →
      ((edges.numbered id).flatMap fun e => preorder nodes n e.2) = List.range' id edges.size
  | .nil, id, above, h, n, hn => rfl
  | .cons t child more, id, above, h, n, hn => by
    rw [Edges.size] at hn
    rw [Edges.numbered, List.flatMap_cons, Tree.Listed.preorder_eq h.head n (by omega),
      Edges.Listed.preorder_eq h.tail n (by omega), Edges.size, List.range'_append_1]

end

end MultipleDispatch
