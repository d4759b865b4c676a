import MultipleDispatch.Proofs.Growth
import MultipleDispatch.Proofs.Numbering

/-!
What the nodes of every grown tree look like, whatever the subtyping judges. `Sprouted` says what
holds between a node and its children: a fork has at least two candidates to tell apart and tests a
parameter that was not tested before, and its children know of that test and keep a part of its
candidates. `FormsTree` says the same of the listed nodes, and that their numbers, parents and
entries belong together.
-/

namespace MultipleDispatch

variable {T : Type} {g : Group T}

/-! ### A node and its children -/

/-- What holds at the root of a grown tree. -/
def Tree.Sprouted : Tree g → Prop
  | .stop cs _ => cs.length ≤ 1 ∧ cs.Nodup
  | .fork cs tested i edges =>
    2 ≤ cs.length ∧ cs.Nodup ∧ tested.contains i = false ∧
      ∀ e ∈ edges.toList, e.2.tested = tested.insert i ∧ e.2.candidates ⊆ cs

theorem Tree.Sprouted.nodup {t : Tree g} (h : t.Sprouted) : t.candidates.Nodup := by
  cases t with
  | stop cs tested => exact h.2
  | fork cs tested i edges => exact h.2.1

/-- Below a fork one parameter more is tested. -/
theorem Tree.Sprouted.size_tested {cs : List (Fin g.size)} {tested : IndexSet} {i : Fin g.arity}
    {edges : Edges g} (h : (Tree.fork cs tested i edges).Sprouted) {e : T × Tree g}
    (he : e ∈ edges.toList) : e.2.tested.size = tested.size + 1 := by
  obtain ⟨_, _, huntested, hchildren⟩ := h
  rw [(hchildren e he).1, IndexSet.size_insert huntested]

section

variable [BEq T] {s : Subtyping T}

/-- A tree that is grown for `cs` keeps a part of them, and all its subtrees are in shape. -/
structure Tree.GrownFor (tested : IndexSet) (cs : List (Fin g.size)) (t : Tree g) : Prop where
  tested_eq : t.tested = tested
  subset : t.candidates ⊆ cs
  sprouted : ∀ u, t.Contains u → u.Sprouted

theorem Group.grownFor_tree (s : Subtyping T) (policy : Policy) (g : Group T) :
    (g.tree s policy).value.GrownFor .empty g.ids := by
  refine grow_induction s policy g
    (motive := fun tested cs t => cs.Nodup → t.GrownFor tested cs)
    ?stop ?fork g.arity .empty g.ids 0 (IndexSet.within_empty _) rfl (List.nodup_finRange _)
  case stop =>
    intro tested cs _ _ hcs
    refine ⟨rfl, fun c hc => single_subset hc, fun u hu => ?_⟩
    cases hu with
    | self => exact ⟨length_single_le s g cs, pairwise_single _ s cs⟩
  case fork =>
    intro tested cs i edges _ hlen htests _ ih hcs
    have hchild : ∀ e ∈ edges.toList, ∃ earlier,
        e.2.GrownFor (tested.insert i) (g.passing s i (tested.insert i) earlier e.1 cs) := by
      rintro ⟨t, child⟩ he
      obtain ⟨before, after, hsplit⟩ := List.append_of_mem he
      exact ⟨_, ih before t child after hsplit (nodup_passing hcs)⟩
    refine ⟨rfl, List.Subset.refl cs, fun u hu => ?_⟩
    cases hu with
    | self =>
      refine ⟨hlen, hcs, htests.untested, fun e he => ?_⟩
      obtain ⟨earlier, hgrown⟩ := hchild e he
      exact ⟨hgrown.tested_eq, fun c hc => (mem_of_mem_passing (hgrown.subset hc)).1⟩
    | child he hu =>
      obtain ⟨earlier, hgrown⟩ := hchild _ he
      exact hgrown.sprouted u hu

end

/-! ### All subtrees -/

/-- What holds of the candidates at the root and passes down the edges holds at every node. So it
    can be used for whatever is to be shown of all subtrees of a grown tree. -/
theorem Group.forall_subtrees [BEq T] (s : Subtyping T) (policy : Policy) (g : Group T)
    (invariant : IndexSet → List (Fin g.size) → Prop) {motive : Tree g → Prop}
    (root : invariant .empty g.ids)
    (edge : ∀ tested cs i before t after, tested.Within g.arity → invariant tested cs →
      g.Tests policy tested cs i → g.testedTypes s cs i = before ++ t :: after →
      invariant (tested.insert i) (g.passing s i (tested.insert i) before t cs))
    (stop : ∀ tested cs, invariant tested cs → g.untested tested = [] ∨ cs.length ≤ 1 →
      motive (.stop (g.single s cs).value tested))
    (fork : ∀ tested cs i edges, invariant tested cs → 2 ≤ cs.length →
      g.Tests policy tested cs i → edges.toList.map Prod.fst = g.testedTypes s cs i →
      motive (.fork cs tested i edges)) :
    ∀ u, (g.tree s policy).value.Contains u → motive u := by
  refine grow_induction s policy g
    (motive := fun tested cs t => invariant tested cs → ∀ u, t.Contains u → motive u)
    ?stop ?fork g.arity .empty g.ids 0 (IndexSet.within_empty _) rfl root
  case stop =>
    intro tested cs _ hstop hinv u hu
    cases hu with
    | self => exact stop tested cs hinv hstop
  case fork =>
    intro tested cs i edges hw hlen htests htypes ih hinv u hu
    cases hu with
    | self => exact fork tested cs i edges hinv hlen htests htypes
    | child he hu =>
      obtain ⟨before, after, hsplit⟩ := List.append_of_mem he
      rw [hsplit, List.map_append, List.map_cons] at htypes
      exact ih before _ _ after hsplit (edge tested cs i _ _ _ hw hinv htests htypes.symm) u hu

/-! ### The listed nodes -/

/-- Nodes that make up a tree, listed in depth-first order. The parameter that a node tests and the
    candidates left at it are those of the group by their types. -/
structure FormsTree (nodes : List (Node g)) : Prop where
  /-- The first node is the root: nothing leads to it and nothing was tested. -/
  root : ∃ n, nodes[0]? = some n ∧ n.parent = none ∧ n.edge = none ∧ n.tested = .empty
  /-- Any other node is behind its parent, where an entry of the parent leads to it. -/
  linked : ∀ (id : Nat) (n : Node g), nodes[id]? = some n → id ≠ 0 → ∃ above m t,
    n.parent = some above ∧ n.edge = some t ∧ above < id ∧ nodes[above]? = some m ∧
      (t, id) ∈ m.entries
  /-- All entries of all nodes together lead to each of them once, the root apart. -/
  once : ((nodes.flatMap Node.entries).map Prod.snd).Perm (List.range' 1 (nodes.length - 1))
  /-- Going down along the entries in depth-first order meets the nodes as they are listed. -/
  order : preorder nodes nodes.length 0 = List.range nodes.length
  /-- A fork has at least two candidates and tests a new parameter. Where its entries lead, that
      parameter counts as tested and no further candidates are left. -/
  fork : ∀ (id : Nat) (n : Node g) (b : Branch g), nodes[id]? = some n → n.branch = some b →
    2 ≤ n.candidates.length ∧ n.tested.contains b.index = false ∧
      ∀ t k, (t, k) ∈ b.children → ∃ m, nodes[k]? = some m ∧ m.parent = some id ∧
        m.edge = some t ∧ m.tested = n.tested.insert b.index ∧ m.candidates ⊆ n.candidates
  /-- A stop has at most one candidate. -/
  stop : ∀ n ∈ nodes, n.branch = none → n.candidates.length ≤ 1
  /-- No candidate is left twice. -/
  nodup : ∀ n ∈ nodes, n.candidates.Nodup

theorem Node.mem_entries {n : Node g} {e : T × Nat} :
    e ∈ n.entries ↔ ∃ b, n.branch = some b ∧ e ∈ b.children := by
  cases hb : n.branch with
  | none => simp [entries, hb]
  | some b => simp [entries, hb]

/-- A listed node that tests something is the root of a fork, and its entries lead to the
    children. -/
theorem Tree.exists_fork_of_branch {t : Tree g} {id : Nat} {n : Node g} {b : Branch g}
    (hn : t.nodes[id]? = some n) (hb : n.branch = some b) : ∃ edges,
      t.Contains (.fork n.candidates n.tested b.index edges) ∧
      b.children = edges.numbered (id + 1) ∧
      ∀ e k, (e, k) ∈ b.children → id < k ∧ ∃ child, (e, child) ∈ edges.toList ∧
        t.nodes[k]? = some (child.node k (some id) (some e)) := by
  obtain ⟨u, parent, edge, hu, hlist, rfl⟩ := t.exists_of_getElem? hn
  cases u with
  | stop cs tested => cases hb
  | fork cs tested i edges =>
    cases hb
    refine ⟨edges, hu, rfl, fun e k hk => ?_⟩
    obtain ⟨hle, child, hchild, hk⟩ := hlist.edges.listed_of_numbered hk
    exact ⟨hle, child, hchild, hk.getElem?⟩

/-- A fork has at least two candidates and tests the parameter that the policy picks for them, for
    the types that they declare there. -/
def Tree.Picked [BEq T] (s : Subtyping T) (policy : Policy) : Tree g → Prop
  | .stop _ _ => True
  | .fork cs tested i edges => 2 ≤ cs.length ∧ g.Tests policy tested cs i ∧
      edges.toList.map Prod.fst = g.testedTypes s cs i

theorem Group.picked_of_contains [BEq T] (s : Subtyping T) (policy : Policy) (g : Group T) :
    ∀ u, (g.tree s policy).value.Contains u → u.Picked s policy := by
  refine forall_subtrees s policy g (fun _ _ => True) trivial ?edge ?stop ?fork
  case edge => exact fun _ _ _ _ _ _ _ _ _ _ => trivial
  case stop => exact fun _ _ _ _ => trivial
  case fork => exact fun _ _ _ _ _ hlen htests htypes => ⟨hlen, htests, htypes⟩

/-- What a listed node of a grown tree tests. -/
theorem Group.branch_of_tree [BEq T] {s : Subtyping T} {policy : Policy} {id : Nat} {n : Node g}
    {b : Branch g} (hn : (g.tree s policy).value.nodes[id]? = some n) (hb : n.branch = some b) :
    2 ≤ n.candidates.length ∧ g.Tests policy n.tested n.candidates b.index ∧
      b.children.map Prod.fst = g.testedTypes s n.candidates b.index := by
  obtain ⟨edges, hfork, hchildren, _⟩ := Tree.exists_fork_of_branch hn hb
  rw [hchildren, Edges.map_fst_numbered]
  exact g.picked_of_contains s policy _ hfork

theorem Tree.perm_entries_nodes (t : Tree g) :
    ((t.nodes.flatMap Node.entries).map Prod.snd).Perm (List.range' 1 (t.nodes.length - 1)) := by
  have hperm := t.perm_entries 0 none none
  have hsize : t.size = t.nodes.length - 1 + 1 := by
    rw [t.length_nodes]
    cases t with
    | stop cs tested => rfl
    | fork cs tested i edges => rw [Tree.size, Nat.add_sub_cancel_left, Nat.add_comm]
  rw [hsize, List.range'_succ] at hperm
  exact (List.perm_cons 0).1 hperm

/-- Some entry leads to every node but the first. -/
theorem Tree.exists_entry {t : Tree g} {id : Nat} (hlt : id < t.nodes.length) (hid : id ≠ 0) :
    ∃ (above : Nat) (m : Node g) (b : Branch g) (e : T), t.nodes[above]? = some m ∧
      m.branch = some b ∧ (e, id) ∈ b.children := by
  have hmem : id ∈ List.range' 1 (t.nodes.length - 1) := by
    rw [List.mem_range'_1]
    omega
  rw [← t.perm_entries_nodes.mem_iff, List.mem_map] at hmem
  obtain ⟨⟨e, k⟩, hentry, rfl⟩ := hmem
  obtain ⟨m, hm, hentry⟩ := List.mem_flatMap.1 hentry
  obtain ⟨above, habove⟩ := List.getElem?_of_mem hm
  obtain ⟨b, hb, hentry⟩ := Node.mem_entries.1 hentry
  exact ⟨above, m, b, e, habove, hb, hentry⟩

/-- The nodes of a tree all of whose subtrees are in shape form a tree. -/
theorem Tree.formsTree_nodes {t : Tree g} (hempty : t.tested = .empty)
    (h : ∀ u, t.Contains u → u.Sprouted) : FormsTree t.nodes where
  root := ⟨_, t.listed_nodes.getElem?, rfl, rfl, hempty⟩
  linked := by
    intro id n hn hid
    obtain ⟨hlt, _⟩ := List.getElem?_eq_some_iff.1 hn
    obtain ⟨above, m, b, e, habove, hb, hentry⟩ := t.exists_entry hlt hid
    obtain ⟨_, _, _, hchildren⟩ := t.exists_fork_of_branch habove hb
    obtain ⟨hlt, child, _, hchild⟩ := hchildren e id hentry
    rw [hn] at hchild
    cases hchild
    exact ⟨above, m, e, rfl, rfl, hlt, habove, Node.mem_entries.2 ⟨b, hb, hentry⟩⟩
  once := t.perm_entries_nodes
  order := by
    rw [t.listed_nodes.preorder_eq _ (Nat.le_of_eq t.length_nodes.symm), ← t.length_nodes,
      List.range_eq_range']
  fork := by
    intro id n b hn hb
    obtain ⟨edges, hfork, _, hchildren⟩ := t.exists_fork_of_branch hn hb
    obtain ⟨hlen, _, huntested, hsprouted⟩ := h _ hfork
    refine ⟨hlen, huntested, fun e k hk => ?_⟩
    obtain ⟨_, child, hchild, hlist⟩ := hchildren e k hk
    obtain ⟨htested, hsub⟩ := hsprouted (e, child) hchild
    exact ⟨_, hlist, rfl, rfl, htested, hsub⟩
  stop := by
    intro n hn hb
    obtain ⟨id, hid⟩ := List.getElem?_of_mem hn
    obtain ⟨u, parent, edge, hu, _, rfl⟩ := t.exists_of_getElem? hid
    cases u with
    | stop cs tested => exact (h _ hu).1
    | fork cs tested i edges => cases hb
  nodup := by
    intro n hn
    obtain ⟨id, hid⟩ := List.getElem?_of_mem hn
    obtain ⟨u, parent, edge, hu, _, rfl⟩ := t.exists_of_getElem? hid
    exact (h u hu).nodup

theorem Group.formsTree_tree [BEq T] (s : Subtyping T) (policy : Policy) (g : Group T) :
    FormsTree (g.tree s policy).value.nodes :=
  have hgrown := g.grownFor_tree s policy
  Tree.formsTree_nodes hgrown.tested_eq hgrown.sprouted

end MultipleDispatch
