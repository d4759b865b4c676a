import MultipleDispatch.Proofs.Shape
import MultipleDispatch.Proofs.Soundness

/-!
Ways through the listed nodes. The tests on the way to a node are those on the way to its parent and
the one on the edge from there. A call goes from node to node along the entries (`next?`), and the
nodes it passes are the places of the subtrees that a walk comes to. So what a call is resolved to
can be told from the node at which it ends. In a partial order no type fits one that is tested for
before it, so no edge takes the calls that are meant for a later one, and every node is passed by
the calls with the types that are tested for on the way to it.
-/

namespace MultipleDispatch

variable {T : Type} {g : Group T} {nodes : List (Node g)}

/-! ### The tests on the way to a node -/

namespace FormsTree

/-- Parents have lower numbers, so climbing from a node takes no more steps than its number says. -/
theorem climbTests_eq (h : FormsTree nodes) {k m : Nat} : ∀ {id : Nat} {n : Node g},
    nodes[id]? = some n → id < k → id < m → climbTests nodes k n = climbTests nodes m n := by
  intro id
  induction id using Nat.strongRecOn generalizing k m with
  | ind id ih =>
    intro n hn hk hm
    obtain ⟨k, rfl⟩ := Nat.exists_eq_add_of_lt hk
    obtain ⟨m, rfl⟩ := Nat.exists_eq_add_of_lt hm
    rw [climbTests, climbTests]
    rcases eq_or_ne id 0 with rfl | hid
    · obtain ⟨root, hroot, hparent, _⟩ := h.root
      rw [hn] at hroot
      cases hroot
      rw [hparent]
      rfl
    · obtain ⟨above, a, t, hparent, hedge, hlt, habove, _⟩ := h.linked id n hn hid
      rw [hparent, hedge, Option.bind_some, habove]
      exact congrArg (· ++ _) (ih above hlt habove (by omega) (by omega))

theorem testsIn_zero (h : FormsTree nodes) : testsIn nodes 0 = [] := by
  obtain ⟨root, hroot, hparent, _⟩ := h.root
  rw [testsIn, hroot]
  simp only
  cases nodes.length with
  | zero => rfl
  | succ n => rw [climbTests, hparent]; rfl

/-- The last test on the way to a node is the one on the edge from its parent. -/
theorem testsIn_eq (h : FormsTree nodes) {id above : Nat} {n a : Node g} {b : Branch g} {t : T}
    (hn : nodes[id]? = some n) (hparent : n.parent = some above) (hedge : n.edge = some t)
    (habove : nodes[above]? = some a) (hb : a.branch = some b) :
    testsIn nodes id = testsIn nodes above ++ [(b.index, t)] := by
  have hid : id ≠ 0 := by
    rintro rfl
    obtain ⟨root, hroot, hnone, _⟩ := h.root
    rw [hn] at hroot
    cases hroot
    rw [hparent] at hnone
    cases hnone
  obtain ⟨above', _, _, hparent', _, hlt, _⟩ := h.linked id n hn hid
  rw [hparent] at hparent'
  cases hparent'
  have hlen : id < nodes.length := (List.getElem?_eq_some_iff.1 hn).1
  obtain ⟨k, hk⟩ := Nat.exists_eq_add_of_lt (Nat.zero_lt_of_lt hlen)
  have hclimb : climbTests nodes nodes.length n =
      climbTests nodes (0 + k) a ++ (a.branch.map fun b => (b.index, t)).toList := by
    rw [hk, climbTests, hparent, hedge, Option.bind_some, habove]
  rw [testsIn, testsIn, hn, habove]
  simp only
  rw [hclimb, hb, h.climbTests_eq habove (by omega) (Nat.lt_trans hlt hlen)]
  rfl

theorem exists_testsIn_eq (h : FormsTree nodes) {id : Nat} {n : Node g} (hn : nodes[id]? = some n)
    (hid : id ≠ 0) : ∃ above a b t, above < id ∧ nodes[above]? = some a ∧ a.branch = some b ∧
      (t, id) ∈ b.children ∧ testsIn nodes id = testsIn nodes above ++ [(b.index, t)] := by
  obtain ⟨above, a, t, hparent, hedge, hlt, habove, hentry⟩ := h.linked id n hn hid
  obtain ⟨b, hb, hchild⟩ := Node.mem_entries.1 hentry
  exact ⟨above, a, b, t, hlt, habove, hb, hchild, h.testsIn_eq hn hparent hedge habove hb⟩

end FormsTree

/-! ### From node to node -/

/-- The first entry of a fork whose type passes a test leads to the first such child. -/
theorem Edges.Listed.find?_cases {above : Nat} (p : T → Bool) : ∀ {edges : Edges g} {id : Nat},
    edges.Listed nodes id above →
      (∃ t k child, (edges.numbered id).find? (fun e => p e.1) = some (t, k) ∧
        edges.toList.find? (fun e => p e.1) = some (t, child) ∧
          child.Listed nodes k (some above) (some t)) ∨
      ((edges.numbered id).find? (fun e => p e.1) = none ∧
        edges.toList.find? (fun e => p e.1) = none)
  | .nil, _, _ => Or.inr ⟨rfl, rfl⟩
  | .cons t child rest, id, h => by
    rw [Edges.numbered, Edges.toList, List.find?_cons, List.find?_cons]
    cases p t with
    | true => exact Or.inl ⟨t, id, child, rfl, rfl, h.head⟩
    | false => exact h.tail.find?_cases p

variable [BEq T] {s : Subtyping T}

/-- The node that a call with `args` goes on to from node `id`: where the first entry leads whose
    type the tested argument fits. -/
def next? (s : Subtyping T) (nodes : List (Node g)) (args : List T) (id : Nat) : Option Nat := do
  let n ← nodes[id]?
  let b ← n.branch
  let arg ← args[b.index.val]?
  let (_, child) ← b.children.find? fun e => s.fits arg e.1
  return child

/-- A call with `args` comes to node `id` on its way from the root. -/
def Tree.Passes (s : Subtyping T) (t : Tree g) (args : List T) (id : Nat) : Prop :=
  Relation.ReflTransGen (fun above below => next? s t.nodes args above = some below) 0 id

theorem next?_eq_some {args : List T} {id k : Nat} {n : Node g} {b : Branch g} {arg t : T}
    (hn : nodes[id]? = some n) (hb : n.branch = some b) (harg : args[b.index.val]? = some arg)
    (hfind : b.children.find? (fun e => s.fits arg e.1) = some (t, k)) :
    next? s nodes args id = some k := by
  simp [next?, hn, hb, harg, hfind]

namespace Tree

variable {view : Fin g.arity → T} {t u v : Tree g} {id : Nat} {parent : Option Nat}
  {edge : Option T}

theorem Takes.eq (hu : t.Takes s view u) (hv : t.Takes s view v) : u = v := by
  cases hu with
  | edge hu =>
    cases hv with
    | edge hv =>
      rw [hu] at hv
      cases hv
      rfl

/-- A call goes on from the place of a subtree to that of the child which a walk takes, or both
    end. -/
theorem Listed.next?_cases (s : Subtyping T) (view : Fin g.arity → T)
    (h : u.Listed nodes id parent edge) :
    (∃ k v e, next? s nodes (List.ofFn view) id = some k ∧ u.Takes s view v ∧
      v.Listed nodes k (some id) (some e)) ∨
    next? s nodes (List.ofFn view) id = none ∧ ∀ v, ¬u.Takes s view v := by
  cases u with
  | stop cs tested =>
    refine Or.inr ⟨by simp [next?, h.getElem?, Tree.node, Tree.branch?], fun v hv => ?_⟩
    cases hv
  | fork cs tested i edges =>
    have hnext : next? s nodes (List.ofFn view) id =
        ((edges.numbered (id + 1)).find? fun e => s.fits (view i) e.1).map Prod.snd := by
      simp [next?, h.getElem?, Tree.node, Tree.branch?, Option.map_eq_bind]
    rcases h.edges.find?_cases (s.fits (view i)) with ⟨e, k, child, hk, hchild, hlist⟩ | ⟨hk, hnone⟩
    · exact Or.inl ⟨k, child, e, by rw [hnext, hk]; rfl, .edge hchild, hlist⟩
    · refine Or.inr ⟨by rw [hnext, hk]; rfl, fun v hv => ?_⟩
      cases hv with
      | edge hfirst => rw [hnone] at hfirst; cases hfirst

/-- The nodes that a call passes are places of subtrees that the walk comes to. -/
theorem Passes.exists_reaches (h : t.Passes s (List.ofFn view) id) : ∃ u parent edge,
    t.Reaches s view u ∧ u.Listed t.nodes id parent edge := by
  induction h with
  | refl => exact ⟨t, none, none, .refl, t.listed_nodes⟩
  | tail _ hnext ih =>
    obtain ⟨u, parent, edge, hreach, hlist⟩ := ih
    rcases hlist.next?_cases s view with ⟨k, v, e, hk, htakes, hv⟩ | ⟨hnone, _⟩
    · rw [hnext] at hk
      cases hk
      exact ⟨v, _, _, hreach.tail htakes, hv⟩
    · rw [hnext] at hnone
      cases hnone

/-- Every subtree that the walk comes to has its place among the nodes that the call passes. -/
theorem Reaches.exists_passes (h : t.Reaches s view u) : ∃ id parent edge,
    t.Passes s (List.ofFn view) id ∧ u.Listed t.nodes id parent edge := by
  induction h with
  | refl => exact ⟨0, none, none, .refl, t.listed_nodes⟩
  | tail _ htakes ih =>
    obtain ⟨id, parent, edge, hpass, hlist⟩ := ih
    rcases hlist.next?_cases s view with ⟨k, v, e, hk, hv, hlist⟩ | ⟨_, hnone⟩
    · obtain rfl := hv.eq htakes
      exact ⟨k, _, _, hpass.tail hk, hlist⟩
    · exact absurd htakes (hnone _)

/-- Every walk comes to a subtree from which it does not go on. -/
theorem exists_end (s : Subtyping T) (view : Fin g.arity → T) (t : Tree g) :
    ∃ u, t.Reaches s view u ∧ ∀ v, ¬u.Takes s view v := by
  induction t using Tree.induction with
  | stop cs tested => exact ⟨_, .refl, fun v hv => nomatch hv⟩
  | fork cs tested i edges ih =>
    cases hfind : edges.toList.find? fun e => s.fits (view i) e.1 with
    | none =>
      refine ⟨_, .refl, fun v hv => ?_⟩
      cases hv with
      | edge hfirst => rw [hfind] at hfirst; cases hfirst
    | some e =>
      obtain ⟨u, hreach, hend⟩ := ih e (List.mem_of_find?_eq_some hfind)
      exact ⟨u, hreach.head (.edge hfind), hend⟩

/-! ### Where a call ends -/

theorem exists_view {T : Type} {args : List T} {n : Nat} (h : args.length = n) :
    ∃ view : Fin n → T, args = List.ofFn view := by
  subst h
  exact ⟨args.get, (List.ofFn_get args).symm⟩

/-- A call that comes to a node where nothing is tested is resolved to what is called there. -/
theorem resolve?_of_passes {args : List T} (len : args.length = g.arity)
    (hpass : t.Passes s args id) {n : Node g} (hn : t.nodes[id]? = some n)
    (hstop : n.branch = none) : t.resolve? s args = n.callee? := by
  obtain ⟨view, rfl⟩ := exists_view len
  obtain ⟨u, parent, edge, hreach, hlist⟩ := hpass.exists_reaches
  rw [resolve?_ofFn, walk_of_reaches hreach]
  rw [hlist.getElem?] at hn
  cases hn
  cases u with
  | stop cs tested => rfl
  | fork cs tested i edges => cases hstop

end Tree

/-! ### No edge is shadowed -/

namespace Group

variable [LawfulBEq T]

/-- A call whose argument has the type of an entry goes where that entry leads. -/
theorem next?_of_mem_children (trans : s.Transitive) (anti : s.Antisymmetric) {policy : Policy}
    {id k : Nat} {n : Node g} {b : Branch g} {t : T} {args : List T}
    (hn : (g.tree s policy).value.nodes[id]? = some n) (hb : n.branch = some b)
    (hmem : (t, k) ∈ b.children) (harg : args[b.index.val]? = some t) :
    next? s (g.tree s policy).value.nodes args id = some k := by
  obtain ⟨_, _, htypes⟩ := branch_of_tree hn hb
  obtain ⟨before, after, hsplit⟩ := List.append_of_mem hmem
  rw [hsplit, List.map_append, List.map_cons] at htypes
  have hfind : b.children.find? (fun e => s.fits t e.1) = some (t, k) := by
    refine List.find?_eq_some_iff_append.2 ⟨s.fits_refl t, before, after, hsplit, fun e he => ?_⟩
    rw [not_fits_before trans anti htypes.symm e.1 (List.mem_map_of_mem he)]
    rfl
  exact next?_eq_some hn hb harg hfind

/-- A call passes every node on the way to which its arguments have the types tested for. -/
theorem passes_of_testsTo (trans : s.Transitive) (anti : s.Antisymmetric) (policy : Policy)
    {args : List T} (id : Nat) {n : Node g} (hn : (g.tree s policy).value.nodes[id]? = some n)
    (hargs : ∀ e ∈ (g.tree s policy).value.testsTo id, args[e.1.val]? = some e.2) :
    (g.tree s policy).value.Passes s args id := by
  have hforms := g.formsTree_tree s policy
  induction id using Nat.strongRecOn generalizing n with
  | ind id ih =>
    rcases eq_or_ne id 0 with rfl | hid
    · exact .refl
    · obtain ⟨above, a, b, t, hlt, habove, hb, hmem, htests⟩ := hforms.exists_testsIn_eq hn hid
      rw [Tree.testsTo, htests] at hargs
      have hlast := hargs _ (List.mem_append_right _ List.mem_cons_self)
      refine (ih above hlt habove fun e he => hargs e (List.mem_append_left _ he)).tail ?_
      exact next?_of_mem_children trans anti habove hb hmem hlast

/-- No branch is dead. Where subtyping is a partial order, a call whose arguments have the types
    that are tested for on the way to a node comes to that node, whatever its other arguments are,
    and is resolved to the candidate to be called there if nothing more is tested. -/
theorem passes_every_node [ToString T] (trans : s.Transitive) (anti : s.Antisymmetric)
    {policy : Policy} {t : Tree g} (h : (g.prepare s policy).run.value = .ok t) :
    ∀ (id : Nat) (n : Node g), t.nodes[id]? = some n →
      ∀ args : List T, args.length = g.arity →
        (∀ e ∈ t.testsTo id, args[e.1.val]? = some e.2) →
          t.Passes s args id ∧ (n.branch = none → t.resolve? s args = n.callee?) := by
  intro id n hn args hlen hargs
  have hpass : t.Passes s args id := by
    rw [eq_tree_of_prepare h] at hn hargs ⊢
    exact passes_of_testsTo trans anti policy id hn hargs
  exact ⟨hpass, Tree.resolve?_of_passes hlen hpass hn⟩

/-- Where 1 and 2 stand between 0 and 3, the second candidate is called with 0 and 1 behind the
    edges for 0 and 2, and with 2 and anything at all behind the edges for 0 and 1. -/
theorem passes_every_node_diamond :
    let g : Group (Fin 4) := ofPairs (1, 2) [(2, 1), (0, 0)]
    ∃ t, (g.prepare .diamond .default).run.value = .ok t ∧
      t.testsTo 4 = [(⟨0, by decide⟩, 0), (⟨1, by decide⟩, 1)] ∧ t.Passes .diamond [0, 1] 4 ∧
      t.resolve? .diamond [0, 1] = some ⟨1, by decide⟩ ∧
      t.testsTo 6 = [(⟨0, by decide⟩, 2)] ∧
      ∀ any, t.Passes .diamond [2, any] 6 ∧ t.resolve? .diamond [2, any] = some ⟨1, by decide⟩ := by
  intro g
  have hprep := value_prepare (s := .diamond) .default
    (variadicFree_ofPairs (1, 2) [(2, 1), (0, 0)])
  have hpass := passes_every_node Subtyping.transitive_diamond Subtyping.antisymmetric_diamond hprep
  have hfour := hpass 4 _ rfl [0, 1] rfl (by decide)
  have hsix := fun any => hpass 6 _ rfl [2, any] rfl (by decide +revert)
  exact ⟨_, hprep, by decide, hfour.1, hfour.2 rfl, by decide,
    fun any => ⟨(hsix any).1, (hsix any).2 rfl⟩⟩

end Group

end MultipleDispatch
