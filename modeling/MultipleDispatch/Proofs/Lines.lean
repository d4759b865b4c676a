import MultipleDispatch.Proofs.Layout
import MultipleDispatch.Tree.Text

/-!
The text of a tree, line by line. The text is made on the way down the tree, by a depth that is
counted on the way. Going down the listed nodes by their entries instead makes the same text
(`textIn`). The nodes themselves know nothing of the depth; but every test on the way to a node adds
one parameter to those that count as tested there, so each line can be read off a listed node alone
(`line?`), and the lines stand in the order of the nodes.
-/

namespace MultipleDispatch

variable {T : Type} {g : Group T} [ToString T]

/-- What a listed node does, in short. -/
def Node.headline (n : Node g) : String :=
  match n.branch, n.callee? with
  | some b, _ => s!"#{b.index.val}"
  | none, some c => (g.candidate c).shown
  | none, none => "<no match>"

/-- The line of a listed node to which an edge leads, indented by two spaces for each tested
    parameter. -/
def Node.line? (n : Node g) : Option String :=
  n.edge.map fun t => "".pushn ' ' (2 * n.tested.size) ++ toString t ++ " -> " ++ n.headline

/-! ### Lines of subtrees -/

theorem Tree.headline_node (t : Tree g) (id : Nat) (parent : Option Nat) (edge : Option T) :
    (t.node id parent edge).headline = t.headline := by
  cases t with
  | fork cs tested i edges => rfl
  | stop cs tested =>
    cases cs with
    | nil => rfl
    | cons c cs => rfl

theorem Tree.line?_node (t : Tree g) (id : Nat) (parent : Option Nat) (e : T) :
    (t.node id parent (some e)).line? = some (edgeLine t.tested.size e t) := by
  rw [Node.line?, t.headline_node]
  rfl

mutual

/-- The nodes below the root of a tree in shape have its lines. -/
theorem Tree.map_line?_nodesFrom : ∀ {t : Tree g} {id : Nat} {parent : Option Nat}
    {edge : Option T}, (∀ u, t.Contains u → u.Sprouted) →
      (t.nodesFrom id parent edge).tail.map Node.line? = (t.lines (t.tested.size + 1)).map some
  | .stop _ _, _, _, _, _ => rfl
  | .fork _ _ _ _, _, _, _, h =>
    Edges.map_line?_nodesFrom fun _ he =>
      ⟨(h _ (.self _)).size_tested he, fun u hu => h u (.child he hu)⟩

theorem Edges.map_line?_nodesFrom : ∀ {edges : Edges g} {id above depth : Nat},
    (∀ e ∈ edges.toList, e.2.tested.size = depth ∧ ∀ u, e.2.Contains u → u.Sprouted) →
      (edges.nodesFrom id above).map Node.line? = (edges.lines depth).map some
  | .nil, _, _, _, _ => rfl
  | .cons t child rest, id, above, depth, h => by
    obtain ⟨rfl, hchild⟩ := h (t, child) List.mem_cons_self
    rw [Edges.nodesFrom, Edges.lines, child.nodesFrom_eq_cons, List.map_append, List.map_cons,
      child.line?_node, Tree.map_line?_nodesFrom hchild,
      Edges.map_line?_nodesFrom fun e he => h e (List.mem_cons_of_mem _ he), List.map_cons,
      List.map_append, List.cons_append]

end

/-! ### Lines along the entries -/

/-- What the node of number `id` does, in short. -/
def headlineAt (nodes : List (Node g)) (id : Nat) : String :=
  (nodes[id]?.map Node.headline).getD ""

/-- The lines of the nodes below the one of number `id`, as met along the entries, down to a depth of
    `n`. They are indented by two spaces for each of `depth` tests, and more further down. -/
def linesIn (nodes : List (Node g)) : Nat → Nat → Nat → List String
  | 0, _, _ => []
  | n + 1, id, depth =>
    ((nodes[id]?.map Node.entries).getD []).flatMap fun e =>
      ("".pushn ' ' (2 * depth) ++ toString e.1 ++ " -> " ++ headlineAt nodes e.2) ::
        linesIn nodes n e.2 (depth + 1)

/-- The text of the listed nodes, from the first one down. -/
def textIn (nodes : List (Node g)) : String :=
  String.join ((s!"{g.name}/{g.arity}" :: headlineAt nodes 0 ::
    linesIn nodes nodes.length 0 1).map (· ++ "\n"))

variable {nodes : List (Node g)}

theorem Tree.Listed.headlineAt_eq {t : Tree g} {id : Nat} {parent : Option Nat} {edge : Option T}
    (h : t.Listed nodes id parent edge) : headlineAt nodes id = t.headline := by
  rw [headlineAt, h.getElem?, Option.map_some, Option.getD_some, t.headline_node]

mutual

theorem Tree.Listed.linesIn_eq : ∀ {t : Tree g} {id : Nat} {parent : Option Nat}
    {edge : Option T}, t.Listed nodes id parent edge → ∀ n, t.size ≤ n → ∀ depth,
      linesIn nodes n id depth = t.lines depth
  | .stop cs tested, id, parent, edge, h, n, hn, depth => by
    rw [Tree.size] at hn
    obtain ⟨m, rfl⟩ := Nat.exists_eq_add_of_le' hn
    rw [linesIn, h.getElem?]
    rfl
  | .fork cs tested i edges, id, parent, edge, h, n, hn, depth => by
    rw [Tree.size] at hn
    obtain ⟨m, rfl⟩ := Nat.exists_eq_add_of_le' (show 1 ≤ n by omega)
    rw [linesIn, h.getElem?, Tree.lines]
    exact Edges.Listed.linesIn_eq h.edges m (by omega) depth

theorem Edges.Listed.linesIn_eq : ∀ {edges : Edges g} {id above : Nat},
    edges.Listed nodes id above → ∀ n, edges.size ≤ n → ∀ depth,
      ((edges.numbered id).flatMap fun e =>
        ("".pushn ' ' (2 * depth) ++ toString e.1 ++ " -> " ++ headlineAt nodes e.2) ::
          linesIn nodes n e.2 (depth + 1)) = edges.lines depth
  | .nil, id, above, h, n, hn, depth => rfl
  | .cons t child more, id, above, h, n, hn, depth => by
    rw [Edges.size] at hn
    rw [Edges.numbered, List.flatMap_cons, h.head.headlineAt_eq,
      Tree.Listed.linesIn_eq h.head n (by omega), Edges.Listed.linesIn_eq h.tail n (by omega),
      Edges.lines]
    rfl

end

theorem Tree.textIn_nodes (t : Tree g) : textIn t.nodes = (Dispatch.mk g t).text := by
  rw [textIn, t.listed_nodes.headlineAt_eq,
    t.listed_nodes.linesIn_eq _ (Nat.le_of_eq t.length_nodes.symm)]
  rfl

/-! ### The whole text -/

/-- The text of every prepared tree is that of the nodes as they are laid out. It has a line for the
    group, one for the root, and one for each further node, in the order of the nodes. Nothing is
    asked of the subtyping. -/
theorem Group.text_prepare [BEq T] {s : Subtyping T} {policy : Policy} {t : Tree g}
    (h : (g.prepare s policy).run.value = .ok t) :
    (g.layOutTree s policy).run.value = .ok (0, t.nodes) ∧
    textIn t.nodes = (Dispatch.mk g t).text ∧
    ∃ root below lines, t.nodes = root :: below ∧ below.map Node.line? = lines.map some ∧
      (Dispatch.mk g t).text =
        String.join ((s!"{g.name}/{g.arity}" :: root.headline :: lines).map (· ++ "\n")) := by
  have hgrown := g.grownFor_tree s policy
  rw [← eq_tree_of_prepare h] at hgrown
  refine ⟨value_layOutTree h, t.textIn_nodes, _, _, t.lines 1, t.nodesFrom_eq_cons 0 none none,
    ?_, ?_⟩
  · have hroot : t.tested.size = 0 := by rw [hgrown.tested_eq]; rfl
    rw [Tree.map_line?_nodesFrom hgrown.sprouted, hroot]
  · rw [t.headline_node]
    rfl

/-- The text of a tree that stops after one test or two. -/
theorem Group.text_prepare_diamond :
    let g : Group (Fin 4) := ofPairs (1, 2) [(2, 1), (0, 0)]
    ∃ t, (g.prepare .diamond .default).run.value = .ok t ∧
      (Dispatch.mk g t).text =
        "f/2\n#0\n  0 -> #1\n    0 -> home.f(0, 0)\n    2 -> home.f(1, 2)\n" ++
        "    1 -> home.f(2, 1)\n  1 -> home.f(1, 2)\n  2 -> home.f(2, 1)\n" ∧
      ∃ root below lines, t.nodes = root :: below ∧ below.map Node.line? = lines.map some ∧
        (Dispatch.mk g t).text =
          String.join ((s!"{g.name}/{g.arity}" :: root.headline :: lines).map (· ++ "\n")) := by
  intro g
  have hprep := value_prepare (s := .diamond) .default
    (variadicFree_ofPairs (1, 2) [(2, 1), (0, 0)])
  exact ⟨_, hprep, by decide, (text_prepare hprep).2.2⟩

end MultipleDispatch
