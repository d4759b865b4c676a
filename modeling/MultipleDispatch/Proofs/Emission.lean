import MultipleDispatch.Proofs.Execution
import MultipleDispatch.Proofs.Numbering

/-!
Emission, instruction by instruction. The emitter goes down the listed nodes by their numbers,
appends to a program and has it hand out a label before every test. When it comes to the node of
number `id`, the labels up to `id` have been handed out, so the label of an edge is the number of the
child. What it emits is therefore the program for the tree.
-/

namespace MultipleDispatch

variable {T : Type} {g : Group T}

namespace Program

/-! ### The emitter -/

/-- Casts all arguments, calls `c` and returns. -/
def pushCall (p : Program T) (c : Fin g.size) : Program T :=
  (((g.signature c).zipIdx.foldl (fun p e => p.push (.downcast e.2 e.1)) p).push
    (.call (g.candidate c))).push .ret

/-- Tests for the type of an entry, with a new label for the case that the test fails. It is marked
    behind what `emit` emits for the child. -/
def pushEntry (emit : Nat → Program T → Program T) (index : Nat) (p : Program T) (e : T × Nat) :
    Program T :=
  let next := p.newLabel
  (emit e.2 (next.2.push (.test index e.1 next.1))).push (.label next.1)

/-- Emits the node of number `id` and what is below it, down to a depth of `n`. -/
def emitNode (nodes : List (Node g)) (noMatch : Nat) : Nat → Nat → Program T → Program T
  | 0, _, p => p
  | n + 1, id, p =>
    match nodes[id]?.bind Node.branch with
    | some b =>
      (b.children.foldl (pushEntry (emitNode nodes noMatch n) b.index) p).push (.jump noMatch)
    | none =>
      match nodes[id]?.bind Node.callee? with
      | some c => p.pushCall c
      | none => p.push (.jump noMatch)

/-- Emits all listed nodes, from the first one down. -/
def emitted (nodes : List (Node g)) : Program T :=
  let noMatch := empty.newLabel
  (emitNode nodes noMatch.1 nodes.length 0 noMatch.2).push (.label noMatch.1)

/-! ### What is emitted -/

theorem push_mk (is : List (Instruction T)) (labels : Nat) (i : Instruction T) :
    (⟨is, labels⟩ : Program T).push i = ⟨is ++ [i], labels⟩ :=
  rfl

theorem pushCall_eq (is : List (Instruction T)) (labels : Nat) (c : Fin g.size) :
    (⟨is, labels⟩ : Program T).pushCall c = ⟨is ++ g.callCode c, labels⟩ := by
  have hcasts : ∀ (casts : List (T × Nat)) (is : List (Instruction T)),
      casts.foldl (fun p e => p.push (.downcast e.2 e.1)) (⟨is, labels⟩ : Program T) =
        ⟨is ++ casts.map fun e => .downcast e.2 e.1, labels⟩ := by
    intro casts
    induction casts with
    | nil => simp
    | cons cast casts ih => simp [push_mk, ih]
  simp [pushCall, hcasts, push_mk, Group.callCode]

end Program

open Program (emitNode pushEntry)

variable {nodes : List (Node g)}

mutual

/-- If the labels up to `id` have been handed out, the code of the tree at `id` is emitted with the
    numbers of its nodes as labels. -/
theorem Tree.Listed.emitNode_eq : ∀ {t : Tree g} {id : Nat} {parent : Option Nat}
    {edge : Option T}, t.Listed nodes id parent edge → ∀ n, t.size ≤ n → ∀ is,
      emitNode nodes Emission.noMatch n id ⟨is, id + 1⟩ = ⟨is ++ t.code id, id + t.size⟩
  | .stop [] tested, id, parent, edge, h, n, hn, is => by
    rw [Tree.size] at hn
    obtain ⟨m, rfl⟩ := Nat.exists_eq_add_of_le' hn
    rw [emitNode, h.getElem?]
    rfl
  | .stop (c :: cs) tested, id, parent, edge, h, n, hn, is => by
    rw [Tree.size] at hn
    obtain ⟨m, rfl⟩ := Nat.exists_eq_add_of_le' hn
    rw [emitNode, h.getElem?, Tree.code_stop_cons]
    exact Program.pushCall_eq is (id + 1) c
  | .fork cs tested i edges, id, parent, edge, h, n, hn, is => by
    rw [Tree.size] at hn
    obtain ⟨m, rfl⟩ := Nat.exists_eq_add_of_le' (show 1 ≤ n by omega)
    have hedges := Edges.Listed.emitNode_eq h.edges m (by omega) i is
    have hbranch : nodes[id]?.bind Node.branch = some ⟨i, edges.numbered (id + 1)⟩ := by
      rw [h.getElem?]
      rfl
    rw [emitNode, hbranch]
    simp only
    rw [hedges, Program.push_mk, Tree.code_fork, Tree.size, List.append_assoc, Nat.add_assoc]

theorem Edges.Listed.emitNode_eq : ∀ {edges : Edges g} {id above : Nat},
    edges.Listed nodes id above → ∀ n, edges.size ≤ n → ∀ index is,
      (edges.numbered id).foldl (pushEntry (emitNode nodes Emission.noMatch n) index) ⟨is, id⟩ =
        ⟨is ++ edges.code index id, id + edges.size⟩
  | .nil, id, above, h, n, hn, index, is => by
    simp [Edges.numbered, Edges.code, Edges.emit, Edges.size]
  | .cons t child more, id, above, h, n, hn, index, is => by
    rw [Edges.size] at hn
    have hchild := Tree.Listed.emitNode_eq h.head n (by omega) (is ++ [.test index t id])
    have hentry : pushEntry (emitNode nodes Emission.noMatch n) index ⟨is, id⟩ (t, id) =
        ⟨is ++ .test index t id :: (child.code id ++ [.label id]), id + child.size⟩ := by
      rw [pushEntry, Program.newLabel]
      simp only [Program.push]
      rw [hchild]
      simp
    have hmore := Edges.Listed.emitNode_eq h.tail n (by omega) index
      (is ++ .test index t id :: (child.code id ++ [.label id]))
    rw [Edges.numbered, List.foldl_cons, hentry, hmore, Edges.code_cons, Edges.size, Nat.add_assoc]
    simp

end

/-- What is emitted for the nodes of a tree is its program. -/
theorem Tree.emitted_nodes (t : Tree g) : Program.emitted t.nodes = t.program := by
  have hnode := t.listed_nodes.emitNode_eq t.nodes.length (Nat.le_of_eq t.length_nodes.symm) []
  have hlabels : t.program.labels = 0 + t.size := by
    rw [Nat.zero_add]
    exact t.countP_isFresh 0
  have hprogram : t.program = ⟨t.code 0 ++ [.label Emission.noMatch], t.program.labels⟩ := rfl
  rw [hprogram, hlabels, ← Program.push_mk, ← List.nil_append (t.code 0), ← hnode]
  rfl

end MultipleDispatch
