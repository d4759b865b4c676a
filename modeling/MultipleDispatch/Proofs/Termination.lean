import MultipleDispatch.Proofs.Emission

/-!
Every run of the program for a tree comes to an end. In this program every label is marked once and
every jump goes forward to the mark of its label, so no run comes to a place twice or is left at a
label without a place.
-/

namespace MultipleDispatch

variable {T : Type}

/-! ### Jumps and calls in the code of a tree -/

variable {g : Group T}

/-- The instruction at `pc` stands where it should. A jump goes to a label that is marked further
    on, or to the one for calls without a match. A call stands between the casts of all arguments to
    the declared types, in order, and a return. -/
def Instruction.WellPlaced (g : Group T) (is : List (Instruction T)) (pc : Nat) :
    Instruction T → Prop
  | test _ _ id => id = Emission.noMatch ∨ ∃ pos, pc < pos ∧ is[pos]? = some (label id)
  | jump id => id = Emission.noMatch ∨ ∃ pos, pc < pos ∧ is[pos]? = some (label id)
  | call candidate => ∃ (c : Fin g.size) (start : Nat),
      candidate = g.candidate c ∧ pc = start + g.arity ∧
      (∀ i : Fin g.arity, is[start + i.val]? = some (downcast i (g.type c i))) ∧
      is[pc + 1]? = some ret
  | label _ => True
  | downcast _ _ => True
  | ret => True

/-- An instruction remains well placed if all instructions are moved by the same distance. -/
theorem Instruction.WellPlaced.shift {is js : List (Instruction T)} {i : Instruction T} {n pc : Nat}
    (hshift : ∀ k j, is[k]? = some j → js[n + k]? = some j) (h : i.WellPlaced g is pc) :
    i.WellPlaced g js (n + pc) := by
  have hmark : ∀ id : Nat, (∃ pos, pc < pos ∧ is[pos]? = some (.label id)) →
      ∃ pos, n + pc < pos ∧ js[pos]? = some (.label id) :=
    fun id ⟨pos, hlt, hpos⟩ => ⟨n + pos, by omega, hshift pos _ hpos⟩
  cases i with
  | test arg type id => exact h.imp_right (hmark id)
  | jump id => exact h.imp_right (hmark id)
  | call candidate =>
    obtain ⟨c, start, hc, rfl, hcasts, hret⟩ := h
    refine ⟨c, n + start, hc, (Nat.add_assoc n start g.arity).symm, fun i => ?_, ?_⟩
    · rw [Nat.add_assoc]
      exact hshift _ _ (hcasts i)
    · rw [Nat.add_assoc]
      exact hshift _ _ hret
  | label id => trivial
  | downcast arg type => trivial
  | ret => trivial

/-- All instructions of a list stand where they should. -/
def WellOrdered (g : Group T) (is : List (Instruction T)) : Prop :=
  ∀ (pc : Nat) (i : Instruction T), is[pc]? = some i → i.WellPlaced g is pc

namespace WellOrdered

theorem cons {i : Instruction T} {is : List (Instruction T)} (hi : i.WellPlaced g (i :: is) 0)
    (h : WellOrdered g is) : WellOrdered g (i :: is) := by
  intro pc j hj
  cases pc with
  | zero =>
    rw [List.getElem?_cons_zero, Option.some.injEq] at hj
    exact hj ▸ hi
  | succ pc =>
    rw [List.getElem?_cons_succ] at hj
    rw [Nat.add_comm]
    refine (h pc j hj).shift fun k j' hk => ?_
    rwa [Nat.add_comm, List.getElem?_cons_succ]

theorem append {is js : List (Instruction T)} (hi : WellOrdered g is) (hj : WellOrdered g js) :
    WellOrdered g (is ++ js) := by
  intro pc i hpc
  rcases Nat.lt_or_ge pc is.length with hlt | hge
  · rw [List.getElem?_append_left hlt] at hpc
    rw [← Nat.zero_add pc]
    refine (hi pc i hpc).shift fun k j hk => ?_
    rw [Nat.zero_add, List.getElem?_append_left (List.getElem?_eq_some_iff.1 hk).1, hk]
  · obtain ⟨k, rfl⟩ := Nat.exists_eq_add_of_le hge
    rw [List.getElem?_append_right hge, Nat.add_sub_cancel_left] at hpc
    refine (hj k i hpc).shift fun k' j hk => ?_
    rw [List.getElem?_append_right (Nat.le_add_right _ _), Nat.add_sub_cancel_left, hk]

theorem singleton {i : Instruction T} (hi : i.WellPlaced g [i] 0) : WellOrdered g [i] :=
  cons hi fun _ _ h => by simp at h

theorem callCode (c : Fin g.size) : WellOrdered g (g.callCode c) := by
  rw [Group.callCode]
  have hlen : ((g.signature c).zipIdx.map
      fun e => (.downcast e.2 e.1 : Instruction T)).length = g.arity := by
    rw [List.length_map, List.length_zipIdx]
    exact (g.member c).length_eq
  intro pc i hpc
  rcases Nat.lt_or_ge pc g.arity with hlt | hge
  · rw [List.getElem?_append_left (hlen ▸ hlt)] at hpc
    obtain ⟨⟨t, k⟩, _, rfl⟩ := List.mem_map.1 (List.mem_of_getElem? hpc)
    trivial
  · obtain ⟨k, rfl⟩ := Nat.exists_eq_add_of_le hge
    rw [List.getElem?_append_right (hlen.symm ▸ hge), hlen, Nat.add_sub_cancel_left] at hpc
    match k with
    | 0 =>
      cases hpc
      refine ⟨c, 0, rfl, (Nat.zero_add _).symm, fun i => ?_, ?_⟩
      · have hi := i.isLt
        rw [Nat.zero_add, List.getElem?_append_left (by omega), List.getElem?_map,
          List.getElem?_zipIdx, g.getElem?_signature c i]
        simp
      · rw [List.getElem?_append_right (by omega), hlen, Nat.add_zero, Nat.add_sub_cancel_left]
        rfl
    | 1 =>
      cases hpc
      trivial
    | k + 2 => cases hpc

end WellOrdered

mutual

theorem Tree.wellOrdered_code (id : Nat) : (t : Tree g) → WellOrdered g (t.code id)
  | .stop [] _ => .singleton (Or.inl rfl)
  | .stop (c :: cs) tested => by
    rw [Tree.code_stop_cons]
    exact .callCode c
  | .fork cs tested i edges => by
    rw [Tree.code_fork]
    exact (Edges.wellOrdered_code i (id + 1) edges).append (.singleton (Or.inl rfl))

/-- The test of an edge jumps behind the code of the child, where its label is marked. -/
theorem Edges.wellOrdered_code (index id : Nat) : (edges : Edges g) →
    WellOrdered g (edges.code index id)
  | .nil => fun _ _ h => by cases h
  | .cons t child rest => by
    rw [Edges.code_cons]
    refine .cons (Or.inr ⟨(child.code id).length + 1, by omega, ?_⟩) ?_
    · rw [List.getElem?_cons_succ, List.getElem?_append_right (Nat.le_refl _), Nat.sub_self,
        List.getElem?_cons_zero]
    · exact (Tree.wellOrdered_code id child).append
        (.cons trivial (Edges.wellOrdered_code index (id + child.size) rest))

end

theorem Tree.wellOrdered_program (t : Tree g) : WellOrdered g t.program.instructions :=
  (t.wellOrdered_code 0).append (.singleton trivial)

/-! ### The program for a tree -/

namespace Tree

/-- As many labels are handed out as the tree has nodes. -/
theorem labels_program (t : Tree g) : t.program.labels = t.nodes.length :=
  (t.countP_isFresh 0).trans t.length_nodes.symm

theorem position?_program (t : Tree g) {pos id : Nat}
    (h : t.program.instructions[pos]? = some (.label id)) : t.program.position? id = some pos := by
  obtain ⟨hlt, hget⟩ := List.getElem?_eq_some_iff.1 h
  have hdrop := List.drop_eq_getElem_cons hlt
  rw [hget] at hdrop
  exact t.linked_program pos id _ hdrop

/-- The labels that are handed out are those that are marked. -/
theorem lt_labels_iff (t : Tree g) {id : Nat} : id < t.program.labels ↔
    ∃ pos : Nat, t.program.instructions[pos]? = some (.label id) := by
  rw [← List.mem_range, ← t.perm_marks_program.mem_iff, List.mem_filterMap]
  constructor
  · rintro ⟨i, hi, hmark⟩
    obtain ⟨pos, hpos⟩ := List.getElem?_of_mem hi
    cases i with
    | label id' =>
      cases hmark
      exact ⟨pos, hpos⟩
    | _ => cases hmark
  · rintro ⟨pos, hpos⟩
    exact ⟨_, List.mem_of_getElem? hpos, rfl⟩

theorem instructions_program (t : Tree g) :
    t.program.instructions = t.code 0 ++ [.label Emission.noMatch] :=
  rfl

/-- The label for calls without a match is marked behind all else. -/
theorem getElem?_noMatch (t : Tree g) : t.program.instructions[(t.code 0).length]? =
    some (.label Emission.noMatch) := by
  rw [instructions_program, List.getElem?_append_right (Nat.le_refl _), Nat.sub_self,
    List.getElem?_cons_zero]

theorem exists_mark_of_target? (t : Tree g) {pc id : Nat} {i : Instruction T}
    (hi : t.program.instructions[pc]? = some i) (hid : i.target? = some id) :
    ∃ pos, pc < pos ∧ t.program.instructions[pos]? = some (.label id) := by
  have hplaced := t.wellOrdered_program pc i hi
  have hmark : id = Emission.noMatch ∨
      ∃ pos, pc < pos ∧ t.program.instructions[pos]? = some (.label id) := by
    cases i with
    | test arg type onFail =>
      cases hid
      exact hplaced
    | jump target =>
      cases hid
      exact hplaced
    | _ => cases hid
  rcases hmark with rfl | hmark
  · refine ⟨_, Nat.lt_of_le_of_ne ?_ ?_, t.getElem?_noMatch⟩
    · have hlt := (List.getElem?_eq_some_iff.1 hi).1
      rw [instructions_program, List.length_append] at hlt
      exact Nat.le_of_lt_succ hlt
    · rintro rfl
      rw [t.getElem?_noMatch] at hi
      cases hi
      cases hid
  · exact hmark

theorem jumpsForward_program (t : Tree g) : t.program.JumpsForward := by
  intro pc i id hi hid
  obtain ⟨pos, hlt, hpos⟩ := t.exists_mark_of_target? hi hid
  exact ⟨pos, t.position?_program hpos, hlt⟩

end Tree

/-- The labels and calls of a program for a tree with `nodes` nodes are in order. -/
structure Program.Disciplined (g : Group T) (nodes : Nat) (p : Program T) : Prop where
  /-- As many labels are handed out as there are nodes. -/
  handed_out : p.labels = nodes
  /-- Each of them is marked at one place. -/
  marked_once : ∀ id < p.labels, ∃! pos : Nat, p.instructions[pos]? = some (.label id)
  /-- A jump goes to a label that was handed out and is marked further on. -/
  forward : ∀ (pc : Nat) (i : Instruction T) (id : Nat), p.instructions[pc]? = some i →
    i.target? = some id →
      id < p.labels ∧ ∃ pos, pc < pos ∧ p.instructions[pos]? = some (.label id)
  /-- Right before a call are the casts of all arguments to the declared types, in order, and right
      behind it is a return. -/
  framed : ∀ (pc : Nat) (candidate : Candidate T), p.instructions[pc]? = some (.call candidate) →
    ∃ (c : Fin g.size) (start : Nat), candidate = g.candidate c ∧ pc = start + g.arity ∧
      (∀ i : Fin g.arity, p.instructions[start + i.val]? = some (.downcast i (g.type c i))) ∧
      p.instructions[pc + 1]? = some .ret

theorem Tree.disciplined_program (t : Tree g) : t.program.Disciplined g t.nodes.length where
  handed_out := t.labels_program
  marked_once := by
    intro id hid
    obtain ⟨pos, hpos⟩ := t.lt_labels_iff.1 hid
    refine ⟨pos, hpos, fun pos' hpos' => ?_⟩
    exact Option.some.inj ((t.position?_program hpos').symm.trans (t.position?_program hpos))
  forward := by
    intro pc i id hi hid
    obtain ⟨pos, hlt, hpos⟩ := t.exists_mark_of_target? hi hid
    exact ⟨t.lt_labels_iff.2 ⟨pos, hpos⟩, pos, hlt, hpos⟩
  framed := fun pc _ hcall => t.wellOrdered_program pc _ hcall

/-- The program that is emitted for a tree hands out and marks one label for each node and jumps
    forward only. With any arguments, however many, and under any subtyping, it therefore runs to an
    end, comes to no place twice and is never left at a label without a place. The result is what
    that run called. -/
theorem Tree.ends_program [BEq T] (t : Tree g) :
    Program.emitted t.nodes = t.program ∧ t.program.Disciplined g t.nodes.length ∧
    ∀ (s : Subtyping T) (args : List T), ∃ (visited : List Nat) (ending : Ending T),
      t.program.Run s args 0 none visited ending ∧
      visited.Pairwise (· < ·) ∧
      (∀ id, ending ≠ .unmarked id) ∧
      t.program.run? s args = ending.called? := by
  refine ⟨t.emitted_nodes, t.disciplined_program, fun s args => ?_⟩
  obtain ⟨visited, ending, hrun, horderly⟩ := t.jumpsForward_program.exists_run s args 0 none
  refine ⟨visited, ending, hrun, horderly.increasing, horderly.marked, ?_⟩
  exact hrun.runFrom_eq _ horderly.bounded

end MultipleDispatch
