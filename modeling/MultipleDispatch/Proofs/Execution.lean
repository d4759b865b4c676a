import MultipleDispatch.Code.Emission
import MultipleDispatch.Proofs.Runs
import MultipleDispatch.Proofs.Selection

/-!
The program for a tree does what a walk down the tree does. The labels marked in the program are the
numbers of the nodes, each once, so a jump can only go to the place its label was meant for. From
there the run follows the tree: the code of a subtree, wherever it stands in the program, calls the
candidate that the walk down the subtree ends at.
-/

namespace MultipleDispatch

variable {T : Type}

/-! ### Marked labels -/

/-- The label that an instruction marks. -/
def Instruction.mark? : Instruction T → Option Nat
  | label id => some id
  | _ => none

namespace Program

theorem marks_eq_true {id : Nat} {i : Instruction T} : marks id i = true ↔ i.mark? = some id := by
  cases i <;> simp [marks, Instruction.mark?]

/-- Every place that marks a label is where a jump to the label goes. -/
def Linked (p : Program T) : Prop :=
  ∀ pc id rest, p.instructions.drop pc = .label id :: rest → p.position? id = some pc

theorem filter_marks_eq_nil {id : Nat} {is : List (Instruction T)}
    (h : id ∉ is.filterMap Instruction.mark?) (k : Nat) :
    ((is.zipIdx k).filter fun (i, _) => marks id i) = [] := by
  refine List.filter_eq_nil_iff.2 ?_
  rintro ⟨i, j⟩ hi hmarks
  exact h (List.mem_filterMap.2 ⟨i, List.fst_mem_of_mem_zipIdx hi, marks_eq_true.1 hmarks⟩)

/-- A program is linked if it marks no label twice and none that was not handed out. -/
theorem linked_of_nodup {p : Program T} (once : (p.instructions.filterMap Instruction.mark?).Nodup)
    (handed : ∀ id ∈ p.instructions.filterMap Instruction.mark?, id < p.labels) : p.Linked := by
  intro pc id rest hdrop
  have hsplit := List.take_append_drop pc p.instructions
  rw [hdrop] at hsplit
  have hlen : (p.instructions.take pc).length = pc := by
    refine List.length_take_of_le (Nat.le_of_lt (Nat.lt_of_not_le fun hle => ?_))
    rw [List.drop_eq_nil_of_le hle] at hdrop
    cases hdrop
  have hmark : (.label id : Instruction T).mark? = some id := rfl
  rw [← hsplit, List.filterMap_append, List.filterMap_cons_some hmark] at once handed
  obtain ⟨_, honce, hapart⟩ := List.nodup_append.1 once
  have hbefore : id ∉ (p.instructions.take pc).filterMap Instruction.mark? :=
    fun hid => hapart id hid id List.mem_cons_self rfl
  have hafter : id ∉ rest.filterMap Instruction.mark? := (List.nodup_cons.1 honce).1
  rw [position?, if_pos (handed id (by simp)), ← hsplit, List.zipIdx_append, List.filter_append,
    filter_marks_eq_nil hbefore, List.nil_append, List.zipIdx_cons, List.filter_cons,
    if_pos (marks_eq_true.2 hmark), filter_marks_eq_nil hafter, hlen]
  simp

end Program

variable {g : Group T}

/-- The code of a tree, `id` being the number of its root. -/
def Tree.code (id : Nat) (t : Tree g) : List (Instruction T) :=
  (t.emit id).filterMap Emission.instruction?

/-- The code of the edges of a fork on `index`, `id` being the number of the first child. -/
def Edges.code (index id : Nat) (edges : Edges g) : List (Instruction T) :=
  (edges.emit index id).filterMap Emission.instruction?

/-- The code for a call: the casts of all arguments, the call and the return. -/
def Group.callCode (g : Group T) (c : Fin g.size) : List (Instruction T) :=
  (g.signature c).zipIdx.map (fun e => .downcast e.2 e.1) ++ [.call (g.candidate c), .ret]

theorem Tree.code_stop_cons (id : Nat) (c : Fin g.size) (cs : List (Fin g.size))
    (tested : IndexSet) : Tree.code id (.stop (c :: cs) tested) = g.callCode c := by
  rw [code, emit, Emission.callOf, List.filterMap_append, List.filterMap_map, Group.callCode,
    ← List.filterMap_eq_map]
  rfl

/-- Its casts are those to the types that the candidate declares. -/
theorem Group.downcast_mem_callCode {c : Fin g.size} {j : Nat} {t : T} :
    .downcast j t ∈ g.callCode c ↔ ∃ i : Fin g.arity, i.val = j ∧ g.type c i = t := by
  have hcast : .downcast j t ∈ g.callCode c ↔ (g.signature c)[j]? = some t := by
    simp [callCode, List.mem_zipIdx_iff_getElem?]
  rw [hcast]
  constructor
  · intro hj
    obtain ⟨hlt, _⟩ := List.getElem?_eq_some_iff.1 hj
    have hlt : j < g.arity := by rwa [← ofFn_type, List.length_ofFn] at hlt
    rw [g.getElem?_signature c ⟨j, hlt⟩] at hj
    exact ⟨⟨j, hlt⟩, rfl, Option.some.inj hj⟩
  · rintro ⟨i, rfl, rfl⟩
    exact g.getElem?_signature c i

theorem Tree.code_fork (id : Nat) (cs : List (Fin g.size)) (tested : IndexSet) (i : Fin g.arity)
    (edges : Edges g) : Tree.code id (.fork cs tested i edges) =
      edges.code i (id + 1) ++ [.jump Emission.noMatch] := by
  rw [code, emit, List.filterMap_append]
  rfl

theorem Edges.code_cons (index id : Nat) (t : T) (child : Tree g) (rest : Edges g) :
    Edges.code index id (.cons t child rest) =
      .test index t id :: (child.code id ++ .label id :: rest.code index (id + child.size)) := by
  simp [code, Tree.code, emit, List.filterMap_cons, Emission.instruction?]

mutual

/-- A label is marked for every node but the root, which has the number `id`. -/
theorem Tree.perm_marks (id : Nat) : (t : Tree g) →
    (id :: (t.code id).filterMap Instruction.mark?).Perm (List.range' id t.size)
  | .stop [] _ => .refl _
  | .stop (c :: cs) tested => by
    rw [Tree.code_stop_cons, Group.callCode]
    simp [List.filterMap_cons, Instruction.mark?, Tree.size]
  | .fork cs tested i edges => by
    have ih := Edges.perm_marks i (id + 1) edges
    rw [Tree.code_fork, List.filterMap_append, Tree.size, Nat.add_comm 1, List.range'_succ]
    simpa [List.filterMap_cons, Instruction.mark?] using ih

/-- A label is marked for every node below the edges, the first being `id`. -/
theorem Edges.perm_marks (index id : Nat) : (edges : Edges g) →
    ((edges.code index id).filterMap Instruction.mark?).Perm (List.range' id edges.size)
  | .nil => .refl _
  | .cons t child rest => by
    have ihChild := Tree.perm_marks id child
    have ihRest := Edges.perm_marks index (id + child.size) rest
    rw [Edges.code_cons, List.filterMap_cons, List.filterMap_append, List.filterMap_cons,
      Edges.size, ← List.range'_append_1]
    exact List.perm_middle.trans (ihChild.append ihRest)

end

mutual

/-- A label is handed out for every node but the root. -/
theorem Tree.countP_isFresh (id : Nat) : (t : Tree g) →
    (t.emit id).countP Emission.isFresh + 1 = t.size
  | .stop [] _ => rfl
  | .stop (c :: cs) tested => by
    have hfresh : (Tree.emit id (.stop (c :: cs) tested)).countP Emission.isFresh = 0 := by
      simp [Tree.emit, Emission.callOf, List.countP_eq_zero, Emission.isFresh]
    rw [hfresh, Tree.size]
  | .fork cs tested i edges => by
    rw [Tree.emit, List.countP_append, Edges.countP_isFresh i (id + 1) edges, Tree.size,
      Nat.add_comm 1]
    rfl

/-- A label is handed out for every node below the edges. -/
theorem Edges.countP_isFresh (index id : Nat) : (edges : Edges g) →
    (edges.emit index id).countP Emission.isFresh = edges.size
  | .nil => rfl
  | .cons t child rest => by
    have ihChild := Tree.countP_isFresh id child
    have ihRest := Edges.countP_isFresh index (id + child.size) rest
    simp only [Edges.emit, Edges.size, List.cons_append, List.countP_cons, List.countP_append,
      Emission.isFresh]
    simp only [reduceIte, Bool.false_eq_true]
    omega

end

/-- The program marks each of its labels once. -/
theorem Tree.perm_marks_program (t : Tree g) :
    (t.program.instructions.filterMap Instruction.mark?).Perm (List.range t.program.labels) := by
  have hmarks := t.perm_marks 0
  rw [← t.countP_isFresh 0, ← List.range_eq_range'] at hmarks
  rw [program, List.filterMap_append]
  exact (List.perm_append_singleton _ _).trans hmarks

theorem Tree.linked_program (t : Tree g) : t.program.Linked := by
  have hmarks := t.perm_marks_program
  refine Program.linked_of_nodup (hmarks.nodup_iff.2 List.nodup_range) fun id hid => ?_
  exact List.mem_range.1 (hmarks.mem_iff.1 hid)

/-! ### Running the code of a tree -/

namespace Program

variable {p : Program T} {pc : Nat} {rest : List (Instruction T)}

theorem getElem?_of_drop {i : Instruction T} (h : p.instructions.drop pc = i :: rest) :
    p.instructions[pc]? = some i := by
  rw [← List.head?_drop, h, List.head?_cons]

theorem drop_succ {i : Instruction T} (h : p.instructions.drop pc = i :: rest) :
    p.instructions.drop (pc + 1) = rest := by
  rw [← List.drop_drop, h, List.drop_one, List.tail_cons]

theorem drop_add {front : List (Instruction T)} (h : p.instructions.drop pc = front ++ rest) :
    p.instructions.drop (pc + front.length) = rest := by
  rw [← List.drop_drop, h, List.drop_left]

/-- The instructions of a piece of code are those at the places that it takes up. -/
theorem exists_place_iff {code : List (Instruction T)} {i : Instruction T}
    (h : p.instructions.drop pc = code ++ rest) :
    (∃ v ∈ List.range' pc code.length, p.instructions[v]? = some i) ↔ i ∈ code := by
  have hplace : ∀ k < code.length, p.instructions[pc + k]? = code[k]? := by
    intro k hk
    rw [← List.getElem?_drop, h, List.getElem?_append_left hk]
  constructor
  · rintro ⟨v, hv, hi⟩
    obtain ⟨k, hk, rfl⟩ := List.mem_range'.1 hv
    rw [Nat.one_mul, hplace k hk] at hi
    exact List.mem_of_getElem? hi
  · intro hi
    obtain ⟨k, hk⟩ := List.getElem?_of_mem hi
    have hlt := (List.getElem?_eq_some_iff.1 hk).1
    exact ⟨pc + k, List.mem_range'_1.2 (by omega), (hplace k hlt).trans hk⟩

variable [BEq T] {s : Subtyping T} {args : List T} {called : Option (Candidate T)}

theorem step_test_pass {i : Nat} {t : T} {id : Nat} {a : T}
    (h : p.instructions.drop pc = .test i t id :: rest) (ha : args[i]? = some a)
    (hfits : s.fits a t = true) : p.step s args pc called = .inl (pc + 1, called) := by
  rw [step, getElem?_of_drop h]
  simp [ha, hfits]

/-- A test that fails goes to the mark of its label. -/
theorem step_test_fail (linked : p.Linked) {i : Nat} {t : T} {id : Nat} {a : T}
    {skipped : List (Instruction T)}
    (h : p.instructions.drop pc = .test i t id :: (skipped ++ .label id :: rest))
    (ha : args[i]? = some a) (hfits : s.fits a t = false) :
    p.step s args pc called = .inl (pc + 1 + skipped.length, called) := by
  have hlabel := drop_add (drop_succ h)
  rw [step, getElem?_of_drop h]
  simp [ha, hfits, goto, linked _ _ _ hlabel]

theorem step_jump (linked : p.Linked) {id pos : Nat} {behind : List (Instruction T)}
    (h : p.instructions.drop pc = .jump id :: rest)
    (hlabel : p.instructions.drop pos = .label id :: behind) :
    p.step s args pc called = .inl (pos, called) := by
  rw [step, getElem?_of_drop h]
  simp [goto, linked _ _ _ hlabel]

theorem step_label {id : Nat} (h : p.instructions.drop pc = .label id :: rest) :
    p.step s args pc called = .inl (pc + 1, called) := by
  rw [step, getElem?_of_drop h]

/-- Casts change nothing about the run. -/
theorem Run.downcasts {casts : List (T × Nat)} {visited : List Nat} {ending : Ending T} :
    ∀ {pc : Nat}, p.instructions.drop pc = casts.map (fun e => .downcast e.2 e.1) ++ rest →
      Run s p args (pc + casts.length) called visited ending →
        Run s p args pc called (List.range' pc casts.length ++ visited) ending := by
  induction casts with
  | nil => exact fun _ hrun => hrun
  | cons cast casts ih =>
    intro pc h hrun
    have hstep : p.step s args pc called = .inl (pc + 1, called) := by
      rw [step, getElem?_of_drop h]
    rw [List.length_cons, Nat.add_comm casts.length, ← Nat.add_assoc] at hrun
    exact .next hstep (ih (drop_succ h) hrun)

/-- The run from `pc` on comes to an end and calls `result`. The casts on the way are those of all
    arguments to the types that the called candidate declares, and none if nothing is called. -/
def Dispatches {g : Group T} (s : Subtyping T) (p : Program T) (args : List T) (pc : Nat)
    (called : Option (Candidate T)) (result : Option (Fin g.size)) : Prop :=
  ∃ visited ending, p.Run s args pc called visited ending ∧ p.Orderly pc visited ending ∧
    ending.called? = result.map g.candidate ∧
    ∀ j t, (∃ v ∈ visited, p.instructions[v]? = some (.downcast j t)) ↔
      ∃ c ∈ result, ∃ i : Fin g.arity, i.val = j ∧ g.type c i = t

variable {g : Group T} {result : Option (Fin g.size)}

theorem Dispatches.next {pc' : Nat} {called' : Option (Candidate T)} {i : Instruction T}
    (h : p.Dispatches s args pc' called' result)
    (hstep : p.step s args pc called = .inl (pc', called')) (hlt : pc < pc')
    (hdrop : p.instructions.drop pc = i :: rest) (hcast : ∀ j t, i ≠ .downcast j t) :
    p.Dispatches s args pc called result := by
  obtain ⟨visited, ending, hrun, horderly, hcalled, hcasts⟩ := h
  have hi := getElem?_of_drop hdrop
  refine ⟨pc :: visited, ending, .next hstep hrun,
    horderly.cons (List.getElem?_eq_some_iff.1 hi).1 hlt, hcalled, fun j t => ?_⟩
  have hne : ¬p.instructions[pc]? = some (.downcast j t) := by
    rw [hi, Option.some.injEq]
    exact hcast j t
  rw [← hcasts j t]
  simp [hne]

/-- A jump to the label at the very end finds no candidate. -/
theorem dispatches_noMatch (linked : p.Linked)
    (last : ∃ front, p.instructions = front ++ [.label Emission.noMatch])
    (h : p.instructions.drop pc = .jump Emission.noMatch :: rest) :
    p.Dispatches s args pc called (none : Option (Fin g.size)) := by
  obtain ⟨front, hfront⟩ := last
  have hlabel : p.instructions.drop front.length = [.label Emission.noMatch] := by
    rw [hfront, List.drop_left]
  have hbefore : pc < front.length := by
    rcases Nat.lt_trichotomy pc front.length with hlt | rfl | hgt
    · exact hlt
    · rw [hlabel] at h
      cases h
    · rw [List.drop_eq_nil_of_le (by rw [hfront, List.length_append]; exact hgt)] at h
      cases h
  have hend : p.step s args (front.length + 1) called = .inr .finished := by
    simp [step, hfront]
  have hover : p.Dispatches s args (front.length + 1) called (none : Option (Fin g.size)) := by
    refine ⟨_, _, .last hend, ⟨by simp, by simp, by simp, Or.inr rfl⟩, rfl, fun j t => ?_⟩
    simp [hfront]
  exact (hover.next (step_label hlabel) (Nat.lt_succ_self _) hlabel (by simp)).next
    (step_jump linked h hlabel) hbefore h (by simp)

/-- The code for a call runs through, from the first cast to the return. -/
theorem dispatches_callCode {c : Fin g.size} (h : p.instructions.drop pc = g.callCode c ++ rest) :
    p.Dispatches s args pc called (some c) := by
  have hcasts := h
  rw [Group.callCode, List.append_assoc] at hcasts
  have hcall := drop_add hcasts
  rw [List.length_map] at hcall
  have hstep : p.step s args (pc + (g.signature c).zipIdx.length) called =
      .inl (pc + (g.signature c).zipIdx.length + 1, some (g.candidate c)) := by
    rw [step, getElem?_of_drop hcall]
  have hret : p.step s args (pc + (g.signature c).zipIdx.length + 1) (some (g.candidate c)) =
      .inr (.returned (some (g.candidate c))) := by
    rw [step, getElem?_of_drop (drop_succ hcall)]
  have hrun := Run.downcasts hcasts (.next hstep (.last hret))
  have hvisited : List.range' pc (g.signature c).zipIdx.length ++
      [pc + (g.signature c).zipIdx.length, pc + (g.signature c).zipIdx.length + 1] =
      List.range' pc (g.callCode c).length := by
    rw [Group.callCode, List.length_append, List.length_map, ← List.range'_append_1]
    rfl
  rw [hvisited] at hrun
  refine ⟨_, _, hrun, ⟨List.pairwise_lt_range', ?_, by simp, Or.inl ?_⟩, rfl, fun j t => ?_⟩
  · exact fun v hv => (List.mem_range'_1.1 hv).1
  · have hlen := congrArg List.length h
    rw [List.length_drop, List.length_append] at hlen
    rw [List.length_range']
    omega
  · rw [exists_place_iff h, Group.downcast_mem_callCode]
    simp

end Program

section

variable [BEq T] {s : Subtyping T} {p : Program T} {args : List T} {view : Fin g.arity → T}

mutual

/-- The code of a tree, wherever it stands, calls what the walk down the tree ends at. -/
theorem Tree.dispatches_code (linked : p.Linked)
    (last : ∃ front, p.instructions = front ++ [.label Emission.noMatch])
    (hargs : ∀ i : Fin g.arity, args[i.val]? = some (view i)) : (t : Tree g) →
    ∀ {id pc : Nat} {post : List (Instruction T)} {called : Option (Candidate T)},
      p.instructions.drop pc = t.code id ++ post →
        p.Dispatches s args pc called (t.walk s view)
  | .stop [] _, _, _, _, _, h => Program.dispatches_noMatch linked last h
  | .stop (c :: cs) tested, id, pc, post, called, h => by
    rw [Tree.code_stop_cons] at h
    exact Program.dispatches_callCode h
  | .fork cs tested i edges, id, pc, post, called, h => by
    rw [Tree.code_fork, List.append_assoc] at h
    exact Edges.dispatches_code linked last hargs i edges h

/-- The code of the edges of a fork, with the jump that follows it, calls what the walk along the
    edges ends at. -/
theorem Edges.dispatches_code (linked : p.Linked)
    (last : ∃ front, p.instructions = front ++ [.label Emission.noMatch])
    (hargs : ∀ i : Fin g.arity, args[i.val]? = some (view i)) (i : Fin g.arity) :
    (edges : Edges g) →
    ∀ {id pc : Nat} {post : List (Instruction T)} {called : Option (Candidate T)},
      p.instructions.drop pc = edges.code i id ++ .jump Emission.noMatch :: post →
        p.Dispatches s args pc called (edges.walk s view (view i))
  | .nil, _, _, _, _, h => Program.dispatches_noMatch linked last h
  | .cons t child rest, id, pc, post, called, h => by
    rw [Edges.code_cons, List.cons_append, List.append_assoc, List.cons_append] at h
    rw [Edges.walk]
    cases hfits : s.fits (view i) t with
    | true =>
      have hchild : p.Dispatches s args (pc + 1) called (child.walk s view) :=
        Tree.dispatches_code linked last hargs child (Program.drop_succ h)
      exact hchild.next (Program.step_test_pass h (hargs i) hfits) (Nat.lt_succ_self _) h (by simp)
    | false =>
      have hlabel := Program.drop_add (Program.drop_succ h)
      have hrest : p.Dispatches s args (pc + 1 + (child.code id).length + 1) called
          (rest.walk s view (view i)) :=
        Edges.dispatches_code linked last hargs i rest (Program.drop_succ hlabel)
      refine (hrest.next (Program.step_label hlabel) (Nat.lt_succ_self _) hlabel (by simp)).next
        (Program.step_test_fail linked h (hargs i) hfits) ?_ h (by simp)
      omega

end

/-- The program for a tree calls the candidate that the tree selects. -/
theorem Tree.dispatches_program (s : Subtyping T) (t : Tree g) (args : List T)
    (len : args.length = g.arity) : t.program.Dispatches s args 0 none (t.resolve? s args) := by
  have hargs : ∀ i : Fin g.arity, args[i.val]? = some (args.get ⟨i, len.symm ▸ i.isLt⟩) :=
    fun i => List.getElem?_eq_getElem (len.symm ▸ i.isLt)
  rw [Tree.resolve?, dif_pos len]
  exact Tree.dispatches_code t.linked_program ⟨t.code 0, rfl⟩ hargs t rfl

/-- The program for a tree runs to an end, not at a label without a place, and calls the candidate
    that the tree selects, or none if it selects none. So does every execution of as many
    instructions as there are. The subtyping at the run need not be the one the tree was grown with,
    nor follow any law. -/
theorem Tree.run_program (s : Subtyping T) (t : Tree g) (args : List T)
    (len : args.length = g.arity) :
    (∃ visited ending, t.program.Run s args 0 none visited ending ∧
      (∀ id, ending ≠ .unmarked id) ∧
      ending.called? = (⟨g, t⟩ : Dispatch T).resolve? s args) ∧
    t.program.run? s args = (⟨g, t⟩ : Dispatch T).resolve? s args := by
  obtain ⟨visited, ending, hrun, horderly, hcalled, _⟩ := t.dispatches_program s args len
  refine ⟨⟨visited, ending, hrun, horderly.marked, hcalled⟩, ?_⟩
  exact (hrun.runFrom_eq _ horderly.bounded).trans hcalled

/-- A tree grown for a ladder, run where every type is below every other. -/
theorem Tree.run_program_ladder :
    let g : Group (Fin 3) := .ofPairs (1, 0) [(0, 1), (0, 0)]
    let flat : Subtyping (Fin 3) := ⟨fun _ _ => .yes, 0⟩
    ∃ t, (g.prepare .ladder .default).run.value = .ok t ∧
      t.program.run? flat [2, 1] = (⟨g, t⟩ : Dispatch (Fin 3)).resolve? flat [2, 1] := by
  intro g flat
  refine ⟨_, Group.value_prepare .default (Group.variadicFree_ofPairs (1, 0) _), ?_⟩
  exact (Tree.run_program flat _ [2, 1] rfl).2

end

end MultipleDispatch
