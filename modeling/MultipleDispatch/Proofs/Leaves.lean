import MultipleDispatch.Proofs.Paths
import MultipleDispatch.Proofs.Termination

/-!
Every way down a tree ends at a candidate. An edge is there for the type of some candidate, which no
edge before it has claimed, as no two edges have the same type; and reduction leaves something of
whatever it is given. So some candidate goes down every edge, and one is left wherever a tree stops.
The code follows the same ways (`Leads`): it ends in a call at every stop, and goes without a match
only where all tests of a fork have failed.
-/

namespace MultipleDispatch

/-! ### Some candidate is left -/

namespace Group

variable {T : Type} [BEq T] {s : Subtyping T} {g : Group T} {tested : IndexSet}
  {cs : List (Fin g.size)}

theorem single_ne_nil (h : cs ≠ []) : (g.single s cs).value ≠ [] := by
  cases cs with
  | nil => exact absurd rfl h
  | cons c cs => simp

theorem representatives_ne_nil (h : cs ≠ []) : (g.representatives s tested cs).value ≠ [] := by
  cases cs with
  | nil => exact absurd rfl h
  | cons c cs => simp [classify_cons]

theorem reduce_ne_nil (h : cs ≠ []) : (g.reduce s tested cs).value ≠ [] := by
  rw [value_reduce]
  split
  · exact single_ne_nil (representatives_ne_nil h)
  · exact representatives_ne_nil h

/-- A candidate whose type is tested for goes down the edge of that type, whatever the order of the
    types: no other edge claims it. -/
theorem passing_ne_nil [LawfulBEq T] {i : Fin g.arity} {before after : List T} {t : T}
    (htypes : g.testedTypes s cs i = before ++ t :: after) :
    g.passing s i tested before t cs ≠ [] := by
  have hmem : t ∈ g.testedTypes s cs i := by simp [htypes]
  obtain ⟨c, hc, rfl⟩ := mem_testedTypes.1 hmem
  have hfree : g.type c i ∉ before := by
    have hnodup := nodup_testedTypes s g cs i
    rw [htypes, List.nodup_append] at hnodup
    exact fun hbefore => hnodup.2.2 _ hbefore _ List.mem_cons_self rfl
  have haccepts : c ∈ g.accepting s i (g.type c i) (g.unclaimedBy i before cs) :=
    mem_accepting.2 ⟨mem_unclaimedBy.2 ⟨hc, hfree⟩, s.fits_refl _⟩
  exact reduce_ne_nil (List.ne_nil_of_mem haccepts)

theorem ids_ne_nil {T : Type} (g : Group T) : g.ids ≠ [] := by
  rw [ids, Ne, List.finRange_eq_nil_iff, size, List.length_eq_zero_iff]
  exact g.nonempty

/-- Some candidate is left at every node. -/
theorem candidates_ne_nil [LawfulBEq T] (s : Subtyping T) (policy : Policy) (g : Group T) :
    ∀ u, (g.tree s policy).value.Contains u → u.candidates ≠ [] := by
  refine forall_subtrees s policy g (fun _ cs => cs ≠ []) g.ids_ne_nil ?edge ?stop ?fork
  case edge =>
    intro tested cs i before t after _ _ _ htypes
    exact passing_ne_nil htypes
  case stop => exact fun _ _ hne _ => single_ne_nil hne
  case fork => exact fun _ _ _ _ hne _ _ _ => hne

end Group

variable {T : Type} {g : Group T}

/-! ### Ways through the code -/

/-- The code of a program leads to the place `pc` if just the tests in `tests` are passed on the
    way, in this order. -/
inductive Program.Leads (g : Group T) (p : Program T) : List (Fin g.arity × T) → Nat → Prop where
  | start : Leads g p [] 0
  | pass {tests : List (Fin g.arity × T)} {pc : Nat} {i : Fin g.arity} {t : T} {id : Nat}
      (way : Leads g p tests pc) (test : p.instructions[pc]? = some (.test i t id)) :
      Leads g p (tests ++ [(i, t)]) (pc + 1)
  /-- A test that is failed leads behind the mark of its label. -/
  | fail {tests : List (Fin g.arity × T)} {pc pos i : Nat} {t : T} {id : Nat}
      (way : Leads g p tests pc) (test : p.instructions[pc]? = some (.test i t id))
      (mark : p.position? id = some pos) : Leads g p tests (pos + 1)

/-- From `pc` on all arguments are cast to the types that `c` declares, `c` is called and the
    program returns. -/
def Program.CallsAt (p : Program T) (pc : Nat) (c : Fin g.size) : Prop :=
  ∃ rest, p.instructions.drop pc = (g.signature c).zipIdx.map (fun (t, i) => .downcast i t) ++
    .call (g.candidate c) :: .ret :: rest

variable {p : Program T} {nodes : List (Node g)} {tests : List (Fin g.arity × T)}

theorem Tree.callsAt_of_code {c : Fin g.size} {cs : List (Fin g.size)} {tested : IndexSet}
    {id pc : Nat} {rest : List (Instruction T)}
    (h : p.instructions.drop pc = (Tree.stop (c :: cs) tested).code id ++ rest) :
    p.CallsAt pc c := by
  rw [Tree.code_stop_cons, Group.callCode, List.append_assoc] at h
  exact ⟨rest, h⟩

/-- Where the code of an edge starts, there is its test, then the code of the child, and behind the
    mark of its label the code of the other edges. -/
theorem Edges.code_parts (linked : p.Linked) {index id pc : Nat} {t : T} {child : Tree g}
    {more : Edges g} {rest : List (Instruction T)}
    (h : p.instructions.drop pc = (Edges.cons t child more).code index id ++ rest) :
    p.instructions[pc]? = some (.test index t id) ∧
      (∃ rest', p.instructions.drop (pc + 1) = child.code id ++ rest') ∧
      ∃ pos, p.position? id = some pos ∧
        p.instructions.drop (pos + 1) = more.code index (id + child.size) ++ rest := by
  rw [Edges.code_cons, List.cons_append, List.append_assoc, List.cons_append] at h
  have hchild := Program.drop_succ h
  have hmark := Program.drop_add hchild
  exact ⟨Program.getElem?_of_drop h, ⟨_, hchild⟩, _, linked _ _ _ hmark, Program.drop_succ hmark⟩

/-- From the first test of a fork on there is a way to each of its children: the tests before that
    of the child are failed and its own is passed. -/
theorem Edges.Listed.exists_leads (linked : p.Linked) {above : Nat} {i : Fin g.arity} {t : T}
    {k : Nat} : ∀ {edges : Edges g} {id pc : Nat} {rest : List (Instruction T)},
      edges.Listed nodes id above → p.Leads g tests pc →
        p.instructions.drop pc = edges.code i id ++ rest → (t, k) ∈ edges.numbered id →
          ∃ (child : Tree g) (pc' : Nat) (rest' : List (Instruction T)),
            child.Listed nodes k (some above) (some t) ∧ p.Leads g (tests ++ [(i, t)]) pc' ∧
              p.instructions.drop pc' = child.code k ++ rest'
  | .nil, _, _, _, _, _, _, hk => by simp [Edges.numbered] at hk
  | .cons u child more, id, pc, rest, hlist, way, hcode, hk => by
    obtain ⟨htest, ⟨rest', hchild⟩, pos, hmark, hmore⟩ := Edges.code_parts linked hcode
    rw [Edges.numbered, List.mem_cons, Prod.mk.injEq] at hk
    rcases hk with ⟨rfl, rfl⟩ | hk
    · exact ⟨child, pc + 1, rest', hlist.head, way.pass htest, hchild⟩
    · exact hlist.tail.exists_leads linked (way.fail htest hmark) hmore hk

/-- There is a way to the code of every node, by the tests on the way to the node. -/
theorem Tree.exists_leads {t : Tree g} (hforms : FormsTree t.nodes) (id : Nat) {n : Node g}
    (hn : t.nodes[id]? = some n) : ∃ (u : Tree g) (parent : Option Nat) (edge : Option T) (pc : Nat)
      (rest : List (Instruction T)), u.Listed t.nodes id parent edge ∧
        t.program.Leads g (t.testsTo id) pc ∧
          t.program.instructions.drop pc = u.code id ++ rest := by
  induction id using Nat.strongRecOn generalizing n with
  | ind id ih =>
    rcases eq_or_ne id 0 with rfl | hid
    · rw [testsTo, hforms.testsIn_zero]
      exact ⟨t, none, none, 0, _, t.listed_nodes, .start, t.instructions_program⟩
    · -- The way to the parent comes to its first test, and from there to the child.
      obtain ⟨above, a, b, e, hlt, habove, hb, hmem, htests⟩ := hforms.exists_testsIn_eq hn hid
      obtain ⟨u, parent, edge, pc, rest, hlist, way, hcode⟩ := ih above hlt habove
      rw [hlist.getElem?] at habove
      cases habove
      cases u with
      | stop cs tested => cases hb
      | fork cs tested i edges =>
        cases hb
        rw [Tree.code_fork, List.append_assoc] at hcode
        obtain ⟨child, pc', rest', hchild, way', hcode'⟩ :=
          hlist.edges.exists_leads t.linked_program way hcode hmem
        rw [testsTo, htests]
        exact ⟨child, _, _, pc', rest', hchild, way', hcode'⟩

/-! ### No other ways -/

/-- The code from `pc` on is what is left to do at node `id`: a call, or the tests of a fork that
    were not made so far. -/
inductive Program.Inside (nodes : List (Node g)) (p : Program T) (id pc : Nat) : Prop where
  | stop {cs : List (Fin g.size)} {tested : IndexSet} {parent : Option Nat} {edge : Option T}
      {rest : List (Instruction T)} (listed : (Tree.stop cs tested).Listed nodes id parent edge)
      (code : p.instructions.drop pc = (Tree.stop cs tested).code id ++ rest)
  | fork {n : Node g} {b : Branch g} {edges : Edges g} {k : Nat} {rest : List (Instruction T)}
      (node : nodes[id]? = some n) (branch : n.branch = some b) (listed : edges.Listed nodes k id)
      (code : p.instructions.drop pc = edges.code b.index k ++ .jump Emission.noMatch :: rest)

theorem Tree.Listed.inside {u : Tree g} {id pc : Nat} {parent : Option Nat} {edge : Option T}
    {rest : List (Instruction T)} (hlist : u.Listed nodes id parent edge)
    (hcode : p.instructions.drop pc = u.code id ++ rest) : p.Inside nodes id pc := by
  cases u with
  | stop cs tested => exact .stop hlist hcode
  | fork cs tested i edges =>
    rw [Tree.code_fork, List.append_assoc] at hcode
    exact .fork hlist.getElem? rfl hlist.edges hcode

theorem Tree.head?_code_stop_ne {cs : List (Fin g.size)} {tested : IndexSet} {id i k : Nat} {t : T}
    {rest : List (Instruction T)} :
    ((Tree.stop cs tested).code id ++ rest).head? ≠ some (.test i t k) := by
  cases cs with
  | nil => simp [Tree.code, Tree.emit, Emission.instruction?]
  | cons c cs =>
    rw [Tree.code_stop_cons, Group.callCode]
    cases g.signature c with
    | nil => simp
    | cons u types => simp

/-- A test that is left to do at a node is the test for one of its children. If it is passed, all is
    left to do at the child, otherwise what comes after it. -/
theorem Program.Inside.test_cases (linked : p.Linked) {id pc i k : Nat} {t : T}
    (h : p.Inside nodes id pc) (htest : p.instructions[pc]? = some (.test i t k)) :
    ∃ n b, nodes[id]? = some n ∧ n.branch = some b ∧ i = b.index ∧
      (∃ m, nodes[k]? = some m ∧ m.parent = some id ∧ m.edge = some t) ∧
      p.Inside nodes k (pc + 1) ∧
      ∃ pos, p.position? k = some pos ∧ p.Inside nodes id (pos + 1) := by
  cases h with
  | stop hlist hcode =>
    rw [← List.head?_drop, hcode] at htest
    exact absurd htest Tree.head?_code_stop_ne
  | @fork n b edges k' rest hn hb hlist hcode =>
    cases edges with
    | nil =>
      rw [getElem?_of_drop hcode] at htest
      cases htest
    | cons u child more =>
      obtain ⟨htest', ⟨rest', hchild⟩, pos, hmark, hmore⟩ := Edges.code_parts linked hcode
      rw [htest'] at htest
      cases htest
      exact ⟨n, b, hn, hb, rfl, ⟨_, hlist.head.getElem?, rfl, rfl⟩, hlist.head.inside hchild, pos,
        hmark, .fork hn hb hlist.tail hmore⟩

/-- Every way through the code is a way to a node: the tests that are passed are those on the way to
    the node. -/
theorem Program.Leads.exists_inside {t : Tree g} (hforms : FormsTree t.nodes) {pc : Nat}
    (h : t.program.Leads g tests pc) :
    ∃ id, t.testsTo id = tests ∧ t.program.Inside t.nodes id pc := by
  induction h with
  | start => exact ⟨0, hforms.testsIn_zero, t.listed_nodes.inside t.instructions_program⟩
  | @pass tests pc i e k way htest ih =>
    obtain ⟨id, rfl, hinside⟩ := ih
    obtain ⟨n, b, hn, hb, hi, ⟨m, hm, hparent, hedge⟩, hchild, _⟩ :=
      hinside.test_cases t.linked_program htest
    refine ⟨k, ?_, hchild⟩
    rw [Tree.testsTo, hforms.testsIn_eq hm hparent hedge hn hb, Fin.ext hi]
    rfl
  | @fail tests pc pos i e k way htest hmark ih =>
    obtain ⟨id, rfl, hinside⟩ := ih
    obtain ⟨_, _, _, _, _, _, _, pos', hmark', hmore⟩ := hinside.test_cases t.linked_program htest
    rw [hmark] at hmark'
    cases hmark'
    exact ⟨id, rfl, hmore⟩

/-! ### Calls without a match -/

/-- The entries of a fork are tested like its edges. -/
theorem Edges.find?_eq_none {edges : Edges g} {q : T → Bool} (id : Nat) :
    edges.toList.find? (fun e => q e.1) = none ↔ ∀ e ∈ edges.numbered id, q e.1 = false := by
  have hfst : (∀ t ∈ (edges.numbered id).map Prod.fst, q t = false) ↔
      ∀ t ∈ edges.toList.map Prod.fst, q t = false := by
    rw [Edges.map_fst_numbered]
  simpa only [List.forall_mem_map, List.find?_eq_none, Bool.not_eq_true] using hfst.symm

section

variable [BEq T] {s : Subtyping T} {t : Tree g} {args : List T}

/-- A call with `args` comes to a fork where its argument fits none of the types tested for. -/
def Tree.Misses (s : Subtyping T) (t : Tree g) (args : List T) : Prop :=
  ∃ id n b arg, t.Passes s args id ∧ t.nodes[id]? = some n ∧ n.branch = some b ∧
    args[b.index.val]? = some arg ∧ ∀ e ∈ b.children, s.fits arg e.1 = false

theorem Tree.Misses.resolve?_eq_none (h : t.Misses s args) : t.resolve? s args = none := by
  by_cases len : args.length = g.arity
  · obtain ⟨view, rfl⟩ := exists_view len
    obtain ⟨id, n, b, arg, hpass, hn, hb, harg, hnone⟩ := h
    obtain ⟨u, parent, edge, hreach, hlist⟩ := hpass.exists_reaches
    rw [hlist.getElem?] at hn
    cases hn
    cases u with
    | stop cs tested => cases hb
    | fork cs tested i edges =>
      cases hb
      obtain rfl : view i = arg := by simpa using harg
      rw [Tree.resolve?_ofFn, Tree.walk_of_reaches hreach, Tree.walk, Edges.walk_eq_find,
        (Edges.find?_eq_none _).2 hnone]
      rfl
  · exact dif_neg len

/-- Where every stop has a candidate, only a miss is not resolved. -/
theorem Tree.misses_of_resolve?_eq_none (hne : ∀ n ∈ t.nodes, n.candidates ≠ [])
    (len : args.length = g.arity) (h : t.resolve? s args = none) : t.Misses s args := by
  obtain ⟨view, rfl⟩ := exists_view len
  obtain ⟨u, hreach, hend⟩ := t.exists_end s view
  obtain ⟨id, parent, edge, hpass, hlist⟩ := hreach.exists_passes
  cases u with
  | stop cs tested =>
    rw [resolve?_ofFn, walk_of_reaches hreach] at h
    exact absurd (List.head?_eq_none_iff.1 h) (hne _ (List.mem_of_getElem? hlist.getElem?))
  | fork cs tested i edges =>
    refine ⟨id, _, _, view i, hpass, hlist.getElem?, rfl, by simp, ?_⟩
    refine (Edges.find?_eq_none _).1 ?_
    cases hfind : edges.toList.find? fun e => s.fits (view i) e.1 with
    | none => rfl
    | some e => exact absurd (.edge hfind) (hend e.2)

/-! ### Trees that end in calls -/

/-- Every way down the tree and through its code ends in a call, unless all tests of a fork fail. -/
structure Tree.EndsInCalls (t : Tree g) : Prop where
  /-- A node that tests nothing has one candidate. -/
  stop : ∀ n ∈ t.nodes, n.branch = none → ∃ c, n.candidates = [c]
  nonempty : ∀ n ∈ t.nodes, n.isEmpty = false
  /-- By the tests on the way to such a node the code leads to the call of its candidate. -/
  called : ∀ (id : Nat) (n : Node g) (c : Fin g.size), t.nodes[id]? = some n → n.branch = none →
    n.candidates = [c] → ∃ pc, t.program.Leads g (t.testsTo id) pc ∧ t.program.CallsAt pc c
  /-- Whichever tests are passed, they are those on the way to some node. The code goes on with a
      test, or calls the candidate of a node that tests nothing. Only at a fork, where no test is
      left, it goes on to the end for calls without a match. -/
  ways : ∀ (tests : List (Fin g.arity × T)) (pc : Nat), t.program.Leads g tests pc →
    ∃ id n, t.nodes[id]? = some n ∧ t.testsTo id = tests ∧
      ((∃ i type k, t.program.instructions[pc]? = some (.test i type k)) ∨
        (∃ c, n.branch = none ∧ n.candidates = [c] ∧ t.program.CallsAt pc c) ∨
        n.branch.isSome = true ∧
          t.program.instructions[pc]? = some (.jump Emission.noMatch))
  /-- A call with the right number of arguments that is not resolved misses. -/
  missed : ∀ (s : Subtyping T) (args : List T),
    t.resolve? s args = none ↔ args.length ≠ g.arity ∨ t.Misses s args

/-- It is enough that some candidate is left at every node. -/
theorem Tree.endsInCalls_of_ne_nil (hforms : FormsTree t.nodes)
    (hne : ∀ n ∈ t.nodes, n.candidates ≠ []) : t.EndsInCalls := by
  have hone : ∀ n ∈ t.nodes, n.branch = none → ∃ c, n.candidates = [c] := fun n hn hb =>
    List.length_eq_one_iff.1
      (Nat.le_antisymm (hforms.stop n hn hb) (List.length_pos_of_ne_nil (hne n hn)))
  constructor
  case stop => exact hone
  case nonempty =>
    intro n hn
    simp [Node.isEmpty, hne n hn]
  case called =>
    intro id n c hn hb hc
    obtain ⟨u, parent, edge, pc, rest, hlist, way, hcode⟩ := Tree.exists_leads hforms id hn
    rw [hlist.getElem?] at hn
    cases hn
    cases u with
    | stop cs tested =>
      cases hc
      exact ⟨pc, way, callsAt_of_code hcode⟩
    | fork cs tested i edges => cases hb
  case ways =>
    intro tests pc way
    obtain ⟨id, htests, hinside⟩ := way.exists_inside hforms
    cases hinside with
    | @stop cs tested parent edge rest hlist hcode =>
      refine ⟨id, _, hlist.getElem?, htests, Or.inr (Or.inl ?_)⟩
      obtain ⟨c, hc⟩ := hone _ (List.mem_of_getElem? hlist.getElem?) rfl
      cases hc
      exact ⟨c, rfl, rfl, callsAt_of_code hcode⟩
    | @fork n b edges k rest hn hb hlist hcode =>
      refine ⟨id, n, hn, htests, ?_⟩
      cases edges with
      | nil => exact Or.inr (Or.inr ⟨by simp [hb], Program.getElem?_of_drop hcode⟩)
      | cons e child more =>
        exact Or.inl ⟨_, _, _, (Edges.code_parts t.linked_program hcode).1⟩
  case missed =>
    intro s args
    constructor
    · intro hnone
      by_cases len : args.length = g.arity
      · exact Or.inr (misses_of_resolve?_eq_none hne len hnone)
      · exact Or.inl len
    · rintro (len | hmiss)
      · exact dif_neg len
      · exact hmiss.resolve?_eq_none

end

/-- Every prepared tree ends in calls. Nothing is asked of the subtyping. -/
theorem Group.endsInCalls_prepare [BEq T] [LawfulBEq T] [ToString T] {s : Subtyping T}
    {policy : Policy} {t : Tree g} (h : (g.prepare s policy).run.value = .ok t) :
    t.EndsInCalls := by
  rw [eq_tree_of_prepare h]
  refine Tree.endsInCalls_of_ne_nil (g.formsTree_tree s policy) fun n hn => ?_
  obtain ⟨id, hid⟩ := List.getElem?_of_mem hn
  obtain ⟨u, parent, edge, hu, _, rfl⟩ := Tree.exists_of_getElem? hid
  exact candidates_ne_nil s policy g u hu

/-- So does the tree for three types below one another in a circle. A call with a fourth type, of
    which nothing is known, misses. -/
theorem Group.endsInCalls_prepare_circle :
    let circle : Subtyping (Fin 4) :=
      ⟨fun a b => if (a, b) ∈ [(0, 1), (1, 2), (2, 0)] then .yes else .unknown, 3⟩
    ∃ t, ((ofPairs (0, 1) [(1, 2), (2, 0)]).prepare circle .default).run.value = .ok t ∧
      t.nodes.length = 8 ∧ t.EndsInCalls ∧ t.Misses circle [3, 0] := by
  intro circle
  have hprep := value_prepare (s := circle) .default (variadicFree_ofPairs (0, 1) [(1, 2), (2, 0)])
  have hends := endsInCalls_prepare hprep
  have hmissed := (hends.missed circle [3, 0]).1 (by decide)
  exact ⟨_, hprep, by decide, hends, hmissed.resolve_left (by decide)⟩

end MultipleDispatch
