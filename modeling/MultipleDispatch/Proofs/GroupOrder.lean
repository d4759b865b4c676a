import Mathlib.Order.Bounds.Basic
import MultipleDispatch.Proofs.Choice
import MultipleDispatch.Proofs.Claiming
import MultipleDispatch.Proofs.Paths
import MultipleDispatch.Proofs.Separation

/-!
The order of the candidates at a node. Reduction lists the classes in the order of their first
members, but puts the most specific member of a class in place of the first. So the candidates need
not stand in group order: a class whose most specific member was declared late takes the place of a
member that was declared early. What stands in group order are the first members. Carried down the
tree (`Led`), the first member behind a candidate is the first candidate of the whole group that
passes the tests on the way to the node and declares the same types wherever nothing was tested.
-/

namespace MultipleDispatch

variable {T : Type} [BEq T] {s : Subtyping T} {g : Group T}

namespace Group

variable {tested : IndexSet} {cs : List (Fin g.size)}

/-! ### First members -/

/-- Candidate `c` accepts the type of every test. -/
def Accepts (s : Subtyping T) (g : Group T) (tests : List (Fin g.arity × T)) (c : Fin g.size) :
    Prop :=
  ∀ e ∈ tests, s.fits e.2 (g.type c e.1) = true

/-- The candidates that pass all tests and declare what `c` does wherever nothing is tested. -/
def peers (s : Subtyping T) (g : Group T) (tests : List (Fin g.arity × T)) (tested : IndexSet)
    (c : Fin g.size) : Set (Fin g.size) :=
  {d | g.Accepts s tests d ∧ g.agree tested d c = true}

/-- The candidates `cs` stand in the order of `lead`, which gives for each of them a candidate that
    passes the tests and agrees with it. -/
structure Led (s : Subtyping T) (g : Group T) (tests : List (Fin g.arity × T)) (tested : IndexSet)
    (cs : List (Fin g.size)) (lead : Fin g.size → Fin g.size) : Prop where
  within : tested.Within g.arity
  increasing : cs.Pairwise fun c d => lead c < lead d
  accepts : ∀ c ∈ cs, g.Accepts s tests (lead c)
  agree : ∀ c ∈ cs, g.agree tested (lead c) c = true
  /-- Whoever passes the tests agrees with one of them and comes no earlier than its lead. -/
  first : ∀ d, g.Accepts s tests d → ∃ c ∈ cs, g.agree tested c d = true ∧ lead c ≤ d

variable {tests : List (Fin g.arity × T)} {lead : Fin g.size → Fin g.size}

/-- At the root every candidate leads itself. -/
theorem led_ids [ReflBEq T] (s : Subtyping T) (g : Group T) : g.Led s [] .empty g.ids id where
  within := IndexSet.within_empty g.arity
  increasing := List.pairwise_lt_finRange g.size
  accepts := fun _ _ e he => by cases he
  agree := fun c _ => agree_refl g .empty c
  first := fun d _ => ⟨d, List.mem_finRange d, agree_refl g .empty d, le_refl d⟩

namespace Led

variable [LawfulBEq T]

/-- Whoever leads a candidate goes down the same edge. -/
theorem accepting (h : g.Led s tests tested cs lead) {i : Fin g.arity}
    (hi : tested.contains i = false) (t : T) :
    g.Led s (tests ++ [(i, t)]) (tested.insert i) (g.accepting s i t cs) lead := by
  refine ⟨h.within.insert i.isLt, h.increasing.sublist List.filter_sublist, ?_, ?_, ?_⟩
  · intro c hc e he
    obtain ⟨hccs, hct⟩ := mem_accepting.1 hc
    rcases List.mem_append.1 he with he | he
    · exact h.accepts c hccs e he
    · rw [List.mem_singleton.1 he, agree_eq_true.1 (h.agree c hccs) i hi]
      exact hct
  · exact fun c hc => agree_insert (h.agree c (mem_accepting.1 hc).1)
  · intro d hd
    obtain ⟨c, hc, hagree, hle⟩ := h.first d fun e he => hd e (List.mem_append_left _ he)
    refine ⟨c, mem_accepting.2 ⟨hc, ?_⟩, agree_insert hagree, hle⟩
    rw [agree_eq_true.1 hagree i hi]
    exact hd (i, t) (List.mem_append_right _ List.mem_cons_self)

/-- A class is led by whoever leads its first member. -/
theorem representatives (h : g.Led s tests tested cs lead) :
    ∃ lead', g.Led s tests tested (g.representatives s tested cs).value lead' := by
  let lead' : Fin g.size → Fin g.size := fun c =>
    ((cs.find? fun d => g.agree tested d c).map lead).getD c
  have hlead : ∀ k ∈ classify (g.agree tested) cs, lead' (g.mostSpecific s k) = lead k.first :=
    fun k hk => by
      simp [lead', find?_eq_first (agree_refl g tested) agree_symm agree_trans hk
        (mostSpecific_mem s g k)]
  have hfirst : ∀ k ∈ classify (g.agree tested) cs, k.first ∈ cs :=
    fun k hk => mem_of_mem_classify hk List.mem_cons_self
  have hrep : ∀ k ∈ classify (g.agree tested) cs,
      g.agree tested k.first (g.mostSpecific s k) = true :=
    fun k hk => same_first_of_mem (agree_refl g tested) hk (mostSpecific_mem s g k)
  rw [value_representatives]
  refine ⟨lead', h.within, ?_, ?_, ?_, ?_⟩
  · have hsub := h.increasing.sublist (map_first_sublist (g.agree tested) cs)
    rw [List.pairwise_map] at hsub ⊢
    refine hsub.imp_of_mem fun {k l} hk hl hlt => ?_
    rw [hlead k hk, hlead l hl]
    exact hlt
  · rw [List.forall_mem_map]
    intro k hk
    rw [hlead k hk]
    exact h.accepts k.first (hfirst k hk)
  · rw [List.forall_mem_map]
    intro k hk
    rw [hlead k hk]
    exact agree_trans (h.agree k.first (hfirst k hk)) (hrep k hk)
  · intro d hd
    obtain ⟨c, hc, hcd, hle⟩ := h.first d hd
    obtain ⟨k, hk, hck⟩ := exists_class_of_mem (g.agree tested) hc
    have hkc : g.agree tested k.first c = true := same_first_of_mem (agree_refl g tested) hk hck
    refine ⟨_, List.mem_map_of_mem hk, ?_, ?_⟩
    · exact agree_trans (agree_symm (hrep k hk)) (agree_trans hkc hcd)
    · rw [hlead k hk]
      refine le_trans ?_ hle
      -- The members of a class stand in the order of the list, its first member in front.
      have hordered := h.increasing.sublist (members_sublist (g.agree tested) cs k hk)
      rcases Class.mem_members.1 hck with rfl | hother
      · exact le_refl _
      · exact le_of_lt ((List.pairwise_cons.1 hordered).1 c hother)

/-- Where no two of the candidates agree, each is led by the first of the group that passes the tests
    and agrees with it. -/
theorem isLeast (h : g.Led s tests tested cs lead)
    (apart : cs.Pairwise fun c d => g.agree tested c d = false) {c : Fin g.size} (hc : c ∈ cs) :
    IsLeast (g.peers s tests tested c) (lead c) := by
  refine ⟨⟨h.accepts c hc, h.agree c hc⟩, ?_⟩
  rintro d ⟨hd, hdc⟩
  obtain ⟨c', hc', hcd, hle⟩ := h.first d hd
  obtain rfl : c' = c := eq_of_agree_of_pairwise apart hc' hc (agree_trans hcd hdc)
  exact hle

end Led

/-! ### Declared from the most specific on -/

/-- If no candidate dominates an earlier one, every class is represented by its first member. -/
theorem pairwise_lt_representatives (hdeclared : ∀ c d : Fin g.size, c < d →
    g.dominates s d c = false) (h : cs.Pairwise (· < ·)) :
    (g.representatives s tested cs).value.Pairwise (· < ·) := by
  have hfirst : ∀ k ∈ classify (g.agree tested) cs, g.mostSpecific s k = k.first := by
    intro k hk
    have hmembers := h.sublist (members_sublist (g.agree tested) cs k hk)
    exact foldl_prefer_eq_self fun d hd _ =>
      hdeclared k.first d ((List.pairwise_cons.1 hmembers).1 d hd)
  rw [value_representatives, List.map_congr_left hfirst]
  exact h.sublist (map_first_sublist (g.agree tested) cs)

theorem pairwise_lt_of_tree (hdeclared : ∀ c d : Fin g.size, c < d → g.dominates s d c = false)
    (policy : Policy) :
    ∀ u, (g.tree s policy).value.Contains u → u.candidates.Pairwise (· < ·) := by
  refine forall_subtrees s policy g (fun _ cs => cs.Pairwise (· < ·)) ?root ?edge ?stop ?fork
  case root => exact List.pairwise_lt_finRange g.size
  case edge =>
    intro tested cs i before t after _ h _ _
    rw [passing, value_reduce]
    split
    · exact pairwise_single _ s _
    · refine pairwise_lt_representatives hdeclared ?_
      exact (h.sublist List.filter_sublist).sublist List.filter_sublist
  case stop => exact fun _ cs _ _ => pairwise_single _ s cs
  case fork => exact fun _ _ _ _ h _ _ _ => h

/-! ### Every node -/

/-- The root has all candidates, or the one chosen from them if there is nothing to test. -/
theorem candidates_tree (s : Subtyping T) (policy : Policy) (g : Group T) :
    (g.tree s policy).value.candidates = g.ids ∨ g.untested .empty = [] ∧
      (g.tree s policy).value.candidates = (g.single s g.ids).value := by
  rcases grow_cases s policy g g.ids 0 (IndexSet.within_empty _) rfl with
    ⟨hstop, heq⟩ | ⟨k, i, _, _, _, heq⟩
  · rw [tree, heq]
    rcases hstop with hu | hone
    · exact Or.inr ⟨hu, rfl⟩
    · exact Or.inl (value_single_of_length_le hone)
  · rw [tree, heq]
    exact Or.inl rfl

theorem candidates_root {policy : Policy} {n : Node g}
    (hn : (g.tree s policy).value.nodes[0]? = some n) :
    n.tested = .empty ∧ n.candidates = (g.tree s policy).value.candidates := by
  refine ⟨(g.formsTree_tree s policy).tested_root hn, ?_⟩
  rw [(g.tree s policy).value.listed_nodes.getElem?] at hn
  cases hn
  rfl

variable [LawfulBEq T] {policy : Policy} {n : Node g}

/-- At every node of a grown tree the candidates have leads in group order. -/
theorem exists_led_of_tree (trans : s.Transitive) (anti : s.Antisymmetric) (id : Nat)
    (hn : (g.tree s policy).value.nodes[id]? = some n) :
    ∃ lead, g.Led s ((g.tree s policy).value.testsTo id) n.tested n.candidates lead := by
  have hforms := g.formsTree_tree s policy
  induction id using Nat.strongRecOn generalizing n with
  | ind id ih =>
    rcases eq_or_ne id 0 with rfl | hid
    · obtain ⟨htested, hroot⟩ := candidates_root hn
      rw [htested, hroot, Tree.testsTo, hforms.testsIn_zero]
      rcases candidates_tree s policy g with hids | ⟨hu, hsingle⟩
      · rw [hids]
        exact ⟨_, led_ids s g⟩
      · rw [hsingle, value_single_eq_representatives hu]
        exact (led_ids s g).representatives
    · obtain ⟨above, a, b, t, hlt, habove, hb, hk, htests⟩ := hforms.exists_testsIn_eq hn hid
      obtain ⟨lead, hled⟩ := ih above hlt habove
      obtain ⟨htested, hcandidates⟩ := candidates_of_entry trans anti habove hb hk hn
      have huntested := (hforms.fork above a b habove hb).2.1
      rw [Tree.testsTo, htests, hcandidates, htested]
      exact (hled.accepting huntested t).representatives

/-! ### The order at a node -/

/-- Where subtyping is a partial order, the candidates at the root stand in group order. Those at any
    other node stand in the order of the first candidates of the group that pass the tests on the
    way and declare the same types wherever nothing was tested. If no candidate dominates an earlier
    one, the candidates at every node stand in group order. -/
theorem ordered_by_first_peers [ToString T] (trans : s.Transitive) (anti : s.Antisymmetric)
    {t : Tree g} (h : (g.prepare s policy).run.value = .ok t) :
    ∀ (id : Nat) (n : Node g), t.nodes[id]? = some n →
      (id = 0 → n.candidates.Pairwise (· < ·)) ∧
      (id ≠ 0 → n.candidates.Pairwise fun c d =>
        ∃ e f, IsLeast (g.peers s (t.testsTo id) n.tested c) e ∧
          IsLeast (g.peers s (t.testsTo id) n.tested d) f ∧ e < f) ∧
      ((∀ c d : Fin g.size, c < d → g.dominates s d c = false) →
        n.candidates.Pairwise (· < ·)) := by
  have hforms := g.formsTree_tree s policy
  obtain rfl := eq_tree_of_prepare h
  intro id n hn
  refine ⟨?_, fun hid => ?_, fun hdeclared => ?_⟩
  · rintro rfl
    rw [(candidates_root hn).2]
    rcases candidates_tree s policy g with hids | ⟨_, hsingle⟩
    · rw [hids]
      exact List.pairwise_lt_finRange g.size
    · rw [hsingle]
      exact pairwise_single _ s _
  · obtain ⟨lead, hled⟩ := exists_led_of_tree trans anti id hn
    have hapart := pairwise_below_root hn (hforms.tested_ne_empty hn hid)
    refine hled.increasing.imp_of_mem fun {c d} hc hd hlt => ?_
    exact ⟨lead c, lead d, hled.isLeast hapart hc, hled.isLeast hapart hd, hlt⟩
  · obtain ⟨u, parent, edge, hu, _, rfl⟩ := Tree.exists_of_getElem? hn
    exact pairwise_lt_of_tree hdeclared policy u hu

/-- The first candidate agrees with the third behind the edge for 0, and the third, which represents
    both, comes before the second. Where the third is declared first, all nodes are in group order. -/
theorem ordered_by_first_peers_ladder :
    (let g : Group (Fin 3) := ofPairs (1, 0) [(1, 1), (0, 0)]
      ∃ t, (g.prepare .ladder .default).run.value = .ok t ∧ ∃ n, t.nodes[1]? = some n ∧
        t.testsTo 1 = [(⟨0, by decide⟩, 0)] ∧ n.candidates = [⟨2, by decide⟩, ⟨1, by decide⟩] ∧
        n.candidates.Pairwise fun c d =>
          ∃ e f, IsLeast (g.peers .ladder (t.testsTo 1) n.tested c) e ∧
            IsLeast (g.peers .ladder (t.testsTo 1) n.tested d) f ∧ e < f) ∧
    let g : Group (Fin 3) := ofPairs (0, 0) [(1, 0), (1, 1)]
    ∃ t, (g.prepare .ladder .default).run.value = .ok t ∧ t.nodes.length = 7 ∧
      ∀ (id : Nat) (n : Node g), t.nodes[id]? = some n → n.candidates.Pairwise (· < ·) := by
  constructor
  · intro g
    have hprep := value_prepare (s := .ladder) .default
      (variadicFree_ofPairs (1, 0) [(1, 1), (0, 0)])
    have hordered := ordered_by_first_peers Subtyping.transitive_ladder
      Subtyping.antisymmetric_ladder hprep
    exact ⟨_, hprep, _, rfl, by decide, by decide, (hordered 1 _ rfl).2.1 Nat.one_ne_zero⟩
  · intro g
    have hprep := value_prepare (s := .ladder) .default
      (variadicFree_ofPairs (0, 0) [(1, 0), (1, 1)])
    have hordered := ordered_by_first_peers Subtyping.transitive_ladder
      Subtyping.antisymmetric_ladder hprep
    exact ⟨_, hprep, by decide, fun id n hn => (hordered id n hn).2.2 (by decide)⟩

/-- The same node shows that candidates need not stand in group order. -/
theorem out_of_group_order :
    let g : Group (Fin 3) := ofPairs (1, 0) [(1, 1), (0, 0)]
    Subtyping.ladder.Transitive ∧ Subtyping.ladder.Antisymmetric ∧ g.VariadicFree ∧
      ∃ t, (g.prepare .ladder .default).run.value = .ok t ∧
        ∃ n, t.nodes[1]? = some n ∧ n.candidates = [⟨2, by decide⟩, ⟨1, by decide⟩] ∧
          ¬n.candidates.Pairwise (· < ·) := by
  intro g
  have hv := variadicFree_ofPairs (T := Fin 3) (1, 0) [(1, 1), (0, 0)]
  have hprep := value_prepare (s := .ladder) .default hv
  exact ⟨Subtyping.transitive_ladder, Subtyping.antisymmetric_ladder, hv, _, hprep, _, rfl,
    by decide, by decide⟩

end Group

end MultipleDispatch
