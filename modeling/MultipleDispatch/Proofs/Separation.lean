import MultipleDispatch.Proofs.Selection
import MultipleDispatch.Proofs.Shape

/-!
No test is wasted. Reduction keeps one candidate of each class that agrees on what is untested, so
any two candidates that are left below the root differ at a parameter that can still be tested. Both
policies pick a parameter that tells candidates apart if there is one: where there are several
classes, there are more of them, and the largest is smaller, than where all are in one. So every
fork has two children at least, except at a root whose candidates all declare the same types.
-/

namespace MultipleDispatch

/-! ### One class or several -/

section

variable {α : Type} {same : α → α → Bool} {xs : List α} {cs : List (Class α)}

theorem largest_le_iff {n : Nat} : largest cs ≤ n ↔ ∀ c ∈ cs, c.size ≤ n := by
  rw [largest, List.foldl_max, Nat.zero_max]
  cases hmax : (cs.map Class.size).max? with
  | none =>
    rw [List.max?_eq_none_iff, List.map_eq_nil_iff] at hmax
    simp [hmax]
  | some m =>
    rw [Option.getD_some, List.max?_le_iff hmax, List.forall_mem_map]

/-- A class beside another one does not hold all elements. -/
theorem Classified.size_lt (h : Classified same xs cs) (several : 2 ≤ cs.length) :
    ∀ c ∈ cs, c.size < xs.length := by
  intro c hc
  obtain ⟨before, after, rfl⟩ := List.append_of_mem hc
  have hother : before ++ after ≠ [] := by
    intro hnil
    have hlen := congrArg List.length hnil
    simp only [List.length_append, List.length_cons, List.length_nil] at hlen several
    omega
  obtain ⟨d, hd⟩ := List.exists_mem_of_ne_nil _ hother
  have hmem : d.first ∈ (before ++ after).flatMap Class.members :=
    List.mem_flatMap.2 ⟨d, hd, List.mem_cons_self⟩
  have hpos := List.length_pos_of_mem hmem
  have hall := h.perm.length_eq
  rw [List.flatMap_append, List.length_append] at hpos hall
  rw [List.flatMap_cons, List.length_append] at hall
  rw [Class.size]
  omega

/-- The largest class holds all elements exactly if there is no other. -/
theorem Classified.largest_lt_iff (h : Classified same xs cs) (hne : xs ≠ []) :
    largest cs < xs.length ↔ 2 ≤ cs.length := by
  have hpos := List.length_pos_of_ne_nil hne
  constructor
  · intro hlt
    match cs, h with
    | [], h => exact absurd h.perm.nil_eq.symm hne
    | [c], h =>
      have hsize := largest_le_iff.1 (Nat.le_refl (largest [c])) c List.mem_cons_self
      have hall := h.perm.length_eq
      rw [List.flatMap_singleton, ← Class.size] at hall
      omega
    | _ :: _ :: _, _ => simp
  · intro several
    have hle : largest cs ≤ xs.length - 1 :=
      largest_le_iff.2 fun c hc => Nat.le_sub_one_of_lt (h.size_lt several c hc)
    omega

end

/-! ### What the policies have in common -/

namespace Policy

variable {α : Type} {policy : Policy} {as bs : List (Class α)}

/-- Several classes cost less than a single one. -/
theorem several_of_cost_le {same same' : α → α → Bool} {xs : List α} (hne : xs ≠ [])
    (ha : Classified same xs as) (hb : Classified same' xs bs) (several : 2 ≤ as.length)
    (h : policy.cost bs ≤ policy.cost as) : 2 ≤ bs.length := by
  cases policy with
  | smallestLargestBucket =>
    rw [cost, cost] at h
    have hlt := (ha.largest_lt_iff hne).2 several
    exact (hb.largest_lt_iff hne).1 (by omega)
  | greatestVariation =>
    rw [cost, cost] at h
    omega

end Policy

namespace Group

variable {T : Type} [BEq T] {s : Subtyping T} {g : Group T} {policy : Policy} {tested : IndexSet}
  {cs : List (Fin g.size)}

/-! ### The number of children -/

theorem length_testedTypes (s : Subtyping T) (g : Group T) (cs : List (Fin g.size))
    (i : Fin g.arity) : (g.testedTypes s cs i).length = (g.buckets cs i).length := by
  rw [testedTypes, (s.perm_types_arrange _).length_eq, edgeTypes, List.length_map]

/-- Candidates that declare different types are in different buckets. -/
theorem several_buckets [LawfulBEq T] {i : Fin g.arity} {c d : Fin g.size} (hc : c ∈ cs)
    (hd : d ∈ cs) (hne : g.type c i ≠ g.type d i) : 2 ≤ (g.buckets cs i).length := by
  have hsub : [g.type c i, g.type d i] ⊆ g.edgeTypes cs i := by
    intro t ht
    rcases List.mem_pair.1 ht with rfl | rfl
    · exact mem_edgeTypes.2 ⟨c, hc, rfl⟩
    · exact mem_edgeTypes.2 ⟨d, hd, rfl⟩
  have hnodup : [g.type c i, g.type d i].Nodup := by simpa using hne
  simpa [edgeTypes] using (List.subperm_of_subset hnodup hsub).length_le

theorem agree_eq_false [LawfulBEq T] {a b : Fin g.size} : g.agree tested a b = false ↔
    ∃ i : Fin g.arity, tested.contains i = false ∧ g.type a i ≠ g.type b i := by
  simp [← Bool.not_eq_true, agree_eq_true]

/-- As long as nothing is tested, only candidates with one signature agree. -/
theorem agree_empty [LawfulBEq T] {a b : Fin g.size} :
    g.agree .empty a b = true ↔ g.signature a = g.signature b := by
  rw [agree_eq_true, signature_eq_iff]
  exact ⟨fun h => funext fun i => h i rfl, fun h i _ => congrFun h i⟩

/-- If two candidates can still be told apart, the parameter that is picked tells some apart. -/
theorem Tests.several [LawfulBEq T] {i : Fin g.arity} {c d : Fin g.size}
    (h : g.Tests policy tested cs i) (hc : c ∈ cs) (hd : d ∈ cs)
    (hdiffer : g.agree tested c d = false) : 2 ≤ (g.testedTypes s cs i).length := by
  obtain ⟨j, huntested, hne⟩ := agree_eq_false.1 hdiffer
  rw [length_testedTypes]
  exact Policy.several_of_cost_le (List.ne_nil_of_mem hc) (classified_classify _ cs)
    (classified_classify _ cs) (several_buckets hc hd hne) (h.cost_le huntested)

/-- All candidates in `cs` declare the same types. -/
def Alike {T : Type} (g : Group T) (cs : List (Fin g.size)) : Prop :=
  ∀ c ∈ cs, ∀ d ∈ cs, g.signature c = g.signature d

/-- Candidates that are alike are tested for a single type. -/
theorem Alike.length_testedTypes [LawfulBEq T] (h : g.Alike cs) (hne : cs ≠ []) (i : Fin g.arity) :
    (g.testedTypes s cs i).length = 1 := by
  obtain ⟨c, hc⟩ := List.exists_mem_of_ne_nil cs hne
  have hsub : g.testedTypes s cs i ⊆ [g.type c i] := by
    intro t ht
    obtain ⟨d, hd, rfl⟩ := mem_testedTypes.1 ht
    rw [signature_eq_iff.1 (h d hd c hc)]
    exact List.mem_cons_self
  have hle := (List.subperm_of_subset (nodup_testedTypes s g cs i) hsub).length_le
  have hmem : g.type c i ∈ g.testedTypes s cs i := mem_testedTypes.2 ⟨c, hc, rfl⟩
  exact Nat.le_antisymm hle (List.length_pos_of_mem hmem)

/-! ### Candidates that can be told apart -/

/-- Representatives of different classes do not agree. -/
theorem pairwise_representatives [LawfulBEq T] (s : Subtyping T) (g : Group T) (tested : IndexSet)
    (cs : List (Fin g.size)) :
    (g.representatives s tested cs).value.Pairwise fun c d => g.agree tested c d = false := by
  rw [value_representatives, List.pairwise_map]
  refine (classified_classify _ cs).apart.imp_of_mem fun {k l} hk hl hkl => ?_
  have hfirst : ∀ k ∈ classify (g.agree tested) cs,
      g.agree tested k.first (g.mostSpecific s k) = true :=
    fun k hk => same_first_of_mem (agree_refl g tested) hk (mostSpecific_mem s g k)
  rw [← Bool.not_eq_true] at hkl ⊢
  exact fun h => hkl (agree_trans (agree_trans (hfirst k hk) h) (agree_symm (hfirst l hl)))

/-- Candidates that can be told apart agree only with themselves. -/
theorem eq_of_agree_of_pairwise [LawfulBEq T]
    (apart : cs.Pairwise fun c d => g.agree tested c d = false) {c d : Fin g.size} (hc : c ∈ cs)
    (hd : d ∈ cs) (hagree : g.agree tested c d = true) : c = d := by
  have hsymm : Std.Symm fun c d => g.agree tested c d = false := by
    refine ⟨fun a b hab => ?_⟩
    rw [← Bool.not_eq_true] at hab ⊢
    exact fun hba => hab (agree_symm hba)
  by_contra hne
  have hapart := apart.forall hc hd hne
  rw [hagree] at hapart
  cases hapart

theorem pairwise_reduce [LawfulBEq T] (s : Subtyping T) (g : Group T) (tested : IndexSet)
    (cs : List (Fin g.size)) :
    (g.reduce s tested cs).value.Pairwise fun c d => g.agree tested c d = false := by
  rw [value_reduce]
  split
  · exact pairwise_single _ s _
  · exact pairwise_representatives s g tested cs

/-- Once something is tested, the candidates that are left can be told apart. -/
def Apart (g : Group T) (tested : IndexSet) (cs : List (Fin g.size)) : Prop :=
  tested ≠ .empty → cs.Pairwise fun c d => g.agree tested c d = false

theorem apart_of_contains [LawfulBEq T] (s : Subtyping T) (policy : Policy) (g : Group T) :
    ∀ u, (g.tree s policy).value.Contains u → g.Apart u.tested u.candidates := by
  refine forall_subtrees s policy g g.Apart ?root ?edge ?stop ?fork
  case root => exact fun hne => absurd rfl hne
  case edge =>
    intro tested cs i before t after _ _ _ _ _
    exact pairwise_reduce s g (tested.insert i) _
  case stop =>
    intro tested cs _ _ _
    exact pairwise_single _ s cs
  case fork => exact fun _ _ _ _ hapart _ _ _ => hapart

theorem exists_differ_of_pairwise (hlen : 2 ≤ cs.length)
    (h : cs.Pairwise fun c d => g.agree tested c d = false) :
    ∃ c ∈ cs, ∃ d ∈ cs, g.agree tested c d = false := by
  match cs, hlen with
  | c :: d :: rest, _ => exact ⟨c, by simp, d, by simp, List.rel_of_pairwise_cons h (by simp)⟩

theorem exists_differ_of_not_alike [LawfulBEq T] (h : ¬g.Alike cs) :
    ∃ c ∈ cs, ∃ d ∈ cs, g.agree .empty c d = false := by
  simp only [Alike, not_forall] at h
  obtain ⟨c, hc, d, hd, hne⟩ := h
  exact ⟨c, hc, d, hd, Bool.eq_false_iff.2 fun h => hne (agree_empty.1 h)⟩

end Group

theorem IndexSet.insert_ne_empty (tested : IndexSet) (i : Nat) : tested.insert i ≠ .empty := by
  intro h
  have hi : (tested.insert i).contains i = true := contains_insert.2 (Or.inl rfl)
  rw [h] at hi
  cases hi

section

variable {T : Type} {g : Group T} {nodes : List (Node g)}

theorem FormsTree.tested_root (h : FormsTree nodes) {n : Node g} (hn : nodes[0]? = some n) :
    n.tested = .empty := by
  obtain ⟨r, hr, _, _, hempty⟩ := h.root
  rw [hn] at hr
  cases hr
  exact hempty

/-- Below the root something is tested. -/
theorem FormsTree.tested_ne_empty (h : FormsTree nodes) {id : Nat} {n : Node g}
    (hn : nodes[id]? = some n) (hid : id ≠ 0) : n.tested ≠ .empty := by
  obtain ⟨above, m, t, _, _, _, hm, hentry⟩ := h.linked id n hn hid
  obtain ⟨b, hb, hchild⟩ := Node.mem_entries.1 hentry
  obtain ⟨_, _, hchildren⟩ := h.fork above m b hm hb
  obtain ⟨n', hn', _, _, htested, _⟩ := hchildren t id hchild
  rw [hn] at hn'
  cases hn'
  rw [htested]
  exact IndexSet.insert_ne_empty m.tested b.index

/-! ### All nodes -/

/-- Nodes none of whose tests is wasted. -/
structure Separating (nodes : List (Node g)) : Prop where
  /-- A node tests for different types. -/
  distinct : ∀ (id : Nat) (n : Node g) (b : Branch g), nodes[id]? = some n → n.branch = some b →
    (b.children.map Prod.fst).Nodup
  /-- There are two of them at least, except at a root whose candidates are alike. -/
  several : ∀ (id : Nat) (n : Node g) (b : Branch g), nodes[id]? = some n → n.branch = some b →
    ¬(id = 0 ∧ g.Alike n.candidates) → 2 ≤ b.children.length
  /-- Such a root has one child. -/
  alike : ∀ (n : Node g) (b : Branch g), nodes[0]? = some n → n.branch = some b →
    g.Alike n.candidates → b.children.length = 1
  /-- Below the root any two candidates differ at a parameter that is still untested. -/
  apart : ∀ (id : Nat) (n : Node g), nodes[id]? = some n → id ≠ 0 →
    n.candidates.Pairwise fun c d =>
      ∃ i : Fin g.arity, n.tested.contains i = false ∧ g.type c i ≠ g.type d i

end

namespace Group

variable {T : Type} [BEq T] [LawfulBEq T] {s : Subtyping T} {g : Group T} {policy : Policy}
  {id : Nat} {n : Node g}

theorem pairwise_below_root (hn : (g.tree s policy).value.nodes[id]? = some n)
    (htested : n.tested ≠ .empty) :
    n.candidates.Pairwise fun c d => g.agree n.tested c d = false := by
  obtain ⟨u, parent, edge, hu, _, rfl⟩ := Tree.exists_of_getElem? hn
  exact apart_of_contains s policy g u hu htested

/-- No test of a prepared tree is wasted. Nothing is asked of the subtyping. -/
theorem separating_prepare [ToString T] {t : Tree g} (h : (g.prepare s policy).run.value = .ok t) :
    Separating t.nodes := by
  have hforms := g.formsTree_tree s policy
  rw [eq_tree_of_prepare h]
  constructor
  case distinct =>
    intro id n b hn hb
    rw [(branch_of_tree hn hb).2.2]
    exact nodup_testedTypes s g n.candidates b.index
  case several =>
    intro id n b hn hb hnot
    obtain ⟨hlen, htests, htypes⟩ := branch_of_tree hn hb
    -- At the root nothing is tested yet, so whatever is not alike differs. Below it any two do.
    have hdiffer : ∃ c ∈ n.candidates, ∃ d ∈ n.candidates, g.agree n.tested c d = false := by
      by_cases hid : id = 0
      · subst hid
        rw [hforms.tested_root hn]
        exact exists_differ_of_not_alike fun halike => hnot ⟨rfl, halike⟩
      · have htested := hforms.tested_ne_empty hn hid
        exact exists_differ_of_pairwise hlen (pairwise_below_root hn htested)
    obtain ⟨c, hc, d, hd, hdiffer⟩ := hdiffer
    rw [← List.length_map (f := Prod.fst), htypes]
    exact htests.several hc hd hdiffer
  case alike =>
    intro n b hn hb halike
    obtain ⟨hlen, _, htypes⟩ := branch_of_tree hn hb
    rw [← List.length_map (f := Prod.fst), htypes]
    exact halike.length_testedTypes (List.ne_nil_of_length_pos (by omega)) b.index
  case apart =>
    intro id n hn hid
    exact (pairwise_below_root hn (hforms.tested_ne_empty hn hid)).imp agree_eq_false.1

/-- Types below one another in a circle are told apart as well. A root with two candidates of one
    signature is the exception: it tests for a single type. -/
theorem separating_prepare_circle :
    (∃ t, ((ofPairs (0, 1) [(1, 2), (2, 0)]).prepare .circle .default).run.value = .ok t ∧
      t.nodes.length = 8 ∧ Separating t.nodes) ∧
    ∃ t, ((ofPairs (0, 1) [(0, 1)]).prepare .circle .default).run.value = .ok t ∧
      Separating t.nodes ∧ ∃ n b, t.nodes[0]? = some n ∧ n.branch = some b ∧
        b.children.length = 1 := by
  have hcircle := value_prepare (s := .circle) .default
    (variadicFree_ofPairs (0, 1) [(1, 2), (2, 0)])
  have hpair := value_prepare (s := .circle) .default (variadicFree_ofPairs (0, 1) [(0, 1)])
  refine ⟨⟨_, hcircle, by decide, separating_prepare hcircle⟩, _, hpair, ?_⟩
  exact ⟨separating_prepare hpair, _, _, rfl, rfl, by decide⟩

end Group

end MultipleDispatch
