import Mathlib.Data.Finset.Lattice.Fold
import Mathlib.Order.Bounds.Basic
import Mathlib.Order.Lattice.Nat
import MultipleDispatch.Proofs.Separation

/-!
What the policies ask for, without classes. One wants the largest number of candidates with the same
declared type to be small (`crowd`), the other wants many different types (`variety`). These are the
size of the largest bucket and the number of buckets, so the parameter of the lowest rank is the
lowest of the untested parameters that are best by these numbers, and a node tests it for every type
that is declared there.
-/

namespace MultipleDispatch

variable {T : Type} [BEq T]

namespace Group

variable {g : Group T} {cs : List (Fin g.size)} {i : Fin g.arity}

/-! ### Numbers of candidates and of types -/

/-- The number of candidates in `cs` that declare the type `t` at `i`. -/
def declaring (g : Group T) (cs : List (Fin g.size)) (i : Fin g.arity) (t : T) : Nat :=
  cs.countP fun c => g.type c i == t

/-- The largest number of candidates in `cs` that declare one type at `i`. -/
def crowd (g : Group T) (cs : List (Fin g.size)) (i : Fin g.arity) : Nat :=
  cs.toFinset.sup fun c => g.declaring cs i (g.type c i)

/-- The number of different types that candidates in `cs` declare at `i`. -/
def variety (g : Group T) (cs : List (Fin g.size)) (i : Fin g.arity) : Nat :=
  (cs.map fun c => g.type c i).eraseDups.length

variable [LawfulBEq T]

/-- No type is declared by more candidates, whether or not one of them declares it. -/
theorem isGreatest_crowd (hne : cs ≠ []) (i : Fin g.arity) :
    IsGreatest (Set.range (g.declaring cs i)) (g.crowd cs i) := by
  constructor
  · have hcs : cs.toFinset.Nonempty := (List.toFinset_nonempty_iff cs).2 hne
    obtain ⟨c, _, hc⟩ :=
      Finset.exists_mem_eq_sup cs.toFinset hcs fun c => g.declaring cs i (g.type c i)
    exact ⟨g.type c i, hc.symm⟩
  · rintro _ ⟨t, rfl⟩
    rcases Nat.eq_zero_or_pos (g.declaring cs i t) with hnone | hsome
    · rw [hnone]
      exact Nat.zero_le _
    · obtain ⟨c, hc, ht⟩ := List.countP_pos_iff.1 hsome
      obtain rfl := eq_of_beq ht
      exact Finset.le_sup (f := fun c => g.declaring cs i (g.type c i)) (List.mem_toFinset.2 hc)

/-- A bucket holds all candidates that declare the type of one of its members. -/
theorem size_bucket {k : Class (Fin g.size)} (hk : k ∈ g.buckets cs i) {c : Fin g.size}
    (hc : c ∈ k.members) : k.size = g.declaring cs i (g.type c i) := by
  have hmembers := members_eq_filter_key (fun c => g.type c i) cs k hk
  rw [hmembers] at hc
  have hsame : g.type k.first i = g.type c i := eq_of_beq (List.mem_filter.1 hc).2
  rw [Class.size, hmembers, declaring, List.countP_eq_length_filter]
  simp only [hsame, BEq.comm]

theorem largest_buckets (g : Group T) (cs : List (Fin g.size)) (i : Fin g.arity) :
    largest (g.buckets cs i) = g.crowd cs i := by
  refine eq_of_forall_ge_iff fun m => ?_
  rw [largest_le_iff, crowd, Finset.sup_le_iff]
  constructor
  · intro hsizes c hc
    obtain ⟨k, hk, hck⟩ := exists_class_of_mem (fun a b => g.type a i == g.type b i)
      (List.mem_toFinset.1 hc)
    rw [← size_bucket hk hck]
    exact hsizes k hk
  · intro hcounts k hk
    rw [size_bucket hk List.mem_cons_self]
    exact hcounts k.first (List.mem_toFinset.2 (mem_of_mem_classify hk List.mem_cons_self))

theorem length_buckets (g : Group T) (cs : List (Fin g.size)) (i : Fin g.arity) :
    (g.buckets cs i).length = g.variety cs i := by
  rw [variety, ← map_key_classify, List.length_map, buckets]

end Group

/-! ### The best parameters -/

/-- The parameters outside `tested` that are best by the policy in a node with the candidates `cs`. -/
def Policy.best : Policy → (g : Group T) → IndexSet → List (Fin g.size) → Set (Fin g.arity)
  | smallestLargestBucket, g, tested, cs =>
    {i | tested.contains i = false ∧
      ∀ j : Fin g.arity, tested.contains j = false → g.crowd cs i ≤ g.crowd cs j}
  | greatestVariation, g, tested, cs =>
    {i | tested.contains i = false ∧
      ∀ j : Fin g.arity, tested.contains j = false → g.variety cs j ≤ g.variety cs i}

/-- What a node tests is what the policy asks for. -/
structure Policy.Governs {g : Group T} (policy : Policy) (n : Node g) (b : Branch g) : Prop where
  /-- The tested parameter is the lowest of the best ones. -/
  lowest : IsLeast (policy.best g n.tested n.candidates) b.index
  /-- Its crowd, as that of any parameter, is the largest number of candidates over all types. -/
  crowds : ∀ i, IsGreatest (Set.range (g.declaring n.candidates i)) (g.crowd n.candidates i)
  /-- Comparing the untested parameters one after the other comes out at it, under either rule for
      ties. -/
  picked : policy.pick? g n.candidates (g.untested n.tested) = some b.index
  /-- The types that are tested for are those that candidates declare there, -/
  types : ∀ t, t ∈ b.children.map Prod.fst ↔ ∃ c ∈ n.candidates, g.type c b.index = t
  /-- each of them once. -/
  once : (b.children.map Prod.fst).Nodup

namespace Group

variable {s : Subtyping T} {g : Group T} {policy : Policy} {tested : IndexSet}
  {cs : List (Fin g.size)} {i : Fin g.arity}

theorem Tests.pick?_eq (h : g.Tests policy tested cs i) :
    policy.pick? g cs (g.untested tested) = some i := by
  obtain ⟨first, others, hu, rfl⟩ := h
  have hsorted := g.pairwise_untested tested
  rw [hu] at hsorted ⊢
  exact Policy.pick?_eq_testIndex hsorted

variable [LawfulBEq T]

/-- The best parameters are those of the lowest cost. -/
theorem mem_best : i ∈ policy.best g tested cs ↔ tested.contains i = false ∧
    ∀ j : Fin g.arity, tested.contains j = false →
      policy.cost (g.buckets cs i) ≤ policy.cost (g.buckets cs j) := by
  cases policy with
  | smallestLargestBucket => simp [Policy.best, Policy.cost, largest_buckets]
  | greatestVariation => simp [Policy.best, Policy.cost, length_buckets]

theorem Tests.isLeast_best (h : g.Tests policy tested cs i) :
    IsLeast (policy.best g tested cs) i := by
  refine ⟨mem_best.2 ⟨h.untested, fun j hj => h.cost_le hj⟩, fun j hbest => ?_⟩
  obtain ⟨hj, hcost⟩ := mem_best.1 hbest
  rcases rank_le_rank.1 (h.rank_le hj) with hlt | ⟨_, hle⟩
  · exact absurd (hcost i h.untested) (not_le.2 hlt)
  · exact hle

/-- Every node of a prepared tree tests what the policy asks for. Nothing is asked of the
    subtyping. -/
theorem governs_prepare [ToString T] {t : Tree g} (h : (g.prepare s policy).run.value = .ok t) :
    ∀ (id : Nat) (n : Node g) (b : Branch g), t.nodes[id]? = some n → n.branch = some b →
      policy.Governs n b := by
  rw [eq_tree_of_prepare h]
  intro id n b hn hb
  obtain ⟨hlen, htests, htypes⟩ := branch_of_tree hn hb
  constructor
  case lowest => exact htests.isLeast_best
  case crowds => exact isGreatest_crowd (List.ne_nil_of_length_pos (by omega))
  case picked => exact htests.pick?_eq
  case types =>
    rw [htypes]
    exact fun t => mem_testedTypes
  case once =>
    rw [htypes]
    exact nodup_testedTypes s g n.candidates b.index

/-- At the first parameter 0 and 1 are declared twice each. At the second one 0 is declared twice as
    well, but there are three types: so one policy has a tie, and the other decides against it. -/
theorem governs_prepare_circle :
    let g : Group (Fin 3) := ofPairs (0, 0) [(0, 1), (1, 0), (1, 2)]
    (∃ t, (g.prepare .circle .smallestLargestBucket).run.value = .ok t ∧
      ∃ n b, t.nodes[0]? = some n ∧ n.branch = some b ∧
        Policy.smallestLargestBucket.Governs n b ∧
        g.indices.map (g.crowd n.candidates) = [2, 2] ∧ b.index.val = 0) ∧
    ∃ t, (g.prepare .circle .greatestVariation).run.value = .ok t ∧
      ∃ n b, t.nodes[0]? = some n ∧ n.branch = some b ∧
        Policy.greatestVariation.Governs n b ∧
        g.indices.map (g.variety n.candidates) = [2, 3] ∧ b.index.val = 1 := by
  intro g
  have hfree := variadicFree_ofPairs (0, 0) [(0, 1), (1, 0), (1, (2 : Fin 3))]
  have hsmallest := value_prepare (s := .circle) .smallestLargestBucket hfree
  have hgreatest := value_prepare (s := .circle) .greatestVariation hfree
  constructor
  · have hgoverns := governs_prepare hsmallest 0 _ _ rfl rfl
    exact ⟨_, hsmallest, _, _, rfl, rfl, hgoverns, by decide, by decide⟩
  · have hgoverns := governs_prepare hgreatest 0 _ _ rfl rfl
    exact ⟨_, hgreatest, _, _, rfl, rfl, hgoverns, by decide, by decide⟩

end Group

end MultipleDispatch
