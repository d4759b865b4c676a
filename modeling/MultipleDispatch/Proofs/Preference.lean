import Mathlib.Data.Int.Order.Basic
import Mathlib.Data.Prod.Lex
import Mathlib.Order.Fin.Basic
import MultipleDispatch.Proofs.Reduction

/-!
Picking the parameter to test. A scan holds one parameter at a time and gives it up for a later one.
If it does so exactly for a lower rank, it ends with the lowest of all (`scan_least`). The rank of a
parameter is what the policy wants to be low, and then its place. Since parameters are scanned in
order, ties can be settled for the lower place in two ways: the held parameter yields only to a
better one, as in `testIndex`, or it yields unless it is better, where a lower place counts as
better, as in `pick?` under one of the policies. Both end with the same parameter.
-/

namespace MultipleDispatch

/-! ### Scanning -/

section

variable {α κ : Type}

/-- Holds one element at a time, `first` to begin with, and gives it up for a later one to which it
    yields. -/
def scan (yields : α → α → Bool) (first : α) (others : List α) : α :=
  others.foldl (fun held a => if yields held a then a else held) first

/-- The least element, the first of several. -/
def firstLeast (order : α → α → Ordering) : α → List α → α :=
  scan fun held a => order held a == .gt

/-- The greatest element, the last of several. -/
def lastGreatest (order : α → α → Ordering) : α → List α → α :=
  scan fun held a => order held a != .gt

variable [LinearOrder κ] {key : α → κ} {yields yields' : α → α → Bool}

/-- A scan that yields exactly to lower keys ends with the lowest. -/
theorem scan_least : ∀ {others : List α} {first : α},
    (first :: others).Pairwise (fun a b => yields a b = true ↔ key b < key a) →
      scan yields first others ∈ first :: others ∧
        ∀ a ∈ first :: others, key (scan yields first others) ≤ key a
  | [], first, _ => by simp [scan]
  | b :: others, first, h => by
    obtain ⟨hfirst, hothers⟩ := List.pairwise_cons.1 h
    have hb := hfirst b List.mem_cons_self
    by_cases hyields : yields first b = true
    · have hstep : scan yields first (b :: others) = scan yields b others := by
        simp [scan, hyields]
      obtain ⟨hmem, hle⟩ := scan_least hothers
      rw [hstep]
      refine ⟨List.mem_cons_of_mem first hmem, List.forall_mem_cons.2 ⟨?_, hle⟩⟩
      exact (hle b List.mem_cons_self).trans (hb.1 hyields).le
    · have hstep : scan yields first (b :: others) = scan yields first others := by
        simp [scan, hyields]
      have hskip : (first :: others).Sublist (first :: b :: others) :=
        (List.sublist_cons_self b others).cons_cons first
      obtain ⟨hmem, hle⟩ := scan_least (h.sublist hskip)
      obtain ⟨hlefirst, hleothers⟩ := List.forall_mem_cons.1 hle
      rw [hstep]
      refine ⟨hskip.subset hmem, List.forall_mem_cons.2 ⟨hlefirst, ?_⟩⟩
      exact List.forall_mem_cons.2 ⟨hlefirst.trans (not_lt.1 (mt hb.2 hyields)), hleothers⟩

/-- Where keys are different, scans for the lowest agree. -/
theorem scan_eq_scan (inj : Function.Injective key) {others : List α} {first : α}
    (h : (first :: others).Pairwise fun a b => yields a b = true ↔ key b < key a)
    (h' : (first :: others).Pairwise fun a b => yields' a b = true ↔ key b < key a) :
    scan yields first others = scan yields' first others := by
  obtain ⟨hmem, hle⟩ := scan_least h
  obtain ⟨hmem', hle'⟩ := scan_least h'
  exact inj (le_antisymm (hle _ hmem') (hle' _ hmem))

end

/-! ### What parameters are ranked by -/

namespace Policy

/-- What the policy wants to be low for a parameter with the given classes. -/
def cost {α : Type} : Policy → List (Class α) → Int
  | smallestLargestBucket, cs => largest cs
  | greatestVariation, cs => -cs.length

theorem prefers_eq_true {α : Type} {policy : Policy} {as bs : List (Class α)} :
    policy.prefers as bs = true ↔ policy.cost as < policy.cost bs := by
  cases policy with
  | smallestLargestBucket => simp [prefers, cost]
  | greatestVariation => simp [prefers, cost]

end Policy

namespace Group

variable {T : Type} [BEq T] {g : Group T} {policy : Policy} {cs : List (Fin g.size)}
  {i j first : Fin g.arity} {others : List (Fin g.arity)}

/-- The rank of a parameter in a node with the candidates `cs`: its cost, then its place. -/
def rank (policy : Policy) (g : Group T) (cs : List (Fin g.size)) (i : Fin g.arity) :
    Int ×ₗ Fin g.arity :=
  toLex (policy.cost (g.buckets cs i), i)

theorem rank_injective (policy : Policy) (g : Group T) (cs : List (Fin g.size)) :
    Function.Injective (g.rank policy cs) :=
  fun _ _ h => congrArg Prod.snd (toLex.injective h)

theorem rank_le_rank : g.rank policy cs i ≤ g.rank policy cs j ↔
    policy.cost (g.buckets cs i) < policy.cost (g.buckets cs j) ∨
      policy.cost (g.buckets cs i) = policy.cost (g.buckets cs j) ∧ i ≤ j :=
  Prod.Lex.toLex_le_toLex

/-- Only a lower cost makes up for a later place. -/
theorem rank_lt_rank (h : i < j) : g.rank policy cs j < g.rank policy cs i ↔
    policy.cost (g.buckets cs j) < policy.cost (g.buckets cs i) := by
  rw [rank, rank, Prod.Lex.toLex_lt_toLex, or_iff_left]
  rintro ⟨_, hji⟩
  exact lt_asymm h hji

theorem pairwise_untested {T : Type} (g : Group T) (tested : IndexSet) :
    (g.untested tested).Pairwise (· < ·) :=
  (List.pairwise_lt_finRange g.arity).sublist List.filter_sublist

/-- The held parameter yields to one of a lower rank. -/
theorem pairwise_prefers (policy : Policy) (cs : List (Fin g.size))
    (sorted : (first :: others).Pairwise (· < ·)) :
    (first :: others).Pairwise fun i j => policy.prefers (g.buckets cs j) (g.buckets cs i) = true ↔
      g.rank policy cs j < g.rank policy cs i :=
  sorted.imp fun h => Policy.prefers_eq_true.trans (rank_lt_rank h).symm

/-- The parameter that is picked has the lowest rank. -/
theorem testIndex_least (sorted : (first :: others).Pairwise (· < ·)) :
    g.testIndex policy cs first others ∈ first :: others ∧
      ∀ j ∈ first :: others,
        g.rank policy cs (g.testIndex policy cs first others) ≤ g.rank policy cs j :=
  scan_least (pairwise_prefers policy cs sorted)

end Group

/-! ### Another way to settle ties -/

namespace Policy

variable {T : Type} [BEq T] {g : Group T} {policy : Policy} {cs : List (Fin g.size)}
  {first : Fin g.arity} {others : List (Fin g.arity)}

/-- The parameter to test among the given ones, by comparing numbers. The smallest largest class is
    taken where it comes up first. The greatest number of classes is taken where it comes up last;
    so of two parameters with as many classes the lower one has to count as the greater. -/
def pick? : Policy → (g : Group T) → List (Fin g.size) → List (Fin g.arity) → Option (Fin g.arity)
  | _, _, _, [] => none
  | smallestLargestBucket, g, cs, first :: others =>
    some <| firstLeast (compareOn fun i => largest (g.buckets cs i)) first others
  | greatestVariation, g, cs, first :: others =>
    some <| lastGreatest
      (compareLex (compareOn fun i => (g.buckets cs i).length) fun i j => compare j i) first others

/-- Either way of settling ties comes out at the same parameter. -/
theorem pick?_eq_testIndex (sorted : (first :: others).Pairwise (· < ·)) :
    policy.pick? g cs (first :: others) = some (g.testIndex policy cs first others) := by
  have hinj := Group.rank_injective policy g cs
  have hprefers := Group.pairwise_prefers policy cs sorted
  cases policy with
  | smallestLargestBucket =>
    refine congrArg some (scan_eq_scan hinj (sorted.imp fun {i j} hij => ?_) hprefers)
    rw [Group.rank_lt_rank hij, beq_iff_eq, compareOn, Nat.compare_eq_gt, cost, cost, Int.ofNat_lt]
  | greatestVariation =>
    refine congrArg some (scan_eq_scan hinj (sorted.imp fun {i j} hij => ?_) hprefers)
    -- With as many classes the held parameter, which is the lower one, counts as greater and stays.
    have hplace : compare j i = .gt := compare_gt_iff_gt.2 hij
    rw [Group.rank_lt_rank hij, bne_iff_ne, ne_eq, compareLex, Ordering.then_eq_gt, hplace,
      compareOn, Nat.compare_eq_gt, Nat.compare_eq_eq, and_iff_left rfl, cost, cost]
    omega

end Policy

end MultipleDispatch
