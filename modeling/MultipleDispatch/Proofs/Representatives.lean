import MultipleDispatch.Proofs.Separation

/-!
One representative for each class. Reduction sorts candidates into classes by comparing with the
first member of each class only, and picks from each class the one that a scan over the whole
signatures prefers. Agreement being an equivalence, no class is lost or split, so each candidate
agrees with just one of those that are kept, and reducing again changes nothing.
-/

namespace MultipleDispatch.Group

variable {T : Type} [BEq T] {s : Subtyping T} {g : Group T} {tested : IndexSet}
  {ids : List (Fin g.size)}

/-- Of the candidates `ids`, those in `kept` represent the classes of candidates that agree. -/
structure Represents (g : Group T) (tested : IndexSet) (ids kept : List (Fin g.size)) : Prop where
  subset : kept ⊆ ids
  /-- No two of them agree. -/
  apart : kept.Pairwise fun c d => g.agree tested c d = false
  /-- Every candidate agrees with one of them and with no other. -/
  unique : ∀ c ∈ ids, ∃! k, k ∈ kept ∧ g.agree tested k c = true
  /-- They stand in the order in which candidates that agree with them come up first. -/
  ordered : kept.Pairwise fun c d =>
    ids.findIdx (g.agree tested c) < ids.findIdx (g.agree tested d)

/-- Candidates that agree with one another agree with the same others. -/
theorem agree_congr [LawfulBEq T] {a b : Fin g.size} (h : g.agree tested a b = true) :
    g.agree tested a = g.agree tested b :=
  funext fun _ => Bool.eq_iff_iff.2 ⟨agree_trans (agree_symm h), agree_trans h⟩

/-- A candidate that agrees with the representative of a class is in this class. -/
theorem mem_class_of_agree [LawfulBEq T] {k : Class (Fin g.size)}
    (hk : k ∈ classify (g.agree tested) ids) {c : Fin g.size} (hc : c ∈ ids)
    (hagree : g.agree tested (g.mostSpecific s k) c = true) : c ∈ k.members := by
  have hfirst := same_first_of_mem (agree_refl g tested) hk (mostSpecific_mem s g k)
  exact (mem_members_iff (agree_refl g tested) agree_symm agree_trans hk).2
    ⟨hc, agree_trans hfirst hagree⟩

theorem represents_representatives [LawfulBEq T] (s : Subtyping T) (g : Group T)
    (tested : IndexSet) (ids : List (Fin g.size)) :
    g.Represents tested ids (g.representatives s tested ids).value := by
  have hapart := pairwise_representatives s g tested ids
  refine ⟨fun _ => representatives_subset, hapart, fun c hc => ?_, ?_⟩
  · obtain ⟨k, _, hk, hrep⟩ : ∃ k : Class (Fin g.size), c ∈ k.members ∧
        (∀ d ∈ k.members, d ∈ ids ∧ g.agree tested d c = true) ∧
          g.mostSpecific s k ∈ (g.representatives s tested ids).value := exists_representative hc
    have hagree := (hk _ (mostSpecific_mem s g k)).2
    refine ⟨_, ⟨hrep, hagree⟩, ?_⟩
    rintro d ⟨hd, hdc⟩
    exact eq_of_agree_of_pairwise hapart hd hrep (agree_trans hdc (agree_symm hagree))
  · rw [value_representatives, List.pairwise_map]
    refine (pairwise_findIdx_classify (agree_refl g tested) agree_symm agree_trans
      ids).imp_of_mem fun {k l} hk hl hlt => ?_
    rwa [← agree_congr (same_first_of_mem (agree_refl g tested) hk (mostSpecific_mem s g k)),
      ← agree_congr (same_first_of_mem (agree_refl g tested) hl (mostSpecific_mem s g l))]

/-- Candidates that can be told apart represent themselves. -/
theorem value_representatives_of_pairwise
    (apart : ids.Pairwise fun c d => g.agree tested c d = false) :
    (g.representatives s tested ids).value = ids := by
  rw [value_representatives, classify_eq_map apart, List.map_map]
  exact List.map_id ids

/-- Reduction keeps one representative of every class of candidates that agree, in the order in which
    the classes come up, and reducing again changes nothing. Where dominance is transitive, no
    candidate beats the representative of its class. -/
theorem reduction_represents [LawfulBEq T] (s : Subtyping T) (g : Group T) (tested : IndexSet)
    (ids : List (Fin g.size)) :
    ∃ kept, (g.representatives s tested ids).value = kept ∧ g.Represents tested ids kept ∧
      (g.representatives s tested kept).value = kept ∧
      (s.Transitive → ∀ c ∈ ids, ∀ k ∈ kept, g.agree tested k c = true →
        ¬(g.dominates s c k = true ∧ g.dominates s k c = false)) := by
  have hrep := represents_representatives s g tested ids
  refine ⟨_, rfl, hrep, value_representatives_of_pairwise hrep.apart, ?_⟩
  rintro trans c hc r hr hagree ⟨hcr, hrc⟩
  rw [value_representatives] at hr
  obtain ⟨k, hk, rfl⟩ := List.mem_map.1 hr
  rw [mostSpecific_maximal trans (mem_class_of_agree hk hc hagree) hcr] at hrc
  cases hrc

/-- The first parameter is tested. The third candidate represents the first, the fourth the second,
    which is listed twice. -/
theorem reduction_represents_ladder :
    let g : Group (Fin 3) := ofPairs (1, 0) [(1, 1), (0, 0), (0, 1)]
    let a : Fin g.size := ⟨0, by decide⟩
    let b : Fin g.size := ⟨1, by decide⟩
    let c : Fin g.size := ⟨2, by decide⟩
    let d : Fin g.size := ⟨3, by decide⟩
    let tested := IndexSet.empty.insert 0
    (g.representatives .ladder tested [a, b, c, b, d]).value = [c, d] ∧
      g.Represents tested [a, b, c, b, d] [c, d] ∧
      (g.representatives .ladder tested [c, d]).value = [c, d] ∧
      ¬(g.dominates .ladder b d = true ∧ g.dominates .ladder d b = false) := by
  intro g a b c d tested
  obtain ⟨kept, hkept, hrep, hagain, hbest⟩ :=
    reduction_represents .ladder g tested [a, b, c, b, d]
  have hvalue : (g.representatives .ladder tested [a, b, c, b, d]).value = [c, d] := by decide
  obtain rfl : kept = [c, d] := hkept.symm.trans hvalue
  exact ⟨hvalue, hrep, hagain,
    hbest Subtyping.transitive_ladder b (by decide) d (by decide) (by decide)⟩

end MultipleDispatch.Group
