import MultipleDispatch.Proofs.Ingestion

/-!
The signature of a group covers its candidates. There are two ways to it: with a principal its types
are taken over, otherwise the types declared for each parameter are joined by a search for one that
all of them fit. What comes out is described once for both: the greatest of the declared types, and
the top type if there is none (`Joins`). In a partial order this depends on which types there are
and not on where they stand, so the order of the candidates makes no difference.
-/

namespace MultipleDispatch

variable {T : Type}

/-! ### Joins -/

namespace Subtyping

variable [BEq T] {s : Subtyping T} {types xs ys : List T} {t u : T}

/-- `t` is one of `types`, and all of them fit it. -/
def Greatest (s : Subtyping T) (types : List T) (t : T) : Prop :=
  t ∈ types ∧ ∀ u ∈ types, s.fits u t = true

/-- `t` is the greatest of `types`, or the top type if there is none. -/
def Joins (s : Subtyping T) (types : List T) (t : T) : Prop :=
  s.Greatest types t ∨ (∀ u, ¬s.Greatest types u) ∧ t = s.top

theorem joins_cover (s : Subtyping T) (types : List T) : s.Joins types (s.cover types) := by
  rw [cover]
  cases h : types.find? fun upper => types.all fun t => s.fits t upper with
  | none =>
    refine Or.inr ⟨fun u hu => ?_, rfl⟩
    exact List.find?_eq_none.1 h u hu.1 (List.all_eq_true.2 hu.2)
  | some t =>
    have hall := List.find?_some h
    exact Or.inl ⟨List.mem_of_find?_eq_some h, List.all_eq_true.1 hall⟩

theorem Joins.fits (h : s.Joins types t) (htop : ∀ a, s.fits a s.top = true) :
    ∀ u ∈ types, s.fits u t = true := by
  intro u hu
  rcases h with hgreatest | ⟨_, rfl⟩
  · exact hgreatest.2 u hu
  · exact htop u

/-- Where no two types accept one another, the join depends on nothing but which types there are. -/
theorem Joins.eq (anti : s.Antisymmetric) (hmem : ∀ a, a ∈ xs ↔ a ∈ ys) (ht : s.Joins xs t)
    (hu : s.Joins ys u) : t = u := by
  have hsame : ∀ a, s.Greatest xs a ↔ s.Greatest ys a := fun a => by simp only [Greatest, hmem]
  rcases ht with ht | ⟨hnone, rfl⟩
  · rcases hu with hu | ⟨hnone, _⟩
    · exact anti (hu.2 t ((hmem t).1 ht.1)) (ht.2 u ((hmem u).2 hu.1))
    · exact absurd ((hsame t).1 ht) (hnone t)
  · rcases hu with hu | ⟨_, rfl⟩
    · exact absurd ((hsame u).2 hu) (hnone u)
    · rfl

end Subtyping

/-! ### Groups by their candidates -/

/-- Whatever `c` declares for a parameter fits what `d` declares for it. -/
def Candidate.Dominates [BEq T] (s : Subtyping T) (c d : Candidate T) : Prop :=
  ∀ i t u, c.type? i = some t → d.type? i = some u → s.fits t u = true

namespace Group

variable {g h : Group T}

theorem belongs_of_mem {c : Candidate T} (hc : c ∈ g.candidates) : c.Belongs g.name g.arity := by
  obtain ⟨a, rfl⟩ := mem_candidates.1 hc
  exact (g.member a).belongs

theorem type?_candidate (g : Group T) (a : Fin g.size) (i : Fin g.arity) :
    (g.candidate a).type? i = some (g.type a i) :=
  (g.member a).type?_candidate i

/-- The types declared for one parameter. -/
def column (g : Group T) (i : Fin g.arity) : List T := g.ids.map fun c => g.type c i

theorem mem_column {i : Fin g.arity} {t : T} :
    t ∈ g.column i ↔ ∃ c ∈ g.candidates, c.type? i = some t := by
  simp only [column, List.mem_map, mem_candidates]
  constructor
  · rintro ⟨a, _, rfl⟩
    exact ⟨_, ⟨a, rfl⟩, g.type?_candidate a i⟩
  · rintro ⟨_, ⟨a, rfl⟩, ht⟩
    rw [type?_candidate, Option.some_inj] at ht
    exact ⟨a, List.mem_finRange a, ht⟩

theorem type_mem_column (g : Group T) (c : Fin g.size) (i : Fin g.arity) :
    g.type c i ∈ g.column i :=
  List.mem_map_of_mem (List.mem_finRange c)

theorem arity_eq_of_perm (hperm : h.candidates.Perm g.candidates) : h.arity = g.arity := by
  obtain ⟨m, hm⟩ := List.exists_mem_of_ne_nil _ g.nonempty
  have hg : m.candidate ∈ g.candidates := List.mem_map_of_mem hm
  exact (belongs_of_mem (hperm.mem_iff.2 hg)).2.1.symm.trans (belongs_of_mem hg).2.1

variable [BEq T] {s : Subtyping T}

theorem dominates_iff_candidate {a b : Fin g.size} :
    g.dominates s a b = true ↔ (g.candidate a).Dominates s (g.candidate b) := by
  rw [dominates_eq_true]
  constructor
  · intro hall j t u ht hu
    -- A candidate declares no type beyond the arity.
    have hj : j < g.arity := by
      by_contra hj
      have hlen := (g.member a).length_params
      rw [Candidate.type?, List.getElem?_eq_none (by rw [candidate]; omega)] at ht
      cases ht
    rw [g.type?_candidate a ⟨j, hj⟩, Option.some_inj] at ht
    rw [g.type?_candidate b ⟨j, hj⟩, Option.some_inj] at hu
    rw [← ht, ← hu]
    exact hall ⟨j, hj⟩
  · exact fun hall i => hall i _ _ (g.type?_candidate a i) (g.type?_candidate b i)

/-- Of two or more candidates one is principal if and only if all dominate some candidate. -/
theorem isSome_principal?_iff : (g.principal? s).isSome = true ↔
    1 < g.candidates.length ∧ ∃ f ∈ g.candidates, ∀ c ∈ g.candidates, c.Dominates s f := by
  have hover : g.isOverloaded = true ↔ 1 < g.candidates.length := by
    rw [candidates, List.length_map]
    exact decide_eq_true_iff
  have hall : (g.ids.find? fun f => g.ids.all fun c => g.dominates s c f).isSome = true ↔
      ∃ f ∈ g.candidates, ∀ c ∈ g.candidates, c.Dominates s f := by
    simp [ids, mem_candidates, dominates_iff_candidate]
  rw [← hover, ← hall, principal?]
  split
  · next h => simp [h]
  · next h => simp [h]

/-! ### The signature -/

theorem principal_combined (s : Subtyping T) (g : Group T) :
    (g.combined s).principal = g.principal? s := by
  rw [combined]
  cases g.principal? s with
  | none => rfl
  | some p => rfl

theorem throws_combined (s : Subtyping T) (g : Group T) : (g.combined s).throws = g.throws := by
  rw [combined]
  cases g.principal? s with
  | none => rfl
  | some p => rfl

theorem length_domain (s : Subtyping T) (g : Group T) :
    (g.combined s).domain.length = g.arity := by
  rw [combined]
  cases g.principal? s with
  | none => simp [indices]
  | some p => exact (g.member p).length_eq

/-- Each type of the domain is a join, with a principal or without. -/
theorem exists_joins_domain (s : Subtyping T) (g : Group T) (i : Fin g.arity) :
    ∃ t, (g.combined s).domain[i.val]? = some t ∧ s.Joins (g.column i) t := by
  cases hp : g.principal? s with
  | none =>
    refine ⟨s.cover (g.column i), ?_, s.joins_cover _⟩
    rw [combined, hp]
    simp [indices, column]
  | some p =>
    refine ⟨g.type p i, ?_, Or.inl ⟨type_mem_column g p i, ?_⟩⟩
    · rw [combined, hp]
      exact getElem?_signature g p i
    · -- That all dominate the principal says of one parameter that its type is the greatest.
      intro u hu
      obtain ⟨c, _, rfl⟩ := List.mem_map.1 hu
      exact dominates_eq_true.1 (dominates_of_principal? hp c) i

theorem joins_result (hp : (g.combined s).principal = none) :
    s.Joins (g.candidates.map Candidate.result) (g.combined s).result := by
  rw [principal_combined] at hp
  rw [combined, hp]
  exact s.joins_cover _

theorem mem_throws [LawfulBEq T] {t : T} :
    t ∈ g.throws ↔ ∃ c ∈ g.candidates, t ∈ c.throws := by
  rw [throws, distinct_eq_eraseDups, List.mem_eraseDups, List.mem_flatMap]

theorem nodup_throws [LawfulBEq T] (g : Group T) : g.throws.Nodup := by
  rw [throws, distinct_eq_eraseDups]
  exact nodup_eraseDups _

/-! ### Another order of the candidates -/

theorem domain_eq_of_perm (anti : s.Antisymmetric) (hperm : h.candidates.Perm g.candidates) :
    (h.combined s).domain = (g.combined s).domain := by
  have harity := arity_eq_of_perm hperm
  -- The places of the two groups are of different types, so they are compared by number.
  refine List.ext_getElem? fun j => ?_
  by_cases hj : j < g.arity
  · obtain ⟨t, ht, htj⟩ := exists_joins_domain s h ⟨j, harity ▸ hj⟩
    obtain ⟨u, hu, huj⟩ := exists_joins_domain s g ⟨j, hj⟩
    have hmem : ∀ a, a ∈ h.column ⟨j, harity ▸ hj⟩ ↔ a ∈ g.column ⟨j, hj⟩ := fun a => by
      simp only [mem_column, hperm.mem_iff]
    rw [ht, hu, htj.eq anti hmem huj]
  · rw [List.getElem?_eq_none (by rw [length_domain]; omega),
      List.getElem?_eq_none (by rw [length_domain]; omega)]

theorem isSome_principal?_of_perm (hperm : h.candidates.Perm g.candidates) :
    (h.principal? s).isSome = (g.principal? s).isSome := by
  rw [Bool.eq_iff_iff, isSome_principal?_iff, isSome_principal?_iff, hperm.length_eq]
  simp only [hperm.mem_iff]

end Group

/-! ### Covering -/

/-- `g` can be called under `sig` as one function, whose types are joins of those that the candidates
    declare. -/
structure Signature.Covers [BEq T] (s : Subtyping T) (g : Group T) (sig : Signature T g.size) :
    Prop where
  length_domain : sig.domain.length = g.arity
  /-- A parameter has the join of the types declared for it, which all of them fit. -/
  domain : ∀ i : Fin g.arity, ∃ t, sig.domain[i.val]? = some t ∧ s.Joins (g.column i) t ∧
    ∀ c, s.fits (g.type c i) t = true
  nodup_throws : sig.throws.Nodup
  mem_throws : ∀ t, t ∈ sig.throws ↔ ∃ c ∈ g.candidates, t ∈ c.throws
  /-- Unless the result is that of a principal, it is a join as well. -/
  result : sig.principal = none → s.Joins (g.candidates.map Candidate.result) sig.result ∧
    ∀ c ∈ g.candidates, s.fits c.result sig.result = true

namespace Group

variable [BEq T] [LawfulBEq T] {s : Subtyping T}

theorem covers_combined (htop : ∀ t, s.fits t s.top = true) (g : Group T) :
    (g.combined s).Covers s g where
  length_domain := length_domain s g
  domain i := by
    obtain ⟨t, ht, hjoins⟩ := exists_joins_domain s g i
    exact ⟨t, ht, hjoins, fun c => hjoins.fits htop _ (type_mem_column g c i)⟩
  nodup_throws := throws_combined s g ▸ nodup_throws g
  mem_throws t := by rw [throws_combined, mem_throws]
  result hnone := by
    have hjoins := joins_result hnone
    exact ⟨hjoins, fun c hc => hjoins.fits htop _ (List.mem_map_of_mem hc)⟩

/-- Over a partial order with a top type, the combined signature covers the group, and neither its
    parameter types nor what it throws nor whether there is a principal depend on the order in which
    the candidates are declared. -/
theorem combined_covers (anti : s.Antisymmetric) (htop : ∀ t, s.fits t s.top = true)
    (g : Group T) :
    (g.combined s).Covers s g ∧
      ∀ h : Group T, h.candidates.Perm g.candidates →
        (h.combined s).domain = (g.combined s).domain ∧
          (∀ t, t ∈ (h.combined s).throws ↔ t ∈ (g.combined s).throws) ∧
          (h.combined s).principal.isSome = (g.combined s).principal.isSome := by
  refine ⟨covers_combined htop g, fun h hperm => ⟨domain_eq_of_perm anti hperm, fun t => ?_, ?_⟩⟩
  · simp only [throws_combined, mem_throws, hperm.mem_iff]
  · rw [principal_combined, principal_combined]
    exact isSome_principal?_of_perm hperm

/-- Neither of two candidates is principal: the first parameter takes what has no join but the top,
    the second what both declare, whichever candidate comes first. -/
theorem combined_covers_diamond :
    let g : Group (Fin 4) := ofPairs (1, 0) [(2, 0)]
    let h : Group (Fin 4) := ofPairs (2, 0) [(1, 0)]
    (g.combined .diamond).Covers .diamond g ∧ (g.combined .diamond).domain = [3, 0] ∧
      (g.combined .diamond).principal = none ∧ (h.combined .diamond).domain = [3, 0] ∧
      (h.combined .diamond).principal.isSome = (g.combined .diamond).principal.isSome := by
  intro g h
  have hdomain : (g.combined .diamond).domain = [3, 0] := by decide
  have hperm : h.candidates.Perm g.candidates := List.Perm.swap _ _ _
  obtain ⟨hcovers, horder⟩ := combined_covers Subtyping.antisymmetric_diamond (by decide) g
  obtain ⟨hsame, _, hprincipal⟩ := horder h hperm
  exact ⟨hcovers, hdomain, by decide, hsame.trans hdomain, hprincipal⟩

end Group

end MultipleDispatch
