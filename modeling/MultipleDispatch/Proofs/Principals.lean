import MultipleDispatch.Proofs.Subsets

/-!
Who represents a part of a group. A part is named after the candidate that heads it, but its
signature is taken from its principal, which is searched for among the renumbered members. Where
types are partially ordered, the search ends at the first candidate of the group that declares the
head's parameter types. That is the head itself unless an earlier candidate declares the same types;
then the part has the parameter types of its head and the result type of that other candidate.
-/

namespace MultipleDispatch.Group

variable {T : Type} {g : Group T} {keep : Fin g.size → Bool} {some_kept : ∃ c, keep c = true}

/-! ### Numbers in a part -/

/-- The number that a member of a part has in the whole group. -/
def origin (g : Group T) (keep : Fin g.size → Bool) (some_kept : ∃ c, keep c = true)
    (a : Fin (g.only keep some_kept).size) : Fin g.size :=
  (g.ids.filter keep).get (a.cast (List.length_map g.member))

theorem member_only (a : Fin (g.only keep some_kept).size) :
    (g.only keep some_kept).member a = g.member (g.origin keep some_kept a) :=
  List.getElem_map g.member

theorem keep_origin (a : Fin (g.only keep some_kept).size) :
    keep (g.origin keep some_kept a) = true :=
  (List.mem_filter.1 (List.get_mem _ _)).2

theorem exists_origin_eq (some_kept : ∃ c, keep c = true) {c : Fin g.size} (hc : keep c = true) :
    ∃ a, g.origin keep some_kept a = c := by
  obtain ⟨a, ha⟩ := List.get_of_mem (List.mem_filter.2 ⟨List.mem_finRange c, hc⟩)
  exact ⟨a.cast (List.length_map g.member).symm, ha⟩

/-- Renumbering keeps the order. -/
theorem lt_of_origin_lt {a b : Fin (g.only keep some_kept).size}
    (h : g.origin keep some_kept a < g.origin keep some_kept b) : a < b := by
  have hsorted : (g.ids.filter keep).Pairwise (· < ·) := (List.pairwise_lt_finRange _).filter _
  have hmono := List.pairwise_iff_get.1 hsorted
  rcases lt_trichotomy a b with hab | rfl | hba
  · exact hab
  · exact absurd h (lt_irrefl _)
  · exact absurd h (lt_asymm (hmono _ _ hba))

/-! ### The principal of a part -/

/-- `p` is the first candidate that declares the same parameter types as `f`. -/
def FirstAlike (g : Group T) (f p : Fin g.size) : Prop :=
  g.signature p = g.signature f ∧ ∀ c < p, g.signature c ≠ g.signature f

theorem FirstAlike.eq_self {f p : Fin g.size} (h : g.FirstAlike f p)
    (hfirst : ∀ c < f, g.signature c ≠ g.signature f) : p = f := by
  rcases lt_trichotomy p f with hlt | heq | hlt
  · exact absurd h.1 (hfirst p hlt)
  · exact heq
  · exact absurd rfl (h.2 f hlt)

variable [BEq T] {s : Subtyping T} {f : Fin g.size}

/-- The principal of the part of all that dominate `f` is the first candidate like `f`. -/
theorem firstAlike_principal [ReflBEq T] (anti : s.Antisymmetric)
    (hkeep : ∀ c, keep c = true ↔ g.dominates s c f = true) (some_kept : ∃ c, keep c = true)
    {q : Fin (g.only keep some_kept).size} (hq : (g.only keep some_kept).principal? s = some q) :
    g.FirstAlike f (g.origin keep some_kept q) := by
  obtain ⟨_, hall, hfirst⟩ := principal?_eq_some.1 hq
  constructor
  · obtain ⟨a, ha⟩ := exists_origin_eq some_kept ((hkeep f).2 (dominates_refl s g f))
    have hfq := hall a
    rw [dominates_only (member_only a) (member_only q), ha] at hfq
    exact signature_eq_of_dominates anti ((hkeep _).1 (keep_origin q)) hfq
  · intro c hc hsig
    have htype := signature_eq_iff.1 hsig
    have hcf : g.dominates s c f = true := by
      rw [dominates, htype]
      exact dominates_refl s g f
    -- A candidate like `f` is in the part and all members dominate it, so none comes before `q`.
    obtain ⟨a, rfl⟩ := exists_origin_eq some_kept ((hkeep c).2 hcf)
    obtain ⟨b, hb⟩ := hfirst a (lt_of_origin_lt hc)
    rw [dominates_only (member_only b) (member_only a), dominates, htype, ← dominates,
      (hkeep _).1 (keep_origin b)] at hb
    cases hb

/-! ### The signature of a part -/

variable [ToString T]

/-- The signature of a compiled part comes from the first candidate that declares the parameter types
    of its head, and has these types for its domain. It is the head's own unless an earlier candidate
    declares the same types. -/
theorem subsets_represented [ReflBEq T] (anti : s.Antisymmetric) (policy : Policy)
    {compiled : Compiled T} (h : (g.compile s policy).run.value = .ok compiled) :
    ∀ sub ∈ compiled.subsets, ∃ f p : Fin g.size, f.val = sub.principal ∧
      sub.name = (g.candidate f).shown ∧ g.FirstAlike f p ∧
      (∃ q, sub.entry.signature.principal = some q ∧
        sub.entry.group.candidate q = g.candidate p) ∧
      sub.entry.signature.result = (g.candidate p).result ∧
      sub.entry.signature.domain = g.signature f ∧
      ((∀ c < f, g.signature c ≠ g.signature f) → p = f) := by
  rw [value_compile policy (variadicFree_of_compile h)] at h
  obtain rfl := Except.ok.inj h
  intro sub hsub
  obtain ⟨part, hpart, rfl⟩ := List.mem_map.1 hsub
  obtain ⟨f, hsome, rfl⟩ := exists_of_mem_subsets hpart
  obtain ⟨q, hq⟩ := exists_principal_headedBy hsome
  have halike := firstAlike_principal anti (fun _ => keeps_iff_dominates) ⟨f, by simp⟩ hq
  have hmember : (g.headedBy s f).group.member q = g.member (g.origin _ ⟨f, by simp⟩ q) :=
    member_only q
  refine ⟨f, _, rfl, rfl, halike, ⟨q, ?_, ?_⟩, ?_, ?_, halike.eq_self⟩
  · simp only [combined, hq]
  · exact congrArg Member.candidate hmember
  · simp only [combined, hq]
    exact congrArg (fun m => m.candidate.result) hmember
  · simp only [combined, hq]
    exact (congrArg Member.signature hmember).trans halike.1

/-- The second candidate heads a part of two, where it comes first. -/
theorem subsets_represented_ladder :
    let g : Group (Fin 3) := ofPairs (2, 2) [(1, 1), (1, 0), (2, 0)]
    let f : Fin g.size := ⟨1, by decide⟩
    (∀ c < f, g.signature c ≠ g.signature f) ∧
      ∃ compiled, (g.compile .ladder .default).run.value = .ok compiled ∧
        ∃ sub ∈ compiled.subsets, sub.principal = 1 ∧
          (∃ q, sub.entry.signature.principal = some q ∧
            sub.entry.group.candidate q = g.candidate f) ∧
          sub.entry.signature.domain = [1, 1] := by
  intro g f
  have hfirst : ∀ c < f, g.signature c ≠ g.signature f := by decide
  have hcompile := value_compile (s := .ladder) .default
    (variadicFree_ofPairs (2, 2) [(1, 1), (1, 0), (2, 0)])
  have hpart : g.headedBy .ladder f ∈ g.subsets .ladder := List.mem_map_of_mem (by decide)
  obtain ⟨f', p, hf, _, _, hq, _, hdomain, heq⟩ := subsets_represented
    Subtyping.antisymmetric_ladder .default hcompile _ (List.mem_map_of_mem hpart)
  obtain rfl : f' = f := Fin.ext hf
  rw [heq hfirst] at hq
  exact ⟨hfirst, _, hcompile, _, List.mem_map_of_mem hpart, rfl, hq, hdomain⟩

/-! ### A part that is represented by another candidate -/

/-- A group `f` with a candidate for every given home, parameter type and result type. -/
def ofHomes (first : String × T × T) (others : List (String × T × T)) : Group T where
  name := "f"
  arity := 1
  members := (first :: others).map fun p =>
    { candidate := ⟨p.1, "f", [⟨"x", some p.2.1, false⟩], p.2.2, []⟩
      signature := [p.2.1]
      name_eq := rfl
      declared := rfl
      length_eq := rfl }
  nonempty := by simp

/-- Two homes declare the same parameter type and different result types. The part named after the
    second of them has the signature of the first. -/
theorem represented_by_namesake :
    let g : Group (Fin 3) := ofHomes ("a", 1, 0) [("b", 1, 1), ("a", 2, 2)]
    let f : Fin g.size := ⟨1, by decide⟩
    Subtyping.ladder.Transitive ∧ Subtyping.ladder.Antisymmetric ∧
      ∃ compiled, (g.compile .ladder .default).run.value = .ok compiled ∧
        ∃ sub ∈ compiled.subsets, sub.principal = f.val ∧ sub.name = (g.candidate f).shown ∧
          (∃ q, sub.entry.signature.principal = some q ∧
            sub.entry.group.candidate q ≠ g.candidate f) ∧
          sub.entry.signature.result ≠ (g.candidate f).result := by
  intro g f
  have hv : g.VariadicFree := by
    unfold VariadicFree
    decide
  have hcompile := value_compile (s := .ladder) .default hv
  have hpart : g.headedBy .ladder f ∈ g.subsets .ladder := List.mem_map_of_mem (by decide)
  refine ⟨Subtyping.transitive_ladder, Subtyping.antisymmetric_ladder, _, hcompile, _,
    List.mem_map_of_mem hpart, rfl, rfl, ⟨⟨0, by decide⟩, by decide, fun heq => ?_⟩, by decide⟩
  have hresult : (0 : Fin 3) = 1 := congrArg Candidate.result heq
  cases hresult

end MultipleDispatch.Group
