import MultipleDispatch.Compilation
import MultipleDispatch.Proofs.Attempts
import MultipleDispatch.Proofs.Execution

/-!
Entry points are safe. A group that has a principal can be called with whatever the principal
accepts: the call reaches a candidate, and that candidate accepts all arguments, those that were
tested on the way and those that were not. The parts of a group have a principal by construction, so
this holds of all their entry points.
-/

namespace MultipleDispatch

variable {T : Type}

namespace Group

/-! ### A part of a group -/

variable {g : Group T} {keep : Fin g.size → Bool} {some_kept : ∃ c, keep c = true}

/-- The members of a part are members of the group. -/
theorem exists_of_only (a : Fin (g.only keep some_kept).size) :
    ∃ c, keep c = true ∧ (g.only keep some_kept).member a = g.member c := by
  obtain ⟨c, hc, hmem⟩ := List.mem_map.1 (List.get_mem (g.only keep some_kept).members a)
  exact ⟨c, (List.mem_filter.1 hc).2, hmem.symm⟩

/-- The members that are kept are members of the part. -/
theorem exists_only_of {c : Fin g.size} (hc : keep c = true) :
    ∃ a, (g.only keep some_kept).member a = g.member c := by
  have hmem : g.member c ∈ (g.only keep some_kept).members :=
    List.mem_map_of_mem (List.mem_filter.2 ⟨List.mem_finRange c, hc⟩)
  exact List.get_of_mem hmem

theorem VariadicFree.only (hv : g.VariadicFree) (some_kept : ∃ c, keep c = true) :
    (g.only keep some_kept).VariadicFree := by
  intro a i
  obtain ⟨c, _, hc⟩ := exists_of_only a
  rw [hc]
  exact hv c i

theorem one_lt_size_only {c d : Fin g.size} (hne : c ≠ d) (hc : keep c = true)
    (hd : keep d = true) : 1 < (g.only keep some_kept).size := by
  have hsub : [c, d] ⊆ g.ids.filter keep := by
    intro x hx
    rcases List.mem_cons.1 hx with rfl | hx
    · exact List.mem_filter.2 ⟨List.mem_finRange x, hc⟩
    · rw [List.mem_singleton.1 hx]
      exact List.mem_filter.2 ⟨List.mem_finRange d, hd⟩
  have hdiff : [c, d].Nodup := by simpa using hne
  have hlen : 2 ≤ (g.ids.filter keep).length := hdiff.length_le_of_subset hsub
  rwa [← List.length_map g.member] at hlen

variable [BEq T] {s : Subtyping T}

theorem dominates_only {a b : Fin (g.only keep some_kept).size} {c d : Fin g.size}
    (hac : (g.only keep some_kept).member a = g.member c)
    (hbd : (g.only keep some_kept).member b = g.member d) :
    (g.only keep some_kept).dominates s a b = g.dominates s c d := by
  simp only [dominates, indices, type, hac, hbd]
  rfl

/-! ### Principals -/

theorem dominates_of_principal? {p : Fin g.size} (hp : g.principal? s = some p) (c : Fin g.size) :
    g.dominates s c p = true :=
  (principal?_eq_some.1 hp).2.1 c

/-- A part of two or more candidates has a principal if all dominate one of them. -/
theorem exists_principal_only {f d : Fin g.size} (hne : d ≠ f) (hf : keep f = true)
    (hd : keep d = true) (hall : ∀ c, keep c = true → g.dominates s c f = true) :
    ∃ p, (g.only keep ⟨f, hf⟩).principal? s = some p := by
  have hover : (g.only keep ⟨f, hf⟩).isOverloaded = true :=
    decide_eq_true (one_lt_size_only hne hd hf)
  rw [principal?, if_pos hover, ← Option.isSome_iff_exists, List.find?_isSome]
  obtain ⟨a, ha⟩ := exists_only_of hf
  refine ⟨a, List.mem_finRange a, List.all_eq_true.2 fun b _ => ?_⟩
  obtain ⟨c, hc, hb⟩ := exists_of_only b
  rw [dominates_only hb ha]
  exact hall c hc

/-- The part that `f` heads keeps just what dominates `f`. -/
theorem keeps_iff_dominates [ReflBEq T] {c f : Fin g.size} :
    (c == f || (g.dominating s f).contains c) = true ↔ g.dominates s c f = true := by
  by_cases hcf : c = f
  · simp [hcf, dominates_refl s g f]
  · simp [dominating, ids, hcf]

/-- The part that `f` heads has a principal. -/
theorem exists_principal_headedBy [ReflBEq T] [ToString T] {f : Fin g.size}
    (hsome : g.dominating s f ≠ []) : ∃ p, (g.headedBy s f).group.principal? s = some p := by
  obtain ⟨d, hd⟩ := List.exists_mem_of_ne_nil _ hsome
  have hdf := (List.mem_filter.1 hd).2
  rw [Bool.and_eq_true, bne_iff_ne] at hdf
  exact exists_principal_only hdf.1 (by simp) (by simp [hd]) fun c hc => keeps_iff_dominates.1 hc

end Group

/-! ### Safe entry points -/

variable [BEq T] {s : Subtyping T} {g : Group T}

/-- Every call within the domain of the entry point goes to a candidate that accepts all arguments.
    The program runs to the call of that candidate, on the way it casts all arguments to the types
    that the candidate declares, and each of its casts is one to a type that the argument fits. -/
def EntryPoint.Safe (s : Subtyping T) (e : EntryPoint T) : Prop :=
  ∀ args : Fin e.group.arity → T,
    (∀ i : Fin e.group.arity, ∀ t ∈ e.signature.domain[i.val]?, s.fits (args i) t = true) →
      ∃ c, e.resolve? s (List.ofFn args) = some (e.group.candidate c) ∧
        e.group.Applicable s args c ∧
        ∃ visited ending, e.tree.program.Run s (List.ofFn args) 0 none visited ending ∧
          ending.called? = some (e.group.candidate c) ∧
          (∀ i : Fin e.group.arity, ∃ pc ∈ visited,
            e.tree.program.instructions[pc]? = some (.downcast i (e.group.type c i))) ∧
          ∀ pc ∈ visited, ∀ j t, e.tree.program.instructions[pc]? = some (.downcast j t) →
            ∃ a ∈ (List.ofFn args)[j]?, s.fits a t = true

namespace Group

/-- The entry point of a group with a principal is safe. -/
theorem safe_of_principal? [LawfulBEq T] (trans : s.Transitive) (policy : Policy) {p : Fin g.size}
    (hp : g.principal? s = some p) :
    EntryPoint.Safe s ⟨⟨g, (g.tree s policy).value⟩, g.combined s⟩ := by
  intro args hargs
  have hdomain : (g.combined s).domain = g.signature p := by rw [combined, hp]
  have happ : g.Applicable s args p := by
    intro i
    refine hargs i _ ?_
    rw [hdomain, getElem?_signature]
    rfl
  -- Every declared type fits the principal's, so they are all comparable with it.
  have hline : g.InLine s args p :=
    fun i c _ => Or.inr (dominates_eq_true.1 (dominates_of_principal? hp c) i)
  obtain ⟨c, hwalk, hc, _⟩ := walk_of_heir trans policy happ hline
  obtain ⟨visited, ending, hrun, _, hcalled, hcasts⟩ :=
    (g.tree s policy).value.dispatches_program s (List.ofFn args) List.length_ofFn
  rw [Tree.resolve?_ofFn, hwalk] at hcalled hcasts
  refine ⟨c, ?_, hc, visited, ending, hrun, hcalled, fun i => ?_, fun pc hpc j t hcast => ?_⟩
  · rw [Dispatch.resolve?_ofFn, hwalk, Option.map_some]
  · exact (hcasts i (g.type c i)).2 ⟨c, rfl, i, rfl, rfl⟩
  · obtain ⟨d, hd, i, rfl, rfl⟩ := (hcasts j t).1 ⟨pc, hpc, hcast⟩
    cases hd
    exact ⟨args i, by simp, hc i⟩

/-! ### Compiled groups -/

variable [ToString T]

theorem exists_of_mem_subsets {part : Subset T g.size} (hpart : part ∈ g.subsets s) :
    ∃ f, g.dominating s f ≠ [] ∧ part = g.headedBy s f := by
  obtain ⟨f, hf, rfl⟩ := List.mem_map.1 hpart
  have hsome := (Bool.and_eq_true_iff.1 (List.mem_filter.1 hf).2).1
  exact ⟨f, by simpa using hsome, rfl⟩

theorem variadicFree_of_mem_subsets (hv : g.VariadicFree) {part : Subset T g.size}
    (hpart : part ∈ g.subsets s) : part.group.VariadicFree := by
  obtain ⟨f, _, rfl⟩ := exists_of_mem_subsets hpart
  exact hv.only ⟨f, by simp⟩

theorem value_entryPoint (policy : Policy) (hv : g.VariadicFree) :
    (g.entryPoint s policy).run.value = .ok ⟨⟨g, (g.tree s policy).value⟩, g.combined s⟩ := by
  rw [entryPoint, Traced.value_run_bind_ok (value_prepare policy hv)]
  rfl

/-- A group without variadic parameters is compiled, and so are its parts. -/
theorem value_compile (policy : Policy) (hv : g.VariadicFree) :
    (g.compile s policy).run.value = .ok
      { entry := ⟨⟨g, (g.tree s policy).value⟩, g.combined s⟩
        subsets := (g.subsets s).map fun part => ⟨part.name, part.principal,
          ⟨⟨part.group, (part.group.tree s policy).value⟩, part.group.combined s⟩⟩ } := by
  have hparts : ∀ part ∈ g.subsets s,
      (do return (⟨part.name, part.principal, ← part.group.entryPoint s policy⟩ : SubsetEntry T) :
        Attempt T _).run.value = .ok ⟨part.name, part.principal,
          ⟨⟨part.group, (part.group.tree s policy).value⟩, part.group.combined s⟩⟩ := by
    intro part hpart
    rw [Traced.value_run_bind_ok (value_entryPoint policy (variadicFree_of_mem_subsets hv hpart))]
    rfl
  rw [compile, Traced.value_run_bind_ok (value_entryPoint policy hv),
    Traced.value_run_bind_ok (Traced.value_run_mapM_ok hparts)]
  rfl

/-- Compiling a group without variadic parameters gives safe entry points for all its parts, and a
    safe one for the group itself if it has a principal. -/
theorem compile_safe [LawfulBEq T] (trans : s.Transitive) (policy : Policy) (hv : g.VariadicFree) :
    ∃ t subsets, (g.prepare s policy).run.value = .ok t ∧
      (g.compile s policy).run.value = .ok ⟨⟨⟨g, t⟩, g.combined s⟩, subsets⟩ ∧
      (∀ p, g.principal? s = some p → EntryPoint.Safe s ⟨⟨g, t⟩, g.combined s⟩) ∧
      ∀ sub ∈ subsets, sub.entry.Safe s := by
  refine ⟨_, _, value_prepare policy hv, value_compile policy hv, ?_, ?_⟩
  · intro p hp
    exact safe_of_principal? trans policy hp
  · intro sub hsub
    obtain ⟨part, hpart, rfl⟩ := List.mem_map.1 hsub
    obtain ⟨f, hsome, rfl⟩ := exists_of_mem_subsets hpart
    obtain ⟨p, hp⟩ := exists_principal_headedBy hsome
    exact safe_of_principal? trans policy hp

/-- The first candidate is the principal, so the call with 1 and 1 is safe although neither the
    second nor the third is applicable. The second heads a part of its own. -/
theorem compile_safe_diamond :
    let g : Group (Fin 4) := ofPairs (3, 3) [(1, 2), (2, 1), (0, 0)]
    g.principal? .diamond = some ⟨0, by decide⟩ ∧
      ∃ t subsets, (g.compile .diamond .default).run.value =
          .ok ⟨⟨⟨g, t⟩, g.combined .diamond⟩, subsets⟩ ∧
        (∃ c, (⟨g, t⟩ : Dispatch (Fin 4)).resolve? .diamond [1, 1] = some (g.candidate c) ∧
          g.Applicable .diamond (fun _ => 1) c) ∧
        ∃ sub ∈ subsets, sub.principal = 1 ∧ sub.entry.Safe .diamond := by
  intro g
  have hv : g.VariadicFree := variadicFree_ofPairs _ _
  have hp : g.principal? .diamond = some ⟨0, by decide⟩ := by decide
  obtain ⟨t, subsets, _, hcompile, hentry, hsubsets⟩ :=
    compile_safe Subtyping.transitive_diamond .default hv
  refine ⟨hp, t, subsets, hcompile, ?_, ?_⟩
  · have hargs : ∀ i : Fin 2, ∀ u ∈ (g.combined .diamond).domain[i.val]?,
        Subtyping.diamond.fits 1 u = true := by decide
    obtain ⟨c, hc, happ, _⟩ := hentry _ hp (fun _ => 1) hargs
    exact ⟨c, hc, happ⟩
  · rw [value_compile .default hv] at hcompile
    obtain ⟨_, rfl⟩ := Compiled.mk.inj (Except.ok.inj hcompile)
    have hpart : g.headedBy .diamond ⟨1, by decide⟩ ∈ g.subsets .diamond :=
      List.mem_map_of_mem (by decide)
    exact ⟨_, List.mem_map_of_mem hpart, rfl, hsubsets _ (List.mem_map_of_mem hpart)⟩

end Group

end MultipleDispatch
