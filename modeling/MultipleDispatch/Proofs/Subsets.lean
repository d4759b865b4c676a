import MultipleDispatch.Proofs.Compilation

/-!
Entry points of parts. The trees of a group and of a part of it are grown from different candidates
and need not test the same parameters, nor for the same types. Still a call goes to the same
candidate in both, as long as the part keeps the best candidate for it: leaving others out takes
nothing away from the best one. The part that a candidate heads keeps whatever dominates that
candidate, so it keeps the best candidate for every call to which the head is applicable.
-/

namespace MultipleDispatch

variable {T : Type}

namespace Group

variable [BEq T] {s : Subtyping T} {g : Group T} {args : Fin g.arity → T} {m : Fin g.size}

/-! ### The best candidate in a part of the group -/

/-- A call with a best candidate `m` goes to `x` if all that dominate `m` and are dominated by it,
    `m` among them, are `x`. -/
theorem resolve?_of_best [LawfulBEq T] (trans : s.Transitive) (policy : Policy)
    (hbest : g.Best s args m) (hline : g.InLine s args m) {x : Candidate T}
    (hx : ∀ e, g.dominates s e m = true → g.dominates s m e = true → g.candidate e = x) :
    (⟨g, (g.tree s policy).value⟩ : Dispatch T).resolve? s (List.ofFn args) = some x := by
  obtain ⟨c, hres, hc, _⟩ := selects_of_inLine trans policy hbest hline
  rw [hres, hx c (hc.2 m hbest.1) (hbest.2 c hc.1)]

variable {keep : Fin g.size → Bool} {some_kept : ∃ c, keep c = true}

theorem applicable_only {a : Fin (g.only keep some_kept).size} {c : Fin g.size}
    (hac : (g.only keep some_kept).member a = g.member c) :
    (g.only keep some_kept).Applicable s args a ↔ g.Applicable s args c := by
  simp only [Applicable, type, hac]
  rfl

/-- The best candidate is the best in every part that keeps it. -/
theorem Best.only (hbest : g.Best s args m) {a : Fin (g.only keep some_kept).size}
    (ham : (g.only keep some_kept).member a = g.member m) :
    (g.only keep some_kept).Best s args a := by
  refine ⟨(applicable_only ham).2 hbest.1, fun b hb => ?_⟩
  obtain ⟨c, _, hbc⟩ := exists_of_only b
  rw [dominates_only ham hbc]
  exact hbest.2 c ((applicable_only hbc).1 hb)

theorem InLine.only (hline : g.InLine s args m) {a : Fin (g.only keep some_kept).size}
    (ham : (g.only keep some_kept).member a = g.member m) :
    (g.only keep some_kept).InLine s args a := by
  intro i b hb
  obtain ⟨c, _, hbc⟩ := exists_of_only b
  rw [type, hbc] at hb
  rw [type, type, ham, hbc]
  exact hline i c hb

/-- A part that keeps the best candidate for a call answers the call with it, if it is the only best
    candidate in the whole group. -/
theorem resolve?_only [LawfulBEq T] (trans : s.Transitive) (policy : Policy)
    (hbest : g.Best s args m) (hline : g.InLine s args m)
    (huniq : ∀ e, g.dominates s e m = true → g.dominates s m e = true → e = m)
    (some_kept : ∃ c, keep c = true) (hkeep : keep m = true) :
    (⟨g.only keep some_kept, ((g.only keep some_kept).tree s policy).value⟩ :
      Dispatch T).resolve? s (List.ofFn args) = some (g.candidate m) := by
  obtain ⟨a, ham⟩ : ∃ a, (g.only keep some_kept).member a = g.member m := exists_only_of hkeep
  refine resolve?_of_best trans policy (hbest.only ham) (hline.only ham) fun b hba hab => ?_
  obtain ⟨c, _, hbc⟩ := exists_of_only b
  rw [dominates_only hbc ham] at hba
  rw [dominates_only ham hbc] at hab
  rw [candidate, hbc, huniq c hba hab, candidate]

/-! ### Compiled parts -/

variable [ToString T]

theorem variadicFree_of_compile {policy : Policy} {compiled : Compiled T}
    (h : (g.compile s policy).run.value = .ok compiled) : g.VariadicFree := by
  rw [compile, Traced.value_run_bind, bind_eq_ok] at h
  obtain ⟨entry, hentry, _⟩ := h
  rw [entryPoint, Traced.value_run_bind, bind_eq_ok] at hentry
  obtain ⟨t, ht, _⟩ := hentry
  exact variadicFree_of_prepare ht

/-- A call with a single best candidate goes to it from the entry point of the group and from that
    of every part whose head is applicable to the call. -/
theorem subsets_resolve_alike [LawfulBEq T] (trans : s.Transitive) (policy : Policy)
    {compiled : Compiled T} (h : (g.compile s policy).run.value = .ok compiled) :
    ∀ sub ∈ compiled.subsets, ∃ f : Fin g.size, f.val = sub.principal ∧
      ∀ (args : Fin g.arity → T) (m : Fin g.size), g.Applicable s args f → g.Best s args m →
        (∀ e, g.dominates s e m = true → g.dominates s m e = true → e = m) → g.InLine s args m →
          sub.entry.resolve? s (List.ofFn args) = some (g.candidate m) ∧
            compiled.entry.resolve? s (List.ofFn args) = some (g.candidate m) := by
  rw [value_compile policy (variadicFree_of_compile h)] at h
  obtain rfl := Except.ok.inj h
  intro sub hsub
  obtain ⟨part, hpart, rfl⟩ := List.mem_map.1 hsub
  obtain ⟨f, _, rfl⟩ := exists_of_mem_subsets hpart
  refine ⟨f, rfl, fun args m hf hbest huniq hline => ⟨?_, ?_⟩⟩
  · exact resolve?_only trans policy hbest hline huniq ⟨f, by simp⟩
      (keeps_iff_dominates.2 (hbest.2 f hf))
  · refine resolve?_of_best trans policy hbest hline fun e hem hme => ?_
    rw [huniq e hem hme]

/-- The second candidate heads a part of two. The call with 0 and 0 is not the signature of any
    candidate; the third is the best for it. -/
theorem subsets_resolve_alike_ladder :
    let g : Group (Fin 3) := ofPairs (2, 2) [(1, 1), (1, 0), (2, 0)]
    let m : Fin g.size := ⟨2, by decide⟩
    g.Best .ladder (fun _ => 0) m ∧ g.InLine .ladder (fun _ => 0) m ∧
      ∃ compiled, (g.compile .ladder .default).run.value = .ok compiled ∧
        ∃ sub ∈ compiled.subsets, sub.principal = 1 ∧
          sub.entry.resolve? .ladder [0, 0] = some (g.candidate m) ∧
          compiled.entry.resolve? .ladder [0, 0] = some (g.candidate m) := by
  intro g m
  have hbest : g.Best .ladder (fun _ => 0) m := by decide
  have hline : g.InLine .ladder (fun _ => 0) m := by
    unfold InLine Subtyping.Comparable
    decide
  have hcompile := value_compile (s := .ladder) .default
    (variadicFree_ofPairs (2, 2) [(1, 1), (1, 0), (2, 0)])
  have hpart : g.headedBy .ladder ⟨1, by decide⟩ ∈ g.subsets .ladder :=
    List.mem_map_of_mem (by decide)
  obtain ⟨f, hf, halike⟩ := subsets_resolve_alike Subtyping.transitive_ladder .default hcompile _
    (List.mem_map_of_mem hpart)
  obtain rfl : f = ⟨1, by decide⟩ := Fin.ext hf
  refine ⟨hbest, hline, _, hcompile, _, List.mem_map_of_mem hpart, rfl, ?_⟩
  exact halike (fun _ => 0) m (by decide) hbest (by decide) hline

end Group

end MultipleDispatch
