import MultipleDispatch.Proofs.Growth

/-!
Which candidate a call goes to. The proofs follow one applicable candidate `m` down the tree. It may
be thinned out on the way, but some candidate that declares the same types wherever nothing was
tested takes its place: its heir. `Heir` is the invariant of the nodes that a walk comes to,
`walk_of_heir` what it means at the end.
-/

namespace MultipleDispatch

variable {T : Type} [BEq T] {s : Subtyping T} {g : Group T}

namespace Group

/-- Every argument fits the type that `c` declares for it. -/
def Applicable (s : Subtyping T) (g : Group T) (args : Fin g.arity → T) (c : Fin g.size) : Prop :=
  ∀ i, s.fits (args i) (g.type c i) = true

/-- `m` is applicable and dominates every candidate that is. -/
def Best (s : Subtyping T) (g : Group T) (args : Fin g.arity → T) (m : Fin g.size) : Prop :=
  g.Applicable s args m ∧ ∀ c, g.Applicable s args c → g.dominates s m c = true

/-- Wherever an argument fits a declared type, that type and the one of `m` are comparable. -/
def InLine (s : Subtyping T) (g : Group T) (args : Fin g.arity → T) (m : Fin g.size) : Prop :=
  ∀ i c, s.fits (args i) (g.type c i) = true → s.Comparable (g.type m i) (g.type c i)

instance (s : Subtyping T) (g : Group T) (args : Fin g.arity → T) (c : Fin g.size) :
    Decidable (g.Applicable s args c) :=
  inferInstanceAs (Decidable (∀ _, _))

instance (s : Subtyping T) (g : Group T) (args : Fin g.arity → T) (m : Fin g.size) :
    Decidable (g.Best s args m) :=
  inferInstanceAs (Decidable (_ ∧ ∀ _, _))

/-- What the candidates `cs` left at a node have to do with `m`, if the call `args` comes there. -/
structure Heir (s : Subtyping T) (g : Group T) (args : Fin g.arity → T) (m : Fin g.size)
    (tested : IndexSet) (cs : List (Fin g.size)) : Prop where
  /-- The arguments tested so far fit every candidate that is left. -/
  sound : ∀ c ∈ cs, ∀ i : Fin g.arity, tested.contains i = true →
    s.fits (args i) (g.type c i) = true
  /-- One of them declares what `m` does wherever nothing was tested, and is no worse than `m` if
      `m` is the best. -/
  heir : ∃ c ∈ cs, g.agree tested c m = true ∧ (g.Best s args m → g.dominates s c m = true)

variable {args : Fin g.arity → T} {m : Fin g.size} {tested : IndexSet} {cs : List (Fin g.size)}

/-- A candidate whose type the argument fits goes down the first edge whose type the argument fits,
    if the types that come into question are comparable with its own. -/
theorem mem_accepting_of_fits [LawfulBEq T] (trans : s.Transitive) {i : Fin g.arity} {arg : T}
    {c : Fin g.size} (hc : c ∈ cs) (hfits : s.fits arg (g.type c i) = true)
    (hline : ∀ d ∈ cs, s.fits arg (g.type d i) = true → s.Comparable (g.type c i) (g.type d i))
    {before after : List T} {t : T} (htypes : g.testedTypes s cs i = before ++ t :: after)
    (hbefore : ∀ u ∈ before, s.fits arg u = false) (ht : s.fits arg t = true) :
    c ∈ g.accepting s i t (g.unclaimedBy i before cs) := by
  have hunclaimed : g.type c i ∉ before := by
    intro hmem
    have hno := hbefore _ hmem
    rw [hfits] at hno
    cases hno
  refine mem_accepting.2 ⟨mem_unclaimedBy.2 ⟨hc, hunclaimed⟩, ?_⟩
  -- The edge of type `t` comes no later than the one that claims the candidate.
  have hmem : g.type c i ∈ before ++ t :: after := by
    rw [← htypes]
    exact mem_testedTypes.2 ⟨c, hc, rfl⟩
  rcases List.mem_cons.1 ((List.mem_append.1 hmem).resolve_left hunclaimed) with heq | hafter
  · rw [heq]
    exact s.fits_refl t
  · have hord := ordered_testedTypes trans cs i
    rw [htypes] at hord
    have hlater := (List.pairwise_cons.1 (List.pairwise_append.1 hord).2.1).1 _ hafter
    obtain ⟨d, hd, rfl⟩ : ∃ d ∈ cs, g.type d i = t := by
      refine (mem_testedTypes (s := s)).1 ?_
      rw [htypes]
      exact List.mem_append_right _ List.mem_cons_self
    exact (hline d hd ht).elim hlater id

/-- If the argument fits the type of a candidate that is left, some edge is taken: the first whose
    type the argument fits. -/
theorem exists_edge_of_fits [LawfulBEq T] (args : Fin g.arity → T) {i : Fin g.arity}
    {edges : Edges g} (htypes : edges.toList.map Prod.fst = g.testedTypes s cs i)
    {c : Fin g.size} (hc : c ∈ cs) (hfits : s.fits (args i) (g.type c i) = true) :
    ∃ before t child after, edges.toList = before ++ (t, child) :: after ∧
      g.testedTypes s cs i = before.map Prod.fst ++ t :: after.map Prod.fst ∧
      (∀ u ∈ before.map Prod.fst, s.fits (args i) u = false) ∧ s.fits (args i) t = true ∧
      edges.walk s args (args i) = child.walk s args := by
  -- The edge of the candidate's own type would do.
  obtain ⟨⟨t, child⟩, hfind⟩ :
      ∃ e, edges.toList.find? (fun e => s.fits (args i) e.1) = some e := by
    rw [← Option.isSome_iff_exists, List.find?_isSome]
    have hmem : g.type c i ∈ edges.toList.map Prod.fst := by
      rw [htypes]
      exact mem_testedTypes.2 ⟨c, hc, rfl⟩
    obtain ⟨e, he, hei⟩ := List.mem_map.1 hmem
    exact ⟨e, he, by rw [hei]; exact hfits⟩
  obtain ⟨ht, before, after, hsplit, hbefore⟩ := List.find?_eq_some_iff_append.1 hfind
  refine ⟨before, t, child, after, hsplit, ?_, fun u hu => ?_, ht, ?_⟩
  · rw [← htypes, hsplit, List.map_append, List.map_cons]
  · obtain ⟨e, he, rfl⟩ := List.mem_map.1 hu
    simpa using hbefore e he
  · rw [Edges.walk_eq_find, hfind, Option.bind_some]

/-- At the root `m` is its own heir. -/
theorem heir_ids [ReflBEq T] (s : Subtyping T) (args : Fin g.arity → T) (m : Fin g.size) :
    g.Heir s args m .empty g.ids where
  sound := fun _ _ i hi => by simp [IndexSet.contains, IndexSet.empty] at hi
  heir := ⟨m, List.mem_finRange m, agree_refl g _ m, fun _ => dominates_refl s g m⟩

namespace Heir

variable [LawfulBEq T]

/-- Whoever agrees with `m` on what is untested is applicable as well. -/
theorem applicable (h : g.Heir s args m tested cs) (happ : g.Applicable s args m) {c : Fin g.size}
    (hc : c ∈ cs) (hagree : g.agree tested c m = true) : g.Applicable s args c := by
  intro i
  cases hi : tested.contains i.val with
  | true => exact h.sound c hc i hi
  | false =>
    rw [agree_eq_true.1 hagree i hi]
    exact happ i

/-- The most specific candidate of a class of heirs inherits from all of them. -/
theorem mostSpecific (trans : s.Transitive) (h : g.Heir s args m tested cs) {k : Class (Fin g.size)}
    (hk : ∀ d ∈ k.members, d ∈ cs ∧ g.agree tested d m = true) {c : Fin g.size}
    (hc : c ∈ k.members) (hbest : g.Best s args m) (hdom : g.dominates s c m = true) :
    g.dominates s (g.mostSpecific s k) m = true := by
  refine dominates_trans trans (mostSpecific_dominates trans hc fun d hd => ?_) hdom
  have happ := h.applicable hbest.1 (hk d hd).1 (hk d hd).2
  exact dominates_trans trans hdom (hbest.2 d happ)

theorem representatives (trans : s.Transitive) (h : g.Heir s args m tested cs) :
    g.Heir s args m tested (g.representatives s tested cs).value := by
  obtain ⟨c, hc, hagree, hdom⟩ := h.heir
  obtain ⟨k, hck, hk, hrep⟩ := exists_representative hc
  have hkm : ∀ d ∈ k.members, d ∈ cs ∧ g.agree tested d m = true :=
    fun d hd => ⟨(hk d hd).1, agree_trans (hk d hd).2 hagree⟩
  refine ⟨fun d hd => h.sound d (representatives_subset hd), _, hrep, ?_, fun hbest => ?_⟩
  · exact (hkm _ (mostSpecific_mem s g k)).2
  · exact h.mostSpecific trans hkm hck hbest (hdom hbest)

/-- When nothing is left to test, all candidates agree and one of them is enough. -/
theorem single (trans : s.Transitive) (h : g.Heir s args m tested cs)
    (hu : g.untested tested = []) : g.Heir s args m tested (g.single s cs).value := by
  obtain ⟨c, hc, _, hdom⟩ := h.heir
  have hagree : ∀ d, g.agree tested d m = true := fun d => by simp [agree, hu]
  refine ⟨fun d hd => h.sound d (single_subset hd), ?_⟩
  cases cs with
  | nil => cases hc
  | cons a cs =>
    rw [value_single_cons]
    refine ⟨_, List.mem_cons_self, hagree _, fun hbest => ?_⟩
    exact h.mostSpecific trans (k := ⟨a, cs⟩) (fun d hd => ⟨hd, hagree d⟩) hc hbest (hdom hbest)

theorem reduce (trans : s.Transitive) (hw : tested.Within g.arity)
    (h : g.Heir s args m tested cs) : g.Heir s args m tested (g.reduce s tested cs).value := by
  rw [value_reduce_eq_representatives hw]
  exact h.representatives trans

/-- The heir goes down the first edge whose type the argument fits. -/
theorem accepting (trans : s.Transitive) (h : g.Heir s args m tested cs)
    (happ : g.Applicable s args m) (hline : g.InLine s args m) {i : Fin g.arity}
    (hi : tested.contains i = false) {before after : List T} {t : T}
    (htypes : g.testedTypes s cs i = before ++ t :: after)
    (hbefore : ∀ u ∈ before, s.fits (args i) u = false) (ht : s.fits (args i) t = true) :
    g.Heir s args m (tested.insert i) (g.accepting s i t (g.unclaimedBy i before cs)) := by
  obtain ⟨c, hc, hagree, hdom⟩ := h.heir
  have hci : g.type c i = g.type m i := agree_eq_true.1 hagree i hi
  refine ⟨fun d hd j hj => ?_, c, ?_, agree_insert hagree, hdom⟩
  · obtain ⟨hdu, hdt⟩ := mem_accepting.1 hd
    rcases IndexSet.contains_insert.1 hj with hji | hj
    · rw [Fin.ext hji]
      exact trans ht hdt
    · exact h.sound d (mem_unclaimedBy.1 hdu).1 j hj
  · refine mem_accepting_of_fits trans hc ?_ (fun d _ hd => ?_) htypes hbefore ht
    · rw [hci]
      exact happ i
    · rw [hci]
      exact hline i d hd

/-- Where nothing more is tested, the call goes to the heir. -/
theorem stop (trans : s.Transitive) (h : g.Heir s args m tested cs)
    (hstop : g.untested tested = [] ∨ cs.length ≤ 1) : ∃ c ∈ cs,
      (g.single s cs).value.head? = some c ∧ g.agree tested c m = true ∧
        (g.Best s args m → g.dominates s c m = true) := by
  have hsingle : g.Heir s args m tested (g.single s cs).value := by
    rcases hstop with hu | hlen
    · exact h.single trans hu
    · match cs, hlen with
      | [], _ => exact h
      | [_], _ => exact h
  obtain ⟨c, hc, hagree, hdom⟩ := hsingle.heir
  refine ⟨c, single_subset hc, ?_, hagree, hdom⟩
  cases cs with
  | nil => cases hc
  | cons a cs =>
    rw [value_single_cons, List.mem_singleton] at hc
    rw [value_single_cons, hc, List.head?_cons]

end Heir

/-- A call to which `m` is applicable goes to an applicable candidate, and to one that dominates `m`
    if `m` is the best. -/
theorem walk_of_heir [LawfulBEq T] (trans : s.Transitive) (policy : Policy)
    (happ : g.Applicable s args m) (hline : g.InLine s args m) :
    ∃ c, (g.tree s policy).value.walk s args = some c ∧ g.Applicable s args c ∧
      (g.Best s args m → g.dominates s c m = true) := by
  refine grow_induction s policy g
    (motive := fun tested cs t => g.Heir s args m tested cs → ∃ c, t.walk s args = some c ∧
      g.Applicable s args c ∧ (g.Best s args m → g.dominates s c m = true))
    ?stop ?fork g.arity .empty g.ids 0 (IndexSet.within_empty _) rfl (heir_ids s args m)
  case stop =>
    intro tested cs _ hstop hheir
    obtain ⟨c, hc, hhead, hagree, hdom⟩ := hheir.stop trans hstop
    exact ⟨c, hhead, hheir.applicable happ hc hagree, hdom⟩
  case fork =>
    intro tested cs i edges hw _ htests htypes ih hheir
    obtain ⟨h, hh, hagree, _⟩ := hheir.heir
    have hhi : g.type h i = g.type m i := agree_eq_true.1 hagree i htests.untested
    obtain ⟨before, t, child, after, hsplit, horder, hskipped, ht, hwalk⟩ :=
      exists_edge_of_fits args htypes hh (by rw [hhi]; exact happ i)
    have hchild := hheir.accepting trans happ hline htests.untested horder hskipped ht
    rw [Tree.walk, hwalk]
    exact ih before t child after hsplit (hchild.reduce trans (hw.insert i.isLt))

end Group

/-- The call `args` goes to the best candidate for it, and to `m` itself if no other candidate
    dominates `m` and is dominated by `m`. -/
def Dispatch.Selects (s : Subtyping T) (d : Dispatch T) (args : Fin d.group.arity → T)
    (m : Fin d.group.size) : Prop :=
  ∃ c, d.resolve? s (List.ofFn args) = some (d.group.candidate c) ∧ d.group.Best s args c ∧
    ((∀ e, d.group.dominates s e m = true → d.group.dominates s m e = true → e = m) → c = m)

namespace Group

variable {args : Fin g.arity → T} {m : Fin g.size}

theorem selects_of_inLine [LawfulBEq T] (trans : s.Transitive) (policy : Policy)
    (hbest : g.Best s args m) (hline : g.InLine s args m) :
    (⟨g, (g.tree s policy).value⟩ : Dispatch T).Selects s args m := by
  obtain ⟨c, hwalk, happ, hdom⟩ := walk_of_heir trans policy hbest.1 hline
  have hcm := hdom hbest
  refine ⟨c, ?_, ⟨happ, fun d hd => dominates_trans trans hcm (hbest.2 d hd)⟩, fun huniq => ?_⟩
  · rw [Dispatch.resolve?_ofFn, hwalk, Option.map_some]
  · exact huniq c hcm (hbest.2 c happ)

theorem inLine_of_singleInheritance (single : s.SingleInheritance) (happ : g.Applicable s args m) :
    g.InLine s args m :=
  fun i _ hc => single (happ i) hc

/-! ### A candidate called with its own types -/

theorem ofFn_type {T : Type} (g : Group T) (c : Fin g.size) :
    List.ofFn (g.type c) = g.signature c := by
  refine List.ext_get (by simp [signature, (g.member c).length_eq]) fun n h₁ h₂ => ?_
  simp [type, Member.type, signature]

theorem getElem?_signature {T : Type} (g : Group T) (c : Fin g.size) (i : Fin g.arity) :
    (g.signature c)[i.val]? = some (g.type c i) := by
  rw [← ofFn_type, List.getElem?_ofFn, dif_pos i.isLt]

theorem signature_eq_iff {T : Type} {g : Group T} {a b : Fin g.size} :
    g.signature a = g.signature b ↔ g.type a = g.type b := by
  rw [← ofFn_type, ← ofFn_type, List.ofFn_inj]

theorem best_type [ReflBEq T] (s : Subtyping T) (g : Group T) (m : Fin g.size) :
    g.Best s (g.type m) m :=
  ⟨fun i => s.fits_refl (g.type m i), fun _ hc => dominates_eq_true.2 hc⟩

theorem inLine_type (s : Subtyping T) (g : Group T) (m : Fin g.size) : g.InLine s (g.type m) m :=
  fun _ _ hc => Or.inl hc

theorem signature_eq_of_dominates (anti : s.Antisymmetric) {a b : Fin g.size}
    (hab : g.dominates s a b = true) (hba : g.dominates s b a = true) :
    g.signature a = g.signature b :=
  signature_eq_iff.2
    (funext fun i => anti (dominates_eq_true.1 hab i) (dominates_eq_true.1 hba i))

/-! ### Calls that reach a candidate -/

/-- A call goes to the best applicable candidate whenever the types that this candidate declares are
    comparable with all declared types that the arguments fit. With single inheritance they always
    are; and no candidate whose signature is its own is out of reach. -/
theorem selects_best [LawfulBEq T] [ToString T] (trans : s.Transitive) (policy : Policy)
    (hv : g.VariadicFree) : ∃ t, (g.prepare s policy).run.value = .ok t ∧
      (∀ args m, g.Best s args m → g.InLine s args m → (⟨g, t⟩ : Dispatch T).Selects s args m) ∧
      (s.SingleInheritance →
        ∀ args m, g.Best s args m → (⟨g, t⟩ : Dispatch T).Selects s args m) ∧
      (s.Antisymmetric → ∀ m, (∀ d, g.signature d = g.signature m → d = m) →
        (⟨g, t⟩ : Dispatch T).resolve? s (g.signature m) = some (g.candidate m)) := by
  refine ⟨(g.tree s policy).value, value_prepare policy hv, ?_, ?_, ?_⟩
  · intro args m hbest hline
    exact selects_of_inLine trans policy hbest hline
  · intro single args m hbest
    exact selects_of_inLine trans policy hbest (inLine_of_singleInheritance single hbest.1)
  · intro anti m hown
    obtain ⟨c, hres, _, huniq⟩ :=
      selects_of_inLine trans policy (best_type s g m) (inLine_type s g m)
    rw [ofFn_type] at hres
    rw [hres, huniq fun e hem hme => hown e (signature_eq_of_dominates anti hem hme)]

/-- Neither of the first two candidates dominates the other, but the third settles the call. -/
theorem selects_best_ladder :
    let g : Group (Fin 3) := ofPairs (1, 0) [(0, 1), (0, 0)]
    let m : Fin g.size := ⟨2, by decide⟩
    g.Best .ladder (fun _ => 0) m ∧ g.InLine .ladder (fun _ => 0) m ∧
      ∃ t, (g.prepare .ladder .default).run.value = .ok t ∧
        (⟨g, t⟩ : Dispatch (Fin 3)).Selects .ladder (fun _ => 0) m := by
  intro g m
  have hbest : g.Best .ladder (fun _ => 0) m := by decide
  have hline : g.InLine .ladder (fun _ => 0) m := by
    unfold InLine Subtyping.Comparable
    decide
  obtain ⟨t, ht, hsel, _⟩ :=
    selects_best Subtyping.transitive_ladder .default (variadicFree_ofPairs (1, 0) _)
  exact ⟨hbest, hline, t, ht, hsel _ m hbest hline⟩

/-- A call to which some candidate is applicable goes to an applicable candidate whenever, at each
    parameter, the declared types that the argument fits are comparable with one another. It need
    not have a best candidate. -/
theorem selects_applicable [LawfulBEq T] [ToString T] (trans : s.Transitive) (policy : Policy)
    (hv : g.VariadicFree) : ∃ t, (g.prepare s policy).run.value = .ok t ∧
      ∀ args : Fin g.arity → T,
        (∀ i c d, s.fits (args i) (g.type c i) = true → s.fits (args i) (g.type d i) = true →
          s.Comparable (g.type c i) (g.type d i)) →
        (∃ m, g.Applicable s args m) →
          ∃ c, (⟨g, t⟩ : Dispatch T).resolve? s (List.ofFn args) = some (g.candidate c) ∧
            g.Applicable s args c := by
  refine ⟨(g.tree s policy).value, value_prepare policy hv, ?_⟩
  rintro args hchain ⟨m, happ⟩
  obtain ⟨c, hwalk, hc, _⟩ := walk_of_heir trans policy happ fun i d hd => hchain i m d (happ i) hd
  exact ⟨c, by rw [Dispatch.resolve?_ofFn, hwalk, Option.map_some], hc⟩

/-- Without the third candidate the same call has no best one. -/
theorem selects_applicable_ladder :
    let g : Group (Fin 3) := ofPairs (1, 0) [(0, 1)]
    (¬∃ m, g.Best .ladder (fun _ => 0) m) ∧
      ∃ t, (g.prepare .ladder .default).run.value = .ok t ∧
        ∃ c, (⟨g, t⟩ : Dispatch (Fin 3)).resolve? .ladder [0, 0] = some (g.candidate c) ∧
          g.Applicable .ladder (fun _ => 0) c := by
  intro g
  obtain ⟨t, ht, hsel⟩ :=
    selects_applicable Subtyping.transitive_ladder .default (variadicFree_ofPairs (1, 0) _)
  refine ⟨by decide, t, ht, hsel (fun _ => 0) ?_ ⟨⟨0, by decide⟩, by decide⟩⟩
  unfold Subtyping.Comparable
  decide

end Group

end MultipleDispatch
