import MultipleDispatch.Proofs.Selection

/-!
Calls without a best candidate. One would expect such a call to go to a candidate that no applicable
one beats, but reduction can stand in the way: of two candidates that no remaining test can tell
apart it keeps one, and the other may be the only one that beats a third. So the call may go to a
candidate that is beaten. This takes three parameters, and two candidates of which neither dominates
the other although they declare the same type for some parameter (`TornAbove`). Where nothing of that
kind stands above a candidate `d`, some candidate that dominates `d` is left at every node that the
call comes to (`Represented`), so the call goes to nothing that `d` beats.
-/

namespace MultipleDispatch

variable {T : Type} [BEq T] {s : Subtyping T} {g : Group T}

namespace Group

/-- Two candidates are applicable, one of them dominating `d`, and neither dominates the other
    although they declare the same type for some parameter. -/
def TornAbove (s : Subtyping T) (g : Group T) (args : Fin g.arity → T) (d : Fin g.size) : Prop :=
  ∃ a b, g.Applicable s args a ∧ g.Applicable s args b ∧ g.dominates s a d = true ∧
    g.dominates s a b = false ∧ g.dominates s b a = false ∧ ∃ i, g.type a i = g.type b i

/-- Some candidate of `cs` dominates `d` and declares what `d` does wherever nothing was tested. -/
def Represented (s : Subtyping T) (g : Group T) (d : Fin g.size) (tested : IndexSet)
    (cs : List (Fin g.size)) : Prop :=
  ∃ c ∈ cs, g.agree tested c d = true ∧ g.dominates s c d = true

variable {args : Fin g.arity → T} {d : Fin g.size} {tested : IndexSet} {cs : List (Fin g.size)}

/-! ### Candidates that are torn -/

theorem dominates_of_fits_at [ReflBEq T] {a b : Fin g.size} {j : Fin g.arity}
    (hfits : s.fits (g.type a j) (g.type b j) = true)
    (hrest : ∀ i, i ≠ j → g.type a i = g.type b i) : g.dominates s a b = true := by
  refine dominates_eq_true.2 fun i => ?_
  by_cases hij : i = j
  · exact hij ▸ hfits
  · rw [hrest i hij]
    exact s.fits_refl _

/-- Of two applicable candidates that differ in one parameter at most, one dominates the other. -/
theorem dominates_of_differ_once [ReflBEq T] (single : s.SingleInheritance) {a b : Fin g.size}
    (ha : g.Applicable s args a) (hb : g.Applicable s args b)
    (honce : ∀ j k, g.type a j ≠ g.type b j → g.type a k ≠ g.type b k → j = k) :
    g.dominates s a b = true ∨ g.dominates s b a = true := by
  by_cases hsame : ∀ j, g.type a j = g.type b j
  · refine Or.inl (dominates_eq_true.2 fun i => ?_)
    rw [hsame i]
    exact s.fits_refl _
  · obtain ⟨j, hj⟩ := not_forall.1 hsame
    have hrest : ∀ i, i ≠ j → g.type a i = g.type b i :=
      fun i hij => by_contra fun hi => hij (honce i j hi hj)
    rcases single (ha j) (hb j) with hfits | hfits
    · exact Or.inl (dominates_of_fits_at hfits hrest)
    · exact Or.inr (dominates_of_fits_at hfits fun i hij => (hrest i hij).symm)

/-- Candidates that are torn differ in two parameters, besides the one they have in common. -/
theorem TornAbove.three_le_arity [ReflBEq T] (single : s.SingleInheritance)
    (h : g.TornAbove s args d) : 3 ≤ g.arity := by
  obtain ⟨a, b, ha, hb, _, hab, hba, i, hi⟩ := h
  by_contra hlt
  have honce : ∀ j k, g.type a j ≠ g.type b j → g.type a k ≠ g.type b k → j = k := by
    intro j k hj hk
    have hij : i ≠ j := fun hij => hj (hij ▸ hi)
    have hik : i ≠ k := fun hik => hk (hik ▸ hi)
    omega
  rcases dominates_of_differ_once single ha hb honce with h | h
  · rw [hab] at h; cases h
  · rw [hba] at h; cases h

/-! ### What reduction keeps -/

/-- When nothing is left to test, all candidates are in one class. -/
theorem eq_of_mem_representatives (hu : g.untested tested = []) {a b : Fin g.size}
    (ha : a ∈ (g.representatives s tested cs).value)
    (hb : b ∈ (g.representatives s tested cs).value) : a = b := by
  rw [value_representatives] at ha hb
  have hapart := (classified_classify (g.agree tested) cs).apart
  match classify (g.agree tested) cs, hapart, ha, hb with
  | [k], _, ha, hb => rw [List.mem_singleton.1 ha, List.mem_singleton.1 hb]
  | k :: l :: _, hapart, _, _ =>
    have hkl := (List.pairwise_cons.1 hapart).1 l List.mem_cons_self
    simp [agree, hu] at hkl

namespace Represented

variable [LawfulBEq T]

/-- As long as a parameter is untested, the members of a class that are applicable are comparable or
    torn, so a candidate that represents `d` is only given up for one that dominates it. -/
theorem representatives (trans : s.Transitive) (happ : g.Applicable s args d)
    (hclear : ¬g.TornAbove s args d) (hheir : g.Heir s args d tested cs) {i : Fin g.arity}
    (hi : tested.contains i = false) (h : g.Represented s d tested cs) :
    g.Represented s d tested (g.representatives s tested cs).value := by
  obtain ⟨c, hc, hagree, hdom⟩ := h
  obtain ⟨k, hck, hk, hrep⟩ := exists_representative hc
  obtain ⟨hr, hrc⟩ := hk _ (mostSpecific_mem s g k)
  have hrd := agree_trans hrc hagree
  refine ⟨_, hrep, hrd, dominates_trans trans ?_ hdom⟩
  by_contra hnot
  rw [Bool.not_eq_true] at hnot
  refine hclear ⟨c, g.mostSpecific s k, hheir.applicable happ hc hagree,
    hheir.applicable happ hr hrd, hdom, ?_, hnot, i, (agree_eq_true.1 hrc i hi).symm⟩
  rw [← Bool.not_eq_true]
  intro hcr
  rw [mostSpecific_maximal trans hck hcr] at hnot
  cases hnot

/-- Once every parameter is tested, the one candidate that is kept is not beaten. -/
theorem unbeaten_of_mem_reduce (trans : s.Transitive) (hu : g.untested tested = [])
    (h : g.Represented s d tested cs) {c : Fin g.size} (hc : c ∈ (g.reduce s tested cs).value)
    (hdc : g.dominates s d c = true) : g.dominates s c d = true := by
  obtain ⟨r, hr, _, hrd⟩ := h
  obtain ⟨k, hrk, _, hrep⟩ := exists_representative hr
  have hkept : c ∈ (g.representatives s tested cs).value := by
    rw [value_reduce] at hc
    split at hc
    · exact single_subset hc
    · exact hc
  obtain rfl := eq_of_mem_representatives hu hkept hrep
  exact dominates_trans trans (mostSpecific_maximal trans hrk (dominates_trans trans hrd hdc)) hrd

/-- Whoever represents `d` goes down the edge that is taken. -/
theorem accepting (trans : s.Transitive) (single : s.SingleInheritance)
    (happ : g.Applicable s args d) {i : Fin g.arity} (hi : tested.contains i = false)
    (h : g.Represented s d tested cs) {before after : List T} {t : T}
    (htypes : g.testedTypes s cs i = before ++ t :: after)
    (hbefore : ∀ u ∈ before, s.fits (args i) u = false) (ht : s.fits (args i) t = true) :
    g.Represented s d (tested.insert i) (g.accepting s i t (g.unclaimedBy i before cs)) := by
  obtain ⟨c, hc, hagree, hdom⟩ := h
  have hfits : s.fits (args i) (g.type c i) = true := by
    rw [agree_eq_true.1 hagree i hi]
    exact happ i
  refine ⟨c, ?_, agree_insert hagree, hdom⟩
  exact mem_accepting_of_fits trans hc hfits (fun _ _ hd => single hfits hd) htypes hbefore ht

end Represented

/-! ### Where the walk ends -/

/-- `d` is represented among the candidates `cs`, or nothing is left to test and `d` beats none of
    them. -/
def Accounted (s : Subtyping T) (g : Group T) (d : Fin g.size) (tested : IndexSet)
    (cs : List (Fin g.size)) : Prop :=
  g.Represented s d tested cs ∨ (g.untested tested = [] ∧
    ∀ c ∈ cs, g.dominates s d c = true → g.dominates s c d = true)

theorem Represented.reduce [LawfulBEq T] (trans : s.Transitive) (happ : g.Applicable s args d)
    (hclear : ¬g.TornAbove s args d) (hw : tested.Within g.arity)
    (hheir : g.Heir s args d tested cs) (h : g.Represented s d tested cs) :
    g.Accounted s d tested (g.reduce s tested cs).value := by
  cases hu : g.untested tested with
  | nil => exact Or.inr ⟨hu, fun c hc => h.unbeaten_of_mem_reduce trans hu hc⟩
  | cons i others =>
    have hi : tested.contains i = false := mem_untested.1 (hu ▸ List.mem_cons_self)
    rw [value_reduce_eq_representatives hw]
    exact Or.inl (h.representatives trans happ hclear hheir hi)

theorem Accounted.stop [ReflBEq T] (trans : s.Transitive) (h : g.Accounted s d tested cs)
    {c : Fin g.size} (hc : c ∈ (g.single s cs).value) (hdc : g.dominates s d c = true) :
    g.dominates s c d = true := by
  rcases h with ⟨r, hr, _, hrd⟩ | ⟨_, hall⟩
  · cases cs with
    | nil => cases hr
    | cons a cs =>
      rw [value_single_cons, List.mem_singleton] at hc
      rw [hc] at hdc ⊢
      have hrc := dominates_trans trans hrd hdc
      exact dominates_trans trans (mostSpecific_maximal (c := ⟨a, cs⟩) trans hr hrc) hrd
  · exact hall c (single_subset hc) hdc

/-- A call goes to nothing that `d` beats if `d` is applicable and nothing is torn above it. -/
theorem unbeaten_of_walk [LawfulBEq T] (trans : s.Transitive) (single : s.SingleInheritance)
    (policy : Policy) (happ : g.Applicable s args d) (hclear : ¬g.TornAbove s args d)
    {c : Fin g.size} (hwalk : (g.tree s policy).value.walk s args = some c)
    (hdc : g.dominates s d c = true) : g.dominates s c d = true := by
  refine grow_induction s policy g
    (motive := fun tested cs t => g.Heir s args d tested cs → g.Accounted s d tested cs →
      t.walk s args = some c → g.dominates s c d = true)
    ?stop ?fork g.arity .empty g.ids 0 (IndexSet.within_empty _) rfl (heir_ids s args d)
    (Or.inl ⟨d, List.mem_finRange d, agree_refl g _ d, dominates_refl s g d⟩) hwalk
  case stop =>
    intro tested cs _ _ _ haccounted hstop
    exact haccounted.stop trans (List.mem_of_mem_head? hstop) hdc
  case fork =>
    intro tested cs i edges hw _ htests htypes ih hheir haccounted hfork
    have hi := htests.untested
    have hrep : g.Represented s d tested cs := by
      refine haccounted.resolve_right fun hall => ?_
      have hmem := mem_untested.2 hi
      rw [hall.1] at hmem
      cases hmem
    have ⟨r, hr, hagree, _⟩ := hrep
    obtain ⟨before, t, child, after, hsplit, horder, hskipped, ht, hwalk⟩ :=
      exists_edge_of_fits args htypes hr (by rw [agree_eq_true.1 hagree i hi]; exact happ i)
    have hline := inLine_of_singleInheritance single happ
    have hheir' := hheir.accepting trans happ hline hi horder hskipped ht
    have hrep' := hrep.accepting trans single happ hi horder hskipped ht
    have hw' := hw.insert i.isLt
    rw [Tree.walk, hwalk] at hfork
    exact ih before t child after hsplit (hheir'.reduce trans hw')
      (hrep'.reduce trans happ hclear hw' hheir') hfork

/-- Under single inheritance, a call to which some candidate is applicable goes to an applicable
    candidate. Whatever applicable candidate dominates it is dominated by it in turn, unless, in a
    group with three parameters or more, candidates are torn above that other one. -/
theorem selects_unbeaten [LawfulBEq T] [ToString T] (trans : s.Transitive)
    (single : s.SingleInheritance) (policy : Policy) (hv : g.VariadicFree) :
    ∃ t, (g.prepare s policy).run.value = .ok t ∧
      ∀ args : Fin g.arity → T, (∃ m, g.Applicable s args m) →
        ∃ c, (⟨g, t⟩ : Dispatch T).resolve? s (List.ofFn args) = some (g.candidate c) ∧
          g.Applicable s args c ∧
          ∀ d, g.Applicable s args d → g.dominates s d c = true →
            g.dominates s c d = true ∨ (3 ≤ g.arity ∧ g.TornAbove s args d) := by
  refine ⟨(g.tree s policy).value, value_prepare policy hv, ?_⟩
  rintro args ⟨m, hm⟩
  obtain ⟨c, hwalk, hc, _⟩ :=
    walk_of_heir trans policy hm (inLine_of_singleInheritance single hm)
  refine ⟨c, by rw [Dispatch.resolve?_ofFn, hwalk, Option.map_some], hc, fun d hd hdc => ?_⟩
  by_cases htorn : g.TornAbove s args d
  · exact Or.inr ⟨htorn.three_le_arity single, htorn⟩
  · exact Or.inl (unbeaten_of_walk trans single policy hd htorn hwalk hdc)

/-- With two parameters, even a call without a best candidate goes to one that is not beaten. -/
theorem selects_unbeaten_ladder :
    let g : Group (Fin 3) := ofPairs (1, 1) [(1, 0), (0, 1)]
    (¬∃ m, g.Best .ladder (fun _ => 0) m) ∧
      ∃ t, (g.prepare .ladder .default).run.value = .ok t ∧
        ∃ c, (⟨g, t⟩ : Dispatch (Fin 3)).resolve? .ladder [0, 0] = some (g.candidate c) ∧
          g.Applicable .ladder (fun _ => 0) c ∧
          ∀ d, g.Applicable .ladder (fun _ => 0) d → g.dominates .ladder d c = true →
            g.dominates .ladder c d = true := by
  intro g
  obtain ⟨t, ht, hsel⟩ := selects_unbeaten Subtyping.transitive_ladder
    Subtyping.singleInheritance_ladder .default (variadicFree_ofPairs (1, 1) [(1, 0), (0, 1)])
  obtain ⟨c, hres, hc, hunbeaten⟩ := hsel (fun _ => 0) ⟨⟨0, by decide⟩, by decide⟩
  refine ⟨by decide, t, ht, c, hres, hc, fun d hd hdc => ?_⟩
  exact (hunbeaten d hd hdc).resolve_right fun h => absurd h.1 (by decide)

/-! ### A call that goes to a beaten candidate -/

/-- A group `f` with a candidate for every given triple of parameter types. -/
def ofTriples {T : Type} (first : T × T × T) (others : List (T × T × T)) : Group T where
  name := "f"
  arity := 3
  members := (first :: others).map fun p =>
    { candidate := ⟨"home", "f", [⟨"x", some p.1, false⟩, ⟨"y", some p.2.1, false⟩,
        ⟨"z", some p.2.2, false⟩], p.1, []⟩
      signature := [p.1, p.2.1, p.2.2]
      name_eq := rfl
      declared := rfl
      length_eq := rfl }
  nonempty := by simp

theorem variadicFree_ofTriples {T : Type} (first : T × T × T) (others : List (T × T × T)) :
    (ofTriples first others).VariadicFree := by
  intro c i
  obtain ⟨p, _, hp⟩ := List.mem_map.1 (List.get_mem (ofTriples first others).members c)
  rw [member, ← hp]
  rcases i with ⟨_ | _ | _ | n, hi⟩
  · rfl
  · rfl
  · rfl
  · exact absurd hi (Nat.not_lt.2 (Nat.le_add_left 3 n))

/-- The second candidate and the third are torn, and reduction gives up the third. The second does
    not dominate the fourth, so the call goes to the fourth, although the third beats it. -/
theorem settles_for_beaten :
    let g : Group (Fin 3) := ofTriples (1, 1, 1) [(1, 0, 0), (0, 1, 0), (0, 1, 1)]
    let beating : Fin g.size := ⟨2, by decide⟩
    let beaten : Fin g.size := ⟨3, by decide⟩
    Subtyping.ladder.Transitive ∧ Subtyping.ladder.Antisymmetric ∧
      Subtyping.ladder.SingleInheritance ∧ g.VariadicFree ∧
      (∀ c d, g.signature c = g.signature d → c = d) ∧
      ∃ t, (g.prepare .ladder .default).run.value = .ok t ∧
        (⟨g, t⟩ : Dispatch (Fin 3)).resolve? .ladder [0, 0, 0] = some (g.candidate beaten) ∧
        g.Applicable .ladder (fun _ => 0) beaten ∧ g.Applicable .ladder (fun _ => 0) beating ∧
        g.dominates .ladder beating beaten = true ∧ g.dominates .ladder beaten beating = false := by
  intro g beating beaten
  have hv : g.VariadicFree := variadicFree_ofTriples (1, 1, 1) [(1, 0, 0), (0, 1, 0), (0, 1, 1)]
  have hwalk : (g.tree .ladder .default).value.walk .ladder (fun _ => 0) = some beaten := by
    decide +kernel
  refine ⟨Subtyping.transitive_ladder, Subtyping.antisymmetric_ladder,
    Subtyping.singleInheritance_ladder, hv, by decide, _, value_prepare .default hv, ?_,
    by decide, by decide, by decide, by decide⟩
  exact (Dispatch.resolve?_ofFn .ladder ⟨g, _⟩ fun _ => 0).trans (by rw [hwalk, Option.map_some])

end Group

end MultipleDispatch
