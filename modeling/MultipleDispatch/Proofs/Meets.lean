import Mathlib.Data.Fintype.Pi
import Mathlib.Logic.Function.Basic
import MultipleDispatch.Proofs.Events
import MultipleDispatch.Proofs.Unbeaten

/-!
Groups in which no call is ambiguous. A group has meets if any two candidates with a call in common
are both dominated by a third that takes all their common calls. Preparing such a group reports
neither an ambiguity nor a cycle. The choice that could be ambiguous is the one between candidates
that agree on what is untested, and the meet of two of them may be gone when they are compared. But
every candidate that accepts the types asked for on the way to a node has a stand-in there
(`Covered`): one that dominates it and declares the same types wherever nothing was tested. The
stand-in of a meet is below both candidates and agrees with them, so each class has a least member.
-/

namespace MultipleDispatch.Group

variable {T : Type} [BEq T] {s : Subtyping T} {g : Group T}

/-- Any two candidates that have an applicable call in common are dominated by a candidate to which
    all their common calls are applicable. -/
def HasMeets (s : Subtyping T) (g : Group T) : Prop :=
  ∀ c d, (∃ args, g.Applicable s args c ∧ g.Applicable s args d) →
    ∃ m, g.dominates s m c = true ∧ g.dominates s m d = true ∧
      ∀ args, g.Applicable s args c → g.Applicable s args d → g.Applicable s args m

/-- At every tested parameter, `c` accepts the type that `path` asks for. -/
def Admits (s : Subtyping T) (g : Group T) (path : Fin g.arity → T) (tested : IndexSet)
    (c : Fin g.size) : Prop :=
  ∀ i : Fin g.arity, tested.contains i = true → s.fits (path i) (g.type c i) = true

/-- What the candidates left at a node have to do with the types asked for on the way to it. -/
structure Covered (s : Subtyping T) (g : Group T) (path : Fin g.arity → T) (tested : IndexSet)
    (cs : List (Fin g.size)) : Prop where
  /-- They accept these types. -/
  admits : ∀ c ∈ cs, g.Admits s path tested c
  /-- Whoever accepts these types is represented by one of them. -/
  represented : ∀ c, g.Admits s path tested c → g.Represented s c tested cs

/-- The class holds the candidates of `cs` that agree with its first member. -/
def Gathers (g : Group T) (tested : IndexSet) (cs : List (Fin g.size))
    (k : Class (Fin g.size)) : Prop :=
  ∀ d, d ∈ k.members ↔ d ∈ cs ∧ g.agree tested k.first d = true

variable {path : Fin g.arity → T} {tested : IndexSet} {cs : List (Fin g.size)}

theorem gathers_of_mem_classify [LawfulBEq T] {k : Class (Fin g.size)}
    (hk : k ∈ classify (g.agree tested) cs) : g.Gathers tested cs k :=
  fun _ => mem_members_iff (agree_refl g tested) agree_symm agree_trans hk

/-- Where nothing is untested, all candidates are in one class. -/
theorem gathers_of_untested_eq_nil (hu : g.untested tested = []) (a : Fin g.size)
    (cs : List (Fin g.size)) : g.Gathers tested (a :: cs) ⟨a, cs⟩ := by
  intro d
  simp [Class.members, agree, hu]

/-- Before anything is tested, every candidate represents itself. -/
theorem covered_ids [ReflBEq T] (s : Subtyping T) (g : Group T) (path : Fin g.arity → T) :
    g.Covered s path .empty g.ids where
  admits := fun _ _ i hi => by simp [IndexSet.contains, IndexSet.empty] at hi
  represented := fun c _ => ⟨c, List.mem_finRange c, agree_refl g _ c, dominates_refl s g c⟩

/-- A test for `t` asks for one more type. -/
theorem admits_update {i : Fin g.arity} (hi : tested.contains i = false) {t : T} {c : Fin g.size} :
    g.Admits s (Function.update path i t) (tested.insert i) c ↔
      g.Admits s path tested c ∧ s.fits t (g.type c i) = true := by
  constructor
  · intro hc
    refine ⟨fun j hj => ?_, ?_⟩
    · have hji : j ≠ i := by
        rintro rfl
        rw [hi] at hj
        cases hj
      have hcj := hc j (IndexSet.contains_insert.2 (Or.inr hj))
      rwa [Function.update_of_ne hji] at hcj
    · have hci := hc i (IndexSet.contains_insert.2 (Or.inl rfl))
      rwa [Function.update_self] at hci
  · rintro ⟨hc, hct⟩ j hj
    rcases eq_or_ne j i with rfl | hji
    · rwa [Function.update_self]
    · rw [Function.update_of_ne hji]
      exact hc j ((IndexSet.contains_insert.1 hj).resolve_left fun h => hji (Fin.ext h))

/-- The stand-in of a candidate that accepts `t` goes down the edge of `t` as well: it declares the
    same type, and no edge before claims it. -/
theorem Covered.accepting [LawfulBEq T] (trans : s.Transitive) (anti : s.Antisymmetric)
    (h : g.Covered s path tested cs) {i : Fin g.arity} (hi : tested.contains i = false)
    {before after : List T} {t : T} (htypes : g.testedTypes s cs i = before ++ t :: after) :
    g.Covered s (Function.update path i t) (tested.insert i)
      (g.accepting s i t (g.unclaimedBy i before cs)) := by
  rw [accepting_unclaimedBy trans anti htypes]
  refine ⟨fun c hc => ?_, fun c hc => ?_⟩
  · obtain ⟨hccs, hct⟩ := mem_accepting.1 hc
    exact (admits_update hi).2 ⟨h.admits c hccs, hct⟩
  · obtain ⟨hold, hct⟩ := (admits_update hi).1 hc
    obtain ⟨r, hr, hagree, hdom⟩ := h.represented c hold
    refine ⟨r, mem_accepting.2 ⟨hr, ?_⟩, agree_insert hagree, hdom⟩
    rw [agree_eq_true.1 hagree i hi]
    exact hct

namespace Covered

variable [LawfulBEq T] (trans : s.Transitive) (anti : s.Antisymmetric) (meets : g.HasMeets s)

include trans anti meets

/-! ### Classes have a least member -/

/-- Two candidates that agree on what is untested have a meet among the candidates that are left, up
    to what was tested. -/
theorem exists_below (h : g.Covered s path tested cs) {a b : Fin g.size} (ha : a ∈ cs)
    (hb : b ∈ cs) (hab : g.agree tested a b = true) : ∃ m ∈ cs, g.agree tested m a = true ∧
      g.dominates s m a = true ∧ g.dominates s m b = true := by
  -- The types asked for, completed by what `a` and `b` declare in common.
  let args : Fin g.arity → T := fun i => if tested.contains i then path i else g.type a i
  have htested : ∀ i : Fin g.arity, tested.contains i = true → args i = path i :=
    fun i hi => if_pos hi
  have huntested : ∀ i : Fin g.arity, tested.contains i = false → args i = g.type a i :=
    fun i hi => by simp [args, hi]
  have happ : ∀ c ∈ cs, g.agree tested a c = true → g.Applicable s args c := by
    intro c hc hac i
    cases hi : tested.contains i.val with
    | true =>
      rw [htested i hi]
      exact h.admits c hc i hi
    | false =>
      rw [huntested i hi, agree_eq_true.1 hac i hi]
      exact s.fits_refl _
  have happa := happ a ha (agree_refl g tested a)
  have happb := happ b hb hab
  obtain ⟨m, hma, hmb, hall⟩ := meets a b ⟨args, happa, happb⟩
  have happm := hall args happa happb
  have hagree : g.agree tested m a = true := by
    refine agree_eq_true.2 fun i hi => anti (dominates_eq_true.1 hma i) ?_
    rw [← huntested i hi]
    exact happm i
  have hadmits : g.Admits s path tested m := by
    intro i hi
    rw [← htested i hi]
    exact happm i
  obtain ⟨r, hr, hrm, hdom⟩ := h.represented m hadmits
  exact ⟨r, hr, agree_trans hrm hagree, dominates_trans trans hdom hma,
    dominates_trans trans hdom hmb⟩

/-- What is chosen from a class dominates the class: nothing in it beats the chosen one, so a member
    below it and another one is no better. -/
theorem dominates_mostSpecific (h : g.Covered s path tested cs) {k : Class (Fin g.size)}
    (hk : g.Gathers tested cs k) {d : Fin g.size} (hd : d ∈ k.members) :
    g.dominates s (g.mostSpecific s k) d = true := by
  have hchosen := mostSpecific_mem s g k
  obtain ⟨hccs, hcagree⟩ := (hk _).1 hchosen
  obtain ⟨hdcs, hdagree⟩ := (hk d).1 hd
  obtain ⟨m, hm, hmagree, hmc, hmd⟩ := h.exists_below trans anti meets hccs hdcs
    (agree_trans (agree_symm hcagree) hdagree)
  have hmk : m ∈ k.members := (hk m).2 ⟨hm, agree_trans hcagree (agree_symm hmagree)⟩
  exact dominates_trans trans (mostSpecific_maximal trans hmk hmc) hmd

theorem events_choose (h : g.Covered s path tested cs) {k : Class (Fin g.size)}
    (hk : g.Gathers tested cs k) : (g.choose s k).events = [] :=
  events_choose_eq_nil.2 fun _ hd => h.dominates_mostSpecific trans anti meets hk hd

/-! ### Reduction is silent -/

/-- If what is chosen from the class of every candidate is kept, those that are kept still cover. -/
theorem of_kept (h : g.Covered s path tested cs) {kept : List (Fin g.size)}
    (hsub : ∀ d ∈ kept, d ∈ cs)
    (hkept : ∀ d ∈ cs, ∃ k, g.Gathers tested cs k ∧ d ∈ k.members ∧ g.mostSpecific s k ∈ kept) :
    g.Covered s path tested kept := by
  refine ⟨fun d hd => h.admits d (hsub d hd), fun c hc => ?_⟩
  obtain ⟨r, hr, hrc, hdom⟩ := h.represented c hc
  obtain ⟨k, hk, hrk, hmem⟩ := hkept r hr
  have hchosen := ((hk _).1 (mostSpecific_mem s g k)).2
  have hagree := agree_trans (agree_symm hchosen) ((hk r).1 hrk).2
  exact ⟨_, hmem, agree_trans hagree hrc,
    dominates_trans trans (h.dominates_mostSpecific trans anti meets hk hrk) hdom⟩

theorem representatives (h : g.Covered s path tested cs) :
    (g.representatives s tested cs).events = [] ∧
      g.Covered s path tested (g.representatives s tested cs).value := by
  constructor
  · rw [events_representatives, List.flatMap_eq_nil_iff]
    intro k hk
    exact h.events_choose trans anti meets (gathers_of_mem_classify hk)
  · refine h.of_kept trans anti meets (fun d => representatives_subset) fun d hd => ?_
    obtain ⟨k, hk, hdk⟩ := exists_class_of_mem (g.agree tested) hd
    refine ⟨k, gathers_of_mem_classify hk, hdk, ?_⟩
    rw [value_representatives]
    exact List.mem_map_of_mem hk

theorem single (h : g.Covered s path tested cs) (hu : g.untested tested = []) :
    (g.single s cs).events = [] ∧ g.Covered s path tested (g.single s cs).value := by
  match cs with
  | [] => exact ⟨rfl, h⟩
  | [_] => exact ⟨rfl, h⟩
  | a :: b :: cs =>
    have hk := gathers_of_untested_eq_nil hu a (b :: cs)
    constructor
    · simp [Group.single, h.events_choose trans anti meets hk]
    · refine h.of_kept trans anti meets (fun d => single_subset) fun d hd => ⟨_, hk, hd, ?_⟩
      rw [value_single_cons]
      exact List.mem_cons_self

theorem reduce (hw : tested.Within g.arity) (h : g.Covered s path tested cs) :
    (g.reduce s tested cs).events = [] ∧
      g.Covered s path tested (g.reduce s tested cs).value := by
  obtain ⟨hevents, hreps⟩ := h.representatives trans anti meets
  rw [events_reduce, value_reduce, hevents, List.nil_append]
  split
  · next hsize => exact hreps.single trans anti meets (untested_eq_nil hw hsize)
  · exact ⟨rfl, hreps⟩

end Covered

/-! ### Preparation -/

/-- A group with meets is prepared, under any policy, without an ambiguity or a cycle being
    reported. -/
theorem prepare_unambiguous [LawfulBEq T] [ToString T] (trans : s.Transitive)
    (anti : s.Antisymmetric) (policy : Policy) (hv : g.VariadicFree) (meets : g.HasMeets s) :
    ∃ t, (g.prepare s policy).run.value = .ok t ∧
      ∀ e ∈ (g.prepare s policy).run.events,
        (∀ name chosen rival, e ≠ .ambiguity name chosen rival) ∧ ∀ types, e ≠ .cycle types := by
  refine ⟨_, value_prepare policy hv, ?_⟩
  rw [events_prepare policy hv]
  refine events_grow_safe s policy g (fun tested cs => ∃ path, g.Covered s path tested cs) _
    ?stop ?arrange ?split ?edge g.arity .empty g.ids 0 (IndexSet.within_empty _) rfl
    ⟨fun _ => s.top, covered_ids s g _⟩
  case stop =>
    rintro tested cs ⟨path, hcov⟩ hstop e he
    have hsilent : (g.single s cs).events = [] := by
      rcases hstop with hu | hlen
      · exact (hcov.single trans anti meets hu).1
      · exact events_single_of_length_le hlen
    simp [hsilent] at he
  case arrange =>
    intro tested cs i _ _ e he
    have hcomp := Subtyping.composes_of_nodup trans (nodup_edgeTypes g cs i)
    simp [Subtyping.events_bySpecificity_of_composes hcomp] at he
  case split =>
    intro id i types
    exact ⟨by simp, by simp⟩
  case edge =>
    rintro tested cs i before t after hw ⟨path, hcov⟩ htests htypes
    have hchild := hcov.accepting trans anti htests.untested htypes
    obtain ⟨hsilent, hpassing⟩ := hchild.reduce trans anti meets (hw.insert i.isLt)
    refine ⟨fun e he => ?_, _, hpassing⟩
    simp [hsilent] at he

/-- Where 1 and 2 both stand between 0 and 3, the third candidate is the meet of the first two. -/
theorem prepare_unambiguous_diamond :
    let g : Group (Fin 4) := ofPairs (1, 2) [(2, 1), (0, 0)]
    g.HasMeets .diamond ∧ ∃ t, (g.prepare .diamond .default).run.value = .ok t ∧
      ∀ e ∈ (g.prepare .diamond .default).run.events,
        (∀ name chosen rival, e ≠ .ambiguity name chosen rival) ∧ ∀ types, e ≠ .cycle types := by
  intro g
  have meets : g.HasMeets .diamond := by
    unfold HasMeets
    decide
  exact ⟨meets, prepare_unambiguous Subtyping.transitive_diamond Subtyping.antisymmetric_diamond
    .default (variadicFree_ofPairs (1, 2) _) meets⟩

-- Without the meet of its candidates, a group reports an ambiguity.
example : ∃ chosen rival, .ambiguity "f" chosen rival ∈
    ((ofPairs (1, 0) [(0, 1)] : Group (Fin 3)).prepare .ladder .default).run.events :=
  ⟨_, _, List.mem_of_getElem? (i := 2) rfl⟩

end MultipleDispatch.Group
