import Mathlib.Data.List.Nodup
import MultipleDispatch.Proofs.Classes
import MultipleDispatch.Proofs.Dominance
import MultipleDispatch.Tree.Growth

/-!
What reduction keeps. Agreement on the untested parameters is an equivalence, so every candidate has
a representative that agrees with it. Reducing a list of candidates never adds one, and once every
parameter is tested, just one is left.
-/

namespace MultipleDispatch

namespace IndexSet

variable {tested : IndexSet} {i j : Nat}

theorem contains_eq_true : tested.contains i = true ↔ i ∈ tested.toList := by
  simp [contains]

theorem contains_insert :
    (tested.insert i).contains j = true ↔ j = i ∨ tested.contains j = true := by
  rw [contains_eq_true, contains_eq_true]
  exact mem_place

theorem perm_place {l : List Nat} (h : i ∉ l) : (place i l).Perm (i :: l) := by
  induction l with
  | nil => exact .refl _
  | cons j js ih =>
    rw [List.mem_cons, not_or] at h
    rw [place]
    split
    · exact .refl _
    · rw [if_neg h.1]
      exact ((ih h.2).cons j).trans (.swap i j js)

theorem perm_insert (h : tested.contains i = false) :
    (tested.insert i).toList.Perm (i :: tested.toList) :=
  perm_place fun hi => by rw [contains_eq_true.2 hi] at h; cases h

theorem size_insert (h : tested.contains i = false) : (tested.insert i).size = tested.size + 1 :=
  (perm_insert h).length_eq

/-- All indices are below `n`. -/
def Within (tested : IndexSet) (n : Nat) : Prop := ∀ ⦃i⦄, tested.contains i = true → i < n

theorem within_empty (n : Nat) : empty.Within n :=
  fun i hi => by simp [contains, empty] at hi

theorem Within.insert {n : Nat} (h : tested.Within n) (hi : i < n) :
    (tested.insert i).Within n := by
  intro j hj
  rcases contains_insert.1 hj with rfl | hj
  · exact hi
  · exact h hj

end IndexSet

namespace Group

variable {T : Type} {g : Group T} {tested : IndexSet}

theorem mem_untested {i : Fin g.arity} : i ∈ g.untested tested ↔ tested.contains i = false := by
  simp [untested, indices]

/-- Every parameter is tested or not. -/
theorem length_untested (hw : tested.Within g.arity) :
    (g.untested tested).length + tested.size = g.arity := by
  have hperm :
      ((g.indices.filter fun i => tested.contains i.val).map Fin.val).Perm tested.toList := by
    refine (List.perm_ext_iff_of_nodup ?_ ?_).2 fun j => ?_
    · exact List.pairwise_map.2 (((List.nodup_finRange g.arity).sublist List.filter_sublist).imp
        fun hne h => hne (Fin.ext h))
    · exact tested.increasing.imp Nat.ne_of_lt
    · simp only [List.mem_map, List.mem_filter, IndexSet.contains_eq_true]
      constructor
      · rintro ⟨i, ⟨_, hi⟩, rfl⟩
        exact hi
      · intro hj
        exact ⟨⟨j, hw (IndexSet.contains_eq_true.2 hj)⟩, ⟨List.mem_finRange _, hj⟩, rfl⟩
  have hsize : tested.size = (g.indices.filter fun i => tested.contains i.val).length := by
    rw [← List.length_map (f := Fin.val), hperm.length_eq, IndexSet.size]
  have hsplit := List.length_eq_countP_add_countP (fun i : Fin g.arity => tested.contains i.val)
    (l := g.indices)
  rw [List.countP_eq_length_filter, List.countP_eq_length_filter] at hsplit
  have hall : g.indices.length = g.arity := List.length_finRange
  have hrest : (g.indices.filter fun i => ¬tested.contains i.val = true) = g.untested tested := by
    simp [untested]
  rw [hall, hrest, ← hsize] at hsplit
  omega

theorem untested_eq_nil (hw : tested.Within g.arity) (h : tested.size = g.arity) :
    g.untested tested = [] := by
  have := length_untested hw
  exact List.length_eq_zero_iff.1 (by omega)

variable [BEq T] {s : Subtyping T}

/-! ### Agreement -/

theorem agree_eq_true [LawfulBEq T] {a b : Fin g.size} : g.agree tested a b = true ↔
    ∀ i : Fin g.arity, tested.contains i = false → g.type a i = g.type b i := by
  simp [agree, mem_untested]

theorem agree_refl [ReflBEq T] (g : Group T) (tested : IndexSet) (a : Fin g.size) :
    g.agree tested a a = true := by
  simp [agree]

theorem agree_symm [LawfulBEq T] {a b : Fin g.size} (h : g.agree tested a b = true) :
    g.agree tested b a = true :=
  agree_eq_true.2 fun i hi => (agree_eq_true.1 h i hi).symm

theorem agree_trans [LawfulBEq T] {a b c : Fin g.size} (hab : g.agree tested a b = true)
    (hbc : g.agree tested b c = true) : g.agree tested a c = true :=
  agree_eq_true.2 fun i hi => (agree_eq_true.1 hab i hi).trans (agree_eq_true.1 hbc i hi)

/-- Candidates that agree still agree when one more parameter is tested. -/
theorem agree_insert [LawfulBEq T] {a b : Fin g.size} {i : Nat} (h : g.agree tested a b = true) :
    g.agree (tested.insert i) a b = true := by
  refine agree_eq_true.2 fun j hj => agree_eq_true.1 h j ?_
  by_contra hc
  rw [Bool.not_eq_false] at hc
  rw [IndexSet.contains_insert.2 (Or.inr hc)] at hj
  cases hj

/-! ### Representatives -/

@[simp] theorem value_representatives (s : Subtyping T) (g : Group T) (tested : IndexSet)
    (cs : List (Fin g.size)) : (g.representatives s tested cs).value
      = (classify (g.agree tested) cs).map (g.mostSpecific s) := by
  simp [representatives]

theorem representatives_subset {cs : List (Fin g.size)} {r : Fin g.size}
    (hr : r ∈ (g.representatives s tested cs).value) : r ∈ cs := by
  rw [value_representatives] at hr
  obtain ⟨c, hc, rfl⟩ := List.mem_map.1 hr
  exact mem_of_mem_classify hc (mostSpecific_mem s g c)

/-- Every candidate is in a class of candidates that agree with it, and the class is represented. -/
theorem exists_representative [LawfulBEq T] {cs : List (Fin g.size)} {c : Fin g.size}
    (hc : c ∈ cs) : ∃ k : Class (Fin g.size), c ∈ k.members ∧
      (∀ d ∈ k.members, d ∈ cs ∧ g.agree tested d c = true) ∧
        g.mostSpecific s k ∈ (g.representatives s tested cs).value := by
  obtain ⟨k, hk, hck⟩ := exists_class_of_mem (g.agree tested) hc
  refine ⟨k, hck, fun d hd => ⟨mem_of_mem_classify hk hd, ?_⟩, ?_⟩
  · have hfd := same_first_of_mem (agree_refl g tested) hk hd
    have hfc := same_first_of_mem (agree_refl g tested) hk hck
    exact agree_trans (agree_symm hfd) hfc
  · rw [value_representatives]
    exact List.mem_map_of_mem hk

/-! ### Reduction to one candidate -/

@[simp] theorem value_single_cons (s : Subtyping T) (g : Group T) (c : Fin g.size) :
    ∀ cs : List (Fin g.size), (g.single s (c :: cs)).value = [g.mostSpecific s ⟨c, cs⟩]
  | [] => rfl
  | _ :: _ => rfl

theorem single_subset {r : Fin g.size} : ∀ {cs : List (Fin g.size)},
    r ∈ (g.single s cs).value → r ∈ cs
  | [], hr => hr
  | c :: cs, hr => by
    rw [value_single_cons, List.mem_singleton] at hr
    rw [hr]
    exact mostSpecific_mem s g ⟨c, cs⟩

theorem value_single_of_length_le {cs : List (Fin g.size)} (h : cs.length ≤ 1) :
    (g.single s cs).value = cs := by
  rcases cs with _ | ⟨a, _ | ⟨b, rest⟩⟩
  · rfl
  · rfl
  · simp at h

theorem length_single_le (s : Subtyping T) (g : Group T) (cs : List (Fin g.size)) :
    (g.single s cs).value.length ≤ 1 := by
  cases cs with
  | nil => simp [single]
  | cons c cs => simp

/-- Where nothing is untested, all candidates are in one class, so that reduction to one candidate
    is reduction to representatives. -/
theorem value_single_eq_representatives (hu : g.untested tested = []) (cs : List (Fin g.size)) :
    (g.single s cs).value = (g.representatives s tested cs).value := by
  have hagree : ∀ a b, g.agree tested a b = true := fun a b => by simp [agree, hu]
  cases cs with
  | nil => rfl
  | cons a as =>
    have hall : as.filter (g.agree tested a) = as := List.filter_eq_self.2 fun d _ => hagree a d
    have hnone : as.filter (fun d => !g.agree tested a d) = [] := by simp [hagree]
    rw [value_single_cons, value_representatives, classify_cons, hall, hnone]
    rfl

theorem value_reduce (s : Subtyping T) (g : Group T) (tested : IndexSet) (cs : List (Fin g.size)) :
    (g.reduce s tested cs).value =
      if tested.size = g.arity then (g.single s (g.representatives s tested cs).value).value
      else (g.representatives s tested cs).value := by
  rw [reduce, Traced.value_bind]
  split
  · rfl
  · rfl

/-- Where every parameter is tested, the representatives are one at most, so that nothing is left to
    be reduced. -/
theorem value_reduce_eq_representatives (hw : tested.Within g.arity) (cs : List (Fin g.size)) :
    (g.reduce s tested cs).value = (g.representatives s tested cs).value := by
  rw [value_reduce]
  split
  · next hsize =>
    refine value_single_of_length_le ?_
    rw [← value_single_eq_representatives (untested_eq_nil hw hsize)]
    exact length_single_le s g cs
  · rfl

theorem reduce_subset {cs : List (Fin g.size)} {c : Fin g.size}
    (hc : c ∈ (g.reduce s tested cs).value) : c ∈ cs := by
  rw [value_reduce] at hc
  split at hc
  · exact representatives_subset (single_subset hc)
  · exact representatives_subset hc

/-! ### Nothing is kept twice -/

/-- Classes have no member in common, so their representatives differ. -/
theorem nodup_representatives {cs : List (Fin g.size)} (h : cs.Nodup) :
    (g.representatives s tested cs).value.Nodup := by
  have hflat : ((classify (g.agree tested) cs).flatMap Class.members).Nodup :=
    (classified_classify _ cs).perm.nodup_iff.2 h
  obtain ⟨_, hapart⟩ := List.nodup_flatMap.1 hflat
  rw [value_representatives, List.Nodup, List.pairwise_map]
  refine hapart.imp fun {k l} hkl heq => hkl (mostSpecific_mem s g k) ?_
  rw [heq]
  exact mostSpecific_mem s g l

theorem pairwise_single (r : Fin g.size → Fin g.size → Prop) (s : Subtyping T)
    (cs : List (Fin g.size)) : (g.single s cs).value.Pairwise r := by
  cases cs with
  | nil => exact List.Pairwise.nil
  | cons c cs => simp

theorem nodup_reduce {cs : List (Fin g.size)} (h : cs.Nodup) :
    (g.reduce s tested cs).value.Nodup := by
  rw [value_reduce]
  split
  · exact pairwise_single _ s _
  · exact nodup_representatives h

end Group

end MultipleDispatch
