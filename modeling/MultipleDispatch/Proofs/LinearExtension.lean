import Mathlib.Data.List.Lex
import Mathlib.Order.Bounds.Defs
import MultipleDispatch.Proofs.Events

/-!
Arranging gives the least order there is. An order of the places of a list of types linearizes the
judgement if a type comes before those it is strictly below, and if types that are below one another
stay as they were. The place that stands first in such an order waits for none, and settling always
takes the lowest place that waits for none; so where the judgement is transitive, the order that
settling makes is lexicographically the smallest of all.
-/

namespace MultipleDispatch

/-- In a list without repetition, a relation holds from left to right if it holds whenever the index
    of one element is less than that of another. -/
theorem pairwise_iff_idxOf {α : Type} [BEq α] [LawfulBEq α] {R : α → α → Prop} {l : List α}
    (h : l.Nodup) : l.Pairwise R ↔ ∀ a ∈ l, ∀ b ∈ l, l.idxOf a < l.idxOf b → R a b := by
  rw [List.pairwise_iff_getElem]
  constructor
  · intro hpair a ha b hb hlt
    have hia := List.idxOf_lt_length_iff.2 ha
    have hib := List.idxOf_lt_length_iff.2 hb
    have hab := hpair _ _ hia hib hlt
    rwa [List.getElem_idxOf hia, List.getElem_idxOf hib] at hab
  · intro hidx i j hi hj hij
    refine hidx _ (List.getElem_mem hi) _ (List.getElem_mem hj) ?_
    rwa [h.idxOf_getElem i hi, h.idxOf_getElem j hj]

variable {T : Type}

namespace Arrangement

variable {waiting : List (Placed T)}

/-- No place in `order` waits for one that comes later. -/
def InOrder (waiting : List (Placed T)) (order : List Nat) : Prop :=
  order.Pairwise fun i j => ∀ x ∈ waiting, x.place = i → x.after.contains j = false

/-- The first place of an order is ready: all others come later. -/
theorem exists_ready_of_inOrder {i : Nat} {order : List Nat}
    (irrefl : ∀ x ∈ waiting, x.after.contains x.place = false)
    (hperm : (i :: order).Perm (waiting.map Placed.place)) (h : InOrder waiting (i :: order)) :
    ∃ x ∈ waiting, x.place = i ∧ ready waiting x = true := by
  obtain ⟨x, hx, rfl⟩ := List.mem_map.1 (hperm.mem_iff.1 List.mem_cons_self)
  refine ⟨x, hx, rfl, ready_eq_true.2 fun y hy => ?_⟩
  have hmem : y.place ∈ x.place :: order := hperm.mem_iff.2 (List.mem_map_of_mem hy)
  rcases List.mem_cons.1 hmem with hyx | hlater
  · rw [hyx]
    exact irrefl x hx
  · exact (List.pairwise_cons.1 h).1 _ hlater x hx rfl

/-- The place that is taken is the lowest of those that are ready. -/
theorem place_le_of_ready (sorted : (waiting.map Placed.place).Pairwise (· < ·)) {x y : Placed T}
    (hfind : waiting.find? (ready waiting) = some x) (hy : y ∈ waiting)
    (hready : ready waiting y = true) : x.place ≤ y.place := by
  obtain ⟨_, before, after, rfl, hbefore⟩ := List.find?_eq_some_iff_append.1 hfind
  have hlater : y ∈ x :: after := by
    refine (List.mem_append.1 hy).resolve_left fun hmem => ?_
    have hnot := hbefore y hmem
    rw [hready] at hnot
    cases hnot
  rcases List.mem_cons.1 hlater with rfl | hafter
  · exact Nat.le_refl _
  · rw [List.map_append, List.map_cons, List.pairwise_append] at sorted
    exact Nat.le_of_lt (List.rel_of_pairwise_cons sorted.2.1 (List.mem_map_of_mem hafter))

/-- If settling leaves nothing stuck, no order of the places is smaller than the one it makes. -/
theorem settle_le : ∀ (n : Nat) (waiting : List (Placed T)),
    (waiting.map Placed.place).Pairwise (· < ·) →
    (∀ x ∈ waiting, x.after.contains x.place = false) → (settle n waiting).stuck = [] →
      ∀ order : List Nat, order.Perm (waiting.map Placed.place) → InOrder waiting order →
        (settle n waiting).sorted.map Placed.place ≤ order
  | 0, waiting, _, _, hstuck, order, hperm, _ => by
    obtain rfl : waiting = [] := hstuck
    rw [hperm.eq_nil]
    exact le_rfl
  | n + 1, waiting, sorted, irrefl, hstuck, order, hperm, horder => by
    rw [settle] at hstuck ⊢
    cases hfind : waiting.find? (ready waiting) with
    | none =>
      rw [hfind] at hstuck
      obtain rfl : waiting = [] := hstuck
      rw [hperm.eq_nil]
      exact le_rfl
    | some x =>
      rw [hfind] at hstuck
      have hx : x ∈ waiting := List.mem_of_find?_eq_some hfind
      have hsplit := perm_cons_filter_place hx (sorted.imp Nat.ne_of_lt)
      have hsub : (waiting.filter fun y => y.place != x.place).Sublist waiting :=
        List.filter_sublist
      cases order with
      | nil => exact absurd (hperm.mem_iff.2 (List.mem_map_of_mem hx)) List.not_mem_nil
      | cons i order =>
        obtain ⟨y, hy, rfl, hready⟩ := exists_ready_of_inOrder irrefl hperm horder
        rcases Nat.lt_or_eq_of_le (place_le_of_ready sorted hfind hy hready) with hlt | heq
        · exact le_of_lt (List.Lex.rel hlt)
        · -- Both orders start with the same place, and the others are settled after it.
          rw [← heq] at hperm horder ⊢
          have hrest := (hperm.trans (hsplit.map Placed.place)).cons_inv
          have hsettled := settle_le n _ (sorted.sublist (hsub.map Placed.place))
            (fun z hz => irrefl z (hsub.subset hz)) hstuck order hrest
            ((List.pairwise_cons.1 horder).2.imp fun hfree z hz => hfree z (hsub.subset hz))
          exact List.cons_le_cons x.place hsettled

end Arrangement

namespace Subtyping

variable {s : Subtyping T} {types : List T}

/-- `order` lists the places of `types`, each once. A type comes before those it is strictly below,
    and of two types that are below one another the earlier one in the input comes first. -/
structure Linearizes (s : Subtyping T) (types : List T) (order : List Nat) : Prop where
  perm : order.Perm (List.range types.length)
  strict : ∀ ⦃i j : Nat⦄ ⦃a b : T⦄, types[i]? = some a → types[j]? = some b →
    s.below a b = true → s.below b a = false → order.idxOf i < order.idxOf j
  tied : ∀ ⦃i j : Nat⦄ ⦃a b : T⦄, types[i]? = some a → types[j]? = some b →
    s.below a b = true → s.below b a = true → i < j → order.idxOf i < order.idxOf j

/-- What comes before what is what precedes it. -/
theorem linearizes_iff_precedes {order : List Nat} : s.Linearizes types order ↔
    order.Perm (List.range types.length) ∧
      ∀ ⦃i j : Nat⦄ ⦃a b : T⦄, types[i]? = some a → types[j]? = some b →
        s.precedes a i b j = true → order.idxOf i < order.idxOf j := by
  constructor
  · intro h
    refine ⟨h.perm, fun i j a b ha hb hp => ?_⟩
    obtain ⟨_, hab, hlt⟩ := precedes_eq_true.1 hp
    cases hba : s.below b a with
    | false => exact h.strict ha hb hab hba
    | true =>
      rw [hba, or_iff_left Bool.true_eq_false_eq_False] at hlt
      exact h.tied ha hb hab hba hlt
  · rintro ⟨hperm, hprec⟩
    refine ⟨hperm, fun i j a b ha hb hab hba => ?_, fun i j a b ha hb hab _ hij => ?_⟩
    · have hij : i ≠ j := by
        rintro rfl
        cases ha.symm.trans hb
        rw [hab] at hba
        cases hba
      exact hprec ha hb (precedes_eq_true.2 ⟨hij, hab, Or.inr hba⟩)
    · exact hprec ha hb (precedes_eq_true.2 ⟨Nat.ne_of_lt hij, hab, Or.inl hij⟩)

/-- Every place has its entry. -/
theorem exists_placed {i : Nat} {a : T} (h : types[i]? = some a) :
    ∃ x ∈ s.placed types, x.place = i ∧ x.type = a :=
  ⟨_, List.mem_map_of_mem (a := (a, i)) (List.mem_zipIdx_iff_getElem?.2 h), rfl, rfl⟩

/-- An order of the places linearizes the judgement exactly if no place waits for a later one. -/
theorem linearizes_iff_inOrder {order : List Nat} : s.Linearizes types order ↔
    order.Perm (List.range types.length) ∧ Arrangement.InOrder (s.placed types) order := by
  rw [linearizes_iff_precedes]
  refine and_congr_right fun hperm => ?_
  have hmem : ∀ {i : Nat}, i ∈ order ↔ i < types.length :=
    hperm.mem_iff.trans List.mem_range
  rw [Arrangement.InOrder, pairwise_iff_idxOf (hperm.nodup_iff.2 List.nodup_range)]
  constructor
  · intro h i _ j hj hlt x hx hxi
    obtain ⟨y, hy, rfl, _⟩ :=
      exists_placed (s := s) (List.getElem?_eq_getElem (hmem.1 hj))
    rw [contains_after hx hy, ← Bool.not_eq_true]
    intro hp
    have hback := h (getElem?_place hy) (getElem?_place hx) hp
    rw [hxi] at hback
    omega
  · intro h i j a b ha hb hp
    obtain ⟨x, hx, rfl, rfl⟩ := exists_placed (s := s) ha
    obtain ⟨y, hy, rfl, rfl⟩ := exists_placed (s := s) hb
    have hxo := hmem.2 (List.getElem?_eq_some_iff.1 ha).1
    have hyo := hmem.2 (List.getElem?_eq_some_iff.1 hb).1
    have hne : order.idxOf x.place ≠ order.idxOf y.place :=
      fun heq => (precedes_eq_true.1 hp).1 ((List.idxOf_inj hxo).1 heq)
    refine Nat.lt_of_le_of_ne (Nat.le_of_not_lt fun hlt => ?_) hne
    have hfree := h _ hyo _ hxo hlt y hy rfl
    rw [contains_after hy hx, hp] at hfree
    cases hfree

/-- Where the judgement composes, the places in the order of their arrangement linearize it. -/
theorem linearizes_arrange (comp : s.Composes types) :
    s.Linearizes types ((s.arrange types).sorted.map Placed.place) := by
  have hsettled := settled_arrange s types
  have hperm := hsettled.perm
  rw [stuck_arrange comp, List.append_nil] at hperm
  refine linearizes_iff_inOrder.2 ⟨?_, ?_⟩
  · rw [← map_place_placed s types]
    exact hperm.map Placed.place
  · rw [Arrangement.InOrder, List.pairwise_map]
    refine hsettled.ordered.imp_of_mem fun {x y} hx hy hfree z hz hzx => ?_
    have hxp := hperm.mem_iff.1 hx
    have hyp := hperm.mem_iff.1 hy
    have hsame : z.type = x.type := by
      have hzt := getElem?_place hz
      rw [hzx, getElem?_place hxp] at hzt
      exact (Option.some.inj hzt).symm
    rwa [contains_after hz hyp, hsame, hzx, ← contains_after hxp hyp]

/-- Where the judgement is transitive, types are arranged without a cycle being reported, and in the
    lexicographically smallest order of their places in which no type comes behind one that it is
    strictly below and types below one another stay as they were. -/
theorem bySpecificity_least
    (trans : ∀ ⦃a b c : T⦄, s.below a b = true → s.below b c = true → s.below a c = true)
    (types : List T) :
    (s.bySpecificity types).events = [] ∧
      ∃ order : List Nat, (s.bySpecificity types).value.map some = order.map (types[·]?) ∧
        IsLeast {order | s.Linearizes types order} order := by
  have comp : s.Composes types := fun _ _ _ _ _ _ _ _ _ _ hab hbc => trans hab hbc
  have hstuck := stuck_arrange comp
  have hvalue : (s.bySpecificity types).value = (s.arrange types).sorted.map Placed.type := by
    simp [bySpecificity, Arrangement.types, hstuck]
  refine ⟨events_bySpecificity_of_composes comp, _, ?_, linearizes_arrange comp, ?_⟩
  · rw [hvalue, List.map_map, List.map_map]
    refine List.map_congr_left fun x hx => ?_
    exact (getElem?_place (mem_placed_of_mem_arrange (List.mem_append_left _ hx))).symm
  · intro order horder
    obtain ⟨hperm, hinOrder⟩ := linearizes_iff_inOrder.1 horder
    rw [← map_place_placed s types] at hperm
    refine Arrangement.settle_le _ _ ?_ (fun x hx => ?_) hstuck order hperm hinOrder
    · rw [map_place_placed]
      exact List.pairwise_lt_range
    · rw [contains_after hx hx, ← Bool.not_eq_true]
      exact fun hp => (precedes_eq_true.1 hp).1 rfl

/-- The types 1 and 2 are below one another, 0 is below both, and 3 stands alone. -/
theorem bySpecificity_least_tied :
    let s : Subtyping (Fin 4) :=
      ⟨fun a b => if a < 3 ∧ b < 3 ∧ (b = 0 → a = 0) then .yes else .no, 3⟩
    let types : List (Fin 4) := [3, 2, 1, 0, 2]
    (s.bySpecificity types).value = [3, 0, 2, 1, 2] ∧ (s.bySpecificity types).events = [] ∧
      ∃ order : List Nat, (s.bySpecificity types).value.map some = order.map (types[·]?) ∧
        IsLeast {order | s.Linearizes types order} order := by
  intro s types
  exact ⟨by decide, bySpecificity_least (by decide) types⟩

end Subtyping

end MultipleDispatch
