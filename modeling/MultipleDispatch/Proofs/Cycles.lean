import Mathlib.Data.Set.Finite.Basic
import MultipleDispatch.Proofs.Countdown

/-!
What a cycle holds up. Nothing is asked of the judgement here, so the edges between places may form
cycles. An edge never leads from a stuck place to a sorted one, and it leads forward between sorted
places; so what can be reached from a cycle is stuck. The other way round, every stuck place waits
for another one, and as there are finitely many of them, going back from one to the next ends up in
a cycle. Stuck are thus not only the places on cycles but all that come behind them.
-/

namespace MultipleDispatch

/-- In a finite set where everything has a predecessor, everything can be reached from a cycle. -/
theorem exists_transGen_self {α : Type} {r : α → α → Prop} {S : Set α} (hfin : S.Finite)
    (hpred : ∀ b ∈ S, ∃ a ∈ S, r a b) {b : α} (hb : b ∈ S) :
    ∃ a, Relation.TransGen r a a ∧ Relation.ReflTransGen r a b := by
  by_contra hnone
  -- Without a cycle, what leads to `b` is ordered, and its least element has no predecessor.
  let behind : Set α := {a | a ∈ S ∧ Relation.ReflTransGen r a b}
  have hfinite : Finite behind := (hfin.subset fun _ ha => ha.1).to_subtype
  have htrans : IsTrans behind fun x y => Relation.TransGen r x y := ⟨fun _ _ _ => .trans⟩
  have hirrefl : Std.Irrefl fun x y : behind => Relation.TransGen r x.1 y.1 :=
    ⟨fun x hx => hnone ⟨x, hx, x.2.2⟩⟩
  have hwf : WellFounded fun x y : behind => Relation.TransGen r x.1 y.1 :=
    Finite.wellFounded_of_trans_of_irrefl _
  obtain ⟨m, _, hmin⟩ := hwf.has_min Set.univ ⟨⟨b, hb, .refl⟩, trivial⟩
  obtain ⟨a, ha, ham⟩ := hpred m m.2.1
  exact hmin ⟨a, ha, .head ham m.2.2⟩ trivial (.single ham)

namespace Subtyping

variable {T : Type} {s : Subtyping T} {types : List T} {i j : Nat}

/-- There is an edge from place `i` to place `j`. -/
def Edge (s : Subtyping T) (types : List T) (i j : Nat) : Prop := (i, j) ∈ s.edges types

/-- The edges lead from place `i` back to it. -/
def OnCycle (s : Subtyping T) (types : List T) (i : Nat) : Prop :=
  Relation.TransGen (s.Edge types) i i

/-- Place `j` can be reached from a cycle, for instance because it is on one. -/
def HeldUp (s : Subtyping T) (types : List T) (j : Nat) : Prop :=
  ∃ i, s.OnCycle types i ∧ Relation.ReflTransGen (s.Edge types) i j

/-! ### Edges between sorted and stuck places -/

theorem Edge.ne (h : s.Edge types i j) : i ≠ j := by
  obtain ⟨a, b, _, _, hp⟩ := mem_edges.1 h
  exact (precedes_eq_true.1 hp).1

/-- An arranged place waits for another one along an edge. -/
theorem edge_iff_contains_after {x y : Placed T}
    (hx : x ∈ (s.arrange types).sorted ++ (s.arrange types).stuck)
    (hy : y ∈ (s.arrange types).sorted ++ (s.arrange types).stuck) :
    s.Edge types y.place x.place ↔ x.after.contains y.place = true :=
  mem_edges_iff_contains_after (mem_placed_of_mem_arrange hx) (mem_placed_of_mem_arrange hy)

theorem mem_sorted_or_stuck (h : i < types.length) :
    i ∈ s.sortedPlaces types ∨ i ∈ s.stuckPlaces types :=
  List.mem_append.1 ((s.perm_places types).mem_iff.2 (List.mem_range.2 h))

/-- No edge leads back among the sorted places. -/
theorem pairwise_sortedPlaces (s : Subtyping T) (types : List T) :
    (s.sortedPlaces types).Pairwise fun i j => ¬s.Edge types j i := by
  rw [sortedPlaces, List.pairwise_map]
  refine (settled_arrange s types).ordered.imp_of_mem fun {x y} hx hy hfree hedge => ?_
  rw [edge_iff_contains_after (List.mem_append_left _ hx) (List.mem_append_left _ hy),
    hfree] at hedge
  cases hedge

/-- No edge leads from a stuck place to a sorted one. -/
theorem not_edge_of_stuck (hi : i ∈ s.stuckPlaces types) (hj : j ∈ s.sortedPlaces types) :
    ¬s.Edge types i j := by
  obtain ⟨y, hy, rfl⟩ := List.mem_map.1 hi
  obtain ⟨x, hx, rfl⟩ := List.mem_map.1 hj
  rw [edge_iff_contains_after (List.mem_append_left _ hx) (List.mem_append_right _ hy),
    (settled_arrange s types).ahead x hx y hy]
  exact Bool.false_ne_true

/-- An edge leads to every stuck place from another one. -/
theorem exists_edge_of_stuck (hj : j ∈ s.stuckPlaces types) :
    ∃ i ∈ s.stuckPlaces types, s.Edge types i j := by
  obtain ⟨x, hx, rfl⟩ := List.mem_map.1 hj
  obtain ⟨y, hy, hwait⟩ := (settled_arrange s types).held x hx
  refine ⟨y.place, List.mem_map_of_mem hy, ?_⟩
  exact (edge_iff_contains_after (List.mem_append_right _ hx) (List.mem_append_right _ hy)).2 hwait

/-- An edge into a sorted place comes from one that is sorted before it. -/
theorem Edge.sorted_before (h : s.Edge types i j) (hj : j ∈ s.sortedPlaces types) :
    i ∈ s.sortedPlaces types ∧ (s.sortedPlaces types).idxOf i < (s.sortedPlaces types).idxOf j := by
  have hi : i ∈ s.sortedPlaces types :=
    (mem_sorted_or_stuck (lt_length_of_mem_edges h).1).resolve_right fun hstuck =>
      not_edge_of_stuck hstuck hj h
  have hnodup : (s.sortedPlaces types).Nodup :=
    (List.nodup_append.1 ((s.perm_places types).nodup_iff.2 List.nodup_range)).1
  have hforward := (pairwise_iff_idxOf hnodup).1 (s.pairwise_sortedPlaces types) j hj i hi
  refine ⟨hi, Nat.lt_of_le_of_ne (Nat.le_of_not_lt fun hlt => hforward hlt h) fun heq => ?_⟩
  exact h.ne ((List.idxOf_inj hi).1 heq)

/-! ### Stuck behind a cycle -/

/-- A way into a sorted place comes from one that is sorted before it. -/
theorem sorted_before_of_transGen (h : Relation.TransGen (s.Edge types) i j)
    (hj : j ∈ s.sortedPlaces types) :
    i ∈ s.sortedPlaces types ∧ (s.sortedPlaces types).idxOf i < (s.sortedPlaces types).idxOf j := by
  induction h with
  | single hedge => exact hedge.sorted_before hj
  | tail _ hedge ih =>
    obtain ⟨hmid, hlt⟩ := hedge.sorted_before hj
    obtain ⟨hi, hlt'⟩ := ih hmid
    exact ⟨hi, Nat.lt_trans hlt' hlt⟩

/-- A sorted place cannot be reached from a cycle: the cycle would be sorted before itself. -/
theorem not_heldUp_of_sorted (hj : j ∈ s.sortedPlaces types) : ¬s.HeldUp types j := by
  rintro ⟨i, hcycle, hreach⟩
  have hi : i ∈ s.sortedPlaces types := by
    rcases Relation.reflTransGen_iff_eq_or_transGen.1 hreach with rfl | hreach
    · exact hj
    · exact (sorted_before_of_transGen hreach hj).1
  exact Nat.lt_irrefl _ (sorted_before_of_transGen hcycle hi).2

/-- A stuck place can be reached from a cycle. -/
theorem heldUp_of_stuck (hj : j ∈ s.stuckPlaces types) : s.HeldUp types j :=
  exists_transGen_self (List.finite_toSet (s.stuckPlaces types))
    (fun _ hb => exists_edge_of_stuck hb) hj

theorem mem_sortedPlaces (hi : i < types.length) :
    i ∈ s.sortedPlaces types ↔ ¬s.HeldUp types i := by
  refine ⟨not_heldUp_of_sorted, fun hfree => ?_⟩
  exact (mem_sorted_or_stuck hi).resolve_right fun hstuck => hfree (heldUp_of_stuck hstuck)

/-- Something is stuck exactly if there is a cycle. -/
theorem stuck_ne_nil : (s.arrange types).stuck ≠ [] ↔ ∃ i, s.OnCycle types i := by
  constructor
  · intro hne
    obtain ⟨x, hx⟩ := List.exists_mem_of_ne_nil _ hne
    obtain ⟨i, hcycle, _⟩ := heldUp_of_stuck (List.mem_map_of_mem hx)
    exact ⟨i, hcycle⟩
  · rintro ⟨i, hcycle⟩ hnil
    obtain ⟨_, hedge, _⟩ := Relation.TransGen.head'_iff.1 hcycle
    rcases mem_sorted_or_stuck (lt_length_of_mem_edges hedge).1 with hsorted | hstuck
    · exact not_heldUp_of_sorted hsorted ⟨i, hcycle, .refl⟩
    · rw [stuckPlaces, hnil] at hstuck
      cases hstuck

/-! ### Arranging in spite of cycles -/

/-- Places stand for their types. -/
theorem map_some_type {xs : List (Placed T)} (h : ∀ x ∈ xs, x ∈ s.placed types) :
    (xs.map Placed.type).map some = (xs.map Placed.place).map (types[·]?) := by
  rw [List.map_map, List.map_map]
  exact List.map_congr_left fun x hx => (getElem?_place (h x hx)).symm

theorem map_some_value (s : Subtyping T) (types : List T) :
    (s.bySpecificity types).value.map some
      = (s.sortedPlaces types ++ s.stuckPlaces types).map (types[·]?) := by
  rw [sortedPlaces, stuckPlaces, ← List.map_append]
  exact map_some_type fun _ => mem_placed_of_mem_arrange

/-- If there is a cycle, what is stuck is reported. -/
theorem events_of_onCycle (h : ∃ i, s.OnCycle types i) :
    ∃ held : List T, held.map some = (s.stuckPlaces types).map (types[·]?) ∧
      (s.bySpecificity types).events = [.cycle held] := by
  refine ⟨_, map_some_type fun x hx => mem_placed_of_mem_arrange (List.mem_append_right _ hx), ?_⟩
  rw [events_bySpecificity, Arrangement.cycle?, if_neg]
  · rfl
  · simpa using stuck_ne_nil.2 h

theorem events_of_not_onCycle (h : ¬∃ i, s.OnCycle types i) :
    (s.bySpecificity types).events = [] := by
  rw [← stuck_ne_nil, not_not] at h
  rw [events_bySpecificity, Arrangement.cycle?, h]
  rfl

/-- Any judgement arranges any types. Sorting by counting never counts below zero. It splits the
    places into those that no cycle holds up, which are sorted along the edges, and the others, which
    keep their input order behind them. The types of the others are reported if there is a cycle, and
    nothing is reported if there is none. -/
theorem bySpecificity_free_first (s : Subtyping T) (types : List T) :
    ∃ sorted stuck : List Nat, s.countdown types = some (sorted, stuck) ∧
      (s.bySpecificity types).value.map some = (sorted ++ stuck).map (types[·]?) ∧
      (sorted ++ stuck).Perm (List.range types.length) ∧
      (∀ i < types.length, i ∈ sorted ↔ ¬s.HeldUp types i) ∧
      (∀ i ∈ sorted, ∀ j ∈ sorted, s.Edge types i j → sorted.idxOf i < sorted.idxOf j) ∧
      stuck.Pairwise (· < ·) ∧
      ((∃ i, s.OnCycle types i) → ∃ held : List T, held.map some = stuck.map (types[·]?) ∧
        (s.bySpecificity types).events = [.cycle held]) ∧
      ((¬∃ i, s.OnCycle types i) → (s.bySpecificity types).events = []) := by
  refine ⟨_, _, s.countdown_eq types, s.map_some_value types, s.perm_places types, ?_, ?_,
    s.pairwise_lt_stuckPlaces types, events_of_onCycle, events_of_not_onCycle⟩
  · exact fun i hi => mem_sortedPlaces hi
  · exact fun i _ j hj hedge => (hedge.sorted_before hj).2

/-- The types 1, 2 and 3 are below one another in a circle, 0 is below 1 and 3 is below 4: so 4 is
    held up although it is on no cycle, and 0 and 5 are not. -/
example :
    let s : Subtyping (Fin 6) :=
      ⟨fun a b => if (a, b) ∈ [(1, 2), (2, 3), (3, 1), (0, 1), (3, 4)] then .yes else .unknown, 5⟩
    s.countdown [4, 1, 5, 2, 3, 0] = some ([2, 5], [0, 1, 3, 4]) ∧
      (s.bySpecificity [4, 1, 5, 2, 3, 0]).value = [5, 0, 4, 1, 2, 3] := by
  decide

end Subtyping

end MultipleDispatch
