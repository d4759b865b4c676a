import Mathlib.Data.List.Sort
import MultipleDispatch.Proofs.LinearExtension

/-!
Arranging by counting. To find the next place there is no need to look through all that are waiting:
it is enough to count, for every place, the edges into it from places that have not been taken, and
to release the edges out of a place when it is taken. `countdown` sorts in this way. It gives up if a
count would fall below zero, and if it takes more places than there are. Neither happens, whatever
the judgement: the counts are the numbers of waiting places at every step (`Tracks`), so the same
places are taken in the same order as in an arrangement.
-/

namespace MultipleDispatch

variable {T : Type}

/-- The lowest member, and the set without it. -/
def IndexSet.pop? (s : IndexSet) : Option (Nat × IndexSet) :=
  match s with
  | ⟨[], _⟩ => none
  | ⟨i :: is, increasing⟩ => some (i, ⟨is, (List.pairwise_cons.1 increasing).2⟩)

theorem IndexSet.pop?_eq_none {s : IndexSet} (h : s.toList = []) : s.pop? = none := by
  obtain ⟨l, increasing⟩ := s
  cases h
  rfl

theorem IndexSet.exists_pop?_eq {s : IndexSet} {i : Nat} {is : List Nat} (h : s.toList = i :: is) :
    ∃ rest, s.pop? = some (i, rest) ∧ rest.toList = is := by
  obtain ⟨l, increasing⟩ := s
  cases h
  exact ⟨_, rfl, rfl⟩

/-- The edges between the places of `types`. Of two places the earlier one has an edge to the later
    one if its type is below; only if it is not, the later one may have an edge to it. -/
def Subtyping.edges (s : Subtyping T) (types : List T) : List (Nat × Nat) :=
  types.zipIdx.flatMap fun (a, i) => types.zipIdx.filterMap fun (b, j) =>
    if i < j then
      if s.below a b then some (i, j) else if s.below b a then some (j, i) else none
    else none

/-- The places that the edges out of `i` lead to. -/
def successors (edges : List (Nat × Nat)) (i : Nat) : List Nat :=
  (edges.filter fun e => e.1 == i).map Prod.snd

/-- A sort that counts, on its way. -/
structure Countdown where
  /-- For every place the number of edges into it that have not been released. -/
  counts : Nat → Nat
  /-- The places that can be taken. -/
  ready : IndexSet
  /-- The places that have been taken, in this order. -/
  taken : List Nat

namespace Countdown

/-- The start of a sort of `n` places: those without an edge into them can be taken. -/
def start (n : Nat) (edges : List (Nat × Nat)) : Countdown where
  counts j := edges.countP fun e => e.2 == j
  ready := ⟨(List.range n).filter fun j => edges.countP (fun e => e.2 == j) == 0,
    List.pairwise_lt_range.filter _⟩
  taken := []

/-- Releases one edge into `j`, which can be taken if it was the last one. There is no result if no
    edge was left. -/
def release (c : Countdown) (j : Nat) : Option Countdown :=
  match c.counts j with
  | 0 => none
  | n + 1 => some { c with
      counts := fun k => if k = j then n else c.counts k
      ready := if n = 0 then c.ready.insert j else c.ready }

/-- Takes the lowest place that can be taken, until there is none. There is no result if `n` places
    are not enough. -/
def run (edges : List (Nat × Nat)) : Nat → Countdown → Option Countdown
  | 0, _ => none
  | n + 1, c =>
    match c.ready.pop? with
    | none => some c
    | some (i, ready) => do
      let c' ← (successors edges i).foldlM release { c with ready, taken := c.taken ++ [i] }
      run edges n c'

end Countdown

/-- The places of `types` sorted by counting, and those that are left over, in input order. -/
def Subtyping.countdown (s : Subtyping T) (types : List T) : Option (List Nat × List Nat) := do
  let n := types.length
  let c ← Countdown.run (s.edges types) (n + 1) (Countdown.start n (s.edges types))
  return (c.taken, (List.range n).filter fun i => !c.taken.contains i)

/-! ### Edges and what precedes -/

namespace Subtyping

variable {s : Subtyping T} {types : List T}

/-- There is an edge from each place to those it has to precede. -/
theorem mem_edges {i j : Nat} : (i, j) ∈ s.edges types ↔
    ∃ a b, types[i]? = some a ∧ types[j]? = some b ∧ s.precedes a i b j = true := by
  simp only [edges, List.mem_flatMap, List.mem_filterMap, Prod.exists,
    List.mem_zipIdx_iff_getElem?, precedes_eq_true]
  constructor
  · rintro ⟨a, k, ha, b, l, hb, h⟩
    split at h
    · next hkl =>
      split at h
      · next hab =>
        cases h
        exact ⟨a, b, ha, hb, by omega, hab, Or.inl hkl⟩
      · next hab =>
        split at h
        · next hba =>
          cases h
          exact ⟨b, a, hb, ha, by omega, hba, Or.inr (by simpa using hab)⟩
        · cases h
    · cases h
  · rintro ⟨a, b, ha, hb, hne, hab, hlt⟩
    rcases Nat.lt_or_gt_of_ne hne with hij | hji
    · exact ⟨a, i, ha, b, j, hb, by simp [hij, hab]⟩
    · have hba : s.below b a = false := hlt.resolve_left (by omega)
      exact ⟨b, j, hb, a, i, ha, by simp [hji, hab, hba]⟩

/-- Edges join places of the input. -/
theorem lt_length_of_mem_edges {e : Nat × Nat} (he : e ∈ s.edges types) :
    e.1 < types.length ∧ e.2 < types.length := by
  obtain ⟨a, b, ha, hb, _⟩ := mem_edges.1 he
  exact ⟨(List.getElem?_eq_some_iff.1 ha).1, (List.getElem?_eq_some_iff.1 hb).1⟩

/-- There is an edge between places of the input exactly if the second waits for the first. -/
theorem mem_edges_iff_contains_after {x y : Placed T} (hx : x ∈ s.placed types)
    (hy : y ∈ s.placed types) :
    (y.place, x.place) ∈ s.edges types ↔ x.after.contains y.place = true := by
  rw [mem_edges, contains_after hx hy, getElem?_place hx, getElem?_place hy]
  simp

end Subtyping

/-! ### Releasing edges -/

/-- Taking `i` takes the edges to its successors off those that count. -/
theorem countP_eq_count_successors_add {W W' : List Nat} {i : Nat} (hi : i ∈ W)
    (hW : ∀ j, j ∈ W' ↔ j ∈ W ∧ j ≠ i) (edges : List (Nat × Nat)) (k : Nat) :
    edges.countP (fun e => e.2 == k && W.contains e.1) =
      (successors edges i).count k + edges.countP fun e => e.2 == k && W'.contains e.1 := by
  induction edges with
  | nil => rfl
  | cons e edges ih =>
    rw [List.countP_cons, List.countP_cons, ih]
    by_cases he : e.1 = i
    · by_cases hk : e.2 = k
      · have hcount : (successors (e :: edges) i).count k = (successors edges i).count k + 1 := by
          simp [successors, he, hk]
        have hgone : i ∉ W' := fun h => ((hW i).1 h).2 rfl
        simp only [he, hk, hcount, hi, hgone, beq_self_eq_true, List.contains_iff_mem,
          Bool.true_and, if_true, if_false]
        omega
      · simp [successors, he, hk]
    · have hcount : successors (e :: edges) i = successors edges i := by simp [successors, he]
      have hsame : W'.contains e.1 = W.contains e.1 := by
        rw [Bool.eq_iff_iff, List.contains_iff_mem, List.contains_iff_mem, hW]
        exact and_iff_left he
      rw [hcount, hsame]
      omega

namespace Countdown

/-- If the edges into `js` are among those that count, all of them can be released. What is left to
    count is `rest`, and the places in `js` for which nothing is left can be taken. -/
theorem foldlM_release : ∀ (js : List Nat) (rest : Nat → Nat) (c : Countdown),
    (∀ k, c.counts k = js.count k + rest k) →
      ∃ c', js.foldlM release c = some c' ∧ (∀ k, c'.counts k = rest k) ∧ c'.taken = c.taken ∧
        ∀ k, c'.ready.contains k = true ↔ c.ready.contains k = true ∨ k ∈ js ∧ rest k = 0
  | [], rest, c, hcounts => ⟨c, rfl, by simpa using hcounts, rfl, by simp⟩
  | j :: js, rest, c, hcounts => by
    have hj : c.counts j = js.count j + rest j + 1 := by
      rw [hcounts, List.count_cons_self]
      omega
    obtain ⟨c', hrun, hcounts', htaken, hready⟩ := foldlM_release js rest
      { c with
        counts := fun k => if k = j then js.count j + rest j else c.counts k
        ready := if js.count j + rest j = 0 then c.ready.insert j else c.ready } (by
          intro k
          by_cases hk : k = j
          · simp [hk]
          · simp [hk, hcounts, List.count_cons_of_ne (Ne.symm hk)])
    refine ⟨c', ?_, hcounts', htaken, fun k => ?_⟩
    · rw [List.foldlM_cons, release, hj]
      exact hrun
    · rw [hready, List.mem_cons]
      by_cases hlast : js.count j + rest j = 0
      · rw [if_pos hlast, IndexSet.contains_insert]
        have hrest : rest j = 0 := by omega
        grind
      · -- Another edge into `j` is still to be released, or something else counts.
        rw [if_neg hlast]
        have hmore : rest j = 0 → j ∈ js := fun h => List.count_pos_iff.1 (by omega)
        grind

end Countdown

/-! ### Counting goes along with settling -/

/-- The sort is where the places in `waiting` have not been taken: counted are the edges from these
    places, and those of them that no edge leads to can be taken. -/
structure Tracks (edges : List (Nat × Nat)) (waiting : List (Placed T)) (c : Countdown) : Prop where
  increasing : (waiting.map Placed.place).Pairwise (· < ·)
  /-- The waiting places wait for one another along the edges. -/
  waits : ∀ x ∈ waiting, ∀ y ∈ waiting,
    (y.place, x.place) ∈ edges ↔ x.after.contains y.place = true
  /-- No edge leads from a waiting place to one that was taken. -/
  closed : ∀ e ∈ edges, e.1 ∈ waiting.map Placed.place → e.2 ∈ waiting.map Placed.place
  counts : ∀ j, c.counts j =
    edges.countP fun e => e.2 == j && (waiting.map Placed.place).contains e.1
  ready : ∀ j, c.ready.contains j = true ↔ j ∈ waiting.map Placed.place ∧ c.counts j = 0

namespace Tracks

open Arrangement (settle ready_eq_true length_filter_place_le)

variable {edges : List (Nat × Nat)} {waiting : List (Placed T)} {c : Countdown} {x : Placed T}

/-- A place is ready exactly if nothing counts for it. -/
theorem ready_iff_counts (h : Tracks edges waiting c) (hx : x ∈ waiting) :
    Arrangement.ready waiting x = true ↔ c.counts x.place = 0 := by
  rw [ready_eq_true, h.counts, List.countP_eq_zero]
  constructor
  · rintro hfree ⟨i, j⟩ he hcounts
    rw [Bool.and_eq_true, beq_iff_eq, List.contains_iff_mem, List.mem_map] at hcounts
    obtain ⟨rfl, y, hy, rfl⟩ := hcounts
    rw [h.waits x hx y hy, hfree y hy] at he
    cases he
  · intro hnone y hy
    rw [← Bool.not_eq_true, ← h.waits x hx y hy]
    intro he
    exact hnone _ he (by simpa using ⟨y, hy, rfl⟩)

/-- The places that can be taken are the ready ones, in order. -/
theorem toList_ready (h : Tracks edges waiting c) :
    c.ready.toList = (waiting.filter (Arrangement.ready waiting)).map Placed.place := by
  refine c.ready.increasing.eq_of_mem_iff ?_ fun {j} => ?_
  · exact h.increasing.sublist (List.filter_sublist.map Placed.place)
  · rw [← IndexSet.contains_eq_true, h.ready]
    simp only [List.mem_map, List.mem_filter]
    constructor
    · rintro ⟨⟨x, hx, rfl⟩, hzero⟩
      exact ⟨x, ⟨hx, (h.ready_iff_counts hx).2 hzero⟩, rfl⟩
    · rintro ⟨x, ⟨hx, hready⟩, rfl⟩
      exact ⟨⟨x, hx, rfl⟩, (h.ready_iff_counts hx).1 hready⟩

/-- Nothing can be taken if no place is ready. -/
theorem pop?_of_find?_eq_none (h : Tracks edges waiting c)
    (hfind : waiting.find? (Arrangement.ready waiting) = none) : c.ready.pop? = none := by
  refine IndexSet.pop?_eq_none ?_
  rw [h.toList_ready, List.map_eq_nil_iff, List.filter_eq_nil_iff]
  exact List.find?_eq_none.1 hfind

/-- The first ready place is the lowest that can be taken. -/
theorem pop?_of_find?_eq_some (h : Tracks edges waiting c)
    (hfind : waiting.find? (Arrangement.ready waiting) = some x) :
    ∃ ready, c.ready.pop? = some (x.place, ready) ∧
      ∀ j, ready.contains j = true ↔ c.ready.contains j = true ∧ j ≠ x.place := by
  rw [← List.head?_filter, List.head?_eq_some_iff] at hfind
  obtain ⟨others, hothers⟩ := hfind
  have hlist := h.toList_ready
  rw [hothers, List.map_cons] at hlist
  obtain ⟨ready, hpop, hrest⟩ := IndexSet.exists_pop?_eq hlist
  have hlower := c.ready.increasing
  rw [hlist, ← hrest, List.pairwise_cons] at hlower
  refine ⟨ready, hpop, fun j => ?_⟩
  rw [IndexSet.contains_eq_true, IndexSet.contains_eq_true, hlist, ← hrest, List.mem_cons]
  constructor
  · intro hj
    exact ⟨Or.inr hj, (Nat.ne_of_lt (hlower.1 j hj)).symm⟩
  · rintro ⟨hj, hne⟩
    exact hj.resolve_left hne

theorem mem_map_place_filter {j : Nat} :
    j ∈ (waiting.filter fun y => y.place != x.place).map Placed.place ↔
      j ∈ waiting.map Placed.place ∧ j ≠ x.place := by
  simp only [List.mem_map, List.mem_filter, bne_iff_ne]
  grind

/-- No edge leads from a waiting place to a ready one, so none leads to it when it is taken. -/
theorem closed_filter (h : Tracks edges waiting c) (hx : x ∈ waiting)
    (hready : Arrangement.ready waiting x = true) : ∀ e ∈ edges,
      e.1 ∈ waiting.map Placed.place →
        e.2 ∈ (waiting.filter fun y => y.place != x.place).map Placed.place := by
  rintro ⟨i, j⟩ he hi
  refine mem_map_place_filter.2 ⟨h.closed _ he hi, ?_⟩
  rintro rfl
  obtain ⟨y, hy, rfl⟩ := List.mem_map.1 hi
  rw [h.waits x hx y hy, ready_eq_true.1 hready y hy] at he
  cases he

/-- Taking a ready place releases the edges out of it, and the sort is where that place is gone. -/
theorem take (h : Tracks edges waiting c) (hx : x ∈ waiting)
    (hready : Arrangement.ready waiting x = true) {ready : IndexSet}
    (hrest : ∀ j, ready.contains j = true ↔ c.ready.contains j = true ∧ j ≠ x.place) :
    ∃ c', (successors edges x.place).foldlM Countdown.release
        { c with ready, taken := c.taken ++ [x.place] } = some c' ∧
      Tracks edges (waiting.filter fun y => y.place != x.place) c' ∧
      c'.taken = c.taken ++ [x.place] := by
  have hsub : (waiting.filter fun y => y.place != x.place).Sublist waiting := List.filter_sublist
  have hclosed := h.closed_filter hx hready
  have hsplit := countP_eq_count_successors_add (List.mem_map_of_mem hx)
    (fun _ => mem_map_place_filter) edges
  obtain ⟨c', hrun, hcounts, htaken, hready'⟩ := Countdown.foldlM_release
    (successors edges x.place) _ { c with ready, taken := c.taken ++ [x.place] }
    fun k => (h.counts k).trans (hsplit k)
  refine ⟨c', hrun, ⟨?_, ?_, ?_, hcounts, fun j => ?_⟩, htaken⟩
  · exact h.increasing.sublist (hsub.map Placed.place)
  · exact fun y hy z hz => h.waits y (hsub.subset hy) z (hsub.subset hz)
  · exact fun e he hi => hclosed e he (mem_map_place_filter.1 hi).1
  · -- A place that is left can be taken if it could be before, or if the last edge into it is gone.
    have hsucc : j ∈ successors edges x.place →
        j ∈ (waiting.filter fun y => y.place != x.place).map Placed.place := by
      intro hj
      obtain ⟨e, he, rfl⟩ := List.mem_map.1 hj
      obtain ⟨he, hi⟩ := List.mem_filter.1 he
      rw [beq_iff_eq] at hi
      exact hclosed e he (hi ▸ List.mem_map_of_mem hx)
    have hcount : c.counts j = (successors edges x.place).count j + c'.counts j := by
      rw [h.counts, hsplit, hcounts]
    rw [hready', hrest, h.ready, mem_map_place_filter, ← hcounts]
    rw [mem_map_place_filter] at hsucc
    constructor
    · rintro (⟨⟨hj, hzero⟩, hne⟩ | ⟨hj, hzero⟩)
      · exact ⟨⟨hj, hne⟩, by omega⟩
      · exact ⟨hsucc hj, hzero⟩
    · rintro ⟨⟨hj, hne⟩, hzero⟩
      by_cases hmem : j ∈ successors edges x.place
      · exact Or.inr ⟨hmem, hzero⟩
      · have hnone := List.count_eq_zero.2 hmem
        exact Or.inl ⟨⟨hj, by omega⟩, hne⟩

/-- Counting takes the places that settling does, in the same order. -/
theorem run_eq_settle : ∀ (n : Nat) {waiting : List (Placed T)} {c : Countdown},
    waiting.length ≤ n → Tracks edges waiting c →
      ∃ c', Countdown.run edges (n + 1) c = some c' ∧
        c'.taken = c.taken ++ (settle n waiting).sorted.map Placed.place
  | 0, waiting, c, hlen, h => by
    obtain rfl := List.length_eq_zero_iff.1 (Nat.le_zero.1 hlen)
    have hpop := h.pop?_of_find?_eq_none rfl
    exact ⟨c, by rw [Countdown.run, hpop], by simp [settle]⟩
  | n + 1, waiting, c, hlen, h => by
    rw [settle, Countdown.run]
    cases hfind : waiting.find? (Arrangement.ready waiting) with
    | none =>
      rw [h.pop?_of_find?_eq_none hfind]
      exact ⟨c, rfl, by simp⟩
    | some x =>
      have hx := List.mem_of_find?_eq_some hfind
      obtain ⟨ready, hpop, hrest⟩ := h.pop?_of_find?_eq_some hfind
      obtain ⟨c', hrun, htracks, htaken⟩ := h.take hx (List.find?_some hfind) hrest
      have hfewer := length_filter_place_le hx (h.increasing.imp Nat.ne_of_lt) hlen
      obtain ⟨final, hfinal, hall⟩ := run_eq_settle n hfewer htracks
      refine ⟨final, ?_, ?_⟩
      · rw [hpop]
        simp only [hrun, Option.bind_eq_bind, Option.bind_some]
        exact hfinal
      · rw [hall, htaken, List.map_cons, List.append_assoc]
        rfl

end Tracks

/-! ### The arrangement -/

theorem Arrangement.stuck_sublist : ∀ (n : Nat) (waiting : List (Placed T)),
    (settle n waiting).stuck.Sublist waiting
  | 0, _ => List.Sublist.refl _
  | n + 1, waiting => by
    rw [settle]
    split
    · exact List.Sublist.refl _
    · exact (stuck_sublist n _).trans List.filter_sublist

namespace Subtyping

variable {s : Subtyping T} {types : List T}

/-- At the start all places are waiting. -/
theorem tracks_start (s : Subtyping T) (types : List T) :
    Tracks (s.edges types) (s.placed types)
      (Countdown.start types.length (s.edges types)) := by
  refine ⟨?_, fun x hx y hy => mem_edges_iff_contains_after hx hy, ?_, ?_, ?_⟩
  · rw [map_place_placed]
    exact List.pairwise_lt_range
  · intro e he _
    rw [map_place_placed]
    exact List.mem_range.2 (lt_length_of_mem_edges he).2
  · intro j
    refine List.countP_congr fun e he => ?_
    simp [map_place_placed, (lt_length_of_mem_edges he).1]
  · intro j
    rw [map_place_placed, IndexSet.contains_eq_true]
    simp [Countdown.start]

/-- The places that are sorted, in order. -/
def sortedPlaces (s : Subtyping T) (types : List T) : List Nat :=
  (s.arrange types).sorted.map Placed.place

/-- The places that are stuck, in order. -/
def stuckPlaces (s : Subtyping T) (types : List T) : List Nat :=
  (s.arrange types).stuck.map Placed.place

/-- Every place is sorted or stuck. -/
theorem perm_places (s : Subtyping T) (types : List T) :
    (s.sortedPlaces types ++ s.stuckPlaces types).Perm (List.range types.length) := by
  rw [sortedPlaces, stuckPlaces, ← List.map_append, ← map_place_placed s types]
  exact (settled_arrange s types).perm.map Placed.place

/-- Stuck places stay in input order. -/
theorem pairwise_lt_stuckPlaces (s : Subtyping T) (types : List T) :
    (s.stuckPlaces types).Pairwise (· < ·) := by
  have hplaces : ((s.placed types).map Placed.place).Pairwise (· < ·) := by
    rw [map_place_placed]
    exact List.pairwise_lt_range
  exact hplaces.sublist ((Arrangement.stuck_sublist _ _).map Placed.place)

/-- What is not sorted is stuck. -/
theorem filter_not_sorted (s : Subtyping T) (types : List T) :
    (List.range types.length).filter (fun i => !(s.sortedPlaces types).contains i)
      = s.stuckPlaces types := by
  have hperm := s.perm_places types
  have hapart := List.nodup_append.1 (hperm.nodup_iff.2 List.nodup_range)
  refine (List.pairwise_lt_range.filter _).eq_of_mem_iff (s.pairwise_lt_stuckPlaces types) ?_
  intro i
  rw [List.mem_filter, ← hperm.mem_iff, List.mem_append, Bool.not_eq_true', ← Bool.not_eq_true,
    List.contains_iff_mem]
  constructor
  · rintro ⟨hmem, hnot⟩
    exact hmem.resolve_left hnot
  · intro hstuck
    exact ⟨Or.inr hstuck, fun hsorted => hapart.2.2 i hsorted i hstuck rfl⟩

/-- Whatever the judgement, counting never falls below zero, comes to an end, and gives the
    arrangement. -/
theorem countdown_eq (s : Subtyping T) (types : List T) :
    s.countdown types = some (s.sortedPlaces types, s.stuckPlaces types) := by
  have hlen : (s.placed types).length ≤ types.length := by
    rw [← List.length_map (f := Placed.type), map_type_placed]
  obtain ⟨c, hrun, htaken⟩ := (s.tracks_start types).run_eq_settle types.length hlen
  have hsorted : c.taken = s.sortedPlaces types := htaken
  rw [countdown, hrun]
  simp only [Option.bind_eq_bind, Option.bind_some, hsorted, filter_not_sorted]
  rfl

end Subtyping

end MultipleDispatch
