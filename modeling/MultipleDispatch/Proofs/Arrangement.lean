import Mathlib.Data.Finite.Prod
import Mathlib.Data.Fintype.Card
import Mathlib.Order.WellFounded
import MultipleDispatch.Subtyping.Arrangement

/-!
What arranging guarantees. `Settled` holds of every arrangement that `settle` makes with enough
steps: nothing is lost, no sorted place had to wait for a later one, and every stuck place waits for
another stuck one. Where the judgement composes between different places, waiting is a strict order,
so nothing is stuck and every type comes before those it is strictly below.
-/

namespace MultipleDispatch

variable {T : Type}

namespace Arrangement

/-- `a` is a finished arrangement of the places in `waiting`. -/
structure Settled (waiting : List (Placed T)) (a : Arrangement T) : Prop where
  /-- Every place is there, once. -/
  perm : (a.sorted ++ a.stuck).Perm waiting
  /-- A sorted place waits for none that is sorted later. -/
  ordered : a.sorted.Pairwise fun x y => x.after.contains y.place = false
  /-- A sorted place waits for no stuck one. -/
  ahead : ∀ x ∈ a.sorted, ∀ y ∈ a.stuck, x.after.contains y.place = false
  /-- A stuck place waits for another stuck one. -/
  held : ∀ x ∈ a.stuck, ∃ y ∈ a.stuck, x.after.contains y.place = true

theorem ready_eq_true {waiting : List (Placed T)} {x : Placed T} :
    ready waiting x = true ↔ ∀ y ∈ waiting, x.after.contains y.place = false := by
  simp [ready]

/-- Taking one place out of places that all differ leaves the others. -/
theorem perm_cons_filter_place {x : Placed T} : ∀ {waiting : List (Placed T)}, x ∈ waiting →
    (waiting.map Placed.place).Nodup →
      waiting.Perm (x :: waiting.filter fun y => y.place != x.place)
  | a :: rest, hx, hn => by
    rw [List.map_cons, List.nodup_cons] at hn
    rcases List.mem_cons.1 hx with rfl | hx
    · have hkeep : rest.filter (fun y => y.place != x.place) = rest := by
        rw [List.filter_eq_self]
        intro y hy
        have hne : y.place ≠ x.place := fun h => hn.1 (h ▸ List.mem_map_of_mem hy)
        simpa using hne
      simp [hkeep]
    · have hne : a.place ≠ x.place := fun h => hn.1 (h ▸ List.mem_map_of_mem hx)
      have hkept : (a :: rest).filter (fun y => y.place != x.place)
          = a :: rest.filter fun y => y.place != x.place := by
        simp [hne]
      rw [hkept]
      exact ((perm_cons_filter_place hx hn.2).cons a).trans (List.Perm.swap x a _)

theorem length_filter_place_le {waiting : List (Placed T)} {x : Placed T} {n : Nat}
    (hx : x ∈ waiting) (hn : (waiting.map Placed.place).Nodup) (hlen : waiting.length ≤ n + 1) :
    (waiting.filter fun y => y.place != x.place).length ≤ n := by
  have hperm := (perm_cons_filter_place hx hn).length_eq
  rw [List.length_cons] at hperm
  omega

/-- Putting a ready place in front of a finished arrangement of the others. -/
theorem Settled.cons {waiting : List (Placed T)} {rest : Arrangement T} {x : Placed T}
    (hx : x ∈ waiting) (hn : (waiting.map Placed.place).Nodup) (hready : ready waiting x = true)
    (hrest : Settled (waiting.filter fun y => y.place != x.place) rest) :
    Settled waiting ⟨x :: rest.sorted, rest.stuck⟩ := by
  have hfree : ∀ y ∈ rest.sorted ++ rest.stuck, x.after.contains y.place = false := by
    intro y hy
    exact ready_eq_true.1 hready y (List.mem_filter.1 (hrest.perm.mem_iff.1 hy)).1
  refine ⟨?_, ?_, ?_, hrest.held⟩
  · exact (hrest.perm.cons x).trans (perm_cons_filter_place hx hn).symm
  · exact List.pairwise_cons.2
      ⟨fun y hy => hfree y (List.mem_append_left _ hy), hrest.ordered⟩
  · intro y hy z hz
    rcases List.mem_cons.1 hy with rfl | hy
    · exact hfree z (List.mem_append_right _ hz)
    · exact hrest.ahead y hy z hz

/-- As many steps as there are places finish the arrangement. -/
theorem settled_settle : ∀ (n : Nat) (waiting : List (Placed T)), waiting.length ≤ n →
    (waiting.map Placed.place).Nodup → Settled waiting (settle n waiting)
  | 0, waiting, hlen, _ => by
    rw [List.length_eq_zero_iff.1 (Nat.le_zero.1 hlen)]
    exact ⟨by simp [settle], by simp [settle], by simp [settle], by simp [settle]⟩
  | n + 1, waiting, hlen, hn => by
    rw [settle]
    cases hfind : waiting.find? (ready waiting) with
    | none =>
      refine ⟨by simp, by simp, by simp, fun x hx => ?_⟩
      have hheld := List.find?_eq_none.1 hfind x hx
      simpa [ready] using hheld
    | some x =>
      have hx : x ∈ waiting := List.mem_of_find?_eq_some hfind
      have hfewer := length_filter_place_le hx hn hlen
      have hdiff : ((waiting.filter fun y => y.place != x.place).map Placed.place).Nodup :=
        hn.sublist (List.filter_sublist.map Placed.place)
      exact (settled_settle n _ hfewer hdiff).cons hx hn (List.find?_some hfind)

end Arrangement

namespace Subtyping

variable {s : Subtyping T} {types : List T}

/-! ### The places of a list of types -/

theorem map_place_placed (s : Subtyping T) (types : List T) :
    (s.placed types).map Placed.place = List.range types.length := by
  rw [placed, List.map_map, List.range_eq_range']
  exact List.zipIdx_map_snd 0 types

theorem map_type_placed (s : Subtyping T) (types : List T) :
    (s.placed types).map Placed.type = types := by
  rw [placed, List.map_map]
  exact List.zipIdx_map_fst 0 types

/-- A place stands for the type found there in the input. -/
theorem getElem?_place {x : Placed T} (hx : x ∈ s.placed types) :
    types[x.place]? = some x.type := by
  obtain ⟨⟨t, i⟩, hmem, rfl⟩ := List.mem_map.1 hx
  exact List.mem_zipIdx_iff_getElem?.1 hmem

/-- A place waits for those whose type precedes its own. -/
theorem contains_after {x y : Placed T} (hx : x ∈ s.placed types) (hy : y ∈ s.placed types) :
    x.after.contains y.place = s.precedes y.type y.place x.type x.place := by
  have hyt := getElem?_place hy
  obtain ⟨⟨t, i⟩, hmem, rfl⟩ := List.mem_map.1 hx
  rw [Bool.eq_iff_iff]
  simp only [List.contains_iff_mem, List.mem_map, List.mem_filter, Prod.exists,
    List.mem_zipIdx_iff_getElem?]
  constructor
  · rintro ⟨a, j, ⟨ha, hp⟩, rfl⟩
    rw [hyt] at ha
    cases ha
    exact hp
  · intro hp
    exact ⟨y.type, y.place, ⟨hyt, hp⟩, rfl⟩

theorem settled_arrange (s : Subtyping T) (types : List T) :
    Arrangement.Settled (s.placed types) (s.arrange types) := by
  refine Arrangement.settled_settle _ _ ?_ ?_
  · rw [← List.length_map (f := Placed.type), map_type_placed]
  · rw [map_place_placed]
    exact List.nodup_range

theorem mem_placed_of_mem_arrange {x : Placed T}
    (hx : x ∈ (s.arrange types).sorted ++ (s.arrange types).stuck) : x ∈ s.placed types :=
  (settled_arrange s types).perm.mem_iff.1 hx

/-- Arranging only reorders the types. -/
theorem perm_types_arrange (s : Subtyping T) (types : List T) :
    (s.arrange types).types.Perm types := by
  have hperm := (settled_arrange s types).perm.map Placed.type
  rwa [map_type_placed] at hperm

/-! ### No cycles where the judgement composes -/

/-- Affirmed judgements between the types of a list compose. A place is never compared with
    itself, so nothing is asked of it. -/
def Composes (s : Subtyping T) (types : List T) : Prop :=
  ∀ ⦃i j k : Nat⦄ ⦃a b c : T⦄, types[i]? = some a → types[j]? = some b → types[k]? = some c →
    i ≠ k → s.below a b = true → s.below b c = true → s.below a c = true

theorem precedes_eq_true {a b : T} {i j : Nat} : s.precedes a i b j = true ↔
    i ≠ j ∧ s.below a b = true ∧ (i < j ∨ s.below b a = false) := by
  rw [precedes]
  rcases Nat.lt_trichotomy i j with h | h | h
  · rw [if_pos h]
    exact ⟨fun hab => ⟨by omega, hab, Or.inl h⟩, fun hab => hab.2.1⟩
  · rw [if_neg (by omega), if_neg (by omega)]
    simp [h]
  · rw [if_neg (by omega), if_pos h, Bool.and_eq_true, Bool.not_eq_true']
    constructor
    · rintro ⟨hba, hab⟩
      exact ⟨by omega, hab, Or.inr hba⟩
    · rintro ⟨_, hab, hlt | hba⟩
      · omega
      · exact ⟨hba, hab⟩

/-- Two types that precede one another would each have the lower place. -/
theorem precedes_trans (comp : s.Composes types) {a b c : T} {i j k : Nat}
    (ha : types[i]? = some a) (hb : types[j]? = some b) (hc : types[k]? = some c)
    (hpab : s.precedes a i b j = true) (hpbc : s.precedes b j c k = true) :
    s.precedes a i c k = true := by
  obtain ⟨hij, hab, hlij⟩ := precedes_eq_true.1 hpab
  obtain ⟨hjk, hbc, hljk⟩ := precedes_eq_true.1 hpbc
  have hik : i ≠ k := by
    rintro rfl
    cases ha.symm.trans hc
    rcases hlij with hlij | hba
    · rcases hljk with hljk | hab'
      · omega
      · rw [hab] at hab'; cases hab'
    · rw [hbc] at hba; cases hba
  refine precedes_eq_true.2 ⟨hik, comp ha hb hc hik hab hbc, ?_⟩
  -- If `c` is below `a`, all three are below one another and the places decide.
  cases hca : s.below c a with
  | false => exact Or.inr rfl
  | true =>
    have hba := comp hb hc ha hij.symm hbc hca
    have hcb := comp hc ha hb hjk.symm hca hab
    rw [hba, or_iff_left Bool.true_eq_false_eq_False] at hlij
    rw [hcb, or_iff_left Bool.true_eq_false_eq_False] at hljk
    omega

/-- Where the judgement composes, waiting is a strict order on the finitely many places. -/
theorem wellFounded_precedes (comp : s.Composes types) :
    WellFounded fun i j : Fin types.length => s.precedes types[i] i types[j] j = true := by
  have htrans : IsTrans (Fin types.length) fun i j => s.precedes types[i] i types[j] j = true :=
    ⟨fun i j k hij hjk => precedes_trans comp (by simp) (by simp) (by simp) hij hjk⟩
  have hirrefl : Std.Irrefl fun i j : Fin types.length => s.precedes types[i] i types[j] j = true :=
    ⟨fun i hi => (precedes_eq_true.1 hi).1 rfl⟩
  exact Finite.wellFounded_of_trans_of_irrefl _

/-- Where the judgement composes, no place is held up. -/
theorem stuck_arrange (comp : s.Composes types) : (s.arrange types).stuck = [] := by
  have hplaced : ∀ y ∈ (s.arrange types).stuck, y ∈ s.placed types :=
    fun y hy => mem_placed_of_mem_arrange (List.mem_append_right _ hy)
  have hbound : ∀ y ∈ (s.arrange types).stuck, ∃ i : Fin types.length,
      i.val = y.place ∧ types[i] = y.type := by
    intro y hy
    obtain ⟨hlt, ht⟩ := List.getElem?_eq_some_iff.1 (getElem?_place (hplaced y hy))
    exact ⟨⟨y.place, hlt⟩, rfl, ht⟩
  by_contra hne
  obtain ⟨x, hx⟩ := List.exists_mem_of_ne_nil _ hne
  obtain ⟨ix, hix, _⟩ := hbound x hx
  -- The least stuck place waits for another stuck one, which would be less.
  obtain ⟨m, ⟨y, hy, hym⟩, hmin⟩ := (wellFounded_precedes comp).has_min
    {i | ∃ y ∈ (s.arrange types).stuck, y.place = i.val} ⟨ix, x, hx, hix.symm⟩
  obtain ⟨z, hz, hwait⟩ := (settled_arrange s types).held y hy
  obtain ⟨iy, hiy, hty⟩ := hbound y hy
  obtain ⟨iz, hiz, htz⟩ := hbound z hz
  rw [contains_after (hplaced y hy) (hplaced z hz), ← hty, ← htz, ← hiy, ← hiz] at hwait
  obtain rfl : iy = m := Fin.ext (hiy.trans hym)
  exact hmin iz ⟨z, hz, hiz.symm⟩ hwait

/-- Where the judgement composes, a type that comes later is below an earlier one only if that one
    is below it as well. -/
theorem ordered_types_arrange (comp : s.Composes types) :
    (s.arrange types).types.Pairwise fun a b => s.below b a = true → s.below a b = true := by
  have hplaced : ∀ z ∈ (s.arrange types).sorted, z ∈ s.placed types :=
    fun z hz => mem_placed_of_mem_arrange (List.mem_append_left _ hz)
  rw [Arrangement.types, stuck_arrange comp, List.append_nil, List.pairwise_map]
  refine List.Pairwise.imp_of_mem ?_ (settled_arrange s types).ordered
  intro x y hx hy hfree hyx
  rw [contains_after (hplaced x hx) (hplaced y hy)] at hfree
  rcases eq_or_ne y.place x.place with hp | hp
  · have hsame : some y.type = some x.type := by
      rw [← getElem?_place (hplaced x hx), ← getElem?_place (hplaced y hy), hp]
    rw [Option.some.inj hsame] at hyx ⊢
    exact hyx
  · by_contra hxy
    rw [Bool.not_eq_true] at hxy
    rw [precedes_eq_true.2 ⟨hp, hyx, Or.inr hxy⟩] at hfree
    cases hfree

end Subtyping

end MultipleDispatch
