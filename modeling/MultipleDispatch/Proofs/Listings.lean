import Mathlib.Data.List.Pairwise
import MultipleDispatch.Candidate.Basic

/-!
The order of listings. Comparing two candidates looks at three things only (`ListingKey`): the name,
the home and the labels of the parameters, of which first the number counts. On these keys it is a
linear order, so on candidates it is a total preorder in which those of one key are equal. A key
determines the shown form. So the shown forms of sorted candidates do not depend on the order in
which the candidates were given.
-/

namespace MultipleDispatch

/-- What a listing sorts candidates by. -/
structure ListingKey where
  name : String
  home : String
  labels : List String

namespace ListingKey

/-- Names are compared first, then homes, then the number of labels, then the labels. -/
def order (k l : ListingKey) : Ordering :=
  (compare k.name l.name).then <| (compare k.home l.home).then <|
    (compare k.labels.length l.labels.length).then <| Candidate.compareTexts k.labels l.labels

/-- The shown form of a candidate with this key. -/
def shown (k : ListingKey) : String :=
  k.home ++ "." ++ k.name ++ "(" ++ ", ".intercalate k.labels ++ ")"

/-! ### A linear order of keys -/

/-- Texts are compared in lexicographic order. -/
theorem compareTexts_eq_compareLex : ∀ as bs : List String,
    Candidate.compareTexts as bs = List.compareLex compare as bs
  | [], [] => rfl
  | [], _ :: _ => rfl
  | _ :: _, [] => rfl
  | a :: as, b :: bs => by
    rw [Candidate.compareTexts, List.compareLex_cons_cons, compareTexts_eq_compareLex as bs]

instance : Std.TransCmp fun k l : ListingKey => Candidate.compareTexts k.labels l.labels where
  eq_swap := by
    intro k l
    simp only [compareTexts_eq_compareLex]
    exact Std.OrientedCmp.eq_swap
  isLE_trans := by
    intro k l m
    simp only [compareTexts_eq_compareLex]
    exact Std.TransCmp.isLE_trans

instance : Std.TransCmp order :=
  inferInstanceAs <| Std.TransCmp <| compareLex (compareOn name) <| compareLex (compareOn home) <|
    compareLex (compareOn fun k => k.labels.length)
      fun k l => Candidate.compareTexts k.labels l.labels

theorem order_eq_eq {k l : ListingKey} : k.order l = .eq ↔ k = l := by
  constructor
  · intro h
    simp only [order, compareTexts_eq_compareLex, Ordering.then_eq_eq,
      Std.LawfulEqCmp.compare_eq_iff_eq] at h
    obtain ⟨hname, hhome, _, hlabels⟩ := h
    cases k
    cases l
    cases hname
    cases hhome
    cases hlabels
    rfl
  · rintro rfl
    exact Std.ReflCmp.compare_self

theorem order_antisymm {k l : ListingKey} (hkl : k.order l ≠ .gt) (hlk : l.order k ≠ .gt) :
    k = l := by
  have hkl := Ordering.ne_gt_iff_isLE.1 hkl
  have hlk := Ordering.ne_gt_iff_isLE.1 hlk
  exact order_eq_eq.1 (Std.OrientedCmp.isLE_antisymm hkl hlk)

end ListingKey

/-! ### Candidates by their keys -/

namespace Candidate

variable {T : Type} [ToString T] {a b c : Candidate T} {cs ds : List (Candidate T)}

/-- What listings see of a candidate. -/
def listingKey (c : Candidate T) : ListingKey := ⟨c.name, c.home, c.labels⟩

theorem order_eq_listingKey (a b : Candidate T) : a.order b = a.listingKey.order b.listingKey := by
  simp only [order, ListingKey.order, listingKey, arity, labels, List.length_map]

theorem order_swap (a b : Candidate T) : a.order b = (b.order a).swap := by
  rw [order_eq_listingKey, order_eq_listingKey]
  exact Std.OrientedCmp.eq_swap

theorem order_trans (hab : a.order b ≠ .gt) (hbc : b.order c ≠ .gt) : a.order c ≠ .gt := by
  rw [order_eq_listingKey] at hab hbc ⊢
  have hab := Ordering.ne_gt_iff_isLE.1 hab
  have hbc := Ordering.ne_gt_iff_isLE.1 hbc
  exact Ordering.ne_gt_iff_isLE.2 (Std.TransCmp.isLE_trans hab hbc)

theorem order_eq_eq :
    a.order b = .eq ↔ a.name = b.name ∧ a.home = b.home ∧ a.labels = b.labels := by
  rw [order_eq_listingKey, ListingKey.order_eq_eq, listingKey, listingKey, ListingKey.mk.injEq]

theorem shown_eq_listingKey (c : Candidate T) : c.shown = c.listingKey.shown := rfl

theorem order_ne_gt_iff : a.order b ≠ .gt ↔ b.order a ≠ .lt := by
  rw [order_swap a b]
  cases b.order a <;> simp

theorem order_total (a b : Candidate T) : a.order b ≠ .gt ∨ b.order a ≠ .gt := by
  rw [order_swap a b]
  cases b.order a <;> simp

/-! ### Sorted candidates -/

/-- `listing` has the candidates `cs` sorted: none stands behind one that is greater, and of two
    that compare equal the one that was given first stands first. -/
structure Listing (cs listing : List (Candidate T)) : Prop where
  perm : listing.Perm cs
  ordered : listing.Pairwise fun a b => b.order a ≠ .lt
  stable : ∀ a b, [a, b].Sublist cs → a.order b = .eq → [a, b].Sublist listing

theorem listing_mergeSort (cs : List (Candidate T)) :
    Listing cs (cs.mergeSort fun a b => a.order b != .gt) := by
  have htrans : ∀ a b c : Candidate T, (a.order b != .gt) = true → (b.order c != .gt) = true →
      (a.order c != .gt) = true := by
    simp only [bne_iff_ne]
    exact fun a b c => order_trans
  have htotal : ∀ a b : Candidate T, (a.order b != .gt || b.order a != .gt) = true := by
    simp only [Bool.or_eq_true, bne_iff_ne]
    exact order_total
  refine ⟨List.mergeSort_perm cs _, ?_, fun a b hab heq => ?_⟩
  · refine (List.pairwise_mergeSort htrans htotal cs).imp fun {a b} hab => ?_
    exact order_ne_gt_iff.1 (bne_iff_ne.1 hab)
  · exact List.pair_sublist_mergeSort htrans htotal (by rw [heq]; rfl) hab

/-- However the candidates were given, sorted they show the same. -/
theorem Listing.map_shown_eq {listing listing' : List (Candidate T)} (h : Listing cs listing)
    (h' : Listing ds listing') (hperm : cs.Perm ds) : listing.map shown = listing'.map shown := by
  have hordered : ∀ {es listing : List (Candidate T)}, Listing es listing →
      (listing.map listingKey).Pairwise fun k l => k.order l ≠ .gt := by
    intro es listing h
    rw [List.pairwise_map]
    refine h.ordered.imp fun {a b} hab => ?_
    rw [← order_eq_listingKey]
    exact order_ne_gt_iff.2 hab
  have hkeys : listing.map listingKey = listing'.map listingKey := by
    refine List.Perm.eq_of_pairwise (fun k l _ _ => ListingKey.order_antisymm) (hordered h)
      (hordered h') ?_
    exact ((h.perm.trans hperm).trans h'.perm.symm).map listingKey
  have hshown : ∀ es : List (Candidate T),
      es.map shown = (es.map listingKey).map ListingKey.shown := fun es => by
    rw [List.map_map]
    rfl
  rw [hshown, hshown, hkeys]

/-- Comparing candidates is a total preorder. Two are equal in it just if they agree in name, home
    and labels, and then they show the same. So a stable sort gives a permutation in which none
    stands behind a greater one, and what it shows is the same for every order of the input. -/
theorem order_total_preorder (T : Type) [ToString T] :
    (∀ a b : Candidate T, a.order b = (b.order a).swap) ∧
    (∀ a b c : Candidate T, a.order b ≠ .gt → b.order c ≠ .gt → a.order c ≠ .gt) ∧
    (∀ a b : Candidate T, a.order b = .eq ↔
      a.name = b.name ∧ a.home = b.home ∧ a.labels = b.labels) ∧
    (∀ a b : Candidate T, a.order b = .eq → a.shown = b.shown) ∧
    (∀ cs : List (Candidate T), Listing cs (cs.mergeSort fun a b => a.order b != .gt)) ∧
    ∀ cs ds listing listing' : List (Candidate T), cs.Perm ds → Listing cs listing →
      Listing ds listing' → listing.map shown = listing'.map shown := by
  refine ⟨order_swap, fun a b c => order_trans, fun a b => order_eq_eq, fun a b heq => ?_,
    listing_mergeSort, fun cs ds listing listing' hperm h h' => h.map_shown_eq h' hperm⟩
  rw [order_eq_listingKey, ListingKey.order_eq_eq] at heq
  rw [shown_eq_listingKey, shown_eq_listingKey, heq]

/-- A variadic parameter and one of a type whose name ends in three dots have the same label. Fewer
    parameters go first, whatever their labels. -/
theorem order_total_preorder_labels :
    let c (params : List (Param String)) : Candidate String := ⟨"home", "f", params, "Any", []⟩
    let z := c [⟨"x", some "Z", false⟩]
    let dots := c [⟨"x", some "Int...", false⟩, ⟨"y", some "?", true⟩]
    let variadic := c [⟨"x", some "Int", true⟩, ⟨"y", none, false⟩]
    let typed := c [⟨"x", some "Int", true⟩, ⟨"y", some "?...", false⟩]
    z.order variadic ≠ .gt ∧ variadic.order typed ≠ .gt ∧ z.order typed ≠ .gt ∧
      dots ≠ typed ∧ dots.order typed = .eq ∧ dots.shown = typed.shown ∧
      Listing [variadic, z] ([variadic, z].mergeSort fun a b => a.order b != .gt) := by
  intro c z dots variadic typed
  obtain ⟨_, htrans, _, hshown, hlisting, _⟩ := order_total_preorder String
  have hzv : z.order variadic ≠ .gt := by decide
  have hvt : variadic.order typed ≠ .gt := by decide
  have hdt : dots.order typed = .eq := by decide
  have hne : dots ≠ typed := by simp [dots, typed, c]
  exact ⟨hzv, hvt, htrans z variadic typed hzv hvt, hne, hdt, hshown dots typed hdt,
    hlisting [variadic, z]⟩

end Candidate

end MultipleDispatch
