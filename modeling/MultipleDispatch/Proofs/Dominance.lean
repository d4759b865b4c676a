import MultipleDispatch.Group.Dominance

/-!
Laws of acceptance and dominance. Where types accept one another transitively, dominance is a
preorder on the candidates of a group. The scan for the most specific candidate then only ever moves
to a candidate that dominates the one before, so it ends at one that none of them beats, and at one
that dominates all if there is any such. The principal is the first candidate that all dominate.
-/

namespace MultipleDispatch

variable {T : Type} [BEq T]

namespace Subtyping

/-- A type accepts whatever a type that fits it accepts. -/
def Transitive (s : Subtyping T) : Prop :=
  ∀ ⦃a b c : T⦄, s.fits a b = true → s.fits b c = true → s.fits a c = true

/-- No two types accept one another. -/
def Antisymmetric (s : Subtyping T) : Prop :=
  ∀ ⦃a b : T⦄, s.fits a b = true → s.fits b a = true → a = b

/-- One of the two types accepts the other. -/
def Comparable (s : Subtyping T) (a b : T) : Prop := s.fits a b = true ∨ s.fits b a = true

/-- Of two types that one type fits, one accepts the other. -/
def SingleInheritance (s : Subtyping T) : Prop :=
  ∀ ⦃a b c : T⦄, s.fits a b = true → s.fits a c = true → s.Comparable b c

theorem fits_refl [ReflBEq T] (s : Subtyping T) (a : T) : s.fits a a = true := by
  simp [fits]

theorem fits_of_below {s : Subtyping T} {a b : T} (h : s.below a b = true) : s.fits a b = true := by
  simp [fits, h]

theorem fits_eq_true [LawfulBEq T] {s : Subtyping T} {a b : T} :
    s.fits a b = true ↔ a = b ∨ s.below a b = true := by
  simp [fits]

/-- The types 0, 1 and 2, each below the next. -/
def ladder : Subtyping (Fin 3) := ⟨fun a b => if a ≤ b then .yes else .no, 2⟩

/-- The types 0 to 3, where 1 and 2 both stand between 0 and 3. -/
def diamond : Subtyping (Fin 4) := ⟨fun a b => if a = b ∨ a = 0 ∨ b = 3 then .yes else .no, 3⟩

/-- Each of 0, 1 and 2 is below the next one only, and 2 is below 0. -/
def circle : Subtyping (Fin 3) := ⟨fun a b => if b = a + 1 then .yes else .no, 0⟩

theorem transitive_ladder : ladder.Transitive := by
  unfold Transitive
  decide

theorem antisymmetric_ladder : ladder.Antisymmetric := by
  unfold Antisymmetric
  decide

theorem singleInheritance_ladder : ladder.SingleInheritance := by
  unfold SingleInheritance Comparable
  decide

theorem transitive_diamond : diamond.Transitive := by
  unfold Transitive
  decide

theorem antisymmetric_diamond : diamond.Antisymmetric := by
  unfold Antisymmetric
  decide

end Subtyping

namespace Group

variable {s : Subtyping T} {g : Group T}

theorem dominates_eq_true {a b : Fin g.size} :
    g.dominates s a b = true ↔ ∀ i, s.fits (g.type a i) (g.type b i) = true := by
  simp [dominates, indices]

theorem dominates_refl [ReflBEq T] (s : Subtyping T) (g : Group T) (a : Fin g.size) :
    g.dominates s a a = true :=
  dominates_eq_true.2 fun i => s.fits_refl (g.type a i)

theorem dominates_trans (trans : s.Transitive) {a b c : Fin g.size}
    (hab : g.dominates s a b = true) (hbc : g.dominates s b c = true) :
    g.dominates s a c = true :=
  dominates_eq_true.2 fun i => trans (dominates_eq_true.1 hab i) (dominates_eq_true.1 hbc i)

/-! ### The scan for the most specific candidate -/

theorem prefer_mem (s : Subtyping T) (g : Group T) (best c : Fin g.size) :
    g.prefer s best c = best ∨ g.prefer s best c = c := by
  rw [prefer]
  split
  · exact Or.inr rfl
  · exact Or.inl rfl

theorem prefer_dominates [ReflBEq T] (s : Subtyping T) (g : Group T) (best c : Fin g.size) :
    g.dominates s (g.prefer s best c) best = true := by
  rw [prefer]
  split
  · next h => exact h
  · exact dominates_refl s g best

theorem foldl_prefer_mem (s : Subtyping T) (g : Group T) : ∀ (cs : List (Fin g.size))
    (best : Fin g.size), cs.foldl (g.prefer s) best ∈ best :: cs
  | [], best => List.mem_cons_self
  | c :: cs, best => by
    rw [List.foldl_cons]
    rcases List.mem_cons.1 (foldl_prefer_mem s g cs (g.prefer s best c)) with h | h
    · rw [h]
      rcases prefer_mem s g best c with h' | h'
      · rw [h']; exact List.mem_cons_self
      · rw [h']; exact List.mem_cons_of_mem best List.mem_cons_self
    · exact List.mem_cons_of_mem best (List.mem_cons_of_mem c h)

/-- The scan never ends at anything less specific than where it started. -/
theorem foldl_prefer_dominates [ReflBEq T] (trans : s.Transitive) : ∀ (cs : List (Fin g.size))
    (best : Fin g.size), g.dominates s (cs.foldl (g.prefer s) best) best = true
  | [], best => dominates_refl s g best
  | c :: cs, best => by
    rw [List.foldl_cons]
    exact dominates_trans trans (foldl_prefer_dominates trans cs _) (prefer_dominates s g best c)

/-- Nothing on the list beats the candidate that the scan ends at: whatever dominates it is
    dominated by it in turn. -/
theorem foldl_prefer_maximal [ReflBEq T] (trans : s.Transitive) {h : Fin g.size} :
    ∀ (cs : List (Fin g.size)) (best : Fin g.size), h ∈ best :: cs →
      g.dominates s h (cs.foldl (g.prefer s) best) = true →
        g.dominates s (cs.foldl (g.prefer s) best) h = true
  | [], best, hmem, hdom => by
    rw [List.mem_singleton.1 hmem]
    exact dominates_refl s g best
  | c :: cs, best, hmem, hdom => by
    rw [List.foldl_cons] at hdom ⊢
    have hend := foldl_prefer_dominates trans cs (g.prefer s best c)
    rcases List.mem_cons.1 hmem with rfl | hmem
    · exact dominates_trans trans hend (prefer_dominates s g h c)
    rcases List.mem_cons.1 hmem with rfl | hmem
    · -- Beating the end of the scan, `h` beats `best` as well, so it was taken when it was met.
      have hbest := dominates_trans trans hend (prefer_dominates s g best h)
      have htaken : g.prefer s best h = h := if_pos (dominates_trans trans hdom hbest)
      rwa [htaken] at hend ⊢
    · exact foldl_prefer_maximal trans cs _ (List.mem_cons_of_mem _ hmem) hdom

theorem mostSpecific_mem (s : Subtyping T) (g : Group T) (c : Class (Fin g.size)) :
    g.mostSpecific s c ∈ c.members :=
  foldl_prefer_mem s g c.others c.first

/-- Whatever member of a class dominates the chosen one is dominated by it in turn. -/
theorem mostSpecific_maximal [ReflBEq T] (trans : s.Transitive) {c : Class (Fin g.size)}
    {h : Fin g.size} (hmem : h ∈ c.members) (hdom : g.dominates s h (g.mostSpecific s c) = true) :
    g.dominates s (g.mostSpecific s c) h = true :=
  foldl_prefer_maximal trans c.others c.first hmem hdom

/-- If a member of a class dominates all members, the chosen one dominates it in turn. -/
theorem mostSpecific_dominates [ReflBEq T] (trans : s.Transitive) {c : Class (Fin g.size)}
    {h : Fin g.size} (hmem : h ∈ c.members) (hall : ∀ d ∈ c.members, g.dominates s h d = true) :
    g.dominates s (g.mostSpecific s c) h = true :=
  mostSpecific_maximal trans hmem (hall _ (mostSpecific_mem s g c))

@[simp] theorem value_choose (s : Subtyping T) (g : Group T) (c : Class (Fin g.size)) :
    (g.choose s c).value = g.mostSpecific s c := rfl

end Group

/-! ### The first in group order -/

/-- What stands before a number in the list of all numbers is what is less. -/
theorem mem_before_finRange {n : Nat} {a c : Fin n} {before after : List (Fin n)}
    (h : List.finRange n = before ++ a :: after) : c ∈ before ↔ c < a := by
  obtain ⟨_, hafter, hbefore⟩ := List.pairwise_append.1 (h ▸ List.pairwise_lt_finRange n)
  refine ⟨fun hc => hbefore c hc a List.mem_cons_self, fun hca => ?_⟩
  have hc : c ∈ before ++ a :: after := h ▸ List.mem_finRange c
  refine (List.mem_append.1 hc).resolve_right fun hc => ?_
  rcases List.mem_cons.1 hc with rfl | hc
  · exact Nat.lt_irrefl c hca
  · exact Nat.lt_asymm hca (List.rel_of_pairwise_cons hafter hc)

theorem findSome?_finRange_eq_some {β : Type} {n : Nat} {f : Fin n → Option β} {b : β} :
    (List.finRange n).findSome? f = some b ↔ ∃ a, f a = some b ∧ ∀ c < a, f c = none := by
  rw [List.findSome?_eq_some_iff]
  constructor
  · rintro ⟨before, a, after, hsplit, ha, hbefore⟩
    exact ⟨a, ha, fun c hc => hbefore c ((mem_before_finRange hsplit).2 hc)⟩
  · rintro ⟨a, ha, hbefore⟩
    obtain ⟨before, after, hsplit⟩ := List.append_of_mem (List.mem_finRange a)
    exact ⟨before, a, after, hsplit, ha, fun c hc => hbefore c ((mem_before_finRange hsplit).1 hc)⟩

theorem find?_finRange_eq_some {n : Nat} {p : Fin n → Bool} {a : Fin n} :
    (List.finRange n).find? p = some a ↔ p a = true ∧ ∀ b < a, p b = false := by
  rw [← List.findSome?_guard, findSome?_finRange_eq_some]
  simp only [Option.guard_eq_some_iff, Option.guard_eq_none_iff]
  grind

/-- The principal is the first candidate that all dominate, in a group that needs dispatch. -/
theorem Group.principal?_eq_some {s : Subtyping T} {g : Group T} {p : Fin g.size} :
    g.principal? s = some p ↔ g.isOverloaded = true ∧ (∀ c, g.dominates s c p = true) ∧
      ∀ d < p, ∃ c, g.dominates s c d = false := by
  rw [principal?]
  split
  · next hover => simp [ids, find?_finRange_eq_some, hover]
  · next hover => simp [hover]

end MultipleDispatch
