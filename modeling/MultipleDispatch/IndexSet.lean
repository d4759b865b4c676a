/-!
Finite sets of parameter indices, kept as increasing lists.
-/

namespace MultipleDispatch

/-- A finite set of indices, listed in increasing order. -/
structure IndexSet where
  toList : List Nat
  increasing : toList.Pairwise (· < ·)
  deriving DecidableEq

namespace IndexSet

/-- The set without members. -/
def empty : IndexSet := ⟨[], .nil⟩

/-- Membership. -/
def contains (s : IndexSet) (i : Nat) : Bool := s.toList.contains i

/-- The number of members. -/
def size (s : IndexSet) : Nat := s.toList.length

/-- Puts `i` in its place, unless it is there already. -/
def place (i : Nat) : List Nat → List Nat
  | [] => [i]
  | j :: js => if i < j then i :: j :: js else if i = j then j :: js else j :: place i js

theorem mem_place {i k : Nat} {l : List Nat} : k ∈ place i l ↔ k = i ∨ k ∈ l := by
  induction l with
  | nil => simp [place]
  | cons j js ih =>
    simp only [place]
    split
    · simp
    · split
      · simp_all
      · simp only [List.mem_cons, ih]
        grind

theorem pairwise_place {i : Nat} {l : List Nat} (h : l.Pairwise (· < ·)) :
    (place i l).Pairwise (· < ·) := by
  induction l with
  | nil => simp [place]
  | cons j js ih =>
    obtain ⟨hj, hjs⟩ := List.pairwise_cons.1 h
    simp only [place]
    split
    · next hij =>
      exact List.pairwise_cons.2 ⟨fun k hk => by
        rcases List.mem_cons.1 hk with rfl | hk
        · exact hij
        · exact Nat.lt_trans hij (hj k hk), h⟩
    · split
      · exact h
      · next hij hne =>
        refine List.pairwise_cons.2 ⟨fun k hk => ?_, ih hjs⟩
        rcases mem_place.1 hk with rfl | hk
        · omega
        · exact hj k hk

/-- The set with `i` added. -/
def insert (s : IndexSet) (i : Nat) : IndexSet := ⟨place i s.toList, pairwise_place s.increasing⟩

/-- The shown form: the members in braces. -/
def shown (s : IndexSet) : String := "\x7b" ++ ", ".intercalate (s.toList.map toString) ++ "\x7d"

end IndexSet

end MultipleDispatch
