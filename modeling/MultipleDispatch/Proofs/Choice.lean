import MultipleDispatch.Proofs.Events
import MultipleDispatch.Proofs.Selection

/-!
What is chosen from a list of candidates. The scan goes through the list once and only ever compares
with the candidate that it holds. Where dominance is transitive this is enough to end at a candidate
that none of the list beats, in whatever order they stand, and a rival is reported exactly if no
candidate of the list dominates all others.

Where several candidates are dominated by none, one would expect the first of them to be chosen. But
such a candidate is passed over if it does not dominate the one that is held when it is met, and a
later candidate may then replace that one. So the choice falls on the candidate that is dominated by
none and dominates what would be chosen from the candidates before it.
-/

namespace MultipleDispatch.Group

variable {T : Type} [BEq T] {s : Subtyping T} {g : Group T} {ids : List (Fin g.size)}

/-! ### Choosing from a list -/

theorem value_choose?_cons (s : Subtyping T) (g : Group T) (c : Fin g.size)
    (cs : List (Fin g.size)) : (g.choose? s (c :: cs)).value = some (g.mostSpecific s ⟨c, cs⟩) :=
  rfl

theorem events_choose?_cons (s : Subtyping T) (g : Group T) (c : Fin g.size)
    (cs : List (Fin g.size)) : (g.choose? s (c :: cs)).events = (g.choose s ⟨c, cs⟩).events :=
  Traced.events_map _ _

/-- What is chosen from a longer list comes from going on with the scan. -/
theorem value_choose?_append (s : Subtyping T) (g : Group T) {m : Fin g.size} :
    ∀ {before : List (Fin g.size)} (after : List (Fin g.size)),
      (g.choose? s before).value = some m →
        (g.choose? s (before ++ after)).value = some (after.foldl (g.prefer s) m)
  | [], _, h => by cases h
  | c :: before, after, h => by
    rw [value_choose?_cons, Option.some_inj] at h
    rw [List.cons_append, value_choose?_cons, mostSpecific, List.foldl_append, ← h]
    rfl

theorem value_choose?_mem {m : Fin g.size} (h : (g.choose? s ids).value = some m) : m ∈ ids := by
  cases ids with
  | nil => cases h
  | cons c cs =>
    rw [value_choose?_cons, Option.some_inj] at h
    rw [← h]
    exact mostSpecific_mem s g ⟨c, cs⟩

/-! ### Unbeaten choices -/

/-- Candidate `m` is in `ids` and dominates every other member. -/
def Dominant (s : Subtyping T) (g : Group T) (ids : List (Fin g.size)) (m : Fin g.size) : Prop :=
  m ∈ ids ∧ ∀ d ∈ ids, d ≠ m → g.dominates s m d = true

instance (s : Subtyping T) (g : Group T) (ids : List (Fin g.size)) (m : Fin g.size) :
    Decidable (g.Dominant s ids m) :=
  inferInstanceAs (Decidable (m ∈ ids ∧ ∀ d ∈ ids, d ≠ m → g.dominates s m d = true))

theorem Dominant.dominates [ReflBEq T] {m d : Fin g.size} (h : g.Dominant s ids m) (hd : d ∈ ids) :
    g.dominates s m d = true := by
  by_cases hdm : d = m
  · rw [hdm]
    exact dominates_refl s g m
  · exact h.2 d hd hdm

/-- If some member dominates all others, the chosen one does. -/
theorem dominant_mostSpecific [ReflBEq T] (trans : s.Transitive) {k : Class (Fin g.size)}
    (h : ∃ m, g.Dominant s k.members m) : g.Dominant s k.members (g.mostSpecific s k) := by
  obtain ⟨m, hm⟩ := h
  have hchosen := mostSpecific_dominates trans hm.1 fun d hd => hm.dominates hd
  exact ⟨mostSpecific_mem s g k, fun d hd _ => dominates_trans trans hchosen (hm.dominates hd)⟩

/-- A report of a choice names the chosen candidate and one that it does not dominate. -/
theorem events_choose_cases [ReflBEq T] (s : Subtyping T) (g : Group T) (k : Class (Fin g.size)) :
    (g.choose s k).events = [] ∨
      ∃ r ∈ k.members, g.dominates s (g.mostSpecific s k) r = false ∧ (g.choose s k).events =
        [.ambiguity g.name (g.candidate (g.mostSpecific s k)) (g.candidate r)] := by
  cases hrival : g.rival? s k.members (g.mostSpecific s k) with
  | none => exact Or.inl (by simp [choose, Traced.report?, hrival])
  | some r =>
    have hr := List.find?_some hrival
    simp only [Bool.and_eq_true, Bool.not_eq_true'] at hr
    refine Or.inr ⟨r, List.mem_of_find?_eq_some hrival, hr.2, ?_⟩
    simp [choose, Traced.report?, hrival]

/-- Where dominance is transitive, the candidate chosen from a list is beaten by none of the list. If
    one of the list dominates all others then so does the chosen one, and nothing is reported;
    otherwise an ambiguity with a rival from the list is. -/
theorem choose?_unbeaten [LawfulBEq T] (trans : s.Transitive) (ids : List (Fin g.size))
    (hne : ids ≠ []) : ∃ c ∈ ids, (g.choose? s ids).value = some c ∧
      (∀ d ∈ ids, ¬(g.dominates s d c = true ∧ g.dominates s c d = false)) ∧
      ((∃ m, g.Dominant s ids m) →
        g.Dominant s ids c ∧ (g.choose? s ids).events = []) ∧
      ((¬∃ m, g.Dominant s ids m) → ∃ r ∈ ids, g.dominates s c r = false ∧
        (g.choose? s ids).events = [.ambiguity g.name (g.candidate c) (g.candidate r)]) := by
  cases ids with
  | nil => exact absurd rfl hne
  | cons a as =>
    rw [events_choose?_cons]
    refine ⟨_, mostSpecific_mem s g ⟨a, as⟩, rfl, ?_, ?_, ?_⟩
    · rintro d hd ⟨hdc, hcd⟩
      rw [mostSpecific_maximal (c := ⟨a, as⟩) trans hd hdc] at hcd
      cases hcd
    · intro hex
      have hdom := dominant_mostSpecific (k := ⟨a, as⟩) trans hex
      exact ⟨hdom, events_choose_eq_nil.2 fun d hd => hdom.dominates hd⟩
    · intro hnone
      refine (g.events_choose_cases s ⟨a, as⟩).resolve_left fun hsilent => ?_
      have hall := events_choose_eq_nil.1 hsilent
      exact hnone ⟨_, mostSpecific_mem s g ⟨a, as⟩, fun d hd _ => hall d hd⟩

/-- The third candidate dominates the first two, of which each is a rival of the other. -/
theorem choose?_unbeaten_ladder :
    let g : Group (Fin 3) := ofPairs (1, 0) [(0, 1), (0, 0)]
    let a : Fin g.size := ⟨0, by decide⟩
    let b : Fin g.size := ⟨1, by decide⟩
    let c : Fin g.size := ⟨2, by decide⟩
    (∃ d ∈ [a, c, b, c], (g.choose? .ladder [a, c, b, c]).value = some d ∧
      g.Dominant .ladder [a, c, b, c] d ∧ (g.choose? .ladder [a, c, b, c]).events = []) ∧
    ∃ d ∈ [b, a], (g.choose? .ladder [b, a]).value = some d ∧
      ∃ r ∈ [b, a], g.dominates .ladder d r = false ∧
        (g.choose? .ladder [b, a]).events = [.ambiguity "f" (g.candidate d) (g.candidate r)] := by
  intro g a b c
  obtain ⟨d, hd, hvalue, _, hdom, _⟩ := choose?_unbeaten (g := g) Subtyping.transitive_ladder
    [a, c, b, c] (List.cons_ne_nil _ _)
  obtain ⟨d', hd', hvalue', _, _, hrival⟩ := choose?_unbeaten (g := g) Subtyping.transitive_ladder
    [b, a] (List.cons_ne_nil _ _)
  exact ⟨⟨d, hd, hvalue, hdom ⟨c, by decide⟩⟩, d', hd', hvalue', hrival (by decide)⟩

/-! ### The first that is dominated by none -/

/-- No other member of `ids` dominates `c`. -/
def Undominated (s : Subtyping T) (g : Group T) (ids : List (Fin g.size)) (c : Fin g.size) : Prop :=
  ∀ d ∈ ids, d ≠ c → g.dominates s d c = false

instance (s : Subtyping T) (g : Group T) (ids : List (Fin g.size)) (c : Fin g.size) :
    Decidable (g.Undominated s ids c) :=
  inferInstanceAs (Decidable (∀ d ∈ ids, d ≠ c → g.dominates s d c = false))

/-- The scan stays with a candidate that none of the others dominates. -/
theorem foldl_prefer_eq_self {u : Fin g.size} : ∀ {cs : List (Fin g.size)},
    g.Undominated s cs u → cs.foldl (g.prefer s) u = u
  | [], _ => rfl
  | c :: cs, h => by
    have hkept : g.prefer s u c = u := by
      by_cases hcu : c = u
      · rcases prefer_mem s g u c with hu | hc
        · exact hu
        · rw [hc, hcu]
      · exact if_neg (by simp [h c List.mem_cons_self hcu])
    rw [List.foldl_cons, hkept]
    exact foldl_prefer_eq_self fun d hd => h d (List.mem_cons_of_mem c hd)

/-- In a partial order no candidate of another signature dominates the chosen one. -/
theorem undominated_of_choose? [ReflBEq T] (trans : s.Transitive) (anti : s.Antisymmetric)
    (hsig : ∀ c ∈ ids, ∀ d ∈ ids, g.signature c = g.signature d → c = d) {u : Fin g.size}
    (h : (g.choose? s ids).value = some u) : g.Undominated s ids u := by
  have hu := value_choose?_mem h
  intro d hd hdu
  cases ids with
  | nil => cases h
  | cons a as =>
    rw [value_choose?_cons, Option.some_inj] at h
    rw [← Bool.not_eq_true]
    intro hdom
    have hback : g.dominates s u d = true := by
      rw [← h] at hdom ⊢
      exact mostSpecific_maximal (c := ⟨a, as⟩) trans hd hdom
    exact hdu (hsig d hd u hu (signature_eq_of_dominates anti hdom hback))

/-- The chosen candidate dominates what is chosen from the candidates before it. -/
theorem dominates_choose?_before [ReflBEq T] (trans : s.Transitive)
    {before after : List (Fin g.size)} {u m : Fin g.size}
    (h : (g.choose? s (before ++ after)).value = some u)
    (hm : (g.choose? s before).value = some m) : g.dominates s u m = true := by
  rw [value_choose?_append s g after hm, Option.some_inj] at h
  rw [← h]
  exact foldl_prefer_dominates trans after m

/-- A candidate that is dominated by none is chosen if it dominates what is chosen from the
    candidates before it. -/
theorem choose?_eq_of_undominated {before after : List (Fin g.size)} {u : Fin g.size}
    (hu : g.Undominated s after u)
    (hbefore : ∀ m, (g.choose? s before).value = some m → g.dominates s u m = true) :
    (g.choose? s (before ++ u :: after)).value = some u := by
  have hstay := foldl_prefer_eq_self hu
  cases before with
  | nil => exact congrArg some hstay
  | cons a as =>
    have hheld := value_choose?_cons s g a as
    have htaken : g.prefer s (g.mostSpecific s ⟨a, as⟩) u = u := if_pos (hbefore _ hheld)
    rw [value_choose?_append s g _ hheld, List.foldl_cons, htaken, hstay]

/-- Where subtyping is a partial order and the candidates differ in their signatures, the choice
    falls on one that is dominated by none. It is the one that also dominates what is chosen from
    the candidates before it, which the first such candidate need not do. -/
theorem choose?_prevails [LawfulBEq T] (trans : s.Transitive) (anti : s.Antisymmetric)
    (ids : List (Fin g.size))
    (hsig : ∀ c ∈ ids, ∀ d ∈ ids, g.signature c = g.signature d → c = d) :
    (ids ≠ [] → ∃ c ∈ ids, (g.choose? s ids).value = some c ∧ g.Undominated s ids c) ∧
    ∀ before u after, ids = before ++ u :: after →
      ((g.choose? s ids).value = some u ↔ g.Undominated s ids u ∧
        ∀ m, (g.choose? s before).value = some m → g.dominates s u m = true) := by
  refine ⟨fun hne => ?_, fun before u after hids => ⟨fun h => ?_, fun h => ?_⟩⟩
  · cases ids with
    | nil => exact absurd rfl hne
    | cons a as =>
      exact ⟨_, mostSpecific_mem s g ⟨a, as⟩, rfl, undominated_of_choose? trans anti hsig rfl⟩
  · exact ⟨undominated_of_choose? trans anti hsig h,
      fun m hm => dominates_choose?_before trans (hids ▸ h) hm⟩
  · have hafter : g.Undominated s after u := fun d hd =>
      h.1 d (hids ▸ List.mem_append_right before (List.mem_cons_of_mem u hd))
    rw [hids]
    exact choose?_eq_of_undominated hafter h.2

/-- The second candidate is the first that is dominated by none, but it does not dominate the first
    one, which the third replaces. Without the third it would not be chosen either; without the first
    it would. -/
theorem choose?_prevails_ladder :
    let g : Group (Fin 3) := ofPairs (2, 1) [(1, 2), (2, 0)]
    let a : Fin g.size := ⟨0, by decide⟩
    let b : Fin g.size := ⟨1, by decide⟩
    let c : Fin g.size := ⟨2, by decide⟩
    (g.choose? .ladder [a, b, c]).value = some c ∧ (g.choose? .ladder [a, b, c]).value ≠ some b ∧
      (g.choose? .ladder [a, b]).value ≠ some b ∧ (g.choose? .ladder [b, c]).value = some b := by
  intro g a b c
  have hall := (choose?_prevails (g := g) Subtyping.transitive_ladder
    Subtyping.antisymmetric_ladder [a, b, c] (by decide)).2
  have htwo := (choose?_prevails (g := g) Subtyping.transitive_ladder
    Subtyping.antisymmetric_ladder [a, b] (by decide)).2
  have hrest := (choose?_prevails (g := g) Subtyping.transitive_ladder
    Subtyping.antisymmetric_ladder [b, c] (by decide)).2
  refine ⟨(hall [a, b] c [] rfl).2 (by decide), fun h => ?_, fun h => ?_, ?_⟩
  · exact absurd (((hall [a] b [c] rfl).1 h).2 a rfl) (by decide)
  · exact absurd (((htwo [a] b [] rfl).1 h).2 a rfl) (by decide)
  · exact (hrest [] b [c] rfl).2 (by decide)

/-- Three candidates that are all applicable to the arguments 0 and 0. The second is the first that
    is dominated by none, and yet the third is chosen. -/
theorem passes_over_undominated :
    let g : Group (Fin 3) := ofPairs (2, 1) [(1, 2), (2, 0)]
    let a : Fin g.size := ⟨0, by decide⟩
    let b : Fin g.size := ⟨1, by decide⟩
    let c : Fin g.size := ⟨2, by decide⟩
    Subtyping.ladder.Transitive ∧ Subtyping.ladder.Antisymmetric ∧ [a, b, c].Nodup ∧
      (∀ x ∈ [a, b, c], ∀ y ∈ [a, b, c], g.signature x = g.signature y → x = y) ∧
      (∀ x ∈ [a, b, c], g.Applicable .ladder (fun _ => 0) x) ∧
      [a, b, c].find? (fun x => decide (g.Undominated .ladder [a, b, c] x)) = some b ∧
      (g.choose? .ladder [a, b, c]).value = some c := by
  intro g a b c
  exact ⟨Subtyping.transitive_ladder, Subtyping.antisymmetric_ladder, by decide, by decide,
    by decide, by decide, by decide⟩

end MultipleDispatch.Group
