import MultipleDispatch.Group.Basic
import MultipleDispatch.Proofs.Attempts
import MultipleDispatch.Proofs.Classes

/-!
Sorting declarations into groups. A list of candidates makes up a group if each of them belongs to it,
and else fails for the first that does not (`Misfit`). A candidate belongs to the group of its own
name and arity exactly if all its parameters have a type, so sorting fails exactly if some parameter
anywhere has none. Otherwise there is one group for each name and arity (`Sorts`), in the order in
which these come up first, and it has the declarations of that name and arity in their order, later
repetitions left out. The equality of types is whatever `==` says.
-/

namespace MultipleDispatch

variable {T : Type}

/-- Some parameter has no declared type. -/
def Candidate.Untyped (c : Candidate T) : Prop := ∃ p ∈ c.params, p.type = none

/-- What declarations are sorted by. -/
def Candidate.key (c : Candidate T) : String × Nat := (c.name, c.arity)

/-- What the candidates of a group have in common. -/
def Group.key (g : Group T) : String × Nat := (g.name, g.arity)

/-! ### What a group asks of its candidates -/

namespace Candidate

/-- The declared type of the parameter at place `i`. -/
def type? (c : Candidate T) (i : Nat) : Option T := c.params[i]?.bind Param.type

/-- The parameter at place `i` is the first that has no type. -/
def FirstUntyped (c : Candidate T) (i : Nat) : Prop :=
  i < c.arity ∧ c.type? i = none ∧ ∀ j < i, (c.type? j).isSome = true

/-- `c` can be a candidate of the group `name` of the given arity. -/
def Belongs (name : String) (arity : Nat) (c : Candidate T) : Prop :=
  c.name = name ∧ c.arity = arity ∧ ¬ c.Untyped

/-- `e` says why `c` does not belong to a group. Its name is looked at before its arity, and its arity
    before its types, of which the first that is missing is named. -/
inductive Misfit [ToString T] (name : String) (arity : Nat) (c : Candidate T) : Error → Prop
  | name (hn : c.name ≠ name) : Misfit name arity c (.nameMismatch name c.shown)
  | arity (hn : c.name = name) (ha : c.arity ≠ arity) :
    Misfit name arity c (.arityMismatch name arity c.arity c.shown)
  | type {i : Nat} (hn : c.name = name) (ha : c.arity = arity) (hi : c.FirstUntyped i) :
    Misfit name arity c (.missingType c.shown i)

variable {c : Candidate T} {name : String} {arity : Nat}

theorem type?_eq_getElem {i : Nat} (h : i < c.params.length) : c.type? i = c.params[i].type := by
  simp [type?, h]

/-- The first parameter without a type is what a search for one comes to. -/
theorem firstUntyped_iff {i : Nat} :
    c.FirstUntyped i ↔ c.Untyped ∧ c.params.findIdx (fun p => p.type.isNone) = i := by
  constructor
  · rintro ⟨hi, hnone, hbefore⟩
    change i < c.params.length at hi
    rw [type?_eq_getElem hi] at hnone
    refine ⟨⟨_, List.getElem_mem hi, hnone⟩, (List.findIdx_eq hi).2 ⟨by simp [hnone], ?_⟩⟩
    intro j hj
    have hsome := hbefore j hj
    rw [type?_eq_getElem (Nat.lt_trans hj hi)] at hsome
    simpa using hsome
  · rintro ⟨⟨p, hp, hnone⟩, rfl⟩
    have hi : c.params.findIdx (fun p => p.type.isNone) < c.params.length :=
      List.findIdx_lt_length_of_exists ⟨p, hp, by simp [hnone]⟩
    obtain ⟨hfound, hbefore⟩ := (List.findIdx_eq hi).1 rfl
    refine ⟨hi, ?_, fun j hj => ?_⟩
    · rw [type?_eq_getElem hi]
      simpa using hfound
    · rw [type?_eq_getElem (Nat.lt_trans hj hi)]
      simpa using hbefore j hj

theorem belongs_iff (hkey : c.key = (name, arity)) : c.Belongs name arity ↔ ¬ c.Untyped := by
  obtain ⟨hn, ha⟩ := Prod.mk.inj hkey
  exact ⟨fun h => h.2.2, fun h => ⟨hn, ha, h⟩⟩

theorem exists_misfit_iff [ToString T] :
    (∃ e, c.Misfit name arity e) ↔ ¬ c.Belongs name arity := by
  constructor
  · rintro ⟨e, he⟩ ⟨hn, ha, htyped⟩
    cases he with
    | name hn' => exact hn' hn
    | arity _ ha' => exact ha' ha
    | type _ _ hi => exact htyped (firstUntyped_iff.1 hi).1
  · intro h
    by_cases hn : c.name = name
    · by_cases ha : c.arity = arity
      · have huntyped : c.Untyped := by
          by_contra htyped
          exact h ⟨hn, ha, htyped⟩
        exact ⟨_, .type hn ha (firstUntyped_iff.2 ⟨huntyped, rfl⟩)⟩
      · exact ⟨_, .arity hn ha⟩
    · exact ⟨_, .name hn⟩

end Candidate

/-! ### Taking candidates into a group -/

theorem Param.types?_eq_none {params : List (Param T)} :
    types? params = none ↔ ∃ p ∈ params, p.type = none := by
  induction params with
  | nil => simp [types?]
  | cons p ps ih =>
    rw [types?]
    split
    · next t ts hts ht hps => simp [← ih, ht, hps]
    · next hnone =>
      refine iff_of_true rfl ((List.exists_mem_cons_iff _ _ _).2 ?_)
      cases ht : p.type with
      | none => exact Or.inl rfl
      | some t =>
        refine Or.inr (ih.1 (Option.eq_none_iff_forall_not_mem.2 fun ts hps => ?_))
        exact hnone t ts.1 ts.2 ht hps

theorem Param.types?_eq_some {params : List (Param T)} {types : List T}
    (h : params.map Param.type = types.map some) : types? params = some ⟨types, h⟩ := by
  cases hp : types? params with
  | none =>
    obtain ⟨p, hmem, hnone⟩ := types?_eq_none.1 hp
    have hsome : p.type ∈ types.map some := h ▸ List.mem_map_of_mem hmem
    simp [hnone] at hsome
  | some found =>
    obtain ⟨types', h'⟩ := found
    obtain rfl := (List.map_inj_right fun _ _ => Option.some.inj).1 (h'.symm.trans h)
    rfl

namespace Member

variable {name : String} {arity : Nat} {c : Candidate T}

theorem length_params (m : Member T name arity) : m.candidate.params.length = arity := by
  have hlength := congrArg List.length m.declared
  rw [List.length_map, List.length_map] at hlength
  exact hlength.trans m.length_eq

theorem belongs (m : Member T name arity) : m.candidate.Belongs name arity := by
  refine ⟨m.name_eq, m.length_params, ?_⟩
  rintro ⟨p, hp, hnone⟩
  have hmem : p.type ∈ m.signature.map some := m.declared ▸ List.mem_map_of_mem hp
  rw [hnone] at hmem
  simp at hmem

/-- Members of which none has the candidate of an earlier one. -/
def kept [BEq T] (members : List (Member T name arity)) : List (Member T name arity) :=
  distinct (fun a b => a.candidate == b.candidate) members

variable [ToString T]

theorem candidate_eq_of_ok {m : Member T name arity} (h : ofCandidate name arity c = .ok m) :
    m.candidate = c := by
  unfold ofCandidate at h
  split at h
  · split at h
    · split at h
      · cases h; rfl
      · cases h
    · cases h
  · cases h

theorem ofCandidate_eq_error {e : Error} :
    ofCandidate name arity c = .error e ↔ c.Misfit name arity e := by
  constructor
  · intro h
    unfold ofCandidate at h
    split at h
    · next hn =>
      split at h
      · next ha =>
        split at h
        · cases h
        · next hnone =>
          cases h
          exact .type hn ha (Candidate.firstUntyped_iff.2 ⟨Param.types?_eq_none.1 hnone, rfl⟩)
      · next ha =>
        cases h
        exact .arity hn ha
    · next hn =>
      cases h
      exact .name hn
  · rintro (hn | ⟨hn, ha⟩ | ⟨hn, ha, hi⟩)
    · rw [ofCandidate, dif_neg hn]
    · rw [ofCandidate, dif_pos hn, dif_neg ha]
    · obtain ⟨huntyped, hfind⟩ := Candidate.firstUntyped_iff.1 hi
      rw [ofCandidate, dif_pos hn, dif_pos ha, Param.types?_eq_none.2 huntyped, hfind]

theorem exists_ofCandidate_eq_ok :
    (∃ m, ofCandidate name arity c = .ok m) ↔ c.Belongs name arity := by
  constructor
  · rintro ⟨m, hm⟩
    rw [← candidate_eq_of_ok hm]
    exact m.belongs
  · intro h
    cases hc : ofCandidate name arity c with
    | ok m => exact ⟨m, rfl⟩
    | error e => exact absurd h (Candidate.exists_misfit_iff.1 ⟨e, ofCandidate_eq_error.1 hc⟩)

end Member

namespace Group

theorem mem_candidates {g : Group T} {c : Candidate T} :
    c ∈ g.candidates ↔ ∃ a, g.candidate a = c := by
  rw [candidates, List.mem_map]
  constructor
  · rintro ⟨m, hm, rfl⟩
    obtain ⟨a, rfl⟩ := List.get_of_mem hm
    exact ⟨a, rfl⟩
  · rintro ⟨a, rfl⟩
    exact ⟨g.member a, List.get_mem _ a, rfl⟩

variable [ToString T] [BEq T] {name : String} {arity : Nat} {cs : List (Candidate T)}

theorem ofList_eq_ok {g : Group T} : ofList name arity cs = .ok g ↔
    ∃ members hsome, cs.mapM (Member.ofCandidate name arity) = .ok members ∧
      g = ⟨name, arity, Member.kept members, hsome⟩ := by
  rw [ofList, bind_eq_ok]
  constructor
  · rintro ⟨members, hmembers, h⟩
    dsimp only at h
    split at h
    · cases h
    · next hsome => exact ⟨members, hsome, hmembers, (Except.ok.inj h).symm⟩
  · rintro ⟨members, hsome, hmembers, rfl⟩
    exact ⟨members, hmembers, dif_neg hsome⟩

/-- A list that is taken into a group keeps its order and loses later repetitions. -/
theorem of_ofList_eq_ok {g : Group T} (h : ofList name arity cs = .ok g) :
    g.key = (name, arity) ∧ g.candidates = cs.eraseDupsBy fun c kept => kept == c := by
  obtain ⟨members, _, hmembers, rfl⟩ := ofList_eq_ok.1 h
  have hcs : cs.map id = members.map Member.candidate :=
    map_eq_map_of_forall₂ (mapM_eq_ok_iff.1 hmembers) fun c m h => (Member.candidate_eq_of_ok h).symm
  refine ⟨rfl, ?_⟩
  rw [← distinct_eq_eraseDupsBy, ← List.map_id cs, hcs, ← map_distinct]
  rfl

/-- A list fails for want of candidates, or for the first candidate that does not belong. -/
theorem ofList_eq_error {e : Error} : ofList name arity cs = .error e ↔
    cs = [] ∧ e = .emptyGroup name ∨
      ∃ before c after, cs = before ++ c :: after ∧ (∀ b ∈ before, b.Belongs name arity) ∧
        c.Misfit name arity e := by
  have hmembers : cs.mapM (Member.ofCandidate name arity) = .error e ↔
      ∃ before c after, cs = before ++ c :: after ∧ (∀ b ∈ before, b.Belongs name arity) ∧
        c.Misfit name arity e := by
    simp only [mapM_eq_error_iff, Member.exists_ofCandidate_eq_ok, Member.ofCandidate_eq_error]
  rw [ofList, bind_eq_error, hmembers, or_comm]
  refine or_congr_left ⟨?_, ?_⟩
  · rintro ⟨members, hok, h⟩
    dsimp only at h
    split at h
    · next hkept =>
      cases h
      rw [distinct_eq_nil.1 hkept, mapM_eq_ok_iff, List.forall₂_nil_right_iff] at hok
      exact ⟨hok, rfl⟩
    · cases h
  · rintro ⟨rfl, rfl⟩
    exact ⟨[], rfl, rfl⟩

theorem exists_ofList_eq_ok_iff :
    (∃ g, ofList name arity cs = .ok g) ↔ cs ≠ [] ∧ ∀ c ∈ cs, c.Belongs name arity := by
  constructor
  · rintro ⟨g, hg⟩
    refine ⟨?_, fun c hc => ?_⟩
    · rintro rfl
      cases hg
    · obtain ⟨members, _, hmembers, _⟩ := ofList_eq_ok.1 hg
      obtain ⟨m, _, hm⟩ := exists_of_forall₂ (mapM_eq_ok_iff.1 hmembers) c hc
      exact Member.exists_ofCandidate_eq_ok.1 ⟨m, hm⟩
  · rintro ⟨hne, hall⟩
    cases h : ofList name arity cs with
    | ok g => exact ⟨g, rfl⟩
    | error e =>
      rcases ofList_eq_error.1 h with ⟨hnil, _⟩ | ⟨before, c, after, rfl, _, he⟩
      · exact absurd hnil hne
      · exact absurd (hall c (by simp)) (Candidate.exists_misfit_iff.1 ⟨e, he⟩)

end Group

/-! ### Groups of declarations -/

/-- `groups` are the declarations sorted by name and arity. -/
structure Sorts [BEq T] (declarations : List (Candidate T)) (groups : List (Group T)) : Prop where
  /-- There is one group for each name and arity, in the order of first occurrence. -/
  keys : groups.map Group.key = (declarations.map Candidate.key).eraseDups
  /-- A group has the declarations of its name and arity, each once, in order. -/
  members : ∀ g ∈ groups, g.candidates =
    (declarations.filter fun d => g.key == d.key).eraseDupsBy fun d kept => kept == d

/-- The names and arities that are declared, in the order of first occurrence. -/
def declaredKeys (declarations : List (Candidate T)) : List (String × Nat) :=
  (declarations.map Candidate.key).eraseDups

/-- The declarations of one name and arity, in order. -/
def declaredUnder (declarations : List (Candidate T)) (k : String × Nat) : List (Candidate T) :=
  declarations.filter fun d => k == d.key

theorem mem_declaredUnder {declarations : List (Candidate T)} {k : String × Nat}
    {d : Candidate T} : d ∈ declaredUnder declarations k ↔ d ∈ declarations ∧ d.key = k := by
  rw [declaredUnder, List.mem_filter, beq_iff_eq, eq_comm]

theorem exists_mem_declaredUnder {declarations : List (Candidate T)} {k : String × Nat} :
    k ∈ declaredKeys declarations ↔ ∃ d, d ∈ declaredUnder declarations k := by
  simp only [declaredKeys, List.mem_eraseDups, List.mem_map, mem_declaredUnder]

namespace Group

variable [ToString T] [BEq T] {declarations : List (Candidate T)}

/-- Each name and arity is sorted out of the declarations by itself. -/
theorem partition_eq_mapM (declarations : List (Candidate T)) : partition declarations =
    (declaredKeys declarations).mapM fun k => ofList k.1 k.2 (declaredUnder declarations k) := by
  rw [declaredKeys, ← map_key_classify, List.mapM_map]
  refine mapM_congr fun c hc => ?_
  rw [members_eq_filter_key Candidate.key declarations c hc]
  rfl

theorem exists_ofList_declaredUnder {k : String × Nat} (hk : k ∈ declaredKeys declarations) :
    (∃ g, ofList k.1 k.2 (declaredUnder declarations k) = .ok g) ↔
      ∀ d ∈ declaredUnder declarations k, ¬ d.Untyped := by
  obtain ⟨d, hd⟩ := exists_mem_declaredUnder.1 hk
  rw [exists_ofList_eq_ok_iff, and_iff_right (List.ne_nil_of_mem hd)]
  exact forall₂_congr fun c hc => Candidate.belongs_iff (mem_declaredUnder.1 hc).2

theorem sorts_of_partition {groups : List (Group T)} (h : partition declarations = .ok groups) :
    Sorts declarations groups := by
  rw [partition_eq_mapM, mapM_eq_ok_iff] at h
  constructor
  · rw [← declaredKeys, ← List.map_id (declaredKeys declarations)]
    exact (map_eq_map_of_forall₂ h fun k g hg => (of_ofList_eq_ok hg).1.symm).symm
  · intro g hg
    obtain ⟨k, _, hkg⟩ := exists_of_forall₂ h.flip g hg
    obtain ⟨hkey, hcandidates⟩ := of_ofList_eq_ok hkg
    rw [hcandidates, hkey]
    rfl

theorem exists_partition_eq_error_iff : (∃ e, partition declarations = .error e) ↔
    ∃ d ∈ declarations, d.Untyped := by
  rw [partition_eq_mapM, exists_mapM_eq_error_iff]
  constructor
  · rintro ⟨k, hk, herror⟩
    rw [exists_eq_error_iff, exists_ofList_declaredUnder hk] at herror
    push Not at herror
    obtain ⟨d, hd, huntyped⟩ := herror
    exact ⟨d, (mem_declaredUnder.1 hd).1, huntyped⟩
  · rintro ⟨d, hd, huntyped⟩
    have hmem : d ∈ declaredUnder declarations d.key := mem_declaredUnder.2 ⟨hd, rfl⟩
    have hk := exists_mem_declaredUnder.2 ⟨d, hmem⟩
    refine ⟨d.key, hk, ?_⟩
    rw [exists_eq_error_iff, exists_ofList_declaredUnder hk]
    exact fun htyped => htyped d hmem huntyped

end Group

end MultipleDispatch
