import MultipleDispatch.Proofs.Compilation
import MultipleDispatch.Proofs.Partition

/-!
Groups as what lists of candidates make up. A member is a candidate together with its types, so the
table of types can be filled in beside the candidates, one candidate after the other, and a
repetition dropped before its types are looked at (`Intake`); this comes to the same. A group has no
candidate twice, so its candidates make it up again, and so it is with the groups of its parts, for
which nothing is checked.
-/

namespace MultipleDispatch

variable {T : Type} {name : String} {arity : Nat}

/-! ### Members and their candidates -/

namespace Member

/-- The types of a member are those that its candidate declares. -/
theorem type?_candidate (m : Member T name arity) (i : Fin arity) :
    m.candidate.type? i = some (m.type i) := by
  have hlt : i.val < m.signature.length := m.length_eq.symm ▸ i.isLt
  have hi := congrArg (fun types => types[i.val]?) m.declared
  rw [List.getElem?_map, List.getElem?_map, List.getElem?_eq_getElem hlt] at hi
  obtain ⟨p, hp, htype⟩ := Option.map_eq_some_iff.1 hi
  rw [Candidate.type?, hp]
  exact htype

/-- A member is known by its candidate. -/
theorem eq_of_candidate_eq {m n : Member T name arity} (h : m.candidate = n.candidate) : m = n := by
  have hsome : m.signature.map some = n.signature.map some := by
    rw [← m.declared, ← n.declared, h]
  have hsignature := (List.map_inj_right fun _ _ => Option.some.inj).1 hsome
  cases m
  cases n
  cases h
  cases hsignature
  rfl

theorem ofCandidate_candidate [ToString T] (m : Member T name arity) :
    ofCandidate name arity m.candidate = .ok m := by
  obtain ⟨n, hn⟩ := exists_ofCandidate_eq_ok.2 m.belongs
  rw [hn, eq_of_candidate_eq (candidate_eq_of_ok hn)]

theorem kept_concat [BEq T] (members : List (Member T name arity)) (m : Member T name arity) :
    kept (members ++ [m]) = if (kept members).any (fun k => k.candidate == m.candidate)
      then kept members else kept members ++ [m] :=
  distinct_concat members m

end Member

/-! ### One candidate after the other -/

/-- Candidates on their way into a group and, beside them, the table of their types. -/
structure Intake (T : Type) where
  candidates : List (Candidate T)
  table : List (List T)

namespace Intake

/-- What is there before the first candidate. -/
def empty : Intake T := ⟨[], []⟩

/-- Takes in one candidate more. A repetition is dropped before its types are looked at. -/
def take [ToString T] [BEq T] (name : String) (arity : Nat) (s : Intake T) (c : Candidate T) :
    Except Error (Intake T) :=
  if c.name ≠ name then .error (.nameMismatch name c.shown)
  else if c.arity ≠ arity then .error (.arityMismatch name arity c.arity c.shown)
  else if s.candidates.any (· == c) then .ok s
  else
    match Param.types? c.params with
    | some row => .ok ⟨s.candidates ++ [c], s.table ++ [row.val]⟩
    | none => .error (.missingType c.shown (c.params.findIdx fun p => p.type.isNone))

/-- Takes in all of `candidates`, of which there has to be one at least. -/
def takeAll [ToString T] [BEq T] (name : String) (arity : Nat) (candidates : List (Candidate T)) :
    Except Error (Intake T) := do
  let s ← candidates.foldlM (take name arity) empty
  if s.candidates.isEmpty then .error (.emptyGroup name) else .ok s

/-- The candidates and the types of members, repetitions left out. -/
def ofMembers [BEq T] (members : List (Member T name arity)) : Intake T :=
  ⟨(Member.kept members).map Member.candidate, (Member.kept members).map Member.signature⟩

variable [ToString T] [BEq T]

/-- Where all that was taken in has types, a candidate that does not belong is reported, even if it is
    looked up among the others first. -/
theorem take_eq_error [LawfulBEq T] {s : Intake T} (htyped : ∀ b ∈ s.candidates, ¬ b.Untyped)
    {c : Candidate T} {e : Error} (he : c.Misfit name arity e) : take name arity s c = .error e := by
  rw [take]
  cases he with
  | name hn => rw [if_pos hn]
  | arity hn ha => rw [if_neg (not_not.2 hn), if_pos ha]
  | type hn ha hi =>
    obtain ⟨huntyped, hfind⟩ := Candidate.firstUntyped_iff.1 hi
    have hnew : ¬s.candidates.any (· == c) = true := by
      intro h
      obtain ⟨b, hb, hbc⟩ := List.any_eq_true.1 h
      exact htyped b hb (eq_of_beq hbc ▸ huntyped)
    rw [if_neg (not_not.2 hn), if_neg (not_not.2 ha), if_neg hnew,
      Param.types?_eq_none.2 huntyped, hfind]

/-- The candidate of a member is taken in with the types of the member. -/
theorem take_candidate (s : Intake T) (m : Member T name arity) :
    take name arity s m.candidate = .ok (if s.candidates.any (· == m.candidate) then s
      else ⟨s.candidates ++ [m.candidate], s.table ++ [m.signature]⟩) := by
  rw [take, if_neg (not_not.2 m.name_eq), if_neg (not_not.2 m.belongs.2.1),
    Param.types?_eq_some m.declared]
  split
  · rfl
  · rfl

/-- Taking in a candidate is making a member of it. -/
theorem take_ofMembers [LawfulBEq T] (members : List (Member T name arity)) (c : Candidate T) :
    take name arity (ofMembers members) c =
      (fun m => ofMembers (members ++ [m])) <$> Member.ofCandidate name arity c := by
  cases h : Member.ofCandidate name arity c with
  | error e =>
    refine take_eq_error (fun b hb => ?_) (Member.ofCandidate_eq_error.1 h)
    obtain ⟨k, _, rfl⟩ := List.mem_map.1 hb
    exact k.belongs.2.2
  | ok m =>
    obtain rfl := Member.candidate_eq_of_ok h
    rw [take_candidate]
    refine congrArg Except.ok ?_
    simp only [ofMembers, Member.kept_concat, List.any_map, Function.comp_def]
    split
    · rfl
    · rw [List.map_append, List.map_append]
      rfl

theorem foldlM_take_ofMembers [LawfulBEq T] (cs : List (Candidate T)) :
    ∀ members : List (Member T name arity), cs.foldlM (take name arity) (ofMembers members) =
      (fun more => ofMembers (members ++ more)) <$> cs.mapM (Member.ofCandidate name arity) := by
  induction cs with
  | nil =>
    intro members
    rw [List.foldlM_nil, List.mapM_nil, map_pure, List.append_nil]
  | cons c cs ih =>
    intro members
    rw [List.foldlM_cons, take_ofMembers, List.mapM_cons]
    cases Member.ofCandidate name arity c with
    | error e => rfl
    | ok m =>
      refine (ih (members ++ [m])).trans ?_
      cases cs.mapM (Member.ofCandidate name arity) with
      | error e => rfl
      | ok more =>
        exact congrArg (fun all => Except.ok (ofMembers all)) (List.append_assoc members [m] more)

end Intake

namespace Group

/-- The candidates of a group and the table of their types. -/
def intake (g : Group T) : Intake T := ⟨g.candidates, g.members.map Member.signature⟩

variable [BEq T] {g : Group T} {cs : List (Candidate T)}

/-- Taking in one candidate after the other gives the candidates and the types of the group, and fails
    in the same way. -/
theorem takeAll_eq [ToString T] [LawfulBEq T] (name : String) (arity : Nat)
    (cs : List (Candidate T)) :
    Intake.takeAll name arity cs = intake <$> ofList name arity cs := by
  have hrun : cs.foldlM (Intake.take name arity) .empty =
      Intake.ofMembers <$> cs.mapM (Member.ofCandidate name arity) :=
    Intake.foldlM_take_ofMembers cs []
  rw [Intake.takeAll, hrun, ofList]
  cases cs.mapM (Member.ofCandidate name arity) with
  | error e => rfl
  | ok members =>
    change (if (Intake.ofMembers members).candidates.isEmpty = true then _ else _) =
      intake <$> (if h : Member.kept members = [] then _ else _)
    by_cases hnone : Member.kept members = []
    · rw [if_pos (by simp [Intake.ofMembers, hnone]), dif_pos hnone]
      rfl
    · rw [if_neg (by simp [Intake.ofMembers, hnone]), dif_neg hnone]
      rfl

end Group

/-! ### Groups without repetitions -/

namespace Group

variable {g : Group T}

theorem candidates_eq_map_ids (g : Group T) : g.candidates = g.ids.map g.candidate := by
  have hmembers : g.ids.map g.member = g.members := List.map_get_finRange g.members
  rw [candidates, ← hmembers, List.map_map]
  rfl

/-- The candidates of a part stand in the order of the group. -/
theorem candidates_only_sublist {keep : Fin g.size → Bool} (some_kept : ∃ c, keep c = true) :
    (g.only keep some_kept).candidates.Sublist g.candidates := by
  have honly : (g.only keep some_kept).candidates = (g.ids.filter keep).map g.candidate :=
    List.map_map
  rw [honly, candidates_eq_map_ids]
  exact List.filter_sublist.map g.candidate

variable [BEq T] [LawfulBEq T] [ToString T] {cs : List (Candidate T)}

/-- The candidates of a group make it up again if none of them is there twice. -/
theorem ofList_candidates (h : g.candidates.Nodup) :
    ofList g.name g.arity g.candidates = .ok g := by
  have hmembers : g.candidates.mapM (Member.ofCandidate g.name g.arity) = .ok g.members := by
    rw [mapM_eq_ok_iff, candidates, List.forall₂_map_left_iff, List.forall₂_same]
    exact fun m _ => m.ofCandidate_candidate
  have hkept : Member.kept g.members = g.members :=
    distinct_eq_self ((List.pairwise_map.1 h).imp fun hne => beq_false_of_ne hne)
  refine ofList_eq_ok.2 ⟨g.members, hkept.symm ▸ g.nonempty, hmembers, ?_⟩
  simp only [hkept]

theorem candidates_eq_eraseDups (h : ofList name arity cs = .ok g) :
    g.candidates = cs.eraseDups := by
  rw [(of_ofList_eq_ok h).2, ← distinct_eq_eraseDupsBy, distinct_eq_eraseDups]

/-- `g` is the group `name` of the given arity that the candidates `cs` make up. -/
structure MadeOf (name : String) (arity : Nat) (cs : List (Candidate T)) (g : Group T) : Prop where
  key : g.key = (name, arity)
  /-- It has the candidates of the list in their order, later repetitions left out. -/
  candidates : g.candidates = cs.eraseDups
  /-- Each has one type for each parameter, -/
  width : ∀ c, (g.signature c).length = arity
  /-- and that is the type which the candidate declares there. -/
  types : ∀ (c : Fin g.size) (i : Fin g.arity), (g.signature c)[i.val]? = some (g.type c i) ∧
    (g.candidate c).type? i = some (g.type c i)
  /-- The candidates make up the group again, -/
  again : ofList g.name g.arity g.candidates = .ok g
  /-- and so do the candidates of each of its parts. -/
  parts : ∀ (s : Subtyping T), ∀ part ∈ g.subsets s,
    ofList part.group.name part.group.arity part.group.candidates = .ok part.group

theorem madeOf_of_ofList (h : ofList name arity cs = .ok g) : MadeOf name arity cs g := by
  have hkey := (of_ofList_eq_ok h).1
  have hcandidates := candidates_eq_eraseDups h
  have hnodup : g.candidates.Nodup := hcandidates ▸ nodup_eraseDups cs
  refine ⟨hkey, hcandidates, fun c => ?_, fun c i => ?_, ofList_candidates hnodup, ?_⟩
  · rw [← (Prod.mk.inj hkey).2]
    exact (g.member c).length_eq
  · exact ⟨getElem?_signature g c i, (g.member c).type?_candidate i⟩
  · intro s part hpart
    obtain ⟨f, _, rfl⟩ := exists_of_mem_subsets hpart
    exact ofList_candidates (hnodup.sublist (candidates_only_sublist ⟨f, by simp⟩))

/-- A list of candidates makes up a group unless it is empty or one of them does not belong, and then
    the first such candidate is reported. Filling in the table of types beside the candidates, one
    candidate after the other, comes to the same. -/
theorem ingestion_exact (name : String) (arity : Nat) (cs : List (Candidate T)) :
    (ofList name arity cs = .error (.emptyGroup name) ↔ cs = []) ∧
    (cs ≠ [] →
      ((∃ e, ofList name arity cs = .error e) ↔
        ∃ c ∈ cs, c.name ≠ name ∨ c.arity ≠ arity ∨ c.Untyped) ∧
      (∀ e, ofList name arity cs = .error e ↔ ∃ before c after, cs = before ++ c :: after ∧
        (∀ b ∈ before, b.Belongs name arity) ∧ c.Misfit name arity e) ∧
      ((∀ c ∈ cs, c.Belongs name arity) →
        ∃ g, ofList name arity cs = .ok g ∧ MadeOf name arity cs g)) ∧
    Intake.takeAll name arity cs = intake <$> ofList name arity cs := by
  refine ⟨?_, fun hne => ⟨?_, fun e => ?_, fun hall => ?_⟩, takeAll_eq name arity cs⟩
  · rw [ofList_eq_error, and_iff_left rfl, or_iff_left]
    rintro ⟨before, c, after, _, _, he⟩
    cases he
  · rw [exists_eq_error_iff, exists_ofList_eq_ok_iff]
    simp only [Candidate.Belongs]
    grind
  · rw [ofList_eq_error, or_iff_right fun hnil => hne hnil.1]
  · obtain ⟨g, hg⟩ := exists_ofList_eq_ok_iff.2 ⟨hne, hall⟩
    exact ⟨g, hg, madeOf_of_ofList hg⟩

/-- A repetition is left out, and the first candidate that does not belong is reported. -/
theorem ingestion_exact_repeated :
    let single (name : String) (t : Option (Fin 3)) : Candidate (Fin 3) :=
      ⟨"home", name, [⟨"x", t, false⟩], 0, []⟩
    let a := single "f" (some 0)
    let b := single "f" (some 1)
    (∃ g, ofList "f" 1 [a, b, a] = .ok g ∧ g.candidates = [a, b] ∧
      ofList "f" 1 [a, b] = .ok g) ∧
    ofList "f" 1 [a, a, single "f" none, single "g" (some 0)] =
      .error (.missingType (single "f" none).shown 0) := by
  intro single a b
  have ha : a.Belongs "f" 1 := ⟨rfl, rfl, by simp [a, single, Candidate.Untyped]⟩
  have hb : b.Belongs "f" 1 := ⟨rfl, rfl, by simp [b, single, Candidate.Untyped]⟩
  constructor
  · obtain ⟨_, hlist, _⟩ := ingestion_exact "f" 1 [a, b, a]
    obtain ⟨g, hg, hmade⟩ := (hlist (by simp)).2.2 (by simp [ha, hb])
    have hcandidates : g.candidates = [a, b] := hmade.candidates.trans rfl
    have hagain := hmade.again
    obtain ⟨hname, harity⟩ := Prod.mk.inj hmade.key
    rw [hcandidates, hname, harity] at hagain
    exact ⟨g, hg, hcandidates, hagain⟩
  · obtain ⟨_, hlist, _⟩ := ingestion_exact "f" 1 [a, a, single "f" none, single "g" (some 0)]
    refine ((hlist (by simp)).2.1 _).2 ⟨[a, a], single "f" none, [single "g" (some 0)], rfl, ?_, ?_⟩
    · simp [ha]
    · exact .type rfl rfl ⟨by decide, rfl, by simp⟩

end Group

end MultipleDispatch
