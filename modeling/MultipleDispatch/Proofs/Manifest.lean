import Mathlib.Data.List.TakeWhile
import MultipleDispatch.Manifest.Basic
import MultipleDispatch.Proofs.Attempts
import MultipleDispatch.Proofs.Declarations

/-!
Manifests that are taken. A manifest is taken if and only if every function has a name and every type
that is mentioned is known, which means that it is the top or described (`WellFormed`). What is
mentioned is told from the texts: supertypes of described types, types that the texts of parameters
spell, results and thrown types. A manifest that is taken leaves no question about known types open:
every chain of supertypes stays among the known types, also where it runs in a circle.
-/

namespace MultipleDispatch

/-! ### Trimmed texts -/

namespace Text

theorem trimList_eq_nil {cs : List Char} : trimList cs = [] ↔ ∀ c ∈ cs, isBlank c = true := by
  rw [trimList, List.reverse_eq_nil_iff, List.dropWhile_eq_nil_iff]
  simp only [List.mem_reverse]
  constructor
  · intro h c hc
    rw [← List.takeWhile_append_dropWhile (p := isBlank) (l := cs), List.mem_append] at hc
    rcases hc with hc | hc
    · exact List.mem_takeWhile_imp hc
    · exact h c hc
  · exact fun h c hc => h c ((List.dropWhile_sublist _).subset hc)

theorem ofList_trimList_eq_empty {cs : List Char} :
    String.ofList (trimList cs) = "" ↔ (trimList cs).isEmpty = true := by
  rw [String.ofList_eq_empty_iff, List.isEmpty_iff]

theorem trim_eq_empty {s : String} : trim s = "" ↔ isAllBlank s = true := by
  rw [isAllBlank, List.all_eq_true, ← trimList_eq_nil, trim, String.ofList_eq_empty_iff]

end Text

/-! ### Questions about known types -/

open Relation (TransGen)

/-- If all supertypes are known, no question about known types is left open. -/
theorem Hierarchy.judge_ofTable_ne_unknown {top : String} {table : List (String × List String)}
    (hsupers : ∀ e ∈ table, ∀ t ∈ e.2, Named top table t) {a b : String} (ha : Named top table a)
    (hb : Named top table b) : (ofTable top table).judge a b ≠ .unknown := by
  rw [ne_eq, judge_ofTable_eq_unknown]
  rintro ⟨_, _, hopen | hopen | ⟨x, hopen, hchain⟩⟩
  · exact hopen ha
  · exact hopen hb
  · obtain ⟨_, _, e, he, _, hx⟩ := TransGen.tail'_iff.1 hchain
    exact hopen (hsupers e he x hx)

/-- `t` is the type of a parameter, the result type or one of the thrown types. -/
def Candidate.Uses {T : Type} (c : Candidate T) (t : T) : Prop :=
  (∃ p ∈ c.params, p.type = some t) ∨ t = c.result ∨ t ∈ c.throws

theorem Candidate.mem_mentioned {T : Type} {c : Candidate T} {t : T} :
    t ∈ c.mentioned ↔ c.Uses t := by
  simp [mentioned, Uses]

namespace Manifest

/-! ### The types of parameters -/

/-- The text of a parameter spells the type `t`: blank characters around it do not count, and three
    dots behind it are not part of it. A blank text spells nothing. -/
def Spells (text t : String) : Prop :=
  Text.trim text ≠ "" ∧
    ((∃ rest, Text.trim text = rest ++ "..." ∧ t = Text.trim rest) ∨
      (∀ rest, Text.trim text ≠ rest ++ "...") ∧ t = Text.trim text)

theorem cutMark?_eq_some {cs rest : List Char} :
    cutMark? cs = some rest ↔ cs = rest ++ variadicMark := by
  rw [cutMark?]
  constructor
  · intro h
    split at h
    · next hmark =>
      obtain ⟨front, rfl⟩ := List.isSuffixOf_iff_suffix.1 hmark
      simpa using h
    · cases h
  · rintro rfl
    rw [if_pos (List.isSuffixOf_iff_suffix.2 (List.suffix_append _ _))]
    simp

theorem trim_eq_append_iff {text rest : String} : Text.trim text = rest ++ "..." ↔
    cutMark? (Text.trimList text.toList) = some rest.toList := by
  rw [cutMark?_eq_some, ← String.toList_inj, Text.trim, String.toList_ofList, String.toList_append]
  rfl

theorem type_readParam {name text t : String} :
    (readParam name text).type = some t ↔ Spells text t := by
  simp only [Spells, ne_eq, trim_eq_append_iff, readParam]
  split
  · next hempty => simp [Text.trim, Text.ofList_trimList_eq_empty.2 hempty]
  · next hempty =>
    have hne : ¬ Text.trim text = "" := fun h => hempty (Text.ofList_trimList_eq_empty.1 h)
    cases hcut : cutMark? (Text.trimList text.toList) with
    | none =>
      constructor
      · rintro h
        exact ⟨hne, Or.inr ⟨by simp, (Option.some.inj h).symm⟩⟩
      · rintro ⟨_, ⟨_, hcut', _⟩ | ⟨_, rfl⟩⟩
        · cases hcut'
        · rfl
    | some cs =>
      have hcs : some cs = some (String.ofList cs).toList := by rw [String.toList_ofList]
      constructor
      · rintro h
        obtain rfl := Option.some.inj h
        exact ⟨hne, Or.inl ⟨String.ofList cs, hcs, by rw [Text.trim, String.toList_ofList]⟩⟩
      · rintro ⟨_, ⟨rest, hrest, rfl⟩ | ⟨hno, _⟩⟩
        · obtain rfl := Option.some.inj hrest
          rfl
        · exact absurd hcs (hno _)

/-- The types that a function uses are those that its texts give. -/
theorem uses_candidate {top t : String} {f : Function} : (f.candidate top).Uses t ↔
    (∃ text ∈ f.params, Spells text t) ∨ t = f.returns.getD top ∨ t ∈ f.throws := by
  refine or_congr_left ⟨?_, ?_⟩
  · rintro ⟨p, hp, ht⟩
    obtain ⟨⟨text, i⟩, hmem, rfl⟩ := List.mem_map.1 hp
    exact ⟨text, List.fst_mem_of_mem_zipIdx hmem, type_readParam.1 ht⟩
  · rintro ⟨text, hmem, ht⟩
    obtain ⟨i, hi⟩ := List.mem_iff_getElem?.1 hmem
    exact ⟨_, List.mem_map_of_mem (List.mk_mem_zipIdx_iff_getElem?.2 hi), type_readParam.2 ht⟩

/-! ### What is checked -/

theorem checkTypes_eq_ok {h : Hierarchy} {context : String} {types : List String} :
    checkTypes h context types = .ok () ↔ ∀ t ∈ types, h.isDeclared t = true := by
  have hnone : (types.find? fun t => !h.isDeclared t) = none ↔ ∀ t ∈ types, h.isDeclared t = true := by
    simp
  rw [checkTypes, ← hnone]
  cases types.find? fun t => !h.isDeclared t with
  | none => simp
  | some t => simp

theorem declared_eq_ok {h : Hierarchy} {f : Function} {c : Candidate String} :
    declared h f = .ok c ↔ (Text.trim f.name ≠ "" ∧
      ∀ t, (f.candidate h.top).Uses t → h.isDeclared t = true) ∧ f.candidate h.top = c := by
  simp only [ne_eq, Text.trim_eq_empty, ← Candidate.mem_mentioned]
  rw [declared]
  by_cases hblank : Text.isAllBlank f.name = true
  · rw [if_pos hblank]
    exact iff_of_false (fun hok => nomatch hok) (fun hok => hok.1.1 hblank)
  · rw [if_neg hblank, check_bind_eq_ok, checkTypes_eq_ok, pure_eq_ok, and_iff_right hblank]

/-! ### Manifests that are taken -/

/-- `t` is the top or one of the described types. -/
def Knows (m : Manifest) (t : String) : Prop := Hierarchy.Named m.topType m.types t

theorem isDeclared_hierarchy {m : Manifest} {t : String} :
    m.hierarchy.isDeclared t = true ↔ m.Knows t :=
  Hierarchy.isDeclared_ofTable

/-- Functions have names, and all types that are mentioned are known. -/
structure WellFormed (m : Manifest) : Prop where
  supers : ∀ e ∈ m.types, ∀ t ∈ e.2, m.Knows t
  names : ∀ f ∈ m.functions, Text.trim f.name ≠ ""
  params : ∀ f ∈ m.functions, ∀ text ∈ f.params, ∀ t, Spells text t → m.Knows t
  results : ∀ f ∈ m.functions, m.Knows (f.returns.getD m.topType)
  throws : ∀ f ∈ m.functions, ∀ t ∈ f.throws, m.Knows t

theorem WellFormed.knows_of_uses {m : Manifest} (h : m.WellFormed) {f : Function}
    (hf : f ∈ m.functions) {t : String} (ht : (f.candidate m.topType).Uses t) : m.Knows t := by
  rcases uses_candidate.1 ht with ⟨text, htext, ht⟩ | rfl | ht
  · exact h.params f hf text htext t ht
  · exact h.results f hf
  · exact h.throws f hf t ht

theorem candidates_eq_ok {m : Manifest} {cs : List (Candidate String)} : m.candidates = .ok cs ↔
    m.WellFormed ∧ m.functions.map (Function.candidate m.topType) = cs := by
  have htop : m.hierarchy.top = m.topType := Hierarchy.top_ofTable _ _
  rw [candidates, check_bind_eq_ok, mapM_eq_ok_iff, ← List.forall₂_eq_eq_eq,
    List.forall₂_map_left_iff]
  simp only [forM_eq_ok_iff, checkTypes_eq_ok, declared_eq_ok, htop, isDeclared_hierarchy,
    List.forall₂_and_left, ← and_assoc]
  refine and_congr_left fun _ => ⟨?_, ?_⟩
  · rintro ⟨hsupers, hfunctions⟩
    have huses : ∀ f ∈ m.functions, ∀ t, (f.candidate m.topType).Uses t → m.Knows t :=
      fun f hf => (hfunctions f hf).2
    simp only [uses_candidate] at huses
    exact
      { supers := hsupers
        names := fun f hf => (hfunctions f hf).1
        params := fun f hf text htext t ht => huses f hf t (Or.inl ⟨text, htext, ht⟩)
        results := fun f hf => huses f hf _ (Or.inr (Or.inl rfl))
        throws := fun f hf t ht => huses f hf t (Or.inr (Or.inr ht)) }
  · exact fun h => ⟨h.supers, fun f hf => ⟨h.names f hf, fun t ht => h.knows_of_uses hf ht⟩⟩

/-- A manifest is taken exactly if it is well formed. It then gives one candidate for each function,
    in order, and no question about known types is left open, nor one about types that the candidates
    use. -/
theorem candidates_closed (m : Manifest) :
    ((∃ cs, m.candidates = .ok cs) ↔ m.WellFormed) ∧
    ∀ cs, m.candidates = .ok cs →
      cs = m.functions.map (Function.candidate m.topType) ∧
      (∀ a b, m.Knows a → m.Knows b → m.hierarchy.judge a b ≠ .unknown) ∧
      ∀ c ∈ cs, ∀ d ∈ cs, ∀ a b, c.Uses a → d.Uses b → m.hierarchy.judge a b ≠ .unknown := by
  simp only [candidates_eq_ok]
  refine ⟨by simp, ?_⟩
  rintro cs ⟨h, rfl⟩
  have hsettled : ∀ a b, m.Knows a → m.Knows b → m.hierarchy.judge a b ≠ .unknown :=
    fun a b ha hb => Hierarchy.judge_ofTable_ne_unknown h.supers ha hb
  refine ⟨rfl, hsettled, ?_⟩
  simp only [List.forall_mem_map]
  exact fun f hf g hg a b ha hb => hsettled a b (h.knows_of_uses hf ha) (h.knows_of_uses hg hb)

/-- Two types are below each other, and the top, which has another name than usual, is described as
    well. The function has a variadic parameter, one without a type, and returns nothing in
    particular. -/
theorem candidates_closed_cyclic :
    let m : Manifest :=
      { top := some "Root"
        settings := {}
        types := [("Cat", ["Pet"]), ("Pet", ["Cat", "Root"]), ("Root", ["Cat"]), ("Toy", [])]
        functions := [⟨"zoo", "feed", [" Cat ... ", " "], none, ["Pet"]⟩] }
    ∃ cs, m.candidates = .ok cs ∧ m.WellFormed ∧ cs.map Candidate.variadicIndex? = [some 0] ∧
      m.hierarchy.judge "Cat" "Toy" ≠ .unknown := by
  intro m
  have htaken : m.candidates = .ok (m.functions.map (Function.candidate m.topType)) := rfl
  have hcat : m.Knows "Cat" := Or.inr ⟨("Cat", ["Pet"]), by simp [m], rfl⟩
  have htoy : m.Knows "Toy" := Or.inr ⟨("Toy", []), by simp [m], rfl⟩
  obtain ⟨hwf, hclosed⟩ := candidates_closed m
  obtain ⟨_, hsettled, _⟩ := hclosed _ htaken
  exact ⟨_, htaken, hwf.1 ⟨_, htaken⟩, rfl, hsettled _ _ hcat htoy⟩

end Manifest

end MultipleDispatch
