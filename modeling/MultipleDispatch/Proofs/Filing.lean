import Mathlib.Data.List.Nodup
import MultipleDispatch.Proofs.Partition

/-!
Filing declarations. Declarations of different names and arities may come in any order. Each goes into
the bucket of its own name and arity, which a table of slots finds (`Filing`); no slot ever leads to
a wrong bucket or to none, so the buckets are the groups before anything is checked. As one bucket
after the other is made into a group, the declaration that is reported is the first without a type
in the earliest bucket that has one, which need not be the first of all declarations.
-/

namespace MultipleDispatch

variable {T : Type} {seen declarations : List (Candidate T)}

/-! ### One declaration more -/

theorem nodup_declaredKeys (declarations : List (Candidate T)) :
    (declaredKeys declarations).Nodup :=
  nodup_eraseDups _

theorem declaredKeys_concat (seen : List (Candidate T)) (d : Candidate T) :
    declaredKeys (seen ++ [d]) = if d.key ∈ declaredKeys seen then declaredKeys seen
      else declaredKeys seen ++ [d.key] := by
  simp only [declaredKeys, List.map_append, List.map_cons, List.map_nil, ← distinct_eq_eraseDups,
    distinct_concat, List.any_beq']
  simp

theorem declaredUnder_concat (seen : List (Candidate T)) (d : Candidate T) (k : String × Nat) :
    declaredUnder (seen ++ [d]) k =
      if k = d.key then declaredUnder seen k ++ [d] else declaredUnder seen k := by
  rw [declaredUnder, List.filter_append]
  split
  · next h => simp [declaredUnder, h]
  · next h => simp [declaredUnder, h]

theorem declaredUnder_eq_nil {k : String × Nat} (hk : k ∉ declaredKeys seen) :
    declaredUnder seen k = [] :=
  List.eq_nil_iff_forall_not_mem.2 fun d hd => hk (exists_mem_declaredUnder.2 ⟨d, hd⟩)

/-- What is listed by key is changed for one key at the place of this key. -/
theorem set_map_of_nodup {κ β : Type} [DecidableEq κ] {f : κ → β} {k : κ} (b : β) :
    ∀ {ks : List κ} {i : Nat}, ks.Nodup → ks[i]? = some k →
      (ks.map f).set i b = ks.map fun l => if l = k then b else f l
  | [], i, _, h => by simp at h
  | l :: ks, 0, hnodup, h => by
    obtain rfl : l = k := by simpa using h
    have hrest : ∀ m ∈ ks, f m = if m = l then b else f m := fun m hm =>
      (if_neg (ne_of_mem_of_not_mem hm (List.nodup_cons.1 hnodup).1)).symm
    simpa using hrest
  | l :: ks, i + 1, hnodup, h => by
    obtain ⟨hl, hnodup⟩ := List.nodup_cons.1 hnodup
    have hk : ks[i]? = some k := by simpa using h
    have hne : l ≠ k := fun heq => hl (heq ▸ List.mem_of_getElem? hk)
    rw [List.map_cons, List.set_cons_succ, set_map_of_nodup b hnodup hk, List.map_cons, if_neg hne]

/-! ### Slots and buckets -/

/-- Declarations on their way into groups. -/
structure Filing (T : Type) where
  /-- Where the bucket of a name and arity stands. -/
  slots : String × Nat → Option Nat
  buckets : List ((String × Nat) × List (Candidate T))

namespace Filing

/-- What is there before the first declaration. -/
def empty : Filing T := ⟨fun _ => none, []⟩

/-- Puts a declaration into the bucket of its name and arity, or opens one for it behind the others.
    There is no result if a slot leads to no bucket. -/
def put (f : Filing T) (d : Candidate T) : Option (Filing T) :=
  match f.slots d.key with
  | some i => do
    let b ← f.buckets[i]?
    return { f with buckets := f.buckets.set i (b.1, b.2 ++ [d]) }
  | none => some
      { slots := fun k => if k = d.key then some f.buckets.length else f.slots k
        buckets := f.buckets ++ [(d.key, [d])] }

/-- The declarations `seen` have been put where they belong. -/
structure Holds (seen : List (Candidate T)) (f : Filing T) : Prop where
  /-- A slot leads to the bucket of its own name and arity. -/
  slots : ∀ k i, f.slots k = some i ↔ (declaredKeys seen)[i]? = some k
  /-- The buckets have the declarations of each name and arity, in the order in which these came up. -/
  buckets : f.buckets = (declaredKeys seen).map fun k => (k, declaredUnder seen k)

theorem holds_empty : Holds [] (empty : Filing T) :=
  ⟨fun k i => by simp [empty, declaredKeys], rfl⟩

variable {f : Filing T} {d : Candidate T}

/-- A declaration whose bucket is there. -/
theorem Holds.put_known (h : Holds seen f) (hd : d.key ∈ declaredKeys seen) :
    ∃ f', f.put d = some f' ∧ Holds (seen ++ [d]) f' := by
  obtain ⟨i, hi⟩ := List.mem_iff_getElem?.1 hd
  have hbucket : f.buckets[i]? = some (d.key, declaredUnder seen d.key) := by
    rw [h.buckets, List.getElem?_map, hi]
    rfl
  have hput : f.put d = some
      { f with buckets := f.buckets.set i (d.key, declaredUnder seen d.key ++ [d]) } := by
    rw [put, (h.slots d.key i).2 hi]
    simp [hbucket]
  refine ⟨_, hput, ?_, ?_⟩
  · rw [declaredKeys_concat, if_pos hd]
    exact h.slots
  · rw [declaredKeys_concat, if_pos hd]
    dsimp only
    rw [h.buckets, set_map_of_nodup _ (nodup_declaredKeys seen) hi]
    refine List.map_congr_left fun k _ => ?_
    rw [declaredUnder_concat]
    split
    · next heq => rw [heq]
    · rfl

/-- A declaration that opens a bucket. -/
theorem Holds.put_new (h : Holds seen f) (hd : d.key ∉ declaredKeys seen) :
    ∃ f', f.put d = some f' ∧ Holds (seen ++ [d]) f' := by
  have hslot : f.slots d.key = none := Option.eq_none_iff_forall_not_mem.2 fun i hi =>
    hd (List.mem_of_getElem? ((h.slots d.key i).1 hi))
  have hlength : f.buckets.length = (declaredKeys seen).length := by
    rw [h.buckets, List.length_map]
  refine ⟨_, by rw [put, hslot], fun k i => ?_, ?_⟩
  · have hk := h.slots k i
    rw [declaredKeys_concat, if_neg hd]
    grind
  · rw [declaredKeys_concat, if_neg hd, List.map_append, List.map_singleton, h.buckets,
      declaredUnder_concat, if_pos rfl, declaredUnder_eq_nil hd, List.nil_append]
    refine congrArg (· ++ [(d.key, [d])]) (List.map_congr_left fun k hk => ?_)
    rw [declaredUnder_concat, if_neg (ne_of_mem_of_not_mem hk hd)]

/-- All declarations are put where they belong. -/
theorem exists_holds (declarations : List (Candidate T)) :
    ∃ f, declarations.foldlM put empty = some f ∧ Holds declarations f := by
  induction declarations using List.reverseRecOn with
  | nil => exact ⟨empty, rfl, holds_empty⟩
  | append_singleton seen d ih =>
    obtain ⟨f, hf, hholds⟩ := ih
    obtain ⟨f', hput, hholds'⟩ : ∃ f', f.put d = some f' ∧ Holds (seen ++ [d]) f' := by
      by_cases hd : d.key ∈ declaredKeys seen
      · exact hholds.put_known hd
      · exact hholds.put_new hd
    refine ⟨f', ?_, hholds'⟩
    rw [List.foldlM_append, hf]
    simpa using hput

end Filing

/-! ### No declaration is lost or misfiled -/

namespace Sorts

variable [BEq T] [LawfulBEq T] {groups : List (Group T)}

theorem candidates_eq (h : Sorts declarations groups) {g : Group T} (hg : g ∈ groups) :
    g.candidates = (declaredUnder declarations g.key).eraseDups := by
  rw [h.members g hg, ← distinct_eq_eraseDupsBy, distinct_eq_eraseDups]
  rfl

/-- Every declaration is in the group of its name and arity, and in no other. -/
theorem existsUnique_group (h : Sorts declarations groups) {d : Candidate T}
    (hd : d ∈ declarations) : ∃! g, g ∈ groups ∧ d ∈ g.candidates := by
  have hmem : ∀ g ∈ groups, d ∈ g.candidates ↔ d.key = g.key := fun g hg => by
    rw [h.candidates_eq hg, List.mem_eraseDups, mem_declaredUnder, and_iff_right hd]
  have hkey : d.key ∈ groups.map Group.key := by
    rw [h.keys, List.mem_eraseDups]
    exact List.mem_map_of_mem hd
  obtain ⟨g, hg, hgd⟩ := List.mem_map.1 hkey
  refine ⟨g, ⟨hg, (hmem g hg).2 hgd.symm⟩, ?_⟩
  rintro g' ⟨hg', hd'⟩
  have hnodup : (groups.map Group.key).Nodup := h.keys ▸ nodup_declaredKeys declarations
  exact List.inj_on_of_nodup_map hnodup hg' hg (((hmem g' hg').1 hd').symm.trans hgd.symm)

end Sorts

/-! ### The declaration that is reported -/

variable [ToString T]

/-- `e` names the first declaration without a type in the earliest group that has one. -/
def Unsortable (declarations : List (Candidate T)) (e : Error) : Prop :=
  ∃ before k after, declaredKeys declarations = before ++ k :: after ∧
    (∀ l ∈ before, ∀ d ∈ declaredUnder declarations l, ¬ d.Untyped) ∧
    ∃ earlier d later, declaredUnder declarations k = earlier ++ d :: later ∧
      (∀ c ∈ earlier, ¬ c.Untyped) ∧ ∃ i, d.FirstUntyped i ∧ e = .missingType d.shown i

/-- What is wrong with a candidate of the right name and arity is a missing type. -/
theorem Candidate.misfit_iff {c : Candidate T} {name : String} {arity : Nat} {e : Error}
    (hkey : c.key = (name, arity)) :
    c.Misfit name arity e ↔ ∃ i, c.FirstUntyped i ∧ e = .missingType c.shown i := by
  obtain ⟨hn, ha⟩ := Prod.mk.inj hkey
  constructor
  · intro he
    cases he with
    | name hn' => exact absurd hn hn'
    | arity _ ha' => exact absurd ha ha'
    | type _ _ hi => exact ⟨_, hi, rfl⟩
  · rintro ⟨i, hi, rfl⟩
    exact .type hn ha hi

namespace Group

variable [BEq T] {e : Error}

theorem ofList_declaredUnder_eq_error {k : String × Nat} (hk : k ∈ declaredKeys declarations) :
    ofList k.1 k.2 (declaredUnder declarations k) = .error e ↔
      ∃ earlier d later, declaredUnder declarations k = earlier ++ d :: later ∧
        (∀ c ∈ earlier, ¬ c.Untyped) ∧ ∃ i, d.FirstUntyped i ∧ e = .missingType d.shown i := by
  obtain ⟨d, hd⟩ := exists_mem_declaredUnder.1 hk
  rw [ofList_eq_error, or_iff_right fun hnil => List.ne_nil_of_mem hd hnil.1]
  refine exists_congr fun earlier => exists_congr fun d => exists_congr fun later =>
    and_congr_right fun hsplit => ?_
  have hkey : ∀ c ∈ earlier ++ d :: later, c.key = k :=
    fun c hc => (mem_declaredUnder.1 (hsplit ▸ hc)).2
  refine and_congr (forall₂_congr fun c hc => ?_) (Candidate.misfit_iff (hkey d (by simp)))
  exact Candidate.belongs_iff (hkey c (by simp [hc]))

theorem partition_eq_error : partition declarations = .error e ↔ Unsortable declarations e := by
  rw [partition_eq_mapM, mapM_eq_error_iff]
  refine exists_congr fun before => exists_congr fun k => exists_congr fun after =>
    and_congr_right fun hsplit => ?_
  have hmem : ∀ l ∈ before ++ k :: after, l ∈ declaredKeys declarations := fun l hl => hsplit ▸ hl
  refine and_congr (forall₂_congr fun l hl => ?_) (ofList_declaredUnder_eq_error (hmem k (by simp)))
  exact exists_ofList_declaredUnder (hmem l (by simp [hl]))

/-- Declarations without a missing type are sorted into groups. -/
theorem exists_sorts (htyped : ∀ d ∈ declarations, ¬ d.Untyped) :
    ∃ groups, partition declarations = .ok groups ∧ Sorts declarations groups := by
  cases hp : partition declarations with
  | ok groups => exact ⟨groups, rfl, sorts_of_partition hp⟩
  | error e =>
    obtain ⟨d, hd, huntyped⟩ := exists_partition_eq_error_iff.1 ⟨e, hp⟩
    exact absurd huntyped (htyped d hd)

/-- Sorting fails exactly for a declaration with a missing type, and reports the first one of the
    earliest group that has one. Otherwise there is one group for each name and arity, in the order
    in which these come up first, with the declarations of that name and arity in their order, later
    repetitions left out. Putting one declaration after the other into the bucket that its slot leads
    to, and then making a group of each bucket, comes to the same. -/
theorem filing_exact [LawfulBEq T] (declarations : List (Candidate T)) :
    ((∃ e, partition declarations = .error e) ↔ ∃ d ∈ declarations, d.Untyped) ∧
    (∀ e, partition declarations = .error e ↔ Unsortable declarations e) ∧
    ((∀ d ∈ declarations, ¬ d.Untyped) → ∃ groups, partition declarations = .ok groups ∧
      groups.map Group.key = declaredKeys declarations ∧
      (∀ g ∈ groups, g.candidates = (declaredUnder declarations g.key).eraseDups) ∧
      ∀ d ∈ declarations, ∃! g, g ∈ groups ∧ d ∈ g.candidates) ∧
    ∃ f, declarations.foldlM Filing.put .empty = some f ∧
      partition declarations = f.buckets.mapM fun b => ofList b.1.1 b.1.2 b.2 := by
  refine ⟨exists_partition_eq_error_iff, fun e => partition_eq_error, fun htyped => ?_, ?_⟩
  · obtain ⟨groups, hp, hsorts⟩ := exists_sorts htyped
    exact ⟨groups, hp, hsorts.keys, fun g hg => hsorts.candidates_eq hg,
      fun d hd => hsorts.existsUnique_group hd⟩
  · obtain ⟨f, hf, hholds⟩ := Filing.exists_holds declarations
    refine ⟨f, hf, ?_⟩
    rw [partition_eq_mapM, hholds.buckets, List.mapM_map]
    rfl

/-- The declaration of `g` without a type comes before that of `f`, but `f` came up first. -/
theorem filing_exact_interleaved :
    let single (name : String) (t : Option (Fin 3)) : Candidate (Fin 3) :=
      ⟨"home", name, [⟨"x", t, false⟩], 0, []⟩
    partition [single "f" (some 0), single "g" none, single "f" none] =
        .error (.missingType (single "f" none).shown 0) ∧
      ∃ groups, partition [single "f" (some 0), single "g" (some 1), single "f" (some 0),
          single "f" (some 2)] = .ok groups ∧ groups.map Group.key = [("f", 1), ("g", 1)] := by
  intro single
  constructor
  · obtain ⟨_, herror, _⟩ :=
      filing_exact [single "f" (some 0), single "g" none, single "f" none]
    refine (herror _).2 ⟨[], ("f", 1), [("g", 1)], rfl, by simp, [single "f" (some 0)],
      single "f" none, [], rfl, ?_, 0, ⟨by decide, rfl, by simp⟩, rfl⟩
    simp [single, Candidate.Untyped]
  · obtain ⟨_, _, hok, _⟩ := filing_exact
      [single "f" (some 0), single "g" (some 1), single "f" (some 0), single "f" (some 2)]
    obtain ⟨groups, hp, hkeys, _⟩ := hok (by simp [single, Candidate.Untyped])
    exact ⟨groups, hp, hkeys.trans rfl⟩

end Group

end MultipleDispatch
