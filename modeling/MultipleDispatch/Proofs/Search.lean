import MultipleDispatch.Proofs.Hierarchy

/-!
The answer of a hierarchy, found on a single walk. The walk keeps a queue of names, remembers the
names it has visited and whether one of them was not declared, and breaks off at the first name that
has the wanted direct supertype. `Searching` is what holds after every step of it: all that was
visited or is queued can be reached, the supertypes of visited names are not forgotten, and none of
them is the wanted one. So a walk that runs out of names has visited whatever can be reached.
-/

namespace MultipleDispatch.Hierarchy

open Relation (ReflTransGen TransGen)

variable {h : Hierarchy} {a b : String}

/-! ### The walk -/

/-- Expanding a name takes its steps out of those that start outside. -/
theorem outside_visit {visited : List String} {name : String}
    (hname : ¬visited.contains name = true) :
    outside (visited ++ [name]) h.entries + (h.supers name).length ≤ outside visited h.entries := by
  rw [List.contains_iff_mem] at hname
  exact outside_concat_add hname h.entries

/-- Walks on from the names in `queue`, nearest first, to one with the direct supertype `sup`. Names
    in `visited` are passed over, and `undeclared` says whether one of them was not declared. -/
def search (h : Hierarchy) (sup : String) (queue visited : List String) (undeclared : Bool) :
    Verdict :=
  match queue with
  | [] => if undeclared then .unknown else .no
  | name :: queue =>
    if visited.contains name then h.search sup queue visited undeclared
    else if h.isDeclared name then
      if (h.supers name).contains sup then .yes
      else h.search sup (queue ++ h.supers name) (visited ++ [name]) undeclared
    else h.search sup queue (visited ++ [name]) true
-- Whatever joins the queue is a step from a name that counts as visited from then on.
termination_by queue.length + outside visited h.entries
decreasing_by
  · simp
  · next hname _ _ =>
    have hfewer := outside_visit (h := h) hname
    simp only [List.length_append, List.length_cons]
    omega
  · next hname _ =>
    have hfewer := outside_visit (h := h) hname
    simp only [List.length_cons]
    omega

/-- Is `sub` a subtype of `sup`? Found by walking up from `sub`. -/
def judgeSearching (h : Hierarchy) (sub sup : String) : Verdict :=
  if sub == sup || sup == h.top then .yes
  else if sub == h.top then .no
  else if !(h.isDeclared sub && h.isDeclared sup) then .unknown
  else h.search sup [sub] [] false

/-! ### What holds on the way -/

theorem supers_eq_nil_of_undeclared (ha : ¬h.isDeclared a = true) : h.supers a = [] := by
  rw [isDeclared, Bool.or_eq_true, not_or, Option.not_isSome_iff_eq_none] at ha
  rw [supers, ha.2, Option.getD_none]

/-- Where a walk from `sub` to `sup` stands. -/
structure Searching (h : Hierarchy) (sub sup : String) (queue visited : List String)
    (undeclared : Bool) : Prop where
  /-- All names met so far can be reached. -/
  reached : ∀ x ∈ visited ++ queue, ReflTransGen h.Step sub x
  start : sub ∈ visited ++ queue
  /-- The supertypes of visited names were visited or are queued. -/
  covered : ∀ x ∈ visited, ∀ y, h.Step x y → y ∈ visited ++ queue
  /-- None of them is the wanted one. -/
  missed : ∀ x ∈ visited, ¬h.Step x sup
  flagged : undeclared = true ↔ ∃ x ∈ visited, ¬h.isDeclared x = true

namespace Searching

variable {sub sup name : String} {queue visited : List String} {undeclared : Bool}

theorem init (h : Hierarchy) (sub sup : String) : h.Searching sub sup [sub] [] false where
  reached := by simp [ReflTransGen.refl]
  start := by simp
  covered := by simp
  missed := by simp
  flagged := by simp

/-- A name that was visited before may be passed over. -/
theorem skip (hs : h.Searching sub sup (name :: queue) visited undeclared)
    (hname : name ∈ visited) : h.Searching sub sup queue visited undeclared := by
  have hmem : ∀ x, x ∈ visited ++ name :: queue ↔ x ∈ visited ++ queue := by grind
  obtain ⟨hreached, hstart, hcovered, hmissed, hflagged⟩ := hs
  simp only [hmem] at hreached hstart hcovered
  exact ⟨hreached, hstart, hcovered, hmissed, hflagged⟩

/-- Visiting a name puts its supertypes in the queue. -/
theorem visit (hs : h.Searching sub sup (name :: queue) visited undeclared)
    (hname : ¬h.Step name sup) : h.Searching sub sup (queue ++ h.supers name) (visited ++ [name])
      (undeclared || !h.isDeclared name) where
  reached := by
    intro x hx
    by_cases hsuper : h.Step name x
    · exact (hs.reached name (by simp)).tail hsuper
    · exact hs.reached x (by grind [Step])
  start := by grind [hs.start]
  covered := by
    intro x hx y hxy
    rcases List.mem_append.1 hx with hx | hx
    · grind [hs.covered x hx y hxy]
    · rw [List.mem_singleton.1 hx] at hxy
      grind [Step]
  missed := by
    intro x hx
    rcases List.mem_append.1 hx with hx | hx
    · exact hs.missed x hx
    · rwa [List.mem_singleton.1 hx]
  flagged := by
    rw [Bool.or_eq_true, hs.flagged]
    simp only [List.mem_append, List.mem_singleton, Bool.not_eq_true', Bool.not_eq_true]
    grind

/-- A walk that runs out of names has visited whatever can be reached. -/
theorem mem_visited (hs : h.Searching sub sup [] visited undeclared) {x : String}
    (hx : ReflTransGen h.Step sub x) : x ∈ visited := by
  have hclosed : h.Closed visited visited :=
    ⟨fun _ hx => hx, fun x hx y hxy => by simpa using hs.covered x hx y hxy⟩
  exact hclosed.mem_of_reaches (by simpa using hs.start) hx

/-- A walk that runs out of names has not found what it was looking for. -/
theorem not_transGen (hs : h.Searching sub sup [] visited undeclared) :
    ¬TransGen h.Step sub sup := by
  intro hpath
  obtain ⟨x, hx, hstep⟩ := TransGen.tail'_iff.1 hpath
  exact hs.missed x (hs.mem_visited hx) hstep

/-- It has been left open if a name that was not declared can be reached. -/
theorem flagged_iff (hs : h.Searching sub sup [] visited undeclared) :
    undeclared = true ↔ ∃ x, ¬h.isDeclared x = true ∧ ReflTransGen h.Step sub x := by
  rw [hs.flagged]
  constructor
  · rintro ⟨x, hx, hopen⟩
    exact ⟨x, hopen, hs.reached x (List.mem_append_left _ hx)⟩
  · rintro ⟨x, hopen, hx⟩
    exact ⟨x, hs.mem_visited hx, hopen⟩

/-- How a walk comes out depends on what can be reached alone. -/
theorem search_eq (hs : h.Searching sub sup queue visited undeclared) :
    (h.search sup queue visited undeclared = .yes ↔ TransGen h.Step sub sup) ∧
    (h.search sup queue visited undeclared = .unknown ↔ ¬TransGen h.Step sub sup ∧
      ∃ x, ¬h.isDeclared x = true ∧ ReflTransGen h.Step sub x) := by
  fun_induction search h sup queue visited undeclared with
  | case1 visited =>
    exact ⟨iff_of_false (by simp) hs.not_transGen,
      iff_of_true rfl ⟨hs.not_transGen, hs.flagged_iff.1 rfl⟩⟩
  | case2 visited undeclared hdecl =>
    refine ⟨iff_of_false (by simp) hs.not_transGen, iff_of_false (by simp) ?_⟩
    rintro ⟨_, hopen⟩
    exact hdecl (hs.flagged_iff.2 hopen)
  | case3 visited undeclared name queue hname ih =>
    exact ih (hs.skip (List.contains_iff_mem.1 hname))
  | case4 visited undeclared name queue _ _ hfound =>
    have hpath : TransGen h.Step sub sup :=
      TransGen.tail' (hs.reached name (by simp)) (List.contains_iff_mem.1 hfound)
    exact ⟨iff_of_true rfl hpath, iff_of_false (by simp) fun hopen => hopen.1 hpath⟩
  | case5 visited undeclared name queue _ hdecl hmissed ih =>
    have hvisit := hs.visit fun hstep => hmissed (List.contains_iff_mem.2 hstep)
    rw [hdecl, Bool.not_true, Bool.or_false] at hvisit
    exact ih hvisit
  | case6 visited undeclared name queue _ hdecl ih =>
    have hnil := supers_eq_nil_of_undeclared hdecl
    have hvisit := hs.visit fun hstep => by simp [Step, hnil] at hstep
    rw [hnil, List.append_nil, Bool.eq_false_iff.2 hdecl, Bool.not_false, Bool.or_true] at hvisit
    exact ih hvisit

end Searching

/-- From a declared name, what is not declared is reached in one step or more. -/
theorem exists_undeclared_iff (ha : h.isDeclared a = true) :
    (∃ x, ¬h.isDeclared x = true ∧ ReflTransGen h.Step a x) ↔
      ¬(h.ancestors a).all h.isDeclared = true := by
  simp only [List.all_eq_true, mem_ancestors, Classical.not_forall, exists_prop]
  refine exists_congr fun x => ?_
  constructor
  · rintro ⟨hx, hreach⟩
    rcases Relation.reflTransGen_iff_eq_or_transGen.1 hreach with rfl | hpath
    · exact absurd ha hx
    · exact ⟨hpath, hx⟩
  · rintro ⟨hpath, hx⟩
    exact ⟨hx, hpath.to_reflTransGen⟩

/-- The walk finds the answer that the list of all ancestors gives. -/
theorem judgeSearching_eq (h : Hierarchy) (a b : String) : h.judgeSearching a b = h.judge a b := by
  rw [judgeSearching, judge]
  split
  · rfl
  split
  · rfl
  split
  · rfl
  · next hdecl =>
    rw [Bool.not_eq_true', Bool.not_eq_false, Bool.and_eq_true] at hdecl
    obtain ⟨hyes, hunknown⟩ := (Searching.init h a b).search_eq
    rw [exists_undeclared_iff hdecl.1, ← mem_ancestors] at hunknown
    rw [← mem_ancestors] at hyes
    simp only [List.contains_iff_mem]
    split
    · next hb => exact hyes.2 hb
    · next hb =>
      split
      · next hall =>
        rw [Verdict.eq_no_iff, ne_eq, ne_eq, hyes, hunknown]
        exact ⟨hb, fun hopen => hopen.2 hall⟩
      · next hall => exact hunknown.2 ⟨hb, hall⟩

end MultipleDispatch.Hierarchy
