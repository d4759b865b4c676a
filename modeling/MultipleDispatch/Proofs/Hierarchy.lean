import Mathlib.Logic.Relation
import MultipleDispatch.Proofs.Dominance
import MultipleDispatch.Subtyping.Hierarchy

/-!
What a hierarchy affirms. Climbing collects exactly the names that one or more declared steps lead
to: `climb_sound` says that nothing else is met, and `Closed` that nothing is left out once there are
as many steps as `pending` and `outside` allow for. So `judge` affirms a subtype exactly where a chain
of declarations does, which makes it transitive, and further declarations never take an answer back.
-/

namespace MultipleDispatch

theorem Verdict.eq_no_iff {v : Verdict} : v = .no ↔ v ≠ .yes ∧ v ≠ .unknown := by
  cases v <;> simp

theorem Verdict.eq_of_iff {v w : Verdict} (hyes : v = .yes ↔ w = .yes)
    (hunknown : v = .unknown ↔ w = .unknown) : v = w := by
  cases v <;> cases w <;> simp_all

namespace Hierarchy

open Relation (ReflTransGen TransGen)

variable {h : Hierarchy}

/-- `b` is a direct supertype of `a`. -/
def Step (h : Hierarchy) (a b : String) : Prop := b ∈ h.supers a

/-! ### Climbing meets what can be reached -/

/-- The number of declared steps that start at names outside `met`. -/
def outside (met : List String) (entries : List (String × List String)) : Nat :=
  ((entries.filter fun e => !met.contains e.1).flatMap Prod.snd).length

/-- Expanding a name takes its steps out of those that start outside. -/
theorem outside_concat_add {met : List String} {name : String} (hname : name ∉ met)
    (entries : List (String × List String)) :
    outside (met ++ [name]) entries + ((entries.lookup name).getD []).length
      ≤ outside met entries := by
  induction entries with
  | nil => simp [outside]
  | cons e rest ih =>
    obtain ⟨key, sups⟩ := e
    by_cases hkey : key = name
    · subst hkey
      simp [outside, hname] at ih ⊢
      omega
    · have hlookup : ((key, sups) :: rest).lookup name = rest.lookup name := by
        rw [List.lookup_cons, beq_false_of_ne (Ne.symm hkey)]
      rw [hlookup]
      by_cases hmet : key ∈ met
      · simpa [outside, List.filter_cons, hmet] using ih
      · simp [outside, hmet, hkey] at ih ⊢
        omega

theorem outside_nil (h : Hierarchy) : outside [] h.entries = h.stepCount := by
  rw [outside, stepCount, List.filter_eq_self.2 (by simp)]

/-- Whatever is met was met before or is reached from a name that was pending. -/
theorem climb_sound (n : Nat) (pending met : List String) {x : String}
    (hx : x ∈ h.climb n pending met) :
    x ∈ met ∨ ∃ name ∈ pending, ReflTransGen h.Step name x := by
  induction n generalizing pending met with
  | zero => exact Or.inl hx
  | succ n ih =>
    cases pending with
    | nil => exact Or.inl hx
    | cons name pending =>
      rw [climb] at hx
      split at hx
      · rcases ih _ _ hx with hmet | ⟨p, hp, hreach⟩
        · exact Or.inl hmet
        · exact Or.inr ⟨p, List.mem_cons_of_mem name hp, hreach⟩
      · rcases ih _ _ hx with hmet | ⟨p, hp, hreach⟩
        · rcases List.mem_append.1 hmet with hmet | hmet
          · exact Or.inl hmet
          · rw [List.mem_singleton.1 hmet]
            exact Or.inr ⟨name, List.mem_cons_self, .refl⟩
        · rcases List.mem_append.1 hp with hp | hp
          · exact Or.inr ⟨p, List.mem_cons_of_mem name hp, hreach⟩
          · exact Or.inr ⟨name, List.mem_cons_self, hreach.head hp⟩

/-- `names` holds `start` and, with every name, its direct supertypes. -/
structure Closed (h : Hierarchy) (start names : List String) : Prop where
  start : ∀ x ∈ start, x ∈ names
  step : ∀ a ∈ names, ∀ b, h.Step a b → b ∈ names

theorem Closed.mem_of_reaches {start names : List String} (hc : h.Closed start names) {a b : String}
    (ha : a ∈ names) (hab : ReflTransGen h.Step a b) : b ∈ names := by
  induction hab with
  | refl => exact ha
  | tail _ hstep ih => exact hc.step _ ih _ hstep

/-- With enough steps, climbing from `pending` ends with a closed list. The steps that start at met
    names have all been taken or are pending. -/
theorem climb_closed (n : Nat) (pending met : List String)
    (hn : pending.length + outside met h.entries ≤ n)
    (hcovered : ∀ a ∈ met, ∀ b, h.Step a b → b ∈ met ∨ b ∈ pending) :
    h.Closed (met ++ pending) (h.climb n pending met) := by
  induction n generalizing pending met with
  | zero =>
    obtain rfl : pending = [] := List.length_eq_zero_iff.1 (by omega)
    refine ⟨by simp [climb], fun a ha b hab => ?_⟩
    simpa [climb] using hcovered a ha b hab
  | succ n ih =>
    cases pending with
    | nil =>
      refine ⟨by simp [climb], fun a ha b hab => ?_⟩
      simpa [climb] using hcovered a ha b hab
    | cons name pending =>
      rw [List.length_cons] at hn
      rw [climb]
      split
      · next hmet =>
        rw [List.contains_iff_mem] at hmet
        have hrest := ih pending met (by omega) fun a ha b hab => by
          rcases hcovered a ha b hab with hb | hb
          · exact Or.inl hb
          · rcases List.mem_cons.1 hb with rfl | hb
            · exact Or.inl hmet
            · exact Or.inr hb
        refine ⟨fun x hx => hrest.start x ?_, hrest.step⟩
        simp only [List.mem_append, List.mem_cons] at hx ⊢
        rcases hx with hx | rfl | hx
        · exact Or.inl hx
        · exact Or.inl hmet
        · exact Or.inr hx
      · next hmet =>
        rw [List.contains_iff_mem] at hmet
        have hfewer := outside_concat_add hmet h.entries
        have hsupers : (h.supers name).length = ((h.entries.lookup name).getD []).length := rfl
        have hrest := ih (pending ++ h.supers name) (met ++ [name])
          (by rw [List.length_append]; omega) fun a ha b hab => by
            rcases List.mem_append.1 ha with ha | ha
            · rcases hcovered a ha b hab with hb | hb
              · exact Or.inl (List.mem_append_left _ hb)
              · rcases List.mem_cons.1 hb with rfl | hb
                · exact Or.inl (by simp)
                · exact Or.inr (List.mem_append_left _ hb)
            · rw [List.mem_singleton.1 ha] at hab
              exact Or.inr (List.mem_append_right _ hab)
        refine ⟨fun x hx => hrest.start x ?_, hrest.step⟩
        simp only [List.mem_append, List.mem_cons] at hx ⊢
        rcases hx with hx | hx | hx
        · exact Or.inl (Or.inl hx)
        · exact Or.inl (Or.inr (Or.inl hx))
        · exact Or.inr (Or.inl hx)

/-- The ancestors of a name are the names that one or more declared steps lead to. -/
theorem mem_ancestors {a b : String} : b ∈ h.ancestors a ↔ TransGen h.Step a b := by
  constructor
  · intro hb
    rcases climb_sound _ _ _ hb with hmet | ⟨p, hp, hreach⟩
    · simp at hmet
    · exact TransGen.head' hp hreach
  · intro hab
    obtain ⟨p, hp, hreach⟩ := TransGen.head'_iff.1 hab
    have hclosed := climb_closed (h := h) ((h.supers a).length + h.stepCount) (h.supers a) []
      (Nat.le_of_eq (by rw [outside_nil])) (by simp)
    exact hclosed.mem_of_reaches (hclosed.start p hp) hreach

/-! ### Affirmed subtypes and open questions -/

/-- A subtype is affirmed for equal names, below the top, and along a chain of declarations between
    two declared names. -/
theorem judge_eq_yes {a b : String} : h.judge a b = .yes ↔ a = b ∨ b = h.top ∨
    a ≠ h.top ∧ h.isDeclared a = true ∧ h.isDeclared b = true ∧ TransGen h.Step a b := by
  rw [← mem_ancestors, ← or_assoc]
  simp only [judge]
  split
  · next hab =>
    rw [Bool.or_eq_true, beq_iff_eq, beq_iff_eq] at hab
    exact ⟨fun _ => Or.inl hab, fun _ => rfl⟩
  · next hab =>
    rw [Bool.or_eq_true, beq_iff_eq, beq_iff_eq] at hab
    rw [or_iff_right hab]
    split
    · next htop => simp_all
    · next htop =>
      rw [beq_iff_eq] at htop
      split
      · next hdecl =>
        rw [Bool.not_eq_true', Bool.and_eq_false_iff] at hdecl
        rcases hdecl with ha | hb
        · simp [ha]
        · simp [hb]
      · next hdecl =>
        rw [Bool.not_eq_true', Bool.not_eq_false, Bool.and_eq_true] at hdecl
        split
        · next hmem => simp_all
        · next hmem =>
          rw [List.contains_iff_mem] at hmem
          split <;> simp [hmem]

/-- A question is left open when a name in it was not declared, or when a chain of declarations that
    could still lead on ends at such a name. -/
theorem judge_eq_unknown {a b : String} : h.judge a b = .unknown ↔ h.judge a b ≠ .yes ∧ a ≠ h.top ∧
    (¬h.isDeclared a = true ∨ ¬h.isDeclared b = true ∨
      ∃ x, ¬h.isDeclared x = true ∧ TransGen h.Step a x) := by
  simp only [← mem_ancestors, judge]
  split
  · simp
  · split
    · next htop => simp_all
    · next htop =>
      rw [beq_iff_eq] at htop
      split
      · next hdecl =>
        rw [Bool.not_eq_true', Bool.and_eq_false_iff] at hdecl
        rcases hdecl with ha | hb
        · simp [htop, ha]
        · simp [htop, hb]
      · next hdecl =>
        rw [Bool.not_eq_true', Bool.not_eq_false, Bool.and_eq_true] at hdecl
        split
        · simp
        · split
          · next hall =>
            rw [List.all_eq_true] at hall
            refine iff_of_false (by simp) ?_
            rintro ⟨_, _, hx | hx | ⟨x, hx, hmem⟩⟩
            · exact absurd hdecl.1 hx
            · exact absurd hdecl.2 hx
            · exact absurd (hall x hmem) hx
          · next hall =>
            have hopen : ∃ x ∈ h.ancestors a, ¬h.isDeclared x = true := by simpa using hall
            obtain ⟨x, hmem, hx⟩ := hopen
            exact iff_of_true rfl ⟨by simp, htop, Or.inr (Or.inr ⟨x, hx, hmem⟩)⟩

theorem fits_subtyping {a b : String} : h.subtyping.fits a b = true ↔ h.judge a b = .yes := by
  rw [Subtyping.fits_eq_true, Subtyping.below, decide_eq_true_iff]
  constructor
  · rintro (rfl | hab)
    · exact judge_eq_yes.2 (Or.inl rfl)
    · exact hab
  · exact Or.inr

/-- Types of a hierarchy accept one another transitively, cyclic declarations included. -/
theorem transitive_subtyping (h : Hierarchy) : h.subtyping.Transitive := by
  intro a b c hab hbc
  rw [fits_subtyping, judge_eq_yes] at *
  rcases hbc with rfl | rfl | ⟨hbtop, _, hc, hbc⟩
  · exact hab
  · exact Or.inr (Or.inl rfl)
  · rcases hab with rfl | rfl | ⟨hatop, ha, _, hab⟩
    · exact Or.inr (Or.inr ⟨hbtop, by assumption, hc, hbc⟩)
    · exact absurd rfl hbtop
    · exact Or.inr (Or.inr ⟨hatop, ha, hc, hab.trans hbc⟩)

/-! ### Further declarations -/

theorem mem_addSupers {x : String} (known more : List String) :
    x ∈ addSupers known more ↔ x ∈ known ∨ x ∈ more := by
  induction more generalizing known with
  | nil => simp [addSupers]
  | cons m more ih =>
    have hfold : addSupers known (m :: more)
        = addSupers (if known.contains m then known else known ++ [m]) more := rfl
    rw [hfold, ih]
    grind

theorem lookup_extend (name : String) (more : List String) (entries : List (String × List String))
    (a : String) : (extend name more entries).lookup a =
      if a = name then some (addSupers ((entries.lookup name).getD []) more)
      else entries.lookup a := by
  induction entries with
  | nil => grind [extend]
  | cons e rest ih =>
    obtain ⟨key, known⟩ := e
    rw [extend]
    split
    · next hkey => grind
    · next hkey => grind

/-- A declaration adds the steps that it names and no others. -/
theorem step_declare {name : String} {more : List String} {a b : String} :
    (h.declare name more).Step a b ↔ h.Step a b ∨ a = name ∧ b ∈ more := by
  simp only [Step, supers, declare, lookup_extend]
  split
  · next ha => simp [mem_addSupers, ha]
  · next ha => simp [ha]

theorem isDeclared_declare {name : String} {more : List String} {a : String} :
    (h.declare name more).isDeclared a = true ↔ h.isDeclared a = true ∨ a = name := by
  simp only [isDeclared, declare, lookup_extend]
  split
  · next ha => simp [ha]
  · next ha => simp [ha]

/-- A further declaration takes no affirmed subtype back. -/
theorem judge_declare {name : String} {more : List String} {a b : String}
    (hab : h.judge a b = .yes) : (h.declare name more).judge a b = .yes := by
  rw [judge_eq_yes] at hab ⊢
  rcases hab with hab | hab | ⟨htop, ha, hb, hpath⟩
  · exact Or.inl hab
  · exact Or.inr (Or.inl hab)
  · refine Or.inr (Or.inr ⟨htop, isDeclared_declare.2 (Or.inl ha), isDeclared_declare.2 (Or.inl hb),
      TransGen.mono (fun x y hxy => ?_) _ _ hpath⟩)
    exact step_declare.2 (Or.inl hxy)

/-- The hierarchy after further declarations, made in order. -/
def declareAll (h : Hierarchy) (table : List (String × List String)) : Hierarchy :=
  table.foldl (fun h entry => h.declare entry.1 entry.2) h

theorem judge_declareAll (table : List (String × List String)) {a b : String}
    (hab : h.judge a b = .yes) : (h.declareAll table).judge a b = .yes := by
  induction table generalizing h with
  | nil => exact hab
  | cons entry table ih => exact ih (judge_declare hab)

end Hierarchy

end MultipleDispatch
