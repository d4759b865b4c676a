import Mathlib.Tactic.Push
import MultipleDispatch.Proofs.Search

/-!
What a hierarchy answers, told from the declarations it was made by. A series of declarations
amounts to the names that it is about (`Named`) and the steps from a name to a supertype
(`Declares`), so their order does not count. From there on every answer is a matter of reachability:
affirmed along a chain of steps, left open where a chain runs into a name that nobody declared,
denied otherwise. The laws of the affirmed answers and what later declarations can do to an answer
follow from this.
-/

namespace MultipleDispatch

namespace Hierarchy

open Relation (ReflTransGen TransGen)

variable {h : Hierarchy} {table : List (String × List String)} {a b : String}

/-- Some declaration of the table gives `a` the direct supertype `b`. -/
def Declares (table : List (String × List String)) (a b : String) : Prop :=
  ∃ e ∈ table, e.1 = a ∧ b ∈ e.2

/-- `a` is the top, or some declaration of the table is about it. -/
def Named (top : String) (table : List (String × List String)) (a : String) : Prop :=
  a = top ∨ ∃ e ∈ table, e.1 = a

/-! ### What a series of declarations amounts to -/

theorem step_declareAll :
    (h.declareAll table).Step a b ↔ h.Step a b ∨ Declares table a b := by
  induction table generalizing h with
  | nil => simp [declareAll, Declares]
  | cons e table ih =>
    have hrest : (h.declareAll (e :: table)).Step a b
        ↔ (h.declare e.1 e.2).Step a b ∨ Declares table a b := ih
    rw [hrest, step_declare, or_assoc]
    simp [Declares, eq_comm (a := a)]

theorem isDeclared_declareAll : (h.declareAll table).isDeclared a = true ↔
    h.isDeclared a = true ∨ ∃ e ∈ table, e.1 = a := by
  induction table generalizing h with
  | nil => simp [declareAll]
  | cons e table ih =>
    have hrest : (h.declareAll (e :: table)).isDeclared a = true
        ↔ (h.declare e.1 e.2).isDeclared a = true ∨ ∃ e ∈ table, e.1 = a := ih
    rw [hrest, isDeclared_declare, or_assoc]
    simp [eq_comm (a := a)]

theorem top_declareAll (h : Hierarchy) (table : List (String × List String)) :
    (h.declareAll table).top = h.top := by
  induction table generalizing h with
  | nil => rfl
  | cons e table ih => exact ih (h.declare e.1 e.2)

theorem top_ofTable (top : String) (table : List (String × List String)) :
    (ofTable top table).top = top :=
  top_declareAll (empty top) table

theorem step_ofTable (top : String) : (ofTable top table).Step = Declares table := by
  funext a b
  have hempty : ¬(empty top).Step a b := by simp [Step, supers, empty]
  exact propext (step_declareAll.trans (or_iff_right hempty))

theorem isDeclared_ofTable {top : String} :
    (ofTable top table).isDeclared a = true ↔ Named top table a := by
  have hempty : (empty top).isDeclared a = true ↔ a = top := by simp [isDeclared, empty]
  exact isDeclared_declareAll.trans (or_congr_left hempty)

/-! ### Three answers -/

/-- A subtype is denied when nothing affirms it and every name that the question leads to was
    declared. The top is below no other name, whatever was declared. -/
theorem judge_eq_no : h.judge a b = .no ↔ h.judge a b ≠ .yes ∧ (a = h.top ∨
    h.isDeclared a = true ∧ h.isDeclared b = true ∧
      ∀ x, TransGen h.Step a x → h.isDeclared x = true) := by
  rw [Verdict.eq_no_iff, ne_eq (h.judge a b) .unknown, judge_eq_unknown]
  refine and_congr_right fun hyes => ?_
  constructor
  · intro hsettled
    push Not at hsettled
    by_cases htop : a = h.top
    · exact Or.inl htop
    · obtain ⟨ha, hb, hall⟩ := hsettled hyes htop
      exact Or.inr ⟨ha, hb, fun x hx => Decidable.not_not.1 fun hopen => hall x hopen hx⟩
  · rintro hsettled ⟨_, htop, hopen⟩
    obtain ⟨ha, hb, hall⟩ := hsettled.resolve_left htop
    rcases hopen with hopen | hopen | ⟨x, hopen, hx⟩
    · exact hopen ha
    · exact hopen hb
    · exact hopen (hall x hx)

/-- The declarations of the table affirm that `a` is a subtype of `b`. -/
def Affirms (top : String) (table : List (String × List String)) (a b : String) : Prop :=
  a = b ∨ b = top ∨
    a ≠ top ∧ Named top table a ∧ Named top table b ∧ TransGen (Declares table) a b

/-- The declarations of the table are not enough to tell that `a` is no subtype of `b`. -/
def LeavesOpen (top : String) (table : List (String × List String)) (a b : String) : Prop :=
  a ≠ top ∧ (¬Named top table a ∨ ¬Named top table b ∨
    ∃ x, ¬Named top table x ∧ TransGen (Declares table) a x)

theorem judge_ofTable_eq_yes {top : String} :
    (ofTable top table).judge a b = .yes ↔ Affirms top table a b := by
  rw [judge_eq_yes, top_ofTable, step_ofTable, isDeclared_ofTable, isDeclared_ofTable, Affirms]

theorem judge_ofTable_eq_unknown {top : String} : (ofTable top table).judge a b = .unknown ↔
    ¬Affirms top table a b ∧ LeavesOpen top table a b := by
  simp only [judge_eq_unknown, ne_eq, judge_ofTable_eq_yes, top_ofTable, step_ofTable,
    isDeclared_ofTable, LeavesOpen]

/-- A hierarchy made by a series of declarations affirms a subtype exactly where the declarations
    do, leaves the question open exactly where they do, and denies it otherwise. So the order of the
    declarations makes no difference. A walk that breaks off as soon as it can finds the same. -/
theorem judge_ofTable (top : String) (table : List (String × List String)) (a b : String) :
    ((ofTable top table).judge a b = .yes ↔ Affirms top table a b) ∧
    ((ofTable top table).judge a b = .unknown ↔
      ¬Affirms top table a b ∧ LeavesOpen top table a b) ∧
    ((ofTable top table).judge a b = .no ↔
      ¬Affirms top table a b ∧ ¬LeavesOpen top table a b) ∧
    (∀ table', table'.Perm table →
      (ofTable top table').judge a b = (ofTable top table).judge a b) ∧
    (ofTable top table).judgeSearching a b = (ofTable top table).judge a b := by
  refine ⟨judge_ofTable_eq_yes, judge_ofTable_eq_unknown, ?_, fun table' hperm => ?_,
    judgeSearching_eq _ a b⟩
  · rw [Verdict.eq_no_iff, ne_eq, ne_eq, judge_ofTable_eq_yes, judge_ofTable_eq_unknown]
    exact and_congr_right fun hyes => not_congr (and_iff_right hyes)
  · have hsteps : Declares table' = Declares table := by
      funext x y
      simp only [Declares, hperm.mem_iff]
    have hnames : Named top table' = Named top table := by
      funext x
      simp only [Named, hperm.mem_iff]
    apply Verdict.eq_of_iff
    · simp only [judge_ofTable_eq_yes, Affirms, hsteps, hnames]
    · simp only [judge_ofTable_eq_unknown, Affirms, LeavesOpen, hsteps, hnames]

/-- Declarations in a cycle, one of them with a supertype that nobody declared. -/
theorem judge_ofTable_cyclic :
    let table := [("Dog", ["Animal"]), ("Animal", ["Dog", "Pet"]), ("Int", [])]
    table.reverse.Perm table ∧ LeavesOpen "Any" table "Dog" "Int" ∧
      (ofTable "Any" table.reverse).judge "Dog" "Int" = .unknown := by
  intro table
  obtain ⟨_, hunknown, _, horder, _⟩ := judge_ofTable "Any" table "Dog" "Int"
  have hopen : (ofTable "Any" table).judge "Dog" "Int" = .unknown := by decide
  have hperm : table.reverse.Perm table := table.reverse_perm
  exact ⟨hperm, (hunknown.1 hopen).2, (horder _ hperm).trans hopen⟩

/-! ### The laws of affirmed answers -/

theorem judge_self (h : Hierarchy) (a : String) : h.judge a a = .yes :=
  judge_eq_yes.2 (Or.inl rfl)

theorem judge_top (h : Hierarchy) (a : String) : h.judge a h.top = .yes :=
  judge_eq_yes.2 (Or.inr (Or.inl rfl))

theorem judge_trans {c : String} (hab : h.judge a b = .yes) (hbc : h.judge b c = .yes) :
    h.judge a c = .yes := by
  rw [← fits_subtyping] at hab hbc ⊢
  exact h.transitive_subtyping hab hbc

theorem eq_top_of_judge_top (hb : h.judge h.top b = .yes) : b = h.top := by
  rcases judge_eq_yes.1 hb with hb | hb | ⟨htop, _⟩
  · exact hb.symm
  · exact hb
  · exact absurd rfl htop

/-- Without cycles of declarations no two names are below one another. -/
theorem judge_antisymm (acyclic : ∀ x, ¬TransGen h.Step x x) (hab : h.judge a b = .yes)
    (hba : h.judge b a = .yes) : a = b := by
  rcases judge_eq_yes.1 hab with rfl | rfl | ⟨hatop, _, _, hpath⟩
  · rfl
  · exact eq_top_of_judge_top hba
  · rcases judge_eq_yes.1 hba with rfl | rfl | ⟨_, _, _, hback⟩
    · rfl
    · exact absurd rfl hatop
    · exact absurd (hpath.trans hback) (acyclic a)

/-- Of two declared names that a chain leads between, one is below the other. -/
theorem judge_of_reaches (ha : h.isDeclared a = true) (hb : h.isDeclared b = true)
    (hab : ReflTransGen h.Step a b) : h.judge a b = .yes ∨ h.judge b a = .yes := by
  by_cases htop : a = h.top
  · -- No chain counts that starts at the top, but everything is below it.
    rw [htop]
    exact Or.inr (h.judge_top b)
  · rcases Relation.reflTransGen_iff_eq_or_transGen.1 hab with rfl | hpath
    · exact Or.inl (h.judge_self b)
    · exact Or.inl (judge_eq_yes.2 (Or.inr (Or.inr ⟨htop, ha, hb, hpath⟩)))

/-- Where every name has one direct supertype at most, the names above one name form a chain. -/
theorem judge_comparable (single : ∀ x y z, h.Step x y → h.Step x z → y = z) {c : String}
    (hab : h.judge a b = .yes) (hac : h.judge a c = .yes) :
    h.judge b c = .yes ∨ h.judge c b = .yes := by
  rcases judge_eq_yes.1 hab with rfl | rfl | ⟨_, _, hb, hpath⟩
  · exact Or.inl hac
  · exact Or.inr (h.judge_top c)
  · rcases judge_eq_yes.1 hac with rfl | rfl | ⟨_, _, hc, hpath'⟩
    · exact Or.inr hab
    · exact Or.inl (h.judge_top b)
    · rcases ReflTransGen.total_of_right_unique single hpath.to_reflTransGen
        hpath'.to_reflTransGen with hbc | hcb
      · exact judge_of_reaches hb hc hbc
      · exact (judge_of_reaches hc hb hcb).symm

/-! ### Answers that stay -/

/-- Declarations of new names lead nowhere new from a name all of whose chains were settled. -/
theorem transGen_of_fresh (fresh : ∀ e ∈ table, ¬h.isDeclared e.1 = true)
    (ha : h.isDeclared a = true) (hall : ∀ x, TransGen h.Step a x → h.isDeclared x = true)
    (hab : TransGen (h.declareAll table).Step a b) : TransGen h.Step a b := by
  have hold : ∀ {x y}, h.isDeclared x = true → (h.declareAll table).Step x y → h.Step x y := by
    rintro x y hx hstep
    rcases step_declareAll.1 hstep with hstep | ⟨e, he, rfl, _⟩
    · exact hstep
    · exact absurd hx (fresh e he)
  -- The chain never leaves the names that were declared before, and those have no new steps.
  induction hab with
  | single hstep => exact .single (hold ha hstep)
  | tail _ hstep ih => exact ih.tail (hold (hall _ ih) hstep)

/-- Declarations of new names take no denied subtype back. -/
theorem judge_no_declareAll (fresh : ∀ e ∈ table, ¬h.isDeclared e.1 = true)
    (hno : h.judge a b = .no) : (h.declareAll table).judge a b = .no := by
  obtain ⟨hyes, hsettled⟩ := judge_eq_no.1 hno
  refine judge_eq_no.2 ⟨fun hyes' => hyes ?_, ?_⟩
  · rw [judge_eq_yes, top_declareAll] at hyes'
    rcases hyes' with hab | hb | ⟨htop, _, _, hpath⟩
    · exact judge_eq_yes.2 (Or.inl hab)
    · exact judge_eq_yes.2 (Or.inr (Or.inl hb))
    · obtain ⟨ha, hb, hall⟩ := hsettled.resolve_left htop
      exact judge_eq_yes.2 (Or.inr (Or.inr ⟨htop, ha, hb, transGen_of_fresh fresh ha hall hpath⟩))
  · rw [top_declareAll]
    refine hsettled.imp_right ?_
    rintro ⟨ha, hb, hall⟩
    refine ⟨isDeclared_declareAll.2 (Or.inl ha), isDeclared_declareAll.2 (Or.inl hb), ?_⟩
    intro x hx
    exact isDeclared_declareAll.2 (Or.inl (hall x (transGen_of_fresh fresh ha hall hx)))

/-- Affirmed subtypes are a preorder with the top above all names and below no other one, a partial
    order where the declarations have no cycle, and one in which the names above any name form a
    chain where each name also has one direct supertype at most. No later declaration takes an
    affirmed subtype back, and none of a new name takes a denied one back. -/
theorem judge_lawful (h : Hierarchy) :
    (∀ a, h.judge a a = .yes) ∧
    (∀ a b c, h.judge a b = .yes → h.judge b c = .yes → h.judge a c = .yes) ∧
    (∀ a, h.judge a h.top = .yes) ∧
    (∀ b, h.judge h.top b = .yes → b = h.top) ∧
    ((∀ a, ¬TransGen h.Step a a) →
      (∀ a b, h.judge a b = .yes → h.judge b a = .yes → a = b) ∧
      ((∀ a b c, h.Step a b → h.Step a c → b = c) → ∀ a b c, h.judge a b = .yes →
        h.judge a c = .yes → h.judge b c = .yes ∨ h.judge c b = .yes)) ∧
    ∀ table,
      (∀ a b, h.judge a b = .yes → (h.declareAll table).judge a b = .yes) ∧
      ((∀ e ∈ table, ¬h.isDeclared e.1 = true) →
        ∀ a b, h.judge a b = .no → (h.declareAll table).judge a b = .no) := by
  refine ⟨h.judge_self, fun _ _ _ => judge_trans, h.judge_top, fun _ => eq_top_of_judge_top,
    fun acyclic => ⟨fun _ _ => judge_antisymm acyclic, ?_⟩, fun table => ⟨?_, ?_⟩⟩
  · intro single a b c hab hac
    exact judge_comparable single hab hac
  · intro a b hab
    exact judge_declareAll table hab
  · intro fresh a b hno
    exact judge_no_declareAll fresh hno

/-- Two of the types above a third are comparable, and a new type below two others leaves them
    apart. -/
theorem judge_lawful_chain :
    let h := ofTable "Any" [("Puppy", ["Dog"]), ("Dog", ["Animal"]), ("Int", []), ("Animal", [])]
    (∀ a, ¬TransGen h.Step a a) ∧ (∀ a b c, h.Step a b → h.Step a c → b = c) ∧
      (h.judge "Dog" "Animal" = .yes ∨ h.judge "Animal" "Dog" = .yes) ∧
      ¬h.isDeclared "Chip" = true ∧
      (h.declareAll [("Chip", ["Dog", "Int"])]).judge "Dog" "Int" = .no := by
  intro h
  have hstep : ∀ {a b}, h.Step a b → a = "Puppy" ∧ b = "Dog" ∨ a = "Dog" ∧ b = "Animal" := by
    intro a b hab
    rw [step_ofTable] at hab
    simpa [Declares, eq_comm] using hab
  have hpath : ∀ {a b}, TransGen h.Step a b →
      a = "Puppy" ∧ b = "Dog" ∨ b = "Animal" ∧ a ≠ "Animal" := by
    intro a b hab
    induction hab with
    | single hab => rcases hstep hab with ⟨rfl, rfl⟩ | ⟨rfl, rfl⟩ <;> simp
    | tail _ hab ih => rcases hstep hab with ⟨rfl, rfl⟩ | ⟨rfl, rfl⟩ <;> simp_all
  have acyclic : ∀ a, ¬TransGen h.Step a a := by
    intro a ha
    rcases hpath ha with ⟨rfl, ha⟩ | ⟨ha, hne⟩
    · simp at ha
    · exact hne ha
  have single : ∀ a b c, h.Step a b → h.Step a c → b = c := by
    intro a b c hab hac
    rcases hstep hab with ⟨rfl, rfl⟩ | ⟨rfl, rfl⟩
    · simpa [eq_comm] using hstep hac
    · simpa [eq_comm] using hstep hac
  obtain ⟨_, _, _, _, hchain, hlater⟩ := judge_lawful h
  have fresh : ¬h.isDeclared "Chip" = true := by decide
  refine ⟨acyclic, single, ?_, fresh, ?_⟩
  · exact (hchain acyclic).2 single "Puppy" "Dog" "Animal" (by decide) (by decide)
  · exact (hlater _).2 (by simpa using fresh) "Dog" "Int" (by decide)

end Hierarchy

end MultipleDispatch
