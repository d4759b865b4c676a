import MultipleDispatch.Code.Program

/-!
Runs of a program. `step` is what one instruction does, a `Run` is a sequence of steps up to an
`Ending`, and `runFrom` gives what such a run has called, unless it is cut off before. Where every
jump goes forward, to a place that marks its label, the places that a run comes to only ever increase,
so every run comes to an end, and none is left at a label without a place.
-/

namespace MultipleDispatch

variable {T : Type}

/-- How a run comes to an end. -/
inductive Ending (T : Type) where
  /-- At a return. -/
  | returned (called : Option (Candidate T))
  /-- Behind the last instruction. -/
  | finished
  /-- At a jump to a label that has no place. -/
  | unmarked (label : Nat)

/-- The candidate called by a run that ends so. -/
def Ending.called? : Ending T → Option (Candidate T)
  | returned called => called
  | finished => none
  | unmarked _ => none

/-- The label that an instruction may jump to. -/
def Instruction.target? : Instruction T → Option Nat
  | test _ _ onFail => some onFail
  | jump target => some target
  | _ => none

namespace Program

variable {p : Program T}

/-- Goes to the place of a label. -/
def goto (p : Program T) (id : Nat) (called : Option (Candidate T)) :
    (Nat × Option (Candidate T)) ⊕ Ending T :=
  match p.position? id with
  | some pc => .inl (pc, called)
  | none => .inr (.unmarked id)

/-- Every jump goes forward, to a place that marks its label. -/
def JumpsForward (p : Program T) : Prop :=
  ∀ ⦃pc : Nat⦄ ⦃i : Instruction T⦄ ⦃id : Nat⦄, p.instructions[pc]? = some i →
    i.target? = some id → ∃ pos, p.position? id = some pos ∧ pc < pos

/-- A run from `pc` on is orderly: it comes to ever later places, does not end at a label without a
    place, and visits no more places than there are instructions if it calls a candidate. -/
structure Orderly (p : Program T) (pc : Nat) (visited : List Nat) (ending : Ending T) : Prop where
  increasing : visited.Pairwise (· < ·)
  behind : ∀ v ∈ visited, pc ≤ v
  marked : ∀ id, ending ≠ .unmarked id
  bounded : visited.length ≤ p.instructions.length - pc ∨ ending.called? = none

theorem Orderly.cons {pc pc' : Nat} {visited : List Nat} {ending : Ending T}
    (h : p.Orderly pc' visited ending) (hpc : pc < p.instructions.length) (hlt : pc < pc') :
    p.Orderly pc (pc :: visited) ending where
  increasing := by
    rw [List.pairwise_cons]
    refine ⟨fun v hv => ?_, h.increasing⟩
    have := h.behind v hv
    omega
  behind := by
    intro v hv
    rcases List.mem_cons.1 hv with rfl | hv
    · exact Nat.le_refl v
    · have := h.behind v hv
      omega
  marked := h.marked
  bounded := by
    refine h.bounded.imp_left fun hlen => ?_
    rw [List.length_cons]
    omega

variable [BEq T]

/-! ### Steps and runs -/

/-- What the instruction at `pc` does: it leads to another place, or the run ends. -/
def step (s : Subtyping T) (p : Program T) (args : List T) (pc : Nat)
    (called : Option (Candidate T)) : (Nat × Option (Candidate T)) ⊕ Ending T :=
  match p.instructions[pc]? with
  | none => .inr .finished
  | some (.test arg type onFail) =>
    if (args[arg]?).any fun actual => s.fits actual type then .inl (pc + 1, called)
    else p.goto onFail called
  | some (.call candidate) => .inl (pc + 1, some candidate)
  | some .ret => .inr (.returned called)
  | some (.jump id) => p.goto id called
  | some (.label _) => .inl (pc + 1, called)
  | some (.downcast _ _) => .inl (pc + 1, called)

/-- A run from `pc` on that comes to the places `visited`, in this order, and then ends. -/
inductive Run (s : Subtyping T) (p : Program T) (args : List T) :
    Nat → Option (Candidate T) → List Nat → Ending T → Prop where
  | last {pc : Nat} {called : Option (Candidate T)} {ending : Ending T}
      (h : p.step s args pc called = .inr ending) : Run s p args pc called [pc] ending
  | next {pc pc' : Nat} {called called' : Option (Candidate T)} {visited : List Nat}
      {ending : Ending T} (h : p.step s args pc called = .inl (pc', called'))
      (rest : Run s p args pc' called' visited ending) :
      Run s p args pc called (pc :: visited) ending

variable {s : Subtyping T} {args : List T}

/-- Executing at most `n + 1` instructions is one step and at most `n` more. -/
theorem runFrom_succ (s : Subtyping T) (p : Program T) (args : List T) (n pc : Nat)
    (called : Option (Candidate T)) : p.runFrom s args (n + 1) pc called =
      match p.step s args pc called with
      | .inl (pc', called') => p.runFrom s args n pc' called'
      | .inr ending => ending.called? := by
  have hgoto : ∀ id, ((p.position? id).bind fun target => p.runFrom s args n target called) =
      match p.goto id called with
      | .inl (pc', called') => p.runFrom s args n pc' called'
      | .inr ending => ending.called? := by
    intro id
    rw [goto]
    cases p.position? id with
    | none => rfl
    | some pc' => rfl
  rw [runFrom, step]
  cases p.instructions[pc]? with
  | none => rfl
  | some i =>
    cases i with
    | test arg type onFail =>
      simp only
      split
      · rfl
      · exact hgoto onFail
    | jump id => exact hgoto id
    | label id => rfl
    | downcast arg type => rfl
    | call candidate => rfl
    | ret => rfl

/-- A limit on the number of steps makes no difference to a run that stays within it, nor to one
    that calls nothing. -/
theorem Run.runFrom_eq {pc : Nat} {called : Option (Candidate T)} {visited : List Nat}
    {ending : Ending T} (h : Run s p args pc called visited ending) :
    ∀ n, visited.length ≤ n ∨ ending.called? = none →
      p.runFrom s args n pc called = ending.called? := by
  induction h with
  | last h =>
    intro n hn
    cases n with
    | zero => rw [hn.resolve_left (by simp), runFrom]
    | succ n => rw [runFrom_succ, h]
  | next h rest ih =>
    intro n hn
    cases n with
    | zero => rw [hn.resolve_left (by simp), runFrom]
    | succ n =>
      rw [runFrom_succ, h]
      refine ih n (hn.imp_left fun hlen => ?_)
      rw [List.length_cons] at hlen
      omega

/-- All that a step can do: go on to the next place, jump, return, or end behind the last place. -/
theorem step_cases (s : Subtyping T) (p : Program T) (args : List T) (pc : Nat)
    (called : Option (Candidate T)) :
    (pc < p.instructions.length ∧ ∃ called', p.step s args pc called = .inl (pc + 1, called')) ∨
    (∃ i id, p.instructions[pc]? = some i ∧ i.target? = some id ∧
      p.step s args pc called = p.goto id called) ∨
    (pc < p.instructions.length ∧ p.step s args pc called = .inr (.returned called)) ∨
    p.step s args pc called = .inr .finished := by
  rw [step]
  cases hi : p.instructions[pc]? with
  | none => exact Or.inr (Or.inr (Or.inr rfl))
  | some i =>
    have hlt : pc < p.instructions.length := (List.getElem?_eq_some_iff.1 hi).1
    cases i with
    | test arg type onFail =>
      simp only
      split
      · exact Or.inl ⟨hlt, called, rfl⟩
      · exact Or.inr (Or.inl ⟨_, onFail, rfl, rfl, rfl⟩)
    | jump id => exact Or.inr (Or.inl ⟨_, id, rfl, rfl, rfl⟩)
    | label id => exact Or.inl ⟨hlt, called, rfl⟩
    | downcast arg type => exact Or.inl ⟨hlt, called, rfl⟩
    | call candidate => exact Or.inl ⟨hlt, some candidate, rfl⟩
    | ret => exact Or.inr (Or.inr (Or.inl ⟨hlt, rfl⟩))

/-- Where all jumps go forward, every run ends: each step shortens the way to the end of the
    program. -/
theorem JumpsForward.exists_run (hf : p.JumpsForward) (s : Subtyping T) (args : List T) (pc : Nat)
    (called : Option (Candidate T)) : ∃ visited ending,
      Run s p args pc called visited ending ∧ p.Orderly pc visited ending := by
  induction hn : p.instructions.length - pc using Nat.strongRecOn generalizing pc called with
  | ind n ih =>
    rcases step_cases s p args pc called with ⟨hpc, called', hstep⟩ | ⟨i, id, hi, hid, hstep⟩ |
      ⟨hpc, hstep⟩ | hstep
    · obtain ⟨visited, ending, hrun, horderly⟩ := ih _ (by omega) (pc + 1) called' rfl
      exact ⟨_, ending, .next hstep hrun, horderly.cons hpc (by omega)⟩
    · obtain ⟨pos, hpos, hlt⟩ := hf hi hid
      have hpc : pc < p.instructions.length := (List.getElem?_eq_some_iff.1 hi).1
      rw [goto, hpos] at hstep
      obtain ⟨visited, ending, hrun, horderly⟩ := ih _ (by omega) pos called rfl
      exact ⟨_, ending, .next hstep hrun, horderly.cons hpc hlt⟩
    · refine ⟨_, _, .last hstep, by simp, by simp, by simp, Or.inl ?_⟩
      rw [List.length_singleton]
      omega
    · exact ⟨_, _, .last hstep, by simp, by simp, by simp, Or.inr rfl⟩

end Program

end MultipleDispatch
