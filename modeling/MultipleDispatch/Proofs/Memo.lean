import MultipleDispatch.Proofs.Refusal
import MultipleDispatch.Settings.Basic
import MultipleDispatch.Tree.Memo

/-!
Requests to a group that is prepared once. Of the cells that results are kept in, no more is asked
than `OnceCells.Lawful` says. Whether a group can be prepared depends on its candidates alone, not on
how types are judged nor on the settings. So the first request decides: either it is answered with a
tree, and then so are all later ones, whatever they ask for, or every request is refused for the same
reason and nothing is ever kept.
-/

namespace MultipleDispatch

variable {Cell : Type → Type}

/-! ### Cells -/

/-- What is relied on of cells that are written at most once. -/
structure OnceCells.Lawful (cells : OnceCells Cell) : Prop where
  /-- A new cell is empty. -/
  new {α : Type} : cells.get? (cells.new : Cell α) = none
  /-- A cell is given up for the value that it holds. -/
  given_up {α : Type} (cell : Cell α) : cells.intoInner? cell = cells.get? cell
  /-- What a cell holds is given, no other value is made, and the cell still holds it. -/
  filled {m : Type → Type} [Monad m] {ε α : Type} {cell : Cell α} {a : α}
    (holds : cells.get? cell = some a) (make : m (Except ε α)) :
    ∃ after, cells.getOrTryInit cell make = pure (.ok a, after) ∧ cells.get? after = some a
  /-- For an empty cell a value is made and given. The cell holds it, unless making it failed: then
      the cell is empty still. -/
  empty {m : Type → Type} [Monad m] {ε α : Type} {cell : Cell α}
    (holds : cells.get? cell = none) (make : m (Except ε α)) :
    ∃ after : Except ε α → Cell α,
      cells.getOrTryInit cell make = (fun made => (made, after made)) <$> make ∧
        ∀ made, cells.get? (after made) = made.toOption

theorem OnceCells.lawful_option : OnceCells.option.Lawful where
  new := rfl
  given_up _ := rfl
  filled {_ _ _ _ cell a} holds make := by
    obtain rfl : cell = some a := holds
    exact ⟨some a, rfl, rfl⟩
  empty {_ _ _ _ cell} holds make := by
    obtain rfl : cell = none := holds
    exact ⟨Except.toOption, rfl, fun _ => rfl⟩

/-! ### One request -/

variable {T : Type}

/-- A request to prepare a group: how types are judged, and how to compile. -/
structure Request (T : Type) where
  subtyping : Subtyping T
  settings : Settings

/-- A memo of the group `g` has kept `kept`, however it is asked. -/
structure Memo.Shows (cells : OnceCells Cell) (g : Group T) (kept : Option (Dispatch T))
    (m : Memo Cell T) : Prop where
  group : m.group = g
  isPrepared : m.isPrepared cells = kept.isSome
  dispatch? : m.dispatch? cells = kept
  intoDispatch? : m.intoDispatch? cells = kept

variable {cells : OnceCells Cell} {g : Group T}

theorem OnceCells.Lawful.shows (lawful : cells.Lawful) (g : Group T) (cell : Cell (Dispatch T)) :
    (⟨g, cell⟩ : Memo Cell T).Shows cells g (cells.get? cell) :=
  ⟨rfl, rfl, rfl, lawful.given_up cell⟩

variable [BEq T] [ToString T]

/-- What is kept answers a request, and nothing is reported. -/
theorem Memo.Shows.prepare_some (lawful : cells.Lawful) {m : Memo Cell T} {d : Dispatch T}
    (h : m.Shows cells g (some d)) (s : Subtyping T) (policy : Policy) :
    ∃ after : Memo Cell T, m.prepare cells s policy = pure (.ok d, after) ∧
      after.Shows cells g (some d) := by
  obtain ⟨cell, hgives, hholds⟩ := lawful.filled h.dispatch?
    (Dispatch.mk m.group <$> m.group.prepare s policy).run
  obtain rfl := h.group
  refine ⟨⟨m.group, cell⟩, ?_, ?_⟩
  · rw [Memo.prepare, hgives, pure_bind]
  · rw [← hholds]
    exact lawful.shows m.group cell

/-- As long as nothing is kept, a request is answered by preparing the group, and what comes of that
    is kept. -/
theorem Memo.Shows.prepare_none (lawful : cells.Lawful) {m : Memo Cell T}
    (h : m.Shows cells g none) (s : Subtyping T) (policy : Policy) :
    ∃ after : Except Error (Dispatch T) → Memo Cell T, m.prepare cells s policy =
        (fun made => (made, after made)) <$> (Dispatch.mk g <$> g.prepare s policy).run ∧
      ∀ made, (after made).Shows cells g made.toOption := by
  obtain ⟨cell, hgives, hholds⟩ := lawful.empty h.dispatch?
    (Dispatch.mk m.group <$> m.group.prepare s policy).run
  obtain rfl := h.group
  refine ⟨fun made => ⟨m.group, cell made⟩, ?_, fun made => ?_⟩
  · rw [Memo.prepare, hgives, bind_map_left]
    exact (map_eq_pure_bind _ _).symm
  · rw [← hholds made]
    exact lawful.shows m.group (cell made)

/-- A refused group is refused before anything is reported. -/
theorem Group.run_prepare_of_refused {e : Error} (h : g.Refused e) (s : Subtyping T)
    (policy : Policy) : (g.prepare s policy).run = pure (.error e) := by
  rw [prepare, rejectVariadic_eq_error.2 h]
  rfl

/-! ### Many requests -/

namespace Memo

/-- The answers to requests made one after the other, each with the memo after it. -/
def answers (cells : OnceCells Cell) (m : Memo Cell T) :
    List (Request T) → Traced T (List (Except Error (Dispatch T) × Memo Cell T))
  | [] => pure []
  | r :: rs => do
    let a ← m.prepare cells r.subtyping r.settings.policy
    let rest ← a.2.answers cells rs
    pure (a :: rest)

/-- Each of the requests `rs` is answered with `answer`, and a memo that has kept as much follows. -/
structure AllAnswered (cells : OnceCells Cell) (g : Group T) (answer : Except Error (Dispatch T))
    (rs : List (Request T)) (as : List (Except Error (Dispatch T) × Memo Cell T)) : Prop where
  length : as.length = rs.length
  same : ∀ a ∈ as, a.1 = answer ∧ a.2.Shows cells g answer.toOption

/-- If a memo that has kept as much as `answer` says answers every request so and nothing is
    reported, that goes on for any number of requests. -/
theorem answers_of_step (answer : Except Error (Dispatch T))
    (step : ∀ (m : Memo Cell T) (r : Request T), m.Shows cells g answer.toOption →
      ∃ after, m.prepare cells r.subtyping r.settings.policy = pure (answer, after) ∧
        after.Shows cells g answer.toOption) (rs : List (Request T)) :
    ∀ m : Memo Cell T, m.Shows cells g answer.toOption →
      (m.answers cells rs).events = [] ∧
        AllAnswered cells g answer rs (m.answers cells rs).value := by
  induction rs with
  | nil => exact fun m _ => ⟨rfl, rfl, by simp [answers]⟩
  | cons r rs ih =>
    intro m hm
    obtain ⟨after, hstep, hafter⟩ := step m r hm
    obtain ⟨hevents, hlength, hsame⟩ := ih after hafter
    rw [answers, hstep]
    refine ⟨by simp [hevents], by simp [hlength], ?_⟩
    exact List.forall_mem_cons.2 ⟨⟨rfl, hafter⟩, hsame⟩

/-- A group that is refused is refused again and again. -/
theorem answers_refused (lawful : cells.Lawful) {e : Error} (h : g.Refused e)
    (rs : List (Request T)) {m : Memo Cell T} (hm : m.Shows cells g none) :
    (m.answers cells rs).events = [] ∧
      AllAnswered cells g (.error e) rs (m.answers cells rs).value := by
  refine answers_of_step (.error e) (fun m r hm => ?_) rs m hm
  obtain ⟨after, hanswer, hafter⟩ := hm.prepare_none lawful r.subtyping r.settings.policy
  refine ⟨after (.error e), ?_, hafter (.error e)⟩
  rw [hanswer, ExceptT.run_map, Group.run_prepare_of_refused h]
  rfl

/-- The first request decides where the group can be prepared. -/
theorem answers_prepared (lawful : cells.Lawful) {first : Request T} {t : Tree g}
    (h : (g.prepare first.subtyping first.settings.policy).run.value = .ok t)
    (later : List (Request T)) {m : Memo Cell T} (hm : m.Shows cells g none) :
    (m.answers cells (first :: later)).events =
        (g.prepare first.subtyping first.settings.policy).run.events ∧
      AllAnswered cells g (.ok ⟨g, t⟩) (first :: later)
        (m.answers cells (first :: later)).value := by
  obtain ⟨after, hfirst, hafter⟩ := hm.prepare_none lawful first.subtyping first.settings.policy
  obtain ⟨hevents, hlength, hsame⟩ := answers_of_step (.ok ⟨g, t⟩)
    (fun m r hm => hm.prepare_some lawful r.subtyping r.settings.policy) later _
    (hafter (.ok ⟨g, t⟩))
  have hmade : (g.prepare first.subtyping first.settings.policy).run.value.map (Dispatch.mk g) =
      .ok ⟨g, t⟩ := by
    rw [h]
    rfl
  rw [answers, hfirst, ExceptT.run_map]
  simp only [Traced.value_bind, Traced.events_bind, Traced.value_map, Traced.events_map,
    Traced.value_pure, Traced.events_pure, hmade, hevents, List.append_nil]
  refine ⟨trivial, ?_, List.forall_mem_cons.2 ⟨⟨rfl, hafter _⟩, hsame⟩⟩
  rw [List.length_cons, hlength, List.length_cons]

/-- Nothing is kept before the first request. Then all requests are answered with the tree that the
    first one asks for, which is kept from then on, or all are refused for the same reason. Either
    way nothing is reported but what the first preparation reports. -/
theorem prepared_once (lawful : cells.Lawful) (g : Group T) (first : Request T)
    (later : List (Request T)) :
    (fresh cells g).Shows cells g none ∧ ∃ answer : Except Error (Dispatch T),
      ((∃ t, (g.prepare first.subtyping first.settings.policy).run.value = .ok t ∧
          answer = .ok ⟨g, t⟩) ∨ ∃ e, g.Refused e ∧ answer = .error e) ∧
      ((fresh cells g).answers cells (first :: later)).events =
        (g.prepare first.subtyping first.settings.policy).run.events ∧
      AllAnswered cells g answer (first :: later)
        ((fresh cells g).answers cells (first :: later)).value := by
  have hfresh : (fresh cells g).Shows cells g none := by
    rw [← lawful.new]
    exact lawful.shows g cells.new
  refine ⟨hfresh, ?_⟩
  cases hprep : (g.prepare first.subtyping first.settings.policy).run.value with
  | ok t => exact ⟨_, Or.inl ⟨t, rfl, rfl⟩, answers_prepared lawful hprep later hfresh⟩
  | error e =>
    have he := Group.prepare_eq_error.1 hprep
    rw [Group.run_prepare_of_refused he]
    exact ⟨_, Or.inr ⟨e, he, rfl⟩, answers_refused lawful he (first :: later) hfresh⟩

/-- Two requests, the second of which would get another tree if it came first. -/
theorem prepared_once_circle :
    let g : Group (Fin 3) := .ofPairs (0, 1) [(1, 2), (2, 0)]
    let first : Request (Fin 3) := ⟨.circle, ⟨.smallestLargestBucket, false⟩⟩
    let second : Request (Fin 3) := ⟨.ladder, ⟨.greatestVariation, true⟩⟩
    OnceCells.option.Lawful ∧
    ∃ t u, (g.prepare first.subtyping first.settings.policy).run.value = .ok t ∧ t.size = 8 ∧
      (g.prepare second.subtyping second.settings.policy).run.value = .ok u ∧ u.size = 9 ∧
      AllAnswered .option g (.ok ⟨g, t⟩) [first, second]
        ((fresh .option g).answers .option [first, second]).value := by
  intro g first second
  have hfree := Group.variadicFree_ofPairs (0, 1) [(1, 2), (2, (0 : Fin 3))]
  have hfirst := Group.value_prepare (s := .circle) .smallestLargestBucket hfree
  have hsecond := Group.value_prepare (s := .ladder) .greatestVariation hfree
  refine ⟨OnceCells.lawful_option, _, _, hfirst, by decide, hsecond, by decide, ?_⟩
  obtain ⟨_, answer, hanswer, _, hall⟩ :=
    prepared_once OnceCells.lawful_option g first [second]
  rcases hanswer with ⟨t, ht, rfl⟩ | ⟨e, he, rfl⟩
  · rw [hfirst] at ht
    cases ht
    exact hall
  · exact absurd hfree (Group.exists_refused_iff.1 ⟨e, he⟩)

end Memo

end MultipleDispatch
