import MultipleDispatch.Error
import MultipleDispatch.Event.Basic

/-!
Computations that report events. A `Traced` value is a result together with the events that came up
on the way to it, in order; an `Attempt` may also fail, and then keeps what was reported before.
-/

namespace MultipleDispatch

/-- A result and the events reported on the way to it. -/
structure Traced (T α : Type) where
  value : α
  events : List (Event T)

namespace Traced

variable {T α β : Type}

/-- Reports one event. -/
def report (event : Event T) : Traced T Unit := ⟨(), [event]⟩

/-- Reports an event if there is one. -/
def report? (event : Option (Event T)) : Traced T Unit := ⟨(), event.toList⟩

instance : Monad (Traced T) where
  pure a := ⟨a, []⟩
  bind x f :=
    let y := f x.value
    ⟨y.value, x.events ++ y.events⟩

@[simp] theorem value_pure (a : α) : (pure a : Traced T α).value = a := rfl

@[simp] theorem events_pure (a : α) : (pure a : Traced T α).events = [] := rfl

@[simp] theorem value_bind (x : Traced T α) (f : α → Traced T β) :
    (x >>= f).value = (f x.value).value := rfl

@[simp] theorem events_bind (x : Traced T α) (f : α → Traced T β) :
    (x >>= f).events = x.events ++ (f x.value).events := rfl

@[simp] theorem value_map (f : α → β) (x : Traced T α) : (f <$> x).value = f x.value := rfl

@[simp] theorem events_map (f : α → β) (x : Traced T α) : (f <$> x).events = x.events :=
  List.append_nil _

instance : LawfulMonad (Traced T) :=
  LawfulMonad.mk' (Traced T)
    (fun x => congrArg (Traced.mk x.value) (List.append_nil x.events))
    (fun _ _ => rfl)
    (fun _ _ _ => congrArg (Traced.mk _) (List.append_assoc _ _ _))

/-- Runs `f` on every element in turn. -/
def each (f : α → Traced T β) : List α → Traced T (List β)
  | [] => pure []
  | a :: as => do
    let b ← f a
    let bs ← each f as
    pure (b :: bs)

@[simp] theorem value_each (f : α → Traced T β) (as : List α) :
    (each f as).value = as.map fun a => (f a).value := by
  induction as with
  | nil => rfl
  | cons a as ih => simp [each, ih]

@[simp] theorem events_each (f : α → Traced T β) (as : List α) :
    (each f as).events = as.flatMap fun a => (f a).events := by
  induction as with
  | nil => rfl
  | cons a as ih => simp [each, ih]

end Traced

/-- An attempt that reports events and may fail; what was reported before a failure stays. -/
abbrev Attempt (T α : Type) := ExceptT Error (Traced T) α

end MultipleDispatch
