/-!
Subtype judgements. A `Subtyping` answers, for any two types, whether the first is a subtype of the
second, and names a type above all others. Nothing more is asked of it: the judgement may be cyclic,
intransitive or undecided, and the equality of types is whatever `==` says. `fits` is the relation
that dispatch works with.
-/

namespace MultipleDispatch

/-- The answer to "is this type a subtype of that one?". -/
inductive Verdict where
  | yes
  | no
  | unknown
  deriving DecidableEq

/-- What is known of the types of a program. -/
structure Subtyping (T : Type) where
  /-- `judge a b` says whether `a` is a subtype of `b`. -/
  judge : T → T → Verdict
  /-- The type that stands for "anything". -/
  top : T

namespace Subtyping

variable {T : Type}

/-- The judgement affirms that `a` is a subtype of `b`. -/
def below (s : Subtyping T) (a b : T) : Bool := s.judge a b = .yes

/-- An argument of type `a` is accepted where `b` is declared. -/
def fits [BEq T] (s : Subtyping T) (a b : T) : Bool := a == b || s.below a b

/-- The first of `types` that all of them fit, and the top type if there is none. -/
def cover [BEq T] (s : Subtyping T) (types : List T) : T :=
  (types.find? fun upper => types.all fun t => s.fits t upper).getD s.top

end Subtyping

end MultipleDispatch
